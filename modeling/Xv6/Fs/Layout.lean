import Mathlib.Data.Nat.Bitwise
import Xv6.Fs.Block

/-! # The layout of the disk

    The super block, the structure of an inode block and the bits of a bitmap block (`fs.h`). The
    code casts the `data` of a buffer to arrays of `struct dinode` and of words, and does bit
    arithmetic on its bytes.
-/

namespace Xv6.Fs

open ByteMem Function

/-! ## The super block -/

/-- `struct superblock`. -/
structure Superblock where
  size       : Nat
  nblocks    : Nat
  ninodes    : Nat
  nlog       : Nat
  logstart   : Nat
  inodestart : Nat
  bmapstart  : Nat
  deriving DecidableEq, Repr

/-- `sizeof(struct dinode)`. -/
abbrev DINODE : Nat := 64

/-- The inode of the root directory. -/
abbrev ROOTINO : Nat := 1

/-- Inodes per block. -/
abbrev IPB : Nat := BSIZE / DINODE

/-- Bitmap bits per block. -/
abbrev BPB : Nat := BSIZE * 8

namespace Superblock

/-- Block containing inode `i`. -/
def IBLOCK (sb : Superblock) (i : Nat) : Nat := i / IPB + sb.inodestart

/-- Block of the free map containing the bit for block `b`. -/
def BBLOCK (sb : Superblock) (b : Nat) : Nat := b / BPB + sb.bmapstart

/-- The number of blocks before the data blocks, `nmeta` of `mkfs`. -/
def nmeta (sb : Superblock) : Nat := sb.size - sb.nblocks

/-- The areas come in the order that `fs.h` gives. -/
structure Ok (sb : Superblock) : Prop where
  log_le   : 2 ≤ sb.logstart ∧ sb.logstart + sb.nlog ≤ sb.inodestart
  inode_lt : sb.inodestart + sb.ninodes / IPB < sb.bmapstart
  bmap_lt  : sb.bmapstart + sb.size / BPB < sb.nmeta
  size_lt  : sb.size < 2 ^ 31

variable {sb : Superblock} {i b : Nat}

theorem Ok.iblock_lt (h : sb.Ok) (hi : i < sb.ninodes) : sb.IBLOCK i < sb.bmapstart := by
  have := h.inode_lt
  have : i / IPB ≤ sb.ninodes / IPB := Nat.div_le_div_right (le_of_lt hi)
  unfold IBLOCK
  omega

theorem bmapstart_le (sb : Superblock) (b : Nat) : sb.bmapstart ≤ sb.BBLOCK b :=
  Nat.le_add_left ..

theorem Ok.bblock_lt (h : sb.Ok) (hb : b < sb.size) : sb.BBLOCK b < sb.nmeta := by
  have := h.bmap_lt
  have : b / BPB ≤ sb.size / BPB := Nat.div_le_div_right (le_of_lt hb)
  unfold BBLOCK
  omega

theorem Ok.bmapstart_lt (h : sb.Ok) : sb.bmapstart < sb.nmeta :=
  lt_of_le_of_lt (Nat.le_add_right ..) h.bmap_lt

/-- Block numbers with the same bitmap block and the same bit are equal. -/
theorem bblock_inj {b' : Nat} (h : sb.BBLOCK b = sb.BBLOCK b') (hm : b % BPB = b' % BPB) :
    b = b' := by
  unfold BBLOCK at h
  simp only [BPB, BSIZE] at h hm
  omega

end Superblock

/-- The super block that `mkfs` writes. -/
def mkfs : Superblock where
  size       := FSSIZE
  nblocks    := FSSIZE - 59
  ninodes    := 200
  nlog       := LOGSIZE
  logstart   := 2
  inodestart := 2 + LOGSIZE
  bmapstart  := 2 + LOGSIZE + (200 / IPB + 1)

theorem mkfs_ok : mkfs.Ok := by
  constructor <;> decide

/-! ## Bits of a block -/

/-- `bp->data[bi/8] & (1 << (bi % 8))`. -/
def bit (d : Block) (bi : Nat) : Bool := (d.bytes (bi / 8)).toNat &&& 1 <<< (bi % 8) ≠ 0

/-- `bp->data[bi/8] |= 1 << (bi % 8)`. -/
def setBit (d : Block) (bi : Nat) : Block :=
  .ofBytes (Function.update d.bytes (bi / 8)
    (UInt8.ofNat ((d.bytes (bi / 8)).toNat ||| 1 <<< (bi % 8))))

/-- `bp->data[bi/8] &= ~(1 << (bi % 8))`. -/
def clearBit (d : Block) (bi : Nat) : Block :=
  .ofBytes (Function.update d.bytes (bi / 8)
    (UInt8.ofNat ((d.bytes (bi / 8)).toNat &&& (255 ^^^ 1 <<< (bi % 8)))))

section Bits

variable {d : Block} {bi bj : Nat}

theorem bit_eq (d : Block) (bi : Nat) : bit d bi = (d.bytes (bi / 8)).toNat.testBit (bi % 8) := by
  unfold bit
  rw [Nat.one_shiftLeft, Nat.and_two_pow]
  cases (d.bytes (bi / 8)).toNat.testBit (bi % 8) <;> simp

theorem bit_zero (bi : Nat) : bit (Block.fill 0) bi = false := by
  rw [bit_eq]
  unfold Block.bytes Block.fill
  split <;> simp

theorem bit_update (hj : bj < BPB) (v : Nat) (hv : v < 256) :
    bit (.ofBytes (update d.bytes (bi / 8) (UInt8.ofNat v))) bj =
      if bj / 8 = bi / 8 then v.testBit (bj % 8) else bit d bj := by
  have hlt : bj / 8 < BSIZE := by
    simp only [BPB] at hj
    omega
  rw [bit_eq, Block.bytes_ofBytes hlt]
  by_cases h : bj / 8 = bi / 8
  · rw [if_pos h, h, update_self, UInt8.toNat_ofNat', Nat.mod_eq_of_lt hv]
  · rw [if_neg h, update_of_ne h, bit_eq]

theorem bit_setBit (hj : bj < BPB) : bit (setBit d bi) bj = (bit d bj || bj = bi) := by
  have hx : (d.bytes (bi / 8)).toNat < 256 := UInt8.toNat_lt _
  have hk : bi % 8 < 8 := Nat.mod_lt _ (by decide)
  have hv : (d.bytes (bi / 8)).toNat ||| 1 <<< (bi % 8) < 2 ^ 8 := by
    apply Nat.or_lt_two_pow hx
    rw [Nat.one_shiftLeft]
    exact Nat.pow_lt_pow_right (by decide) hk
  unfold setBit
  rw [bit_update hj _ hv]
  by_cases h : bj / 8 = bi / 8
  · rw [if_pos h, Nat.testBit_or, Nat.one_shiftLeft, Nat.testBit_two_pow, ← h, bit_eq]
    congr 1
    simp only [decide_eq_decide]
    omega
  · have : bj ≠ bi := fun he => h (by rw [he])
    simp [h, this]

end Bits

/-! ## Inodes on disk -/

/-- `struct dinode`; the shorts are kept as 16-bit numbers. -/
@[ext]
structure Dinode where
  type  : Nat
  major : Nat
  minor : Nat
  nlink : Nat
  size  : Nat
  addrs : Fin (NDIRECT + 1) → Nat

/-- The fields fit the structure. -/
structure Dinode.Fits (d : Dinode) : Prop where
  type  : d.type < 2 ^ 16
  major : d.major < 2 ^ 16
  minor : d.minor < 2 ^ 16
  nlink : d.nlink < 2 ^ 16
  size  : d.size < 2 ^ 32
  addrs : ∀ k, d.addrs k < 2 ^ 32

/-- The bytes of an array of words. -/
def wordsOf (w : Nat → Nat) : Mem := fun x => UInt8.ofNat (w (x / 4) / 256 ^ (x % 4))

/-- The inode at address `a` of `m`. -/
def loadDinode (m : Mem) (a : Nat) : Dinode where
  type := load m a 2
  major := load m (a + 2) 2
  minor := load m (a + 4) 2
  nlink := load m (a + 6) 2
  size := load m (a + 8) 4
  addrs k := load m (a + 12 + 4 * k) 4

/-- The assignments of `iupdate` to the inode at address `a`. -/
def storeDinode (m : Mem) (a : Nat) (d : Dinode) : Mem :=
  let m := store m a 2 d.type
  let m := store m (a + 2) 2 d.major
  let m := store m (a + 4) 2 d.minor
  let m := store m (a + 6) 2 d.nlink
  let m := store m (a + 8) 4 d.size
  copy m (a + 12) (wordsOf fun k => if h : k < NDIRECT + 1 then d.addrs ⟨k, h⟩ else 0) 0
    (4 * (NDIRECT + 1))

/-- `(struct dinode*)bp->data + inum%IPB`. -/
def dinodeAt (b : Block) (inum : Nat) : Dinode := loadDinode b.bytes (DINODE * (inum % IPB))

def setDinode (b : Block) (inum : Nat) (d : Dinode) : Block :=
  .ofBytes (storeDinode b.bytes (DINODE * (inum % IPB)) d)

section Dinodes

variable {m m' : Mem} {a : Nat} {d : Dinode} {b : Block}

theorem loadDinode_fits (m : Mem) (a : Nat) : (loadDinode m a).Fits where
  type := load_lt ..
  major := load_lt ..
  minor := load_lt ..
  nlink := load_lt ..
  size := load_lt ..
  addrs _ := load_lt ..

theorem loadDinode_congr (h : ∀ x, a ≤ x → x < a + DINODE → m x = m' x) :
    loadDinode m a = loadDinode m' a := by
  have hl : ∀ o n, o + n ≤ 64 → load m (a + o) n = load m' (a + o) n := by
    intro o n hle
    exact load_congr fun x h1 h2 => h x (by omega) (by simp only [DINODE]; omega)
  ext k
  · exact hl 0 2 (by decide)
  · exact hl 2 2 (by decide)
  · exact hl 4 2 (by decide)
  · exact hl 6 2 (by decide)
  · exact hl 8 4 (by decide)
  · have hk : (k : Nat) < 13 := k.isLt
    have := hl (12 + 4 * k) 4 (by omega)
    rwa [← add_assoc] at this

theorem wordsOf_word (w : Nat → Nat) (k : Nat) : load (wordsOf w) (4 * k) 4 = w k % 2 ^ 32 := by
  have hb : ∀ j, j < 4 → wordsOf w (4 * k + j) = UInt8.ofNat (w k / 256 ^ j) := by
    intro j hj
    unfold wordsOf
    rw [show (4 * k + j) / 4 = k by omega, show (4 * k + j) % 4 = j by omega]
  have h0 := hb 0 (by decide)
  have h1 := hb 1 (by decide)
  have h2 := hb 2 (by decide)
  have h3 := hb 3 (by decide)
  rw [add_zero] at h0
  simp only [load, add_assoc, Nat.reduceAdd]
  rw [h0, h1, h2, h3]
  simp only [UInt8.toNat_ofNat']
  omega

theorem load_copy_self {f : Mem} {dst src n o k : Nat} (h : o + k ≤ n) :
    load (copy m dst f src n) (dst + o) k = load f (src + o) k := by
  induction k generalizing o with
  | zero => rfl
  | succ k ih =>
    have hx : copy m dst f src n (dst + o) = f (src + o) := by
      unfold copy
      rw [if_pos ⟨by omega, by omega⟩]
      congr 1
      omega
    rw [load, load, hx, add_assoc, add_assoc, ih (by omega)]

theorem loadDinode_storeDinode (h : d.Fits) : loadDinode (storeDinode m a d) a = d := by
  have hm : ∀ {v n : Nat}, v < 256 ^ n → v % 256 ^ n = v := Nat.mod_eq_of_lt
  unfold storeDinode loadDinode
  ext k
  · simp (disch := omega) only [load_copy_of_disjoint, load_store_of_disjoint, load_store_self]
    exact hm h.type
  · simp (disch := omega) only [load_copy_of_disjoint, load_store_of_disjoint, load_store_self]
    exact hm h.major
  · simp (disch := omega) only [load_copy_of_disjoint, load_store_of_disjoint, load_store_self]
    exact hm h.minor
  · simp (disch := omega) only [load_copy_of_disjoint, load_store_of_disjoint, load_store_self]
    exact hm h.nlink
  · simp (disch := omega) only [load_copy_of_disjoint, load_store_self]
    exact hm h.size
  · have hk := k.isLt
    dsimp only
    rw [load_copy_self (by simp only [NDIRECT] at hk ⊢; omega), zero_add, wordsOf_word, dif_pos hk]
    exact Nat.mod_eq_of_lt (h.addrs k)

theorem storeDinode_outside {x : Nat} (h : x < a ∨ a + DINODE ≤ x) : storeDinode m a d x = m x := by
  simp only [DINODE] at h
  unfold storeDinode copy
  rw [if_neg (by simp only [NDIRECT]; omega), store_outside (by omega), store_outside (by omega),
    store_outside (by omega), store_outside (by omega), store_outside (by omega)]

theorem dinodeAt_fits (b : Block) (inum : Nat) : (dinodeAt b inum).Fits := loadDinode_fits ..

theorem dinodeAt_setDinode_self (inum : Nat) (h : d.Fits) :
    dinodeAt (setDinode b inum d) inum = d := by
  have hlt : inum % IPB < IPB := Nat.mod_lt _ (by decide)
  unfold dinodeAt setDinode
  have : loadDinode (Block.ofBytes (storeDinode b.bytes (DINODE * (inum % IPB)) d)).bytes
      (DINODE * (inum % IPB)) =
      loadDinode (storeDinode b.bytes (DINODE * (inum % IPB)) d) (DINODE * (inum % IPB)) := by
    refine loadDinode_congr fun x h1 h2 => Block.bytes_ofBytes ?_
    simp only [DINODE, IPB, BSIZE] at *
    omega
  rw [this, loadDinode_storeDinode h]

theorem dinodeAt_setDinode_of_ne {i j : Nat} (h : i % IPB ≠ j % IPB) :
    dinodeAt (setDinode b j d) i = dinodeAt b i := by
  have hlt : i % IPB < IPB := Nat.mod_lt _ (by decide)
  unfold dinodeAt setDinode
  refine loadDinode_congr fun x h1 h2 => ?_
  simp only [DINODE, IPB, BSIZE] at *
  rw [Block.bytes_ofBytes (by simp only [BSIZE]; omega),
    storeDinode_outside (by simp only [DINODE]; omega)]

end Dinodes

end Xv6.Fs
