import Mathlib.Data.Finset.Card
import Xv6.Framework.Script
import Xv6.Fs.Layout

/-! # Blocks and inodes on disk

    The functions of `fs.c` below the inode cache. A buffer that is changed and passed to
    `log_write` is one write to the current contents of the disk; the numbers that are passed are
    kept. An in-memory inode that its caller has locked is an argument and a result.

    The specifications are about the runs without the checks of `log_write`; `run_of_does` puts the
    checks back.
-/

namespace Xv6.Fs

open Program Script ByteMem

/-! ## The disk -/

/-- The contents of the blocks as the buffer cache shows them, and `struct log` with the calls of
    `log_write` since the last commit. -/
structure Disk where
  blocks      : Nat → Block
  logged      : List Nat
  outstanding : Nat
  logsize     : Nat

/-- `log.lh.n`. A block that is in the header already is absorbed. -/
def Disk.n (s : Disk) : Nat := s.logged.toFinset.card

def Disk.write (s : Disk) (b : Nat) (d : Block) : Disk :=
  { s with blocks := Function.update s.blocks b d, logged := s.logged ++ [b] }

/-- `log_write` for the buffer of block `b`, which has got the contents `d`. -/
instance : Guarded Disk (Nat × Block) String where
  next s c := s.write c.1 c.2
  refuses s _ :=
    if s.n ≥ LOGSIZE ∨ s.n ≥ s.logsize - 1 then some "too big a transaction"
    else if s.outstanding < 1 then some "log_write outside of trans"
    else none

abbrev FS := Script Disk (Nat × Block) String

def panic (msg : String) {α : Type} : FS α := .fail msg

def bread (b : Nat) : FS Block := .look fun s => .done (s.blocks b)

def log_write (b : Nat) (d : Block) : FS Unit := .call (b, d) (.done ())

/-- In a transaction, none of these calls of `log_write` is refused: there is room for the last. -/
def Disk.Admits (s : Disk) (calls : List Nat) : Prop :=
  1 ≤ s.outstanding ∧
    (calls = [] ∨ calls.dropLast.toFinset.card < min LOGSIZE (s.logsize - 1))

instance (s : Disk) (calls : List Nat) : Decidable (s.Admits calls) :=
  inferInstanceAs (Decidable (_ ∧ _))

/-- In a transaction, of which nothing was refused so far. -/
abbrev Disk.InTrans (s : Disk) : Prop := s.Admits s.logged

section Checks

variable {α : Type} {p : FS α} {s s' : Disk} {a : α}

theorem Disk.admits_of_card (ho : 1 ≤ s.outstanding) {calls : List Nat}
    (h : calls.toFinset.card < min LOGSIZE (s.logsize - 1)) : s.Admits calls :=
  ⟨ho, .inr (lt_of_le_of_lt (Finset.card_le_card fun x hx => by
    rw [List.mem_toFinset] at *
    exact List.mem_of_mem_dropLast hx) h)⟩

theorem inTrans_write {b : Nat} {d : Block} : (s.write b d).InTrans ↔
    1 ≤ s.outstanding ∧ s.n < min LOGSIZE (s.logsize - 1) := by
  unfold Disk.InTrans Disk.Admits
  simp [Disk.write, Disk.n]

theorem logsize_of_does (h : Does p s a s') : s'.logsize = s.logsize := by
  have := plain_keeps (x := p) (s := s) (g := Disk.logsize) fun _ _ => rfl
  rwa [h] at this

theorem admits_plain : s.Admits (p.plain s).2.logged ↔ (p.plain s).2.InTrans := by
  have ho : (p.plain s).2.outstanding = s.outstanding := plain_keeps fun _ _ => rfl
  have hsize : (p.plain s).2.logsize = s.logsize := plain_keeps fun _ _ => rfl
  unfold Disk.InTrans Disk.Admits
  rw [ho, hsize]

theorem run_eq_plain (hs : s.InTrans) : p.run s =
    if s.Admits (p.plain s).2.logged then (p.plain s).1.map (·, (p.plain s).2)
    else .error "too big a transaction" := by
  simp only [admits_plain]
  refine run_eq (fun s u h => ?_) (fun s u h => ?_) hs
  · obtain ⟨ho, h⟩ := inTrans_write.mp h
    exact s.admits_of_card ho h
  · have ho := h.1
    show (if _ then _ else _) = ite (s.write u.1 u.2).InTrans _ _
    simp only [inTrans_write, lt_min_iff]
    split_ifs <;> first | rfl | omega

theorem run_of_does (hs : s.InTrans) (h : Does p s a s') : p.run s =
    if s.Admits s'.logged then .ok (a, s') else .error "too big a transaction" := by
  rw [run_eq_plain hs, h]
  rfl

/-- What does not call `log_write` needs no transaction. -/
theorem run_of_same (h : Does p s a s) : p.run s = .ok (a, s) :=
  (h.run_same (m := fun s => s.logged.length) fun s u => by
    show _ < (s.logged ++ [u.1]).length
    simp).2 rfl

end Checks

/-! ## Blocks -/

section Blocks

variable (sb : Superblock)

def bzero (b : Nat) : FS Unit := log_write b (.fill 0)

/-- The inner loop of `balloc`, from bit `bi` on: the first free bit below `lim`. -/
def findBit (d : Block) (lim : Nat) : Nat → Nat → Option Nat
  | 0, _ => none
  | n + 1, bi =>
      if bi < lim then
        if bit d bi = false then some bi else findBit d lim n (bi + 1)
      else none

/-- The outer loop of `balloc`. -/
def ballocFrom : Nat → Nat → FS Nat
  | 0, _ => panic "balloc: out of blocks"
  | n + 1, b =>
      if b < sb.size then do
        let bp ← bread (sb.BBLOCK b)
        match findBit bp (sb.size - b) BPB 0 with
        | some bi => do
            log_write (sb.BBLOCK b) (setBit bp bi)
            bzero (b + bi)
            return b + bi
        | none => ballocFrom n (b + BPB)
      else panic "balloc: out of blocks"

def balloc : FS Nat := ballocFrom sb sb.size 0

/-- `bfree`. The super block that it reads again is never written. -/
def bfree (b : Nat) : FS Unit := do
  let bp ← bread (sb.BBLOCK b)
  if bit bp (b % BPB) = false then panic "freeing free block"
  else log_write (sb.BBLOCK b) (clearBit bp (b % BPB))

end Blocks

/-! ## Inodes -/

/-- `T_DIR`, `T_FILE`, `T_DEV`. -/
abbrev T_DIR : Nat := 1
abbrev T_FILE : Nat := 2
abbrev T_DEV : Nat := 3

/-- The fields of `struct inode` that are copied from disk, with the number. -/
structure Inode extends Dinode where
  inum : Nat

/-- `ip->addrs[k] = addr`. -/
def Inode.setAddr (ip : Inode) (k : Fin (NDIRECT + 1)) (addr : Nat) : Inode :=
  { ip with addrs := Function.update ip.addrs k addr }

/-- The index of the indirect block in `addrs`. -/
abbrev INDIRECT : Fin (NDIRECT + 1) := Fin.last NDIRECT

theorem castSucc_ne_indirect (k : Fin NDIRECT) : k.castSucc ≠ INDIRECT := by
  intro h
  have hk := k.isLt
  have : (k : Nat) = NDIRECT := congrArg Fin.val h
  omega

theorem setAddr_self (ip : Inode) (k : Fin (NDIRECT + 1)) (addr : Nat) :
    (ip.setAddr k addr).addrs k = addr := by
  simp [Inode.setAddr]

theorem setAddr_of_ne (ip : Inode) {k k' : Fin (NDIRECT + 1)} (h : k' ≠ k) (addr : Nat) :
    (ip.setAddr k addr).addrs k' = ip.addrs k' := by
  simp [Inode.setAddr, h]

section Inodes

variable (sb : Superblock)

/-- The inode with number `i`. -/
def Disk.dinode (s : Disk) (i : Nat) : Dinode := dinodeAt (s.blocks (sb.IBLOCK i)) i

/-- An inode of zeros with the given type. -/
def Dinode.fresh (type : Nat) : Dinode := ⟨type, 0, 0, 0, 0, fun _ => 0⟩

def iupdate (ip : Inode) : FS Unit := do
  let bp ← bread (sb.IBLOCK ip.inum)
  log_write (sb.IBLOCK ip.inum) (setDinode bp ip.inum ip.toDinode)

/-- The indirect block of `bmap`, allocated if necessary. -/
def bmapIndirect (ip : Inode) : FS (Nat × Inode) := do
  if ip.addrs INDIRECT = 0 then do
    let addr ← balloc sb
    return (addr, ip.setAddr INDIRECT addr)
  else return (ip.addrs INDIRECT, ip)

/-- Word `j` of the indirect block `ind` in `bmap`, allocated if necessary. -/
def bmapEntry (ind : Nat) (ip : Inode) (j : Nat) : FS (Nat × Inode) := do
  let a ← bread ind
  if a.word j = 0 then do
    let addr ← balloc sb
    log_write ind (a.setWord j addr)
    return (addr, ip)
  else return (a.word j, ip)

def bmap (ip : Inode) (bn : Nat) : FS (Nat × Inode) := do
  if h : bn < NDIRECT then
    if ip.addrs ⟨bn, Nat.lt_succ_of_lt h⟩ = 0 then do
      let addr ← balloc sb
      return (addr, ip.setAddr ⟨bn, Nat.lt_succ_of_lt h⟩ addr)
    else return (ip.addrs ⟨bn, Nat.lt_succ_of_lt h⟩, ip)
  else if bn - NDIRECT < NINDIRECT then do
    let (ind, ip) ← bmapIndirect sb ip
    bmapEntry sb ind ip (bn - NDIRECT)
  else panic "bmap: out of range"

/-- The first loop of `itrunc`. -/
def freeDirect : List (Fin NDIRECT) → Inode → FS Inode
  | [], ip => return ip
  | k :: ks, ip =>
      if ip.addrs k.castSucc ≠ 0 then do
        bfree sb (ip.addrs k.castSucc)
        freeDirect ks (ip.setAddr k.castSucc 0)
      else freeDirect ks ip

/-- The second loop of `itrunc`, over the words of the indirect block. -/
def freeEntries (a : Block) : List (Fin NINDIRECT) → FS Unit
  | [] => return ()
  | j :: js =>
      if a.word j ≠ 0 then do
        bfree sb (a.word j)
        freeEntries a js
      else freeEntries a js

def itrunc (ip : Inode) : FS Inode := do
  let ip ← freeDirect sb (List.finRange NDIRECT) ip
  let ip ← if ip.addrs INDIRECT ≠ 0 then do
      let a ← bread (ip.addrs INDIRECT)
      freeEntries sb a (List.finRange NINDIRECT)
      bfree sb (ip.addrs INDIRECT)
      pure (ip.setAddr INDIRECT 0)
    else pure ip
  let ip := { ip with size := 0 }
  iupdate sb ip
  return ip

/-- The part of `iput` that frees an inode without links. -/
def ifree (ip : Inode) : FS Inode := do
  let ip ← itrunc sb ip
  let ip := { ip with type := 0 }
  iupdate sb ip
  return ip

end Inodes

/-! ## Contents -/

/-- `devsw`: what the functions of a device do. The value and the bytes of a read, and the value of
    a write. -/
structure Devsw where
  read  : Nat → Option (Nat → Int × List UInt8)
  write : Nat → Option (Nat → Int)

/-- `min(n, BSIZE - off%BSIZE)`: the bytes of one round. -/
def chunk (off n : Nat) : Nat := min n (BSIZE - off % BSIZE)

/-- `n` bytes of a block. -/
def slice (d : Block) (off n : Nat) : List UInt8 := (List.range n).map fun i => d.bytes (off + i)

section Contents

variable (sb : Superblock) (dv : Devsw)

/-- The loop of `readi`; `n` is what is left. -/
def readFrom : Nat → Inode → Nat → Nat → FS (List UInt8 × Inode)
  | 0, ip, _, _ => return ([], ip)
  | k + 1, ip, off, n =>
      if 0 < n then do
        let (b, ip) ← bmap sb ip (off / BSIZE)
        let bp ← bread b
        let (bs, ip) ← readFrom k ip (off + chunk off n) (n - chunk off n)
        return (slice bp (off % BSIZE) (chunk off n) ++ bs, ip)
      else return ([], ip)

/-- `readi`: the value, the bytes that go to `dst`, and the inode. -/
def readi (ip : Inode) (off n : Nat) : FS (Int × List UInt8 × Inode) := do
  if ip.type = T_DEV then
    match if ip.major < NDEV then dv.read ip.major else none with
    | none => return (-1, [], ip)
    | some f => return ((f n).1, (f n).2, ip)
  else if off > ip.size ∨ u32 (off + n) < off then return (-1, [], ip)
  else do
    let n := if u32 (off + n) > ip.size then ip.size - off else n
    let (bs, ip) ← readFrom sb n ip off n
    return (n, bs, ip)

/-- The loop of `writei`; `src` is where the bytes for offset `off` start. -/
def writeFrom (mem : Mem) : Nat → Inode → Nat → Nat → Nat → FS Inode
  | 0, ip, _, _, _ => return ip
  | k + 1, ip, src, off, n =>
      if 0 < n then do
        let (b, ip) ← bmap sb ip (off / BSIZE)
        let bp ← bread b
        log_write b (.ofBytes (copy bp.bytes (off % BSIZE) mem src (chunk off n)))
        writeFrom mem k ip (src + chunk off n) (off + chunk off n) (n - chunk off n)
      else return ip

/-- `writei` of `n` bytes of `mem` from `src` on: the value and the inode. -/
def writei (ip : Inode) (mem : Mem) (src off n : Nat) : FS (Int × Inode) := do
  if ip.type = T_DEV then
    match if ip.major < NDEV then dv.write ip.major else none with
    | none => return (-1, ip)
    | some f => return (f n, ip)
  else if off > ip.size ∨ u32 (off + n) < off then return (-1, ip)
  else if u32 (off + n) > MAXFILE * BSIZE then return (-1, ip)
  else do
    let ip ← writeFrom sb mem n ip src off n
    if 0 < n ∧ off + n > ip.size then do
      let ip := { ip with size := off + n }
      iupdate sb ip
      return (n, ip)
    else return (n, ip)

end Contents

/-! ## What `balloc` and `bfree` do -/

/-- The bit of block `b` in the free map. -/
def Disk.used (sb : Superblock) (s : Disk) (b : Nat) : Bool :=
  bit (s.blocks (sb.BBLOCK b)) (b % BPB)

/-- Block `b` is marked and zeroed. -/
def Disk.alloc (sb : Superblock) (s : Disk) (b : Nat) : Disk :=
  (s.write (sb.BBLOCK b) (setBit (s.blocks (sb.BBLOCK b)) (b % BPB))).write b (.fill 0)

section Specs

variable {sb : Superblock} {s s' : Disk} {d : Block} {b b' lim x : Nat}

theorem does_bread : Does (bread b) s (s.blocks b) s := rfl

theorem does_log_write : Does (log_write b d) s () (s.write b d) := rfl

@[simp] theorem write_self : (s.write b d).blocks b = d := Function.update_self ..

theorem write_of_ne (h : b' ≠ b) : (s.write b d).blocks b' = s.blocks b' :=
  Function.update_of_ne h ..

theorem findBit_some {bi : Nat} (n : Nat) : ∀ {i}, findBit d lim n i = some bi →
    i ≤ bi ∧ bi < i + n ∧ bi < lim ∧ bit d bi = false ∧ ∀ j, i ≤ j → j < bi → bit d j = true := by
  induction n with
  | zero => intro i h; cases h
  | succ n ih =>
    intro i h
    rw [findBit] at h
    split at h
    swap
    · cases h
    next hlt =>
    split at h
    · next hfree =>
      cases h
      exact ⟨le_rfl, by omega, hlt, hfree, fun j h1 h2 => by omega⟩
    · next hset =>
      obtain ⟨h1, h2, h3, h4, h5⟩ := ih h
      refine ⟨by omega, by omega, h3, h4, fun j hj hj' => ?_⟩
      by_cases hij : j = i
      · rw [hij]
        simpa using hset
      · exact h5 j (by omega) hj'

theorem findBit_none (n : Nat) : ∀ {i}, findBit d lim n i = none →
    ∀ j, i ≤ j → j < i + n → j < lim → bit d j = true := by
  induction n with
  | zero => intro i _ j h1 h2; omega
  | succ n ih =>
    intro i h j h1 h2 h3
    rw [findBit, if_pos (by omega)] at h
    split at h
    · cases h
    · next hset =>
      by_cases hij : j = i
      · rw [hij]
        simpa using hset
      · exact ih h j (by omega) (by omega) h3

/-- The bits of the bitmap block that `balloc` reads at `b`. -/
theorem used_add (hb : b % BPB = 0) {j : Nat} (hj : j < BPB) :
    s.used sb (b + j) = bit (s.blocks (sb.BBLOCK b)) j := by
  have h1 : (b + j) % BPB = j := by
    simp only [BPB, BSIZE] at *
    omega
  have h2 : sb.BBLOCK (b + j) = sb.BBLOCK b := by
    unfold Superblock.BBLOCK
    simp only [BPB, BSIZE] at *
    omega
  unfold Disk.used
  rw [h1, h2]

theorem ballocFrom_spec (n : Nat) : ∀ {b}, b % BPB = 0 → sb.size ≤ b + n * BPB →
    (∀ b' < b, b' < sb.size → s.used sb b' = true) →
    (∃ r < sb.size, s.used sb r = false ∧ (∀ b' < r, s.used sb b' = true) ∧
      Does (ballocFrom sb n b) s r (s.alloc sb r)) ∨
    ((∀ b' < sb.size, s.used sb b' = true) ∧
      (ballocFrom sb n b).plain s = (.error "balloc: out of blocks", s)) := by
  induction n with
  | zero =>
    intro b hb hle hused
    exact .inr ⟨fun b' hb' => hused b' (by omega) hb', rfl⟩
  | succ n ih =>
    intro b hb hle hused
    unfold Does
    rw [ballocFrom]
    by_cases hlt : b < sb.size
    swap
    · rw [if_neg hlt]
      exact .inr ⟨fun b' hb' => hused b' (by omega) hb', rfl⟩
    rw [if_pos hlt, bind_of_does does_bread]
    cases hf : findBit (s.blocks (sb.BBLOCK b)) (sb.size - b) BPB 0 with
    | some bi =>
      obtain ⟨-, h2, h3, h4, h5⟩ := findBit_some BPB hf
      rw [zero_add] at h2
      have hmod : (b + bi) % BPB = bi := by
        simp only [BPB, BSIZE] at *
        omega
      have hblk : sb.BBLOCK (b + bi) = sb.BBLOCK b := by
        unfold Superblock.BBLOCK
        simp only [BPB, BSIZE] at *
        omega
      refine .inl ⟨b + bi, by omega, by rw [used_add hb h2, h4], fun b' hb' => ?_, ?_⟩
      · by_cases hlow : b' < b
        · exact hused b' hlow (by omega)
        · obtain ⟨j, rfl⟩ := Nat.exists_eq_add_of_le (Nat.le_of_not_lt hlow)
          rw [used_add hb (by omega)]
          exact h5 j (Nat.zero_le _) (by omega)
      · unfold Disk.alloc
        rw [hmod, hblk]
        rfl
    | none =>
      have hno := findBit_none BPB hf
      refine ih (by simp only [BPB, BSIZE] at *; omega) (by rw [Nat.succ_mul] at hle; omega) ?_
      intro b' h1 h2
      by_cases hlow : b' < b
      · exact hused b' hlow h2
      · obtain ⟨j, rfl⟩ := Nat.exists_eq_add_of_le (Nat.le_of_not_lt hlow)
        rw [used_add hb (by omega)]
        exact hno j (Nat.zero_le _) (by omega) (by omega)

theorem balloc_spec (sb : Superblock) (s : Disk) :
    (∃ b < sb.size, s.used sb b = false ∧ (∀ b' < b, s.used sb b' = true) ∧
      Does (balloc sb) s b (s.alloc sb b)) ∨
    ((∀ b < sb.size, s.used sb b = true) ∧
      (balloc sb).plain s = (.error "balloc: out of blocks", s)) :=
  ballocFrom_spec sb.size rfl (by simp only [BPB, BSIZE]; omega) fun b' h => absurd h (by omega)

/-- Blocks other than the new one and its bitmap block are kept. -/
theorem alloc_blocks (h1 : b' ≠ b) (h2 : b' ≠ sb.BBLOCK b) :
    (s.alloc sb b).blocks b' = s.blocks b' := by
  unfold Disk.alloc
  rw [write_of_ne h1, write_of_ne h2]

theorem alloc_self : (s.alloc sb b).blocks b = .fill 0 := write_self

theorem used_write (h : x ≠ sb.BBLOCK b) : (s.write x d).used sb b = s.used sb b := by
  unfold Disk.used
  rw [write_of_ne h.symm]

section Bitmap

variable (hsb : sb.Ok) {i : Nat}

include hsb

theorem ne_bblock_of_data (h : sb.nmeta ≤ x) (hb : b < sb.size) : x ≠ sb.BBLOCK b := by
  have := hsb.bblock_lt hb
  omega

theorem iblock_ne_bblock (hi : i < sb.ninodes) : sb.IBLOCK i ≠ sb.BBLOCK b := by
  have h1 := hsb.iblock_lt hi
  have h2 := sb.bmapstart_le b
  omega

theorem iblock_ne_data (hi : i < sb.ninodes) (h : sb.nmeta ≤ x) : sb.IBLOCK i ≠ x := by
  have h1 := hsb.iblock_lt hi
  have h2 := hsb.bmapstart_lt
  omega

theorem used_alloc (hdata : sb.nmeta ≤ b) (hb' : b' < sb.size) :
    (s.alloc sb b).used sb b' = (s.used sb b' || b' = b) := by
  have hlt : b' % BPB < BPB := Nat.mod_lt _ (by decide)
  unfold Disk.alloc
  rw [used_write (ne_bblock_of_data hsb hdata hb')]
  unfold Disk.used
  by_cases h : sb.BBLOCK b' = sb.BBLOCK b
  · rw [h, write_self, bit_setBit hlt]
    congr 1
    rw [decide_eq_decide]
    exact ⟨fun hm => Superblock.bblock_inj h hm, fun he => by rw [he]⟩
  · have hne : b' ≠ b := fun he => h (by rw [he])
    rw [write_of_ne h]
    simp [hne]

end Bitmap

end Specs

end Xv6.Fs
