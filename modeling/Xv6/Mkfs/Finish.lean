import Xv6.Mkfs.Build

/-! # The finished image

    The last steps of `mkfs` round the size of the root directory and write the free map.

    - `bit_bitmap`: the bits of the map
    - `finish_spec`: the image that is left
-/

namespace Xv6.Mkfs

open ByteMem Fs Program

/-! ## The free map -/

theorem bit_bitmap (used : Nat) {b : Nat} (hb : b < BPB) :
    bit (bitmap used) b = decide (b < used) := by
  unfold bitmap
  induction used with
  | zero =>
    rw [List.range_zero, List.foldl_nil, bit_zero]
    simp
  | succ n ih =>
    rw [List.range_succ, List.foldl_append, List.foldl_cons, List.foldl_nil, bit_setBit hb, ih,
      ← Bool.decide_or]
    simp only [decide_eq_decide]
    omega

theorem testBit_load (m : Mem) (a n k : Nat) :
    (load m a n).testBit k = (decide (k < 8 * n) && (m (a + k / 8)).toNat.testBit (k % 8)) := by
  induction n generalizing a k with
  | zero => simp [load]
  | succ n ih =>
    have hlt : (m a).toNat < 2 ^ 8 := (m a).toNat_lt
    have hsum : (m a).toNat + 256 * load m (a + 1) n = 2 ^ 8 * load m (a + 1) n + (m a).toNat :=
      add_comm ..
    rw [load, hsum, Nat.testBit_two_pow_mul_add _ hlt]
    by_cases hk : k < 8
    · rw [if_pos hk, Nat.div_eq_of_lt hk, Nat.mod_eq_of_lt hk, add_zero]
      have : k < 8 * (n + 1) := by omega
      simp [this]
    · rw [if_neg hk, ih, show a + 1 + (k - 8) / 8 = a + k / 8 by omega,
        show (k - 8) % 8 = k % 8 by omega]
      congr 1
      simp only [decide_eq_decide]
      omega

theorem testBit_word_bitmap (used : Nat) {j k : Nat} (hj : j < 128) :
    ((bitmap used).word j).testBit k = decide (k < 32 ∧ 32 * j + k < used) := by
  have hb := fun hk : k < 32 => bit_bitmap used (b := 32 * j + k) (by simp only [BPB, BSIZE]; omega)
  unfold Block.word
  rw [testBit_load]
  by_cases hk : k < 32
  · have := hb hk
    rw [bit_eq, show (32 * j + k) / 8 = 4 * j + k / 8 by omega,
      show (32 * j + k) % 8 = k % 8 by omega] at this
    rw [this]
    simp [hk]
  · simp [hk]

/-! ## The last steps -/

/-- The rounded size. -/
def rounded (len : Nat) : Nat := (len / BSIZE + 1) * BSIZE

/-- The image with the size of the root directory rounded. -/
def Image.fixed (s : Image) : Image :=
  s.put ROOTINO { s.disk.dinode sb ROOTINO with size := rounded (s.disk.dinode sb ROOTINO).size }

/-- The image that `mkfs` leaves. -/
structure Done (s : Image) (fs : List Input) : Prop where
  next   : s.freeinode = fs.length + 2
  free   : s.freeblock = used fs
  super  : s.blocks 1 = sbBlock sb
  log    : s.blocks 2 = .fill 0
  bitmap : s.blocks sb.bmapstart = Mkfs.bitmap (used fs)
  root   : (s.disk.dinode sb ROOTINO).size = rounded (rootBytes fs).length
  size   : ∀ i, s.Live i → i ≠ ROOTINO → (s.disk.dinode sb i).size = (table fs i).length
  type   : ∀ i, s.Live i → (s.disk.dinode sb i).type = typeOf i
  nlink  : ∀ i, s.Live i → (s.disk.dinode sb i).nlink = 1
  files  : ∃ own, Filed s (s.disk.dinode sb) own (table fs)

section Finish

variable {s : Image} {fs : List Input} {i x : Nat}

theorem Stage.live_iff (h : Stage s fs) (i : Nat) : s.Live i ↔ 1 ≤ i ∧ i < fs.length + 2 := by
  unfold Image.Live
  rw [h.next]

theorem Stage.root (h : Stage s fs) : s.Live ROOTINO :=
  (h.live_iff _).mpr ⟨le_rfl, by simp only [ROOTINO]; omega⟩

theorem Stage.fixRoot_spec (h : Stage s fs) : Ends (fixRoot ROOTINO) s () s.fixed := by
  obtain ⟨own, hf⟩ := h.built.files
  have hlt := h.built.lt h.root
  unfold Ends fixRoot
  rw [run_bind_of_ends (rinode_spec hlt hf.sectors)]
  exact winode_spec hlt hf.sectors _

theorem Stage.fixed_blocks (h : Stage s fs) (hx : x ≠ sb.IBLOCK ROOTINO) :
    s.fixed.blocks x = s.blocks x := put_blocks (h.built.lt h.root) hx

/-- Only the size of the root directory changes. -/
theorem Stage.fixed_dinode (h : Stage s fs) (hfit : fs.length + 2 ≤ ISLOTS) (i : Nat) :
    s.fixed.disk.dinode sb i = { s.disk.dinode sb i with
      size := if i = ROOTINO then rounded (rootBytes fs).length else
        (s.disk.dinode sb i).size } := by
  have hlt := h.built.lt h.root
  by_cases hi : i = ROOTINO
  · subst hi
    have hsize := h.built.size _ h.root
    rw [table_root] at hsize
    rw [if_pos rfl, Image.fixed, hsize]
    refine dinode_put_self hlt ?_
    have hd := dinodeAt_fits (s.blocks (sb.IBLOCK ROOTINO)) ROOTINO
    refine ⟨hd.type, hd.major, hd.minor, hd.nlink, ?_, hd.addrs⟩
    have h208 : fs.length + 2 ≤ 208 := hfit
    rw [length_rootBytes]
    simp only [rounded, DIRENT, BSIZE]
    omega
  · rw [if_neg hi]
    exact dinode_put_of_ne hlt hi

theorem finish_spec (h : Stage s fs) (hfit : fs.length + 2 ≤ ISLOTS) (hused : used fs ≤ FSSIZE) :
    ∃ s', Ends finish s () s' ∧ Done s' fs := by
  obtain ⟨own, hf⟩ := h.built.files
  have hlt := h.built.lt h.root
  have hmap : sb.bmapstart < FSSIZE := by decide
  have hsec : s.fixed.sectors = FSSIZE := write_sectors (iblock_lt_size hlt) hf.sectors
  have hfree : s.fixed.freeblock = used fs := h.free
  have hblk : ∀ x, x ≠ sb.bmapstart →
      (s.fixed.write sb.bmapstart (Mkfs.bitmap (used fs))).blocks x = s.fixed.blocks x :=
    fun x hx => write_blocks_of_ne hmap hx
  -- inodes lie before the map
  have hdin : ∀ i, s.Live i →
      (s.fixed.write sb.bmapstart (Mkfs.bitmap (used fs))).disk.dinode sb i =
        { s.disk.dinode sb i with
          size := if i = ROOTINO then rounded (rootBytes fs).length else
            (s.disk.dinode sb i).size } := by
    intro i hi
    have hne : sb.IBLOCK i ≠ sb.bmapstart := ne_of_lt (iblock_lt (h.built.lt hi))
    rw [← h.fixed_dinode hfit i]
    exact dinode_congr (hblk _ hne)
  refine ⟨s.fixed.write sb.bmapstart (Mkfs.bitmap (used fs)), ?_, h.next, h.free, ?_, ?_,
    write_blocks_self hmap, ?_, fun i hi hne => ?_, fun i hi => ?_, fun i hi => ?_, own, ?_⟩
  · unfold Ends finish
    rw [run_bind_of_ends h.fixRoot_spec, run_bind_of_ends (ends_get.mpr ⟨rfl, rfl⟩), balloc, hfree,
      if_pos]
    · exact ends_wsect
    · simp only [FSSIZE, BSIZE] at *
      omega
  · rw [hblk 1 (by decide), h.fixed_blocks (by decide), h.super]
  · rw [hblk 2 (by decide), h.fixed_blocks (by decide), h.log]
  · rw [hdin _ h.root]
    simp
  · have hi' : s.Live i := hi
    rw [hdin i hi', if_neg hne]
    exact h.built.size i hi'
  · rw [hdin i hi]
    exact h.built.type i hi
  · rw [hdin i hi]
    exact h.built.nlink i hi
  · refine hf.move (write_sectors hmap hsec) rfl rfl (fun x hx => ?_) fun i hi => ?_
    · have h1 : sb.bmapstart < nmeta := by decide
      have h2 := iblock_lt_nmeta hlt
      rw [hblk x (by omega), h.fixed_blocks (by omega)]
    · rw [hdin i hi]

end Finish

end Xv6.Mkfs
