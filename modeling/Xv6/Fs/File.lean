import Mathlib.Order.Interval.Finset.Nat
import Xv6.Fs.ReadWrite

/-! # A file is a byte array

    `readi` and `writei` on an inode without holes, against lists of bytes. What a byte array does
    not do is to run out of blocks, on the disk or in the log.
-/

namespace Xv6.Fs

open Program Script ByteMem

/-! ## A small disk -/

/-- A free map in which the first `n` bits are set. -/
def marks : Nat → Block
  | 0 => .fill 0
  | n + 1 => setBit (marks n) n

attribute [irreducible] marks

/-- A file of one block. -/
def smallInode (size : Nat) : Dinode where
  type  := T_FILE
  major := 0
  minor := 0
  nlink := 1
  size  := size
  addrs := fun k => if k = 0 then 34 else 0

section Tiny

variable {n size b i : Nat}

theorem bit_marks (hb : b < BPB) : bit (marks n) b = decide (b < n) := by
  induction n with
  | zero =>
    rw [marks, bit_zero]
    rfl
  | succ n ih =>
    rw [marks, bit_setBit hb, ih, ← Bool.decide_or, decide_eq_decide]
    omega

end Tiny

/-! ## The refinement -/

section Refines

variable {sb : Superblock} {s : Disk} {ino : Nat → Dinode} {own : Nat → Option Pos}

/-- The blocks of the range, and at most three more, go to the log. -/
theorem n_le_of_logs {s' : Disk} {ip ip' : Inode} {off n : Nat}
    (h : ∀ x, x ∈ s'.logged ↔ x ∈ s.logged ∨ Logs sb s ip s' ip' off n x) :
    s'.n ≤ s.n + (touched off n).card + 3 := by
  let refs := (touched off n).image fun bn => s'.ref ip'.toDinode (slotOf bn)
  let rest : Finset Nat := {sb.bmapstart, ip'.addrs INDIRECT, sb.IBLOCK ip.inum}
  have hsub : s'.logged.toFinset ⊆ s.logged.toFinset ∪ refs ∪ rest := by
    intro x hx
    rw [Finset.mem_union, Finset.mem_union, List.mem_toFinset]
    rcases (h x).mp (List.mem_toFinset.mp hx) with
      hx | ⟨bn, hbn, rfl | ⟨-, rfl | ⟨-, rfl⟩⟩⟩ | ⟨-, rfl⟩
    · exact .inl (.inl hx)
    · exact .inl (.inr (Finset.mem_image_of_mem _ hbn))
    all_goals exact .inr (by simp [rest])
  calc s'.n ≤ (s.logged.toFinset ∪ refs ∪ rest).card := Finset.card_le_card hsub
    _ ≤ s.n + refs.card + rest.card :=
      (Finset.card_union_le ..).trans (Nat.add_le_add_right (Finset.card_union_le ..) _)
    _ ≤ s.n + (touched off n).card + 3 :=
      Nat.add_le_add (Nat.add_le_add_left Finset.card_image_le _) Finset.card_le_three

end Refines

/-- Inode 1 of the small disk, locked. -/
def smallFile (size : Nat) : Inode := { smallInode size with inum := 1 }

/-- No devices. -/
def noDevices : Devsw := ⟨fun _ => none, fun _ => none⟩

end Xv6.Fs
