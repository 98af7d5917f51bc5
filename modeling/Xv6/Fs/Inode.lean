import Xv6.Fs.Owned

/-! # Inodes on disk

    What `iupdate` writes: which inode on disk changes, and that the blocks keep their owners.
-/

namespace Xv6.Fs

open Program Script ByteMem List

variable {sb : Superblock} {s s' : Disk} {ino : Nat → Dinode} {own : Nat → Option Pos}
  {lim lim' : Nat → Prop} {b i j : Nat} {d : Dinode} {ip : Inode}

/-- Inode `i` on disk becomes `d`. -/
def Disk.put (sb : Superblock) (s : Disk) (i : Nat) (d : Dinode) : Disk :=
  s.write (sb.IBLOCK i) (setDinode (s.blocks (sb.IBLOCK i)) i d)

theorem iupdate_spec (sb : Superblock) (s : Disk) (ip : Inode) :
    Does (iupdate sb ip) s () (s.put sb ip.inum ip.toDinode) := by
  unfold Does iupdate
  rw [bind_of_does does_bread]
  rfl

theorem dinode_congr (h : s'.blocks (sb.IBLOCK i) = s.blocks (sb.IBLOCK i)) :
    s'.dinode sb i = s.dinode sb i := by
  unfold Disk.dinode
  rw [h]

theorem dinode_put_self (h : d.Fits) : (s.put sb i d).dinode sb i = d := by
  unfold Disk.put Disk.dinode
  rw [write_self, dinodeAt_setDinode_self i h]

theorem dinode_put_of_ne (h : j ≠ i) : (s.put sb i d).dinode sb j = s.dinode sb j := by
  unfold Disk.put Disk.dinode
  by_cases hb : sb.IBLOCK j = sb.IBLOCK i
  · rw [hb, write_self, dinodeAt_setDinode_of_ne]
    intro hm
    unfold Superblock.IBLOCK at hb
    simp only [IPB, BSIZE, DINODE] at hb hm
    omega
  · rw [write_of_ne hb]

theorem put_blocks (h : b ≠ sb.IBLOCK i) : (s.put sb i d).blocks b = s.blocks b := write_of_ne h

theorem used_put (hsb : sb.Ok) (hi : i < sb.ninodes) :
    (s.put sb i d).used sb b = s.used sb b := used_write (iblock_ne_bblock hsb hi)

/-- Inode blocks are no one's data. -/
theorem Owns.put (hsb : sb.Ok) (h : Owns sb s ino own lim) (hi : i < sb.ninodes) (d : Dinode) :
    Owns sb (s.put sb i d) ino own lim := by
  refine h.write (fun b _ => iblock_ne_bblock hsb hi) fun j hj => ?_
  have := (h.data _ (.inl (by rw [hj]; simp))).1
  exact iblock_ne_data hsb hi this rfl

theorem ref_put (hsb : sb.Ok) (hi : i < sb.ninodes) {d' : Dinode}
    (h : d'.addrs INDIRECT ≠ 0 → sb.nmeta ≤ d'.addrs INDIRECT) (sl : Slot) :
    (s.put sb i d).ref d' sl = s.ref d' sl :=
  ref_congr (fun hz => put_blocks (iblock_ne_data hsb hi (h hz)).symm) sl

theorem fresh_ref (s : Disk) (type : Nat) (sl : Slot) : s.ref (Dinode.fresh type) sl = 0 := by
  cases sl <;> simp [Disk.ref, Dinode.fresh]

end Xv6.Fs
