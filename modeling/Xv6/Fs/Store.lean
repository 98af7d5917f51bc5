import Xv6.Framework.Program
import Xv6.Fs.File

/-! # Blocks, inodes and the inode cache

    A disk is sound if every block number occurs in one place, the free map marks exactly the blocks
    that occur, and no inode has a hole. The inode cache has `NINODE` slots over such a disk: `iget`
    takes one, `ilock` reads the inode into it and `iput` gives it back.

    - `Sound.writei_file`: what `writei` does to a sound disk
    - `Store`: the disk, the references and the inodes in memory
-/

namespace Xv6.Fs

open Program Script ByteMem Function

variable {sb : Superblock} {s s' s1 : Disk} {ino : Nat → Dinode} {own own' : Nat → Option Pos}
  {lim : Nat → Prop} {i j n off src type : Nat} {d : Dinode} {ip : Inode} {dv : Devsw} {mem : Mem}

/-! ## Operations on a sound disk -/

/-- The blocks are owned and no allocated inode has a hole. -/
structure Sound (sb : Superblock) (s : Disk) : Prop where
  owns : ∃ own, Owns sb s (s.dinode sb) own fun _ => False
  hole : ∀ i < sb.ninodes, (s.dinode sb i).type ≠ 0 → NoHole s (s.dinode sb i)

/-- Inode `i` with its number. -/
def Disk.inode (sb : Superblock) (s : Disk) (i : Nat) : Inode := { s.dinode sb i with inum := i }

/-- The other inodes keep their fields and their contents. -/
def SameOthers (sb : Superblock) (s s' : Disk) (i : Nat) : Prop :=
  ∀ j < sb.ninodes, j ≠ i → s'.dinode sb j = s.dinode sb j ∧
    ((s.dinode sb j).type ≠ 0 → s'.file (s.dinode sb j) = s.file (s.dinode sb j))

/-- The state of the log has no part in it. -/
theorem Sound.of_blocks (h : Sound sb s) (hb : s'.blocks = s.blocks) : Sound sb s' := by
  obtain ⟨own, howns⟩ := h.owns
  cases s
  cases s'
  subst hb
  exact ⟨⟨own, howns.1, howns.2, howns.3, howns.4⟩, h.hole⟩

theorem inode_eq (h : s.dinode sb i = ip.toDinode) (hi : ip.inum = i) : s.inode sb i = ip := by
  unfold Disk.inode
  rw [h, ← hi]

theorem noHole_congr (h : NoHole s d) (href : ∀ sl, s'.ref d sl = s.ref d sl) : NoHole s' d := by
  intro bn hbn
  rw [href]
  exact h bn hbn

/-- Inode `i` goes to a disk where everything else is already in place. -/
theorem Sound.of_put (hsb : sb.Ok) (h : Sound sb s) (hi : i < sb.ninodes)
    (howns : Owns sb s1 (update (s.dinode sb) i d) own fun _ => False)
    (hsame : ∀ j < sb.ninodes, s1.blocks (sb.IBLOCK j) = s.blocks (sb.IBLOCK j))
    (hother : ∀ j sl, j < sb.ninodes → j ≠ i → (s.dinode sb j).type ≠ 0 →
      s1.ref (s.dinode sb j) sl = s.ref (s.dinode sb j) sl)
    (hfits : d.Fits) (hole : d.type ≠ 0 → NoHole s1 d) : Sound sb (s1.put sb i d) := by
  have hdin : ∀ j < sb.ninodes, (s1.put sb i d).dinode sb j =
      update (s.dinode sb) i d j := by
    intro j hj
    by_cases hji : j = i
    · rw [hji, update_self, dinode_put_self hfits]
    · rw [update_of_ne hji, dinode_put_of_ne hji, dinode_congr (hsame j hj)]
  have hput := howns.put hsb hi d
  refine ⟨⟨own, hput.of_refs (fun j hj => by rw [hdin j hj]) fun j sl hj _ => by rw [hdin j hj]⟩,
    fun j hj ht => ?_⟩
  rw [hdin j hj] at ht ⊢
  refine noHole_congr (s := s1) ?_ fun sl => ?_
  · by_cases hji : j = i
    · subst hji
      rw [update_self] at ht ⊢
      exact hole ht
    · rw [update_of_ne hji] at ht ⊢
      exact noHole_congr (h.hole j hj ht) fun sl => hother j sl hj hji ht
  · exact ref_put hsb hi (fun hz => howns.data_of_indirect hj ht hz) sl

theorem sameOthers_put (hsb : sb.Ok) (hi : i < sb.ninodes)
    (howns : Owns sb s (s.dinode sb) own fun _ => False)
    (hsame : ∀ j < sb.ninodes, s1.blocks (sb.IBLOCK j) = s.blocks (sb.IBLOCK j))
    (hblocks : ∀ x p, own x = some p → p.1 ≠ i → s1.blocks x = s.blocks x) :
    SameOthers sb s (s1.put sb i d) i := by
  intro j hj hne
  refine ⟨by rw [dinode_put_of_ne hne, dinode_congr (hsame j hj)], fun ht => ?_⟩
  refine file_congr (howns.content_of_same hj ht fun x sl hx => ?_) rfl
  have hdata := (howns.data x (.inl (by simp [hx]))).1
  rw [put_blocks (iblock_ne_data hsb hi hdata).symm, hblocks x _ hx hne]

/-- Inode `i` after a write of `n` bytes at `off`. -/
structure WroteFile (sb : Superblock) (s : Disk) (i : Nat) (mem : Mem) (src off n : Nat)
    (s' : Disk) : Prop where
  sound   : Sound sb s'
  others  : SameOthers sb s s' i
  same    : s'.dinode sb i = { s.dinode sb i with
    size := max (s.dinode sb i).size (off + n), addrs := (s'.dinode sb i).addrs }
  content : s'.content (s'.dinode sb i) = copy (s.content (s.dinode sb i)) off mem src n
  nfree   : s'.nfree sb + s.writeNeed (s.inode sb i) off n = s.nfree sb
  logged  : sb.size ≤ BPB → ∀ x, x ∈ s'.logged ↔ x ∈ s.logged ∨
    Logs sb s (s.inode sb i) s' (s'.inode sb i) off n x

section Write

variable {ip1 : Inode} (hsb : sb.Ok) (h : Sound sb s) (hi : i < sb.ninodes)
  (ht : (s.dinode sb i).type ≠ 0) (howns : Owns sb s (s.dinode sb) own fun _ => False)
  (h₁ : Owns sb s1 (update (s.dinode sb) i ip1.toDinode) own' fun _ => False)
  (hw : Wrote sb mem src off n s (s.inode sb i) own s1 ip1 own')

include hsb h hi ht howns h₁ hw

/-- The file grew: `iupdate` wrote the inode. -/
theorem Sound.wrote_grown (hrej : ¬ Rejects (s.inode sb i) off n) (hg : ip1.size < off + n) :
    (s1.put sb i (ip1.grow (off + n)).toDinode).inode sb i = ip1.grow (off + n) ∧
    WroteFile sb s i mem src off n (s1.put sb i (ip1.grow (off + n)).toDinode) := by
  have hinum : ip1.inum = i := hw.inum
  have hothers : ∀ x p, own x = some p → p.1 ≠ i → s1.blocks x = s.blocks x := hw.others
  have hput : s1.putIf sb ip1 (off + n) = s1.put sb i (ip1.grow (off + n)).toDinode := by
    unfold Disk.putIf
    rw [if_pos hg, hinum]
  have hfits := hw.fits hsb hi ht h₁ (dinodeAt_fits ..) hrej
  have hgrow : Owns sb s1 (update (s.dinode sb) i (ip1.grow (off + n)).toDinode) own'
      fun _ => False := by
    rw [← hinum]
    exact Owns.grow (by rw [hinum]; exact h₁)
  have hdin : (s1.put sb i (ip1.grow (off + n)).toDinode).dinode sb i =
      (ip1.grow (off + n)).toDinode := dinode_put_self hfits
  have hcontent := hw.content_putIf hsb hi ht h₁ (off + n)
  have hlog := hw.logged_putIf hsb hi ht h₁
  have hfree := hw.nfree
  have hinode := inode_eq hdin hinum
  rw [hput] at hcontent hlog
  refine ⟨hinode, ?_, sameOthers_put hsb hi howns hw.iblock hothers, ?_, ?_, ?_,
    fun hone x => ?_⟩
  · refine h.of_put hsb hi hgrow hw.iblock (fun j sl hj hne htj => ?_) hfits
      fun _ => hw.noHole (h.hole i hi ht) hrej
    exact ref_congr (fun hz => hothers _ _ (howns.owner_indirect hj htj hz) hne) sl
  · rw [hdin, hw.same]
    rfl
  · rw [hdin]
    exact hcontent
  · have hmap : ∀ b < sb.size, sb.IBLOCK i ≠ sb.BBLOCK b := fun _ _ => iblock_ne_bblock hsb hi
    unfold Disk.put
    rw [nfree_write hmap]
    exact hfree
  · rw [hinode]
    exact hlog hone x

/-- The range lies in the file: no block was added. -/
theorem Sound.wrote_inside (hg : ¬ ip1.size < off + n) :
    ip1.grow (off + n) = s.inode sb i ∧ s1.inode sb i = s.inode sb i ∧
      WroteFile sb s i mem src off n s1 := by
  have hothers : ∀ x p, own x = some p → p.1 ≠ i → s1.blocks x = s.blocks x := hw.others
  have hidle : ip1 = s.inode sb i :=
    hw.idle (NoHole.missing (h.hole i hi ht) (by rw [← hw.size]; omega))
  have hdin : ∀ j < sb.ninodes, s1.dinode sb j = s.dinode sb j := fun j hj =>
    dinode_congr (hw.iblock j hj)
  have hlog := hw.logged_putIf hsb hi ht h₁
  have hput : s1.putIf sb ip1 (off + n) = s1 := if_neg hg
  subst hidle
  have hsize : ¬ (s.dinode sb i).size < off + n := hg
  have hgrow : (s.inode sb i).grow (off + n) = s.inode sb i := by
    unfold Inode.grow
    rw [Nat.max_eq_left (by omega)]
  have hinode : s1.inode sb i = s.inode sb i := inode_eq (hdin i hi) rfl
  rw [hput, hgrow] at hlog
  refine ⟨hgrow, hinode, ⟨⟨own', ?_⟩, fun j hj htj => ?_⟩,
    fun j hj hne => ⟨hdin j hj, fun htj => ?_⟩, ?_, ?_, hw.nfree, fun hone x => ?_⟩
  · have hself : update (s.dinode sb) i (s.inode sb i).toDinode = s.dinode sb := update_eq_self ..
    rw [hself] at h₁
    exact h₁.of_refs (fun j hj => by rw [hdin j hj]) fun j sl hj _ => by rw [hdin j hj]
  · rw [hdin j hj] at htj ⊢
    intro bn hbn
    obtain ⟨hlt, hne⟩ := h.hole j hj htj bn hbn
    refine ⟨hlt, ?_⟩
    by_cases hji : j = i
    · subst hji
      have hkept : s1.ref (s.dinode sb j) (slotOf bn) = s.ref (s.dinode sb j) (slotOf bn) :=
        hw.kept _ hne
      rw [hkept]
      exact hne
    · rw [ref_congr (fun hz => hothers _ _ (howns.owner_indirect hj htj hz) hji)]
      exact hne
  · refine file_congr (howns.content_of_same hj htj fun x sl hx => ?_) rfl
    exact hothers x _ hx hne
  · rw [hdin i hi, Nat.max_eq_left (by omega)]
  · rw [hdin i hi]
    exact hw.content
  · rw [hinode]
    exact hlog hone x

end Write

/-- `writei` on a file or directory, where the range is not rejected. -/
theorem Sound.writei_file (hsb : sb.Ok) (h : Sound sb s) (hi : i < sb.ninodes)
    (ht : (s.dinode sb i).type ≠ 0) (hd : (s.dinode sb i).type ≠ T_DEV)
    (hrej : ¬ Rejects (s.inode sb i) off n) (dv : Devsw) (mem : Mem) (src : Nat) :
    (s.nfree sb < s.writeNeed (s.inode sb i) off n ∧
      Fails (writei sb dv (s.inode sb i) mem src off n) s "balloc: out of blocks") ∨
    ∃ s', Does (writei sb dv (s.inode sb i) mem src off n) s (n, s'.inode sb i) s' ∧
      WroteFile sb s i mem src off n s' := by
  obtain ⟨own, howns⟩ := h.owns
  rcases writei_spec (s.inode sb i) off n hsb howns rfl hi ht hd hrej with
    hfull | ⟨ip1, s1, own', he, h₁, hw⟩
  · exact .inl hfull
  have hinum : ip1.inum = i := hw.inum
  unfold Disk.putIf at he
  by_cases hg : ip1.size < off + n
  · obtain ⟨hinode, hfile⟩ := h.wrote_grown hsb hi ht howns h₁ hw hrej hg
    refine .inr ⟨_, ?_, hfile⟩
    rw [hinode]
    rwa [if_pos hg, hinum] at he
  · obtain ⟨hgrow, hinode, hfile⟩ := h.wrote_inside hsb hi ht howns h₁ hw hg
    refine .inr ⟨_, ?_, hfile⟩
    rw [hinode]
    rwa [if_neg hg, hgrow] at he

/-! ## The inode cache -/

/-- The disk and the inode cache: the references to inodes, and the fields in memory where `I_VALID`
    is set. The inodes with a reference have a slot each. -/
structure Store where
  disk : Disk
  refs : Multiset Nat
  mem  : Nat → Option Dinode

/-- Code that works on the inode cache. -/
abbrev KS := StateT Store (Except String)

/-- The inode with number `i` as it is in memory. -/
def inodeOf (i : Nat) (d : Dinode) : Inode := { d with inum := i }

theorem inodeOf_dinode : inodeOf i (s.dinode sb i) = s.inode sb i := rfl

/-- The new values of the disk and of slot `i`. -/
def Store.set (st : Store) (i : Nat) (disk : Disk) (m : Option Dinode) : Store :=
  { st with disk := disk, mem := update st.mem i m }

theorem Store.set_mem_self (st : Store) (i : Nat) (disk : Disk) (m : Option Dinode) :
    (st.set i disk m).mem i = m := update_self ..

/-- One reference more. -/
def Store.get (st : Store) (i : Nat) : Store := { st with refs := i ::ₘ st.refs }

/-- One reference less. -/
def Store.drop (st : Store) (i : Nat) : Store := { st with refs := st.refs.erase i }

/-- `iget`. A slot that is taken into use is not valid. -/
def iget (i : Nat) : KS Unit := fun st =>
  if i ∈ st.refs then .ok ((), st.get i)
  else if st.refs.toFinset.card < NINODE then .ok ((), (st.set i st.disk none).get i)
  else .error "iget: no inodes"

def idup (i : Nat) : KS Unit := modify (·.get i)

section Functions

variable (sb : Superblock)

/-- `ilock`, with the fields that the caller then sees. -/
def ilock (i : Nat) : KS Inode := fun st =>
  if i ∉ st.refs then .error "ilock"
  else match st.mem i with
    | some d => .ok (inodeOf i d, st)
    | none =>
      if (st.disk.dinode sb i).type = 0 then .error "ilock: no type"
      else .ok (st.disk.inode sb i, st.set i st.disk (some (st.disk.dinode sb i)))

/-- `p` on inode `i`, which the caller has locked. -/
def locked {α : Type} (i : Nat) (p : Inode → FS (α × Inode)) : KS α := fun st => do
  let ((a, ip), disk) ← (p (inodeOf i ((st.mem i).getD (st.disk.dinode sb i)))).run st.disk
  return (a, st.set i disk (some ip.toDinode))

def iput (i : Nat) : KS Unit := fun st =>
  match st.mem i with
  | some d =>
    if st.refs.count i = 1 ∧ d.nlink = 0 then do
      let (_, disk) ← (ifree sb (inodeOf i d)).run st.disk
      return ((), (st.set i disk none).drop i)
    else .ok ((), st.drop i)
  | none => .ok ((), st.drop i)

end Functions

/-! ## Slots -/

/-- The inode has a slot, or there is one for it. -/
def Store.HasSlot (st : Store) (i : Nat) : Prop :=
  i ∈ st.refs ∨ st.refs.toFinset.card < NINODE

instance (st : Store) (i : Nat) : Decidable (st.HasSlot i) := inferInstanceAs (Decidable (_ ∨ _))

/-- The store after `iget`. -/
def Store.got (st : Store) (i : Nat) : Store where
  disk := st.disk
  refs := i ::ₘ st.refs
  mem  := if i ∈ st.refs then st.mem else update st.mem i none

/-- What the valid slots hold. -/
def Store.Slots (st : Store) (P : Nat → Dinode → Prop) : Prop :=
  ∀ i ∈ st.refs, ∀ d, st.mem i = some d → P i d

variable {st st' : Store}

section Slots

variable {P Q : Nat → Dinode → Prop}

theorem iget_eq : iget i st =
    if st.HasSlot i then .ok ((), st.got i) else .error "iget: no inodes" := by
  have hslot : st.HasSlot i ↔ i ∈ st.refs ∨ st.refs.toFinset.card < NINODE := Iff.rfl
  simp only [hslot]
  unfold iget Store.got
  by_cases hr : i ∈ st.refs
  · simp only [hr, if_true, true_or]
    rfl
  · simp only [hr, if_false, false_or]
    rfl

theorem Store.got_mem (h : i ∉ st.refs) : (st.got i).mem i = none := by
  unfold Store.got
  rw [if_neg h]
  exact update_self ..

theorem Store.got_mem_of_ref {j : Nat} (h : j ∈ st.refs) : (st.got i).mem j = st.mem j := by
  unfold Store.got
  split
  · rfl
  · next hi =>
    refine update_of_ne (fun hji => hi ?_) ..
    rwa [← hji]

theorem Store.Slots.got (h : st.Slots P) (i : Nat) : (st.got i).Slots P := by
  intro j hj d hd
  by_cases hmem : j ∈ st.refs
  · rw [Store.got_mem_of_ref hmem] at hd
    exact h j hmem d hd
  · obtain rfl := (Multiset.mem_cons.mp hj).resolve_right hmem
    rw [Store.got_mem hmem] at hd
    cases hd

theorem Store.Slots.drop (h : st.Slots P) (i : Nat) : (st.drop i).Slots P :=
  fun j hj => h j (Multiset.mem_of_mem_erase hj)

theorem Store.Slots.set (h : st.Slots P) (hsame : ∀ j ∈ st.refs, j ≠ i → ∀ d, P j d → Q j d)
    {m : Option Dinode} (hm : ∀ d, m = some d → Q i d) : (st.set i s' m).Slots Q := by
  intro j hj d hd
  have hd' : update st.mem i m j = some d := hd
  by_cases hji : j = i
  · subst hji
    rw [update_self] at hd'
    exact hm d hd'
  · rw [update_of_ne hji] at hd'
    exact hsame j hj hji d (h j hj d hd')

end Slots

/-- The caller has locked inode `i`, in a transaction. -/
structure Store.Locked (sb : Superblock) (st : Store) (i : Nat) : Prop where
  ref   : i ∈ st.refs
  mem   : st.mem i = some (st.disk.dinode sb i)
  trans : st.disk.InTrans

section Locked

variable {α : Type} {p : Inode → FS (α × Inode)} {a : α}

theorem locked_eq (hm : st.mem i = some (st.disk.dinode sb i)) : (locked sb i p).run st = (do
    let ((a, ip), disk) ← (p (st.disk.inode sb i)).run st.disk
    return (a, st.set i disk (some ip.toDinode))) := by
  show locked sb i p st = _
  unfold locked
  rw [hm, Option.getD_some, inodeOf_dinode]

/-- What only reads needs no transaction. -/
theorem locked_same (hm : st.mem i = some (st.disk.dinode sb i))
    (h : Does (p (st.disk.inode sb i)) st.disk (a, st.disk.inode sb i) st.disk) :
    Ends (locked sb i p) st a st := by
  unfold Ends
  rw [locked_eq hm, run_of_same h]
  show Except.ok (a, st.set i st.disk (some (st.disk.dinode sb i))) = _
  unfold Store.set
  rw [← hm, update_eq_self]

theorem Store.Locked.of_does (hl : st.Locked sb i)
    (h : Does (p (st.disk.inode sb i)) st.disk (a, s'.inode sb i) s') :
    (locked sb i p).run st = if st.disk.Admits s'.logged
      then .ok (a, st.set i s' (some (s'.dinode sb i))) else .error "too big a transaction" := by
  rw [locked_eq hl.mem, run_of_does hl.trans h]
  split <;> rfl

theorem Store.Locked.set (hl : st.Locked sb i) (h : Does (p (st.disk.inode sb i)) st.disk
      (a, s'.inode sb i) s') (ha : st.disk.Admits s'.logged) :
    (st.set i s' (some (s'.dinode sb i))).Locked sb i :=
  ⟨hl.ref, update_self .., by
    have hiff := admits_plain (p := p (st.disk.inode sb i)) (s := st.disk)
    rw [h] at hiff
    exact hiff.mp ha⟩

theorem Store.Locked.got (hl : st.Locked sb i) (j : Nat) : (st.got j).Locked sb i :=
  ⟨Multiset.mem_cons_of_mem hl.ref, (Store.got_mem_of_ref hl.ref).trans hl.mem, hl.trans⟩

/-- Dropping a reference that is not the last one to an unlinked inode. -/
theorem iput_ends (h : st.refs.count i = 1 → ∀ d, st.mem i = some d → d.nlink ≠ 0) :
    Ends (iput sb i) st () (st.drop i) := by
  show iput sb i st = _
  unfold iput
  cases hm : st.mem i with
  | none => rfl
  | some d =>
    dsimp only
    rw [if_neg fun hc => h hc.1 d hm hc.2]

end Locked

end Xv6.Fs
