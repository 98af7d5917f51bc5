import Mathlib.Data.List.Nodup
import Xv6.Fs.Disk

/-! # Who owns a block

    A block number occurs in an inode's direct slots, in its indirect slot or in the words of its
    indirect block. `Owns` says that a table `own` lists every occurrence, each block once, and that
    the free map agrees with it. While `itrunc` runs, some blocks are still marked and no longer
    occur; they are in limbo.

    - `Owns.add`: a block that was not marked gets an owner
    - `bmap_spec`: `bmap` finds a block or adds one; it fails only on a full disk
-/

namespace Xv6.Fs

open Program Script ByteMem Function

/-! ## Occurrences -/

/-- A place of an inode where a block number is kept. -/
inductive Slot where
  | direct (k : Fin NDIRECT)
  | indirect
  | entry (j : Fin NINDIRECT)
  deriving DecidableEq

/-- The block number at a place; 0 is none. -/
def Disk.ref (s : Disk) (d : Dinode) : Slot → Nat
  | .direct k => d.addrs k.castSucc
  | .indirect => d.addrs INDIRECT
  | .entry j => if d.addrs INDIRECT = 0 then 0 else (s.blocks (d.addrs INDIRECT)).word j

/-- An inode number and a place. -/
abbrev Pos : Type := Nat × Slot

/-- The inodes are `ino`. Block `b` occurs at `own b` and nowhere else; the blocks of `lim` are
    marked and occur nowhere. -/
structure Owns (sb : Superblock) (s : Disk) (ino : Nat → Dinode) (own : Nat → Option Pos)
    (lim : Nat → Prop) : Prop where
  ref   : ∀ i sl b, b ≠ 0 →
    ((i < sb.ninodes ∧ (ino i).type ≠ 0 ∧ s.ref (ino i) sl = b) ↔ own b = some (i, sl))
  data  : ∀ b, own b ≠ none ∨ lim b → sb.nmeta ≤ b ∧ b < sb.size
  apart : ∀ b, lim b → own b = none
  used  : ∀ b < sb.size, s.used sb b = true ↔ b < sb.nmeta ∨ own b ≠ none ∨ lim b

variable {sb : Superblock} {s s' : Disk} {ino ino' : Nat → Dinode} {own own' : Nat → Option Pos}
  {lim lim' : Nat → Prop} {b i j x bn : Nat} {d : Dinode} {sl : Slot} {c : Block}

theorem ref_congr (h : d.addrs INDIRECT ≠ 0 → s'.blocks (d.addrs INDIRECT) =
    s.blocks (d.addrs INDIRECT)) (sl : Slot) : s'.ref d sl = s.ref d sl := by
  cases sl with
  | direct k => rfl
  | indirect => rfl
  | entry j =>
    simp only [Disk.ref]
    by_cases hz : d.addrs INDIRECT = 0
    · rw [if_pos hz, if_pos hz]
    · rw [if_neg hz, if_neg hz, h hz]

section

variable (h : Owns sb s ino own lim)
include h

theorem Owns.owner (hi : i < sb.ninodes) (ht : (ino i).type ≠ 0)
    (hr : s.ref (ino i) sl ≠ 0) : own (s.ref (ino i) sl) = some (i, sl) :=
  (h.ref i sl _ hr).mp ⟨hi, ht, rfl⟩

theorem Owns.owner_indirect (hi : i < sb.ninodes) (ht : (ino i).type ≠ 0)
    (hz : (ino i).addrs INDIRECT ≠ 0) : own ((ino i).addrs INDIRECT) = some (i, .indirect) :=
  (h.ref i .indirect _ hz).mp ⟨hi, ht, rfl⟩

theorem Owns.unique {sl' : Slot} (hi : i < sb.ninodes)
    (ht : (ino i).type ≠ 0) (hj : j < sb.ninodes) (ht' : (ino j).type ≠ 0)
    (hr : s.ref (ino i) sl ≠ 0) (he : s.ref (ino i) sl = s.ref (ino j) sl') : i = j ∧ sl = sl' := by
  have h1 := h.owner hi ht hr
  have h2 := h.owner hj ht' (he ▸ hr)
  rw [← he, h1] at h2
  simpa using h2

/-- A block that is not marked is a data block without an owner. -/
theorem Owns.fresh (hb : b < sb.size) (hu : s.used sb b = false) :
    sb.nmeta ≤ b ∧ own b = none ∧ ¬ lim b := by
  have hno := mt (h.used b hb).mpr (by simp [hu])
  rw [not_or, not_or, not_not] at hno
  exact ⟨by omega, hno.2.1, hno.2.2⟩

/-! ## The rules -/

/-- The table depends on the free map and on the indirect blocks only. -/
theorem Owns.congr (hu : ∀ b < sb.size, s'.used sb b = s.used sb b)
    (hr : ∀ i sl, i < sb.ninodes → (ino i).type ≠ 0 → s'.ref (ino i) sl = s.ref (ino i) sl) :
    Owns sb s' ino own lim where
  ref i sl b hb := by
    rw [← h.ref i sl b hb]
    constructor
    · rintro ⟨h1, h2, h3⟩
      exact ⟨h1, h2, by rw [← hr i sl h1 h2, h3]⟩
    · rintro ⟨h1, h2, h3⟩
      exact ⟨h1, h2, by rw [hr i sl h1 h2, h3]⟩
  data := h.data
  apart := h.apart
  used b hb := by rw [hu b hb, h.used b hb]

/-- Of the inodes only the types and the places matter. -/
theorem Owns.of_refs (ht : ∀ j < sb.ninodes, (ino' j).type = (ino j).type)
    (hr : ∀ j sl, j < sb.ninodes → (ino j).type ≠ 0 → s.ref (ino' j) sl = s.ref (ino j) sl) :
    Owns sb s ino' own lim := by
  refine ⟨fun i sl b hb => ?_, h.data, h.apart, h.used⟩
  rw [← h.ref i sl b hb]
  refine and_congr_right fun hi => ?_
  rw [ht i hi]
  refine and_congr_right fun htype => ?_
  rw [hr i sl hi htype]

/-- A write to a block that is neither of the bitmap nor an indirect block. -/
theorem Owns.write (hmap : ∀ b < sb.size, x ≠ sb.BBLOCK b)
    (hind : ∀ i, own x ≠ some (i, .indirect)) : Owns sb (s.write x c) ino own lim := by
  refine h.congr (fun b hb => used_write (hmap b hb)) fun i sl hi ht => ?_
  refine ref_congr (fun hz => write_of_ne ?_) sl
  intro hx
  exact hind i (hx ▸ h.owner_indirect hi ht hz)

theorem Owns.add {p : Pos} (hp : p.1 < sb.ninodes)
    (ht : (ino p.1).type ≠ 0) (hz : s.ref (ino p.1) p.2 = 0) (hb : b < sb.size)
    (hfree : s.used sb b = false) (htype : ∀ j, (ino' j).type = (ino j).type)
    (hused : ∀ x < sb.size, s'.used sb x = (s.used sb x || x = b))
    (href : ∀ j sl, j < sb.ninodes → (ino j).type ≠ 0 →
      s'.ref (ino' j) sl = if (j, sl) = p then b else s.ref (ino j) sl) :
    Owns sb s' ino' (update own b (some p)) lim := by
  obtain ⟨hdata, hnone, hlim⟩ := h.fresh hb hfree
  refine ⟨fun j sl x hx => ?_, fun x hx => ?_, fun x hx => ?_, fun x hx => ?_⟩
  · rw [htype]
    by_cases hxb : x = b
    · -- the new block occurs at `p` only
      subst hxb
      rw [update_self, Option.some_inj]
      constructor
      · rintro ⟨hj, htj, hr⟩
        rw [href j sl hj htj] at hr
        split at hr
        · next hp' => exact hp'.symm
        · have := (h.ref j sl x hx).mp ⟨hj, htj, hr⟩
          rw [hnone] at this
          cases this
      · rintro rfl
        exact ⟨hp, ht, by rw [href _ _ hp ht, if_pos rfl]⟩
    · rw [update_of_ne hxb, ← h.ref j sl x hx]
      refine and_congr_right fun hj => and_congr_right fun htj => ?_
      rw [href j sl hj htj]
      split
      · next hp' =>
        subst hp'
        rw [hz]
        exact ⟨fun he => absurd he.symm hxb, fun he => absurd he.symm hx⟩
      · rfl
  · by_cases hxb : x = b
    · exact ⟨hxb ▸ hdata, hxb ▸ hb⟩
    · rw [update_of_ne hxb] at hx
      exact h.data x hx
  · have hxb : x ≠ b := fun he => hlim (he ▸ hx)
    rw [update_of_ne hxb]
    exact h.apart x hx
  · rw [hused x hx]
    by_cases hxb : x = b
    · simp [hxb]
    · rw [update_of_ne hxb]
      simp [hxb, h.used x hx]

end

/-! ## Free blocks -/

/-- The blocks that are not marked. -/
def Disk.freeSet (sb : Superblock) (s : Disk) : Finset Nat :=
  (Finset.range sb.size).filter fun b => s.used sb b = false

/-- The number of blocks that are not marked. -/
def Disk.nfree (sb : Superblock) (s : Disk) : Nat := (s.freeSet sb).card

theorem mem_freeSet : b ∈ s.freeSet sb ↔ b < sb.size ∧ s.used sb b = false := by
  simp [Disk.freeSet]

theorem nfree_congr (h : ∀ b < sb.size, s'.used sb b = s.used sb b) : s'.nfree sb = s.nfree sb := by
  unfold Disk.nfree
  congr 1
  ext b
  rw [mem_freeSet, mem_freeSet]
  exact and_congr_right fun hb => by rw [h b hb]

theorem nfree_of_used (hb : b < sb.size) (hfree : s.used sb b = false)
    (h : ∀ x < sb.size, s'.used sb x = (s.used sb x || x = b)) : s'.nfree sb + 1 = s.nfree sb := by
  have hset : s'.freeSet sb = (s.freeSet sb).erase b := by
    ext x
    rw [Finset.mem_erase, mem_freeSet, mem_freeSet]
    constructor
    · rintro ⟨hx, hu⟩
      rw [h x hx, Bool.or_eq_false_iff] at hu
      exact ⟨by simpa using hu.2, hx, hu.1⟩
    · rintro ⟨hne, hx, hu⟩
      exact ⟨hx, by rw [h x hx, hu]; simpa using hne⟩
  unfold Disk.nfree
  rw [hset]
  exact Finset.card_erase_add_one (mem_freeSet.mpr ⟨hb, hfree⟩)

/-- `balloc` gives a data block without an owner, if there is one. -/
theorem Owns.balloc (h : Owns sb s ino own lim) :
    (s.nfree sb = 0 ∧ Fails (Fs.balloc sb) s "balloc: out of blocks") ∨
    (∃ b, Does (Fs.balloc sb) s b (s.alloc sb b) ∧ b < sb.size ∧ s.used sb b = false ∧
      sb.nmeta ≤ b ∧ own b = none) := by
  rcases balloc_spec sb s with ⟨b, hb, hfree, -, he⟩ | ⟨hfull, he⟩
  · obtain ⟨hdata, hnone, -⟩ := h.fresh hb hfree
    exact .inr ⟨b, he, hb, hfree, hdata, hnone⟩
  · refine .inl ⟨?_, congrArg Prod.fst he⟩
    unfold Disk.nfree
    rw [Finset.card_eq_zero, Finset.eq_empty_iff_forall_notMem]
    intro b hb
    obtain ⟨hlt, hu⟩ := mem_freeSet.mp hb
    rw [hfull b hlt] at hu
    cases hu

/-! ## `bmap` -/

/-- Block `bn` of a file. -/
def slotOf (bn : Nat) : Slot :=
  if h : bn < NDIRECT then .direct ⟨bn, h⟩
  else .entry ⟨(bn - NDIRECT) % NINDIRECT, Nat.mod_lt _ (by decide)⟩

theorem slotOf_direct (h : bn < NDIRECT) : slotOf bn = .direct ⟨bn, h⟩ := dif_pos h

theorem slotOf_entry (h : ¬ bn < NDIRECT) (hlt : bn - NDIRECT < NINDIRECT) :
    slotOf bn = .entry ⟨bn - NDIRECT, hlt⟩ := by
  unfold slotOf
  rw [dif_neg h]
  congr 1
  exact Fin.ext (Nat.mod_eq_of_lt hlt)

theorem slotOf_ne_indirect (bn : Nat) : slotOf bn ≠ .indirect := by
  unfold slotOf
  split <;> simp

theorem slotOf_inj {m n : Nat} (hm : m < MAXFILE) (hn : n < MAXFILE) (h : slotOf m = slotOf n) :
    m = n := by
  simp only [MAXFILE, NINDIRECT, BSIZE] at hm hn
  by_cases h1 : m < NDIRECT <;> by_cases h2 : n < NDIRECT
  · rw [slotOf_direct h1, slotOf_direct h2] at h
    simpa using h
  · rw [slotOf_direct h1, slotOf_entry h2 (by simp only [NINDIRECT, BSIZE]; omega)] at h
    cases h
  · rw [slotOf_direct h2, slotOf_entry h1 (by simp only [NINDIRECT, BSIZE]; omega)] at h
    cases h
  · rw [slotOf_entry h1 (by simp only [NINDIRECT, BSIZE]; omega),
      slotOf_entry h2 (by simp only [NINDIRECT, BSIZE]; omega)] at h
    simp only [Slot.entry.injEq, Fin.mk.injEq] at h
    omega

/-- Blocks were added to inode `ip`: what occurred before still does, and no
    block that had an owner changed, except the indirect block of `ip`. -/
structure Ext (sb : Superblock) (s : Disk) (ip : Inode) (own : Nat → Option Pos) (s' : Disk)
    (ip' : Inode) (own' : Nat → Option Pos) : Prop where
  same   : ip' = { ip with addrs := ip'.addrs }
  kept   : ∀ sl, s.ref ip.toDinode sl ≠ 0 → s'.ref ip'.toDinode sl = s.ref ip.toDinode sl
  owner  : ∀ x p, own x = some p → own' x = some p
  blocks : ∀ x p, own x = some p → p ≠ (ip.inum, .indirect) → s'.blocks x = s.blocks x
  iblock : ∀ j < sb.ninodes, s'.blocks (sb.IBLOCK j) = s.blocks (sb.IBLOCK j)

variable {ip ip' ip'' : Inode} {s'' : Disk} {own'' : Nat → Option Pos}

theorem Ext.refl (s : Disk) (ip : Inode) (own : Nat → Option Pos) : Ext sb s ip own s ip own :=
  ⟨rfl, fun _ _ => rfl, fun _ _ => id, fun _ _ _ _ => rfl, fun _ _ => rfl⟩

theorem Ext.inum (h : Ext sb s ip own s' ip' own') : ip'.inum = ip.inum := by rw [h.same]

theorem Ext.type (h : Ext sb s ip own s' ip' own') : ip'.type = ip.type := by rw [h.same]

theorem Ext.trans (h : Ext sb s ip own s' ip' own') (h' : Ext sb s' ip' own' s'' ip'' own'') :
    Ext sb s ip own s'' ip'' own'' where
  same := by
    rw [h'.same, h.same]
  kept sl hsl := by
    have h1 := h.kept sl hsl
    rw [h'.kept sl (by rw [h1]; exact hsl), h1]
  owner x p hx := h'.owner x p (h.owner x p hx)
  blocks x p hx hp := by
    rw [h'.blocks x p (h.owner x p hx) (by rw [h.inum]; exact hp), h.blocks x p hx hp]
  iblock j hj := by rw [h'.iblock j hj, h.iblock j hj]

theorem mem_logged_write {y : Nat} : y ∈ (s.write x c).logged ↔ y ∈ s.logged ∨ y = x := by
  simp [Disk.write]

theorem mem_logged_alloc : x ∈ (s.alloc sb b).logged ↔ x ∈ s.logged ∨ x = b ∨ x = sb.BBLOCK b := by
  unfold Disk.alloc
  rw [mem_logged_write, mem_logged_write, or_assoc, or_comm (a := x = _)]

theorem word_zero (j : Nat) : (Block.fill 0).word j = 0 := by
  unfold Block.word
  have : (Block.fill 0).bytes = fun _ => 0 := by
    funext x
    simp [Block.bytes, Block.fill]
  rw [this, load_zero]

section Alloc

variable (hsb : sb.Ok) (h : Owns sb s ino own lim) (hip : ino ip.inum = ip.toDinode)
  (hi : ip.inum < sb.ninodes) (ht : ip.type ≠ 0) (hb : b < sb.size)
  (hfree : s.used sb b = false)

include hsb h hb hfree

/-- Blocks with an owner are not the new one, nor of the bitmap. -/
theorem Owns.alloc_owned (hx : own x ≠ none) : (s.alloc sb b).blocks x = s.blocks x := by
  obtain ⟨-, hnone, -⟩ := h.fresh hb hfree
  refine alloc_blocks (fun he => hx (by rw [he, hnone])) ?_
  exact ne_bblock_of_data hsb (h.data x (.inl hx)).1 hb

theorem Owns.alloc_iblock (hj : j < sb.ninodes) :
    (s.alloc sb b).blocks (sb.IBLOCK j) = s.blocks (sb.IBLOCK j) := by
  obtain ⟨hdata, -⟩ := h.fresh hb hfree
  exact alloc_blocks (iblock_ne_data hsb hj hdata) (iblock_ne_bblock hsb hj)

theorem Owns.alloc_ref (hj : j < sb.ninodes) (htj : (ino j).type ≠ 0) (sl : Slot) :
    (s.alloc sb b).ref (ino j) sl = s.ref (ino j) sl := by
  refine ref_congr (fun hz => h.alloc_owned hsb hb hfree ?_) sl
  rw [h.owner_indirect hj htj hz]
  simp

include hip hi ht

/-- A new block whose number goes to an empty address of the inode. -/
theorem Owns.addAddr {a : Fin (NDIRECT + 1)} {sl0 : Slot} (hz : s.ref ip.toDinode sl0 = 0)
    (href : ∀ sl, (s.alloc sb b).ref (ip.setAddr a b).toDinode sl =
      if sl = sl0 then b else s.ref ip.toDinode sl) :
    Owns sb (s.alloc sb b) (update ino ip.inum (ip.setAddr a b).toDinode)
      (update own b (some (ip.inum, sl0))) lim ∧
    Ext sb s ip own (s.alloc sb b) (ip.setAddr a b) (update own b (some (ip.inum, sl0))) ∧
    ∀ sl, (s.alloc sb b).ref (ip.setAddr a b).toDinode sl =
      if sl = sl0 then b else s.ref ip.toDinode sl := by
  obtain ⟨hdata, hnone, -⟩ := h.fresh hb hfree
  refine ⟨?_, ⟨rfl, fun sl hsl => ?_, fun x p hx => ?_, fun x p hx _ => ?_,
    fun j hj => h.alloc_iblock hsb hb hfree hj⟩, href⟩
  · refine h.add hi (by rw [hip]; exact ht) (by rw [hip]; exact hz) hb hfree (fun j => ?_)
      (fun x hx => used_alloc hsb hdata hx) fun j sl hj htj => ?_
    · by_cases hj : j = ip.inum
      · subst hj
        rw [update_self, hip]
        rfl
      · rw [update_of_ne hj]
    · by_cases hji : j = ip.inum
      · subst hji
        rw [update_self, href sl, hip]
        simp
      · rw [update_of_ne hji, if_neg (by simp [hji]), h.alloc_ref hsb hb hfree hj htj]
  · rw [href sl, if_neg]
    rintro rfl
    exact hsl hz
  · rw [update_of_ne (fun he => by rw [he, hnone] at hx; cases hx), hx]
  · exact h.alloc_owned hsb hb hfree (by rw [hx]; simp)

theorem Owns.addDirect {k : Fin NDIRECT} (hz : ip.addrs k.castSucc = 0) :
    Owns sb (s.alloc sb b) (update ino ip.inum (ip.setAddr k.castSucc b).toDinode)
      (update own b (some (ip.inum, .direct k))) lim ∧
    Ext sb s ip own (s.alloc sb b) (ip.setAddr k.castSucc b)
      (update own b (some (ip.inum, .direct k))) ∧
    ∀ sl, (s.alloc sb b).ref (ip.setAddr k.castSucc b).toDinode sl =
      if sl = .direct k then b else s.ref ip.toDinode sl := by
  have hlast : INDIRECT ≠ k.castSucc := (castSucc_ne_indirect k).symm
  have href : ∀ sl, (s.alloc sb b).ref (ip.setAddr k.castSucc b).toDinode sl =
      if sl = .direct k then b else s.ref ip.toDinode sl := by
    intro sl
    have hold := h.alloc_ref hsb hb hfree hi (by rw [hip]; exact ht) sl
    rw [hip] at hold
    cases sl with
    | direct k' =>
      by_cases hk : k' = k
      · subst hk
        rw [if_pos rfl]
        exact setAddr_self ..
      · rw [if_neg (by simpa using hk)]
        exact setAddr_of_ne _ (fun he => hk (Fin.castSucc_inj.mp he)) _
    | indirect =>
      rw [if_neg (by simp)]
      exact setAddr_of_ne _ hlast _
    | entry j =>
      rw [if_neg (by simp), ← hold]
      have haddr := setAddr_of_ne ip hlast b
      simp only [Disk.ref, haddr]
  exact h.addAddr hsb hip hi ht hb hfree hz href

theorem Owns.addIndirect (hz : ip.addrs INDIRECT = 0) :
    Owns sb (s.alloc sb b) (update ino ip.inum (ip.setAddr INDIRECT b).toDinode)
      (update own b (some (ip.inum, .indirect))) lim ∧
    Ext sb s ip own (s.alloc sb b) (ip.setAddr INDIRECT b)
      (update own b (some (ip.inum, .indirect))) ∧
    ∀ sl, (s.alloc sb b).ref (ip.setAddr INDIRECT b).toDinode sl =
      if sl = .indirect then b else s.ref ip.toDinode sl := by
  have href : ∀ sl, (s.alloc sb b).ref (ip.setAddr INDIRECT b).toDinode sl =
      if sl = .indirect then b else s.ref ip.toDinode sl := by
    intro sl
    cases sl with
    | direct k =>
      rw [if_neg (by simp)]
      exact setAddr_of_ne _ (castSucc_ne_indirect k) _
    | indirect =>
      rw [if_pos rfl]
      exact setAddr_self ..
    | entry j =>
      -- the new block holds no block numbers
      have haddr := setAddr_self ip INDIRECT b
      rw [if_neg (by simp)]
      simp only [Disk.ref, haddr, hz, if_true, alloc_self, word_zero, ite_self]
  exact h.addAddr hsb hip hi ht hb hfree hz href

theorem Owns.addEntry {j : Fin NINDIRECT} (hind : ip.addrs INDIRECT ≠ 0)
    (hz : (s.blocks (ip.addrs INDIRECT)).word j = 0) :
    Owns sb ((s.alloc sb b).write (ip.addrs INDIRECT)
        ((s.blocks (ip.addrs INDIRECT)).setWord j b)) ino
      (update own b (some (ip.inum, .entry j))) lim ∧
    Ext sb s ip own ((s.alloc sb b).write (ip.addrs INDIRECT)
        ((s.blocks (ip.addrs INDIRECT)).setWord j b)) ip
      (update own b (some (ip.inum, .entry j))) ∧
    (∀ sl, ((s.alloc sb b).write (ip.addrs INDIRECT)
        ((s.blocks (ip.addrs INDIRECT)).setWord j b)).ref ip.toDinode sl =
      if sl = .entry j then b else s.ref ip.toDinode sl) ∧
    ((s.alloc sb b).write (ip.addrs INDIRECT)
        ((s.blocks (ip.addrs INDIRECT)).setWord j b)).blocks b = .fill 0 := by
  obtain ⟨hdata, hnone, -⟩ := h.fresh hb hfree
  have htype : (ino ip.inum).type ≠ 0 := by
    rw [hip]
    exact ht
  have hown : own (ip.addrs INDIRECT) = some (ip.inum, .indirect) := by
    have := h.owner_indirect hi htype (by rw [hip]; exact hind)
    rwa [hip] at this
  have hindData := (h.data _ (.inl (by rw [hown]; simp))).1
  have hne : b ≠ ip.addrs INDIRECT := by
    intro he
    rw [he, hown] at hnone
    cases hnone
  have hsz := hsb.size_lt
  have hj4 : 4 * (j : Nat) + 4 ≤ BSIZE := by
    have := j.isLt
    simp only [NINDIRECT, BSIZE] at this ⊢
    omega
  have href : ∀ sl, ((s.alloc sb b).write (ip.addrs INDIRECT)
        ((s.blocks (ip.addrs INDIRECT)).setWord j b)).ref ip.toDinode sl =
      if sl = .entry j then b else s.ref ip.toDinode sl := by
    intro sl
    cases sl with
    | direct k | indirect => rw [if_neg (by simp)]; rfl
    | entry j' =>
      simp only [Disk.ref, if_neg hind, write_self]
      by_cases hjj : j' = j
      · subst hjj
        rw [if_pos rfl, Block.word_setWord_self hj4 (by omega)]
      · have hj4' : 4 * (j' : Nat) + 4 ≤ BSIZE := by
          have := j'.isLt
          simp only [NINDIRECT, BSIZE] at this ⊢
          omega
        rw [if_neg (by simpa using hjj), Block.word_setWord_of_ne hj4' fun he => hjj (Fin.ext he)]
  have hz' : s.ref ip.toDinode (.entry j) = 0 := by
    simp only [Disk.ref, if_neg hind, hz]
  refine ⟨?_, ⟨rfl, fun sl hsl => ?_, fun x p hx => ?_, fun x p hx hp => ?_, fun j' hj' => ?_⟩,
    href, ?_⟩
  · refine h.add hi htype (by rw [hip]; exact hz') hb hfree (fun _ => rfl) (fun x hx => ?_)
      fun j' sl hj' htj => ?_
    · rw [used_write (ne_bblock_of_data hsb hindData hx), used_alloc hsb hdata hx]
    · by_cases hji : j' = ip.inum
      · subst hji
        rw [hip, href sl]
        simp
      · -- another inode has another indirect block
        rw [if_neg (by simp [hji]), ← h.alloc_ref hsb hb hfree hj' htj sl]
        refine ref_congr (fun hzj => write_of_ne fun he => hji ?_) sl
        have := h.owner_indirect hj' htj hzj
        rw [he, hown] at this
        simpa using this.symm
  · rw [href sl, if_neg]
    rintro rfl
    exact hsl hz'
  · rw [update_of_ne (fun he => by rw [he, hnone] at hx; cases hx), hx]
  · rw [write_of_ne (fun he => hp (by rw [he, hown] at hx; exact (Option.some.inj hx).symm)),
      h.alloc_owned hsb hb hfree (by simp [hx])]
  · rw [write_of_ne (iblock_ne_data hsb hj' hindData), h.alloc_iblock hsb hb hfree hj']
  · rw [write_of_ne hne, alloc_self]

end Alloc

/-- The blocks that `bmap` takes. -/
def Disk.bmapNeed (s : Disk) (ip : Inode) (bn : Nat) : Nat :=
  if s.ref ip.toDinode (slotOf bn) ≠ 0 then 0
  else if bn < NDIRECT ∨ ip.addrs INDIRECT ≠ 0 then 1 else 2

/-- The result of `bmap`. -/
structure Bmapped (sb : Superblock) (s : Disk) (ip : Inode) (own : Nat → Option Pos) (bn b : Nat)
    (s' : Disk) (ip' : Inode) (own' : Nat → Option Pos) : Prop where
  ext    : Ext sb s ip own s' ip' own'
  addr   : s'.ref ip'.toDinode (slotOf bn) = b
  ne     : b ≠ 0
  mapped : s.ref ip.toDinode (slotOf bn) ≠ 0 → s' = s ∧ ip' = ip
  zero   : s.ref ip.toDinode (slotOf bn) = 0 → own b = none ∧ s'.blocks b = .fill 0
  only   : ∀ sl, sl ≠ slotOf bn → sl ≠ .indirect → s'.ref ip'.toDinode sl = s.ref ip.toDinode sl
  direct : bn < NDIRECT → ip'.addrs INDIRECT = ip.addrs INDIRECT
  nfree  : s'.nfree sb + s.bmapNeed ip bn = s.nfree sb
  logged : ∀ x, x ∈ s'.logged ↔ x ∈ s.logged ∨ s.ref ip.toDinode (slotOf bn) = 0 ∧
    (x = b ∨ x = sb.BBLOCK b ∨ ¬ bn < NDIRECT ∧ (x = ip'.addrs INDIRECT ∨
      ip.addrs INDIRECT = 0 ∧ x = sb.BBLOCK (ip'.addrs INDIRECT)))

theorem nfree_write (h : ∀ b < sb.size, x ≠ sb.BBLOCK b) : (s.write x c).nfree sb = s.nfree sb :=
  nfree_congr fun b hb => used_write (h b hb)

theorem bmapNeed_mapped (h : s.ref ip.toDinode (slotOf bn) ≠ 0) : s.bmapNeed ip bn = 0 := if_pos h

/-- The block is there already. -/
theorem Bmapped.found (h : s.ref ip.toDinode (slotOf bn) = b) (hz : b ≠ 0) :
    Bmapped sb s ip own bn b s ip own := by
  subst h
  exact ⟨.refl s ip own, rfl, hz, fun _ => ⟨rfl, rfl⟩, fun hc => absurd hc hz, fun _ _ _ => rfl,
    fun _ => rfl, by rw [bmapNeed_mapped hz, add_zero], fun x => by simp [hz]⟩

theorem bmapNeed_one (h : s.ref ip.toDinode (slotOf bn) = 0)
    (h' : bn < NDIRECT ∨ ip.addrs INDIRECT ≠ 0) : s.bmapNeed ip bn = 1 := by
  unfold Disk.bmapNeed
  rw [if_neg (not_not.mpr h), if_pos h']

theorem bmapNeed_two (h : ¬ bn < NDIRECT) (h' : ip.addrs INDIRECT = 0)
    (hlt : bn - NDIRECT < NINDIRECT) : s.bmapNeed ip bn = 2 := by
  have hz : s.ref ip.toDinode (slotOf bn) = 0 := by
    rw [slotOf_entry h hlt]
    exact if_pos h'
  unfold Disk.bmapNeed
  rw [if_neg (not_not.mpr hz), if_neg (by simp [h, h'])]

section Bmap

variable (hsb : sb.Ok) (h : Owns sb s ino own lim) (hip : ino ip.inum = ip.toDinode)
  (hi : ip.inum < sb.ninodes) (ht : ip.type ≠ 0) {bn : Nat}

include hsb h hip hi ht

theorem bmap_direct (hd : bn < NDIRECT) :
    (s.nfree sb < s.bmapNeed ip bn ∧ Fails (bmap sb ip bn) s "balloc: out of blocks") ∨
    ∃ b ip' s' own', Does (bmap sb ip bn) s (b, ip') s' ∧
      Owns sb s' (update ino ip.inum ip'.toDinode) own' lim ∧
      Bmapped sb s ip own bn b s' ip' own' := by
  have hslot := slotOf_direct hd
  have href : s.ref ip.toDinode (slotOf bn) = ip.addrs ⟨bn, Nat.lt_succ_of_lt hd⟩ := by
    rw [hslot]
    rfl
  by_cases hz : ip.addrs ⟨bn, Nat.lt_succ_of_lt hd⟩ = 0
  · have hneed := bmapNeed_one (href.trans hz) (.inl hd)
    rcases h.balloc with ⟨hnone, he⟩ | ⟨b, he, hb, hfree, hdata, hown⟩
    · refine .inl ⟨by omega, ?_⟩
      unfold bmap
      rw [dif_pos hd, if_pos hz]
      exact he.bind
    · obtain ⟨hinv, hext, hnew⟩ := h.addDirect hsb hip hi ht hb hfree (k := ⟨bn, hd⟩) hz
      refine .inr ⟨b, _, _, _, ?_, hinv, hext, ?_, ?_, fun hc => ?_, fun _ => ⟨hown, alloc_self⟩,
        fun sl h1 _ => ?_, fun _ => setAddr_of_ne _ (castSucc_ne_indirect ⟨bn, hd⟩).symm _, ?_,
        fun x => ?_⟩
      · unfold Does bmap
        rw [dif_pos hd, if_pos hz, bind_of_does he]
        rfl
      · rw [hnew, hslot, if_pos rfl]
      · have := hsb.bmapstart_lt
        omega
      · exact absurd (href.trans hz) hc
      · rw [hnew sl, if_neg (hslot ▸ h1)]
      · rw [hneed]
        exact nfree_of_used hb hfree fun x hx => used_alloc hsb hdata hx
      · simp [mem_logged_alloc, href, hz, hd]
  · refine .inr ⟨_, ip, s, own, ?_, ?_, .found href hz⟩
    · unfold Does bmap
      rw [dif_pos hd, if_neg hz]
      rfl
    · rw [← hip, update_eq_self]
      exact h

/-- The part of `bmap` after the indirect block is there. -/
theorem bmapEntry_spec (hd : ¬ bn < NDIRECT) (hlt : bn - NDIRECT < NINDIRECT)
    (hind : ip.addrs INDIRECT ≠ 0) :
    (s.nfree sb < s.bmapNeed ip bn ∧
      Fails (bmapEntry sb (ip.addrs INDIRECT) ip (bn - NDIRECT)) s "balloc: out of blocks") ∨
    ∃ b s' own', Does (bmapEntry sb (ip.addrs INDIRECT) ip (bn - NDIRECT)) s (b, ip) s' ∧
      Owns sb s' ino own' lim ∧ Bmapped sb s ip own bn b s' ip own' := by
  have hslot := slotOf_entry hd hlt
  have href : s.ref ip.toDinode (slotOf bn) =
      (s.blocks (ip.addrs INDIRECT)).word (bn - NDIRECT) := by
    rw [hslot]
    exact if_neg hind
  by_cases hz : (s.blocks (ip.addrs INDIRECT)).word (bn - NDIRECT) = 0
  · have hneed := bmapNeed_one (href.trans hz) (.inr hind)
    rcases h.balloc with ⟨hnone, he⟩ | ⟨b, he, hb, hfree, hdata, hown⟩
    · refine .inl ⟨by omega, ?_⟩
      unfold Fails bmapEntry
      rw [bind_of_does does_bread, if_pos hz]
      exact he.bind
    · obtain ⟨hinv, hext, hnew, hzero⟩ := h.addEntry hsb hip hi ht hb hfree
        (j := ⟨bn - NDIRECT, hlt⟩) hind hz
      have hindData : sb.nmeta ≤ ip.addrs INDIRECT := by
        have := h.owner_indirect hi (by rw [hip]; exact ht) (by rw [hip]; exact hind)
        rw [hip] at this
        exact (h.data _ (.inl (by simp [this]))).1
      refine .inr ⟨b, _, _, ?_, hinv, hext, ?_, ?_, fun hc => ?_, fun _ => ⟨hown, hzero⟩,
        fun sl h1 _ => ?_, fun _ => rfl, ?_, fun x => ?_⟩
      · unfold Does bmapEntry
        rw [bind_of_does does_bread, if_pos hz, bind_of_does he]
        rfl
      · rw [hnew, hslot, if_pos rfl]
      · have := hsb.bmapstart_lt
        omega
      · exact absurd (href.trans hz) hc
      · rw [hnew sl, if_neg (hslot ▸ h1)]
      · rw [hneed, nfree_write fun x hx => ne_bblock_of_data hsb hindData hx]
        exact nfree_of_used hb hfree fun x hx => used_alloc hsb hdata hx
      · rw [mem_logged_write, mem_logged_alloc]
        simp [href, hz, hd, hind, or_assoc]
  · refine .inr ⟨_, s, own, ?_, h, .found href hz⟩
    unfold Does bmapEntry
    rw [bind_of_does does_bread, if_neg hz]
    rfl

/-- `bmap` finds the block or adds it; the only failure is a full disk. -/
theorem bmap_spec (hbn : bn < MAXFILE) :
    (s.nfree sb < s.bmapNeed ip bn ∧ Fails (bmap sb ip bn) s "balloc: out of blocks") ∨
    ∃ b ip' s' own', Does (bmap sb ip bn) s (b, ip') s' ∧
      Owns sb s' (update ino ip.inum ip'.toDinode) own' lim ∧
      Bmapped sb s ip own bn b s' ip' own' := by
  by_cases hd : bn < NDIRECT
  · exact bmap_direct hsb h hip hi ht hd
  have hlt : bn - NDIRECT < NINDIRECT := by
    simp only [MAXFILE] at hbn
    omega
  have hbmap : bmap sb ip bn =
      bmapIndirect sb ip >>= fun r => bmapEntry sb r.1 r.2 (bn - NDIRECT) := by
    unfold bmap
    rw [dif_neg hd, if_pos hlt]
  rw [hbmap]
  by_cases hind : ip.addrs INDIRECT = 0
  swap
  · have hstep : Does (bmapIndirect sb ip) s (ip.addrs INDIRECT, ip) s := by
      unfold Does bmapIndirect
      rw [if_neg hind]
      rfl
    unfold Does Fails
    rw [bind_of_does hstep]
    rcases bmapEntry_spec hsb h hip hi ht hd hlt hind with hfull | ⟨b, s', own', he, hinv, hres⟩
    · exact .inl hfull
    · refine .inr ⟨b, ip, s', own', he, ?_, hres⟩
      rw [← hip, update_eq_self]
      exact hinv
  -- the indirect block first
  have hneed := bmapNeed_two (s := s) hd hind hlt
  rcases h.balloc with ⟨hnone, he⟩ | ⟨b1, he, hb, hfree, hdata, hown⟩
  · refine .inl ⟨by omega, Fails.bind ?_⟩
    unfold bmapIndirect
    rw [if_pos hind]
    exact he.bind
  obtain ⟨h₁, hext1, href1⟩ := h.addIndirect hsb hip hi ht hb hfree hind
  have hstep : Does (bmapIndirect sb ip) s (b1, ip.setAddr INDIRECT b1) (s.alloc sb b1) := by
    unfold Does bmapIndirect
    rw [if_pos hind, bind_of_does he]
    rfl
  have haddr := setAddr_self ip INDIRECT b1
  have hb0 : b1 ≠ 0 := by
    have := hsb.bmapstart_lt
    omega
  have hfree1 := nfree_of_used hb hfree fun x hx => used_alloc hsb hdata hx
  have hz1 : (s.alloc sb b1).ref (ip.setAddr INDIRECT b1).toDinode (slotOf bn) = 0 := by
    rw [href1, if_neg (slotOf_ne_indirect bn), slotOf_entry hd hlt]
    exact if_pos hind
  have hneed1 := bmapNeed_one hz1 (.inr (by rw [haddr]; exact hb0))
  unfold Does Fails
  rw [bind_of_does hstep]
  have hip1 : update ino ip.inum (ip.setAddr INDIRECT b1).toDinode
      (ip.setAddr INDIRECT b1).inum = (ip.setAddr INDIRECT b1).toDinode := update_self ..
  have hentry := bmapEntry_spec hsb h₁ hip1 hi ht hd hlt (by rw [haddr]; exact hb0)
  rw [haddr] at hentry
  rcases hentry with ⟨hfull, he2⟩ | ⟨b, s', own', he2, h₂, hres⟩
  · exact .inl ⟨by omega, he2⟩
  · refine .inr ⟨b, _, s', own', he2, ?_, hext1.trans hres.ext, hres.addr, hres.ne, fun hc => ?_,
      fun _ => ?_, fun sl h1 h2 => ?_, fun hc => absurd hc hd, ?_, fun x => ?_⟩
    · rw [show ip.inum = (ip.setAddr INDIRECT b1).inum from rfl]
      exact h₂
    · exact absurd hc (by rw [slotOf_entry hd hlt]; exact not_not.mpr (if_pos hind))
    · obtain ⟨hno, hzero⟩ := hres.zero hz1
      refine ⟨?_, hzero⟩
      have hbb : b ≠ b1 := by
        rintro rfl
        rw [update_self] at hno
        cases hno
      rwa [update_of_ne hbb] at hno
    · rw [hres.only sl h1 h2, href1, if_neg h2]
    · have := hres.nfree
      omega
    · have hz : s.ref ip.toDinode (slotOf bn) = 0 := by
        rw [slotOf_entry hd hlt]
        exact if_pos hind
      rw [hres.logged, mem_logged_alloc]
      simp only [hz1, hz, haddr, hind, hd, hb0, true_and, false_and, or_false, not_false_iff]
      grind

end Bmap

end Xv6.Fs
