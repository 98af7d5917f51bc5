import Xv6.Mkfs.Image

/-! # The blocks of an image

    A table `own` lists where each block number occurs, as for a mounted disk; the blocks behind
    `freeblock` are zero and occur nowhere.

    - `Laid.add`: the next block gets an owner
    - `blockFor_spec`: the block for the next bytes, taken if necessary
    - `blockFor_full`: without room it cannot be read
-/

namespace Xv6.Mkfs

open ByteMem Fs Program Function

/-! ## Sectors -/

section Sectors

variable {s : Image} {x y : Nat} {d : Block}

theorem sector_of_lt (h : x < 2 ^ 23) : sector x = x := by
  unfold sector u32
  simp only [BSIZE]
  omega

theorem ends_rsect (h : x < FSSIZE) (hs : s.sectors = FSSIZE) :
    Ends (rsect x) s (s.blocks x) s := by
  have hx : sector x = x := sector_of_lt (by simp only [FSSIZE] at h; omega)
  unfold rsect
  rw [ends_get_bind, hx, if_pos (by omega)]
  exact ends_pure.mpr ⟨rfl, rfl⟩

theorem rsect_error (h : FSSIZE ≤ x) (hx : x < 2 ^ 23) (hs : s.sectors = FSSIZE) :
    (rsect x).run s = .error "read" := by
  unfold rsect
  rw [run_bind_of_ends (ends_get.mpr ⟨rfl, rfl⟩), sector_of_lt hx, if_neg (by omega)]
  rfl

theorem ends_wsect : Ends (wsect x d) s () (s.write x d) := ends_modify.mpr rfl

theorem write_blocks (h : x < FSSIZE) : (s.write x d).blocks = update s.blocks x d := by
  have hx : sector x = x := sector_of_lt (by simp only [FSSIZE] at h; omega)
  show update s.blocks (sector x) d = _
  rw [hx]

theorem write_blocks_of_ne (h : x < FSSIZE) (hy : y ≠ x) : (s.write x d).blocks y = s.blocks y := by
  rw [write_blocks h, update_of_ne hy]

theorem write_blocks_self (h : x < FSSIZE) : (s.write x d).blocks x = d := by
  rw [write_blocks h, update_self]

theorem write_sectors (h : x < FSSIZE) (hs : s.sectors = FSSIZE) :
    (s.write x d).sectors = FSSIZE := by
  have hx : sector x = x := sector_of_lt (by simp only [FSSIZE] at h; omega)
  show max s.sectors (sector x + 1) = _
  rw [hx, hs]
  omega

end Sectors

/-! ## Owners -/

/-- Inodes that were taken. -/
def Image.Live (s : Image) (i : Nat) : Prop := 1 ≤ i ∧ i < s.freeinode

/-- The inodes are `ino`. Block `b` occurs at `own b` and nowhere else. -/
structure Laid (s : Image) (ino : Nat → Dinode) (own : Nat → Option Pos) : Prop where
  sectors : s.sectors = FSSIZE
  low     : nmeta ≤ s.freeblock
  ref     : ∀ i sl b, b ≠ 0 → ((s.Live i ∧ s.disk.ref (ino i) sl = b) ↔ own b = some (i, sl))
  data    : ∀ b, own b ≠ none → nmeta ≤ b ∧ b < s.freeblock
  zero    : ∀ b, s.freeblock ≤ b → s.blocks b = .fill 0

section Owners

variable {s s' : Image} {ino : Nat → Dinode} {own own' : Nat → Option Pos} {i j b : Nat} {sl : Slot}
  {d : Dinode}

theorem Laid.owner (h : Laid s ino own) (hi : s.Live i) (hz : s.disk.ref (ino i) sl ≠ 0) :
    own (s.disk.ref (ino i) sl) = some (i, sl) :=
  (h.ref i sl _ hz).mp ⟨hi, rfl⟩

theorem Laid.in_data (h : Laid s ino own) (hi : s.Live i) (hz : s.disk.ref (ino i) sl ≠ 0) :
    nmeta ≤ s.disk.ref (ino i) sl ∧ s.disk.ref (ino i) sl < s.freeblock := by
  refine h.data _ ?_
  rw [h.owner hi hz]
  simp

theorem Laid.own_next (h : Laid s ino own) (hb : s.freeblock ≤ b) : own b = none := by
  by_contra hne
  have := (h.data b hne).2
  omega

/-- References stay while the blocks with an owner stay, except for data. -/
theorem Laid.ref_same (h : Laid s ino own) (hi : s.Live i)
    (hsame : ∀ x, own x = some (i, .indirect) → s'.blocks x = s.blocks x) (sl : Slot) :
    s'.disk.ref (ino i) sl = s.disk.ref (ino i) sl :=
  ref_congr (fun hz => hsame _ (h.owner hi (show s.disk.ref (ino i) .indirect ≠ 0 from hz))) sl

theorem Laid.page_same (h : Laid s ino own) (hi : s.Live i)
    (hsame : ∀ x sl, own x = some (i, sl) → s'.blocks x = s.blocks x) (m : Nat) :
    s'.disk.page (ino i) m = s.disk.page (ino i) m :=
  page_congr (h.ref_same hi (fun x hx => hsame x _ hx) _) fun hz => hsame _ _ (h.owner hi hz)

/-- What a step of `mkfs` leaves alone: everything but the blocks of inode `i`
    and the blocks that were not taken. -/
structure Frame (s : Image) (own : Nat → Option Pos) (i : Nat) (s' : Image)
    (own' : Nat → Option Pos) : Prop where
  live   : s'.freeinode = s.freeinode
  low    : ∀ x < nmeta, s'.blocks x = s.blocks x
  owner  : ∀ x p, own x = some p → own' x = some p
  others : ∀ x p, own x = some p → p.1 ≠ i → s'.blocks x = s.blocks x

theorem Frame.refl (s : Image) (own : Nat → Option Pos) (i : Nat) : Frame s own i s own :=
  ⟨rfl, fun _ _ => rfl, fun _ _ => id, fun _ _ _ _ => rfl⟩

theorem Frame.trans {s'' : Image} {own'' : Nat → Option Pos} (h : Frame s own i s' own')
    (h' : Frame s' own' i s'' own'') : Frame s own i s'' own'' where
  live := h'.live.trans h.live
  low x hx := (h'.low x hx).trans (h.low x hx)
  owner x p hx := h'.owner x p (h.owner x p hx)
  others x p hx hp := (h'.others x p (h.owner x p hx) hp).trans (h.others x p hx hp)

theorem Frame.live_iff (h : Frame s own i s' own') : s'.Live j ↔ s.Live j := by
  unfold Image.Live
  rw [h.live]

/-- The next block gets an owner: slot `sl` of inode `i`, which becomes `d`. -/
theorem Laid.add (h : Laid s ino own) (hi : s.Live i) (hz : s.disk.ref (ino i) sl = 0)
    (hsec : s'.sectors = FSSIZE) (hlive : s'.freeinode = s.freeinode)
    (hnext : s'.freeblock = s.freeblock + 1)
    (hsame : ∀ x, x < nmeta ∨ (∃ p, own x = some p ∧ p ≠ (i, .indirect)) ∨ s.freeblock ≤ x →
      s'.blocks x = s.blocks x)
    (href : ∀ sl', s'.disk.ref d sl' = if sl' = sl then s.freeblock else s.disk.ref (ino i) sl') :
    Laid s' (update ino i d) (update own s.freeblock (some (i, sl))) ∧
    Frame s own i s' (update own s.freeblock (some (i, sl))) ∧
    ∀ m, s'.disk.page d m = s.disk.page (ino i) m := by
  have hnone := h.own_next le_rfl
  have hlow := h.low
  have hne0 : s.freeblock ≠ 0 := by
    intro hc
    rw [hc] at hlow
    exact absurd hlow (by decide)
  have hlive' : ∀ j, s'.Live j ↔ s.Live j := fun j => by
    unfold Image.Live
    rw [hlive]
  have hother : ∀ j, s.Live j → j ≠ i → ∀ sl', s'.disk.ref (ino j) sl' =
      s.disk.ref (ino j) sl' := by
    intro j hj hji
    refine h.ref_same hj fun x hx => hsame x (.inr (.inl ⟨_, hx, ?_⟩))
    simpa using hji
  have hown : ∀ x p, own x = some p → x ≠ s.freeblock := by
    intro x p hx he
    rw [he, hnone] at hx
    cases hx
  refine ⟨⟨hsec, by omega, fun j sl' x hx => ?_, fun x hx => ?_, fun x hx => ?_⟩,
    ⟨hlive, fun x hx => hsame x (.inl hx), fun x p hx => ?_, fun x p hx hp => ?_⟩, fun m => ?_⟩
  · rw [hlive']
    have hpos : (s.Live j ∧ s'.disk.ref (update ino i d j) sl' = x) ↔
        (s.Live j ∧ (if (j, sl') = (i, sl) then s.freeblock else s.disk.ref (ino j) sl') = x) := by
      refine and_congr_right fun hj => ?_
      by_cases hji : j = i
      · subst hji
        rw [update_self, href sl']
        simp
      · rw [update_of_ne hji, hother j hj hji, if_neg (by simp [hji])]
    rw [hpos]
    by_cases hxb : x = s.freeblock
    · -- the new block occurs at its slot only
      subst hxb
      rw [update_self, Option.some_inj]
      constructor
      · rintro ⟨hj, hr⟩
        split at hr
        · next hp => exact hp.symm
        · have := (h.ref j sl' _ hx).mp ⟨hj, hr⟩
          rw [hnone] at this
          cases this
      · rintro ⟨⟩
        exact ⟨hi, if_pos rfl⟩
    · rw [update_of_ne hxb, ← h.ref j sl' x hx]
      refine and_congr_right fun hj => ?_
      split
      · next hp =>
        cases hp
        rw [hz]
        exact ⟨fun he => absurd he.symm hxb, fun he => absurd he.symm hx⟩
      · rfl
  · by_cases hxb : x = s.freeblock
    · omega
    · rw [update_of_ne hxb] at hx
      have := h.data x hx
      omega
  · rw [hsame x (.inr (.inr (by omega))), h.zero x (by omega)]
  · rw [update_of_ne (hown x p hx), hx]
  · exact hsame x (.inr (.inl ⟨p, hx, fun he => hp (by rw [he])⟩))
  · -- a block that was not there is one of zeros now
    by_cases hm : slotOf m = sl
    · have hz' : s.disk.ref (ino i) (slotOf m) = 0 := by rw [hm, hz]
      have hr : s'.disk.ref d (slotOf m) = s.freeblock := by rw [href, if_pos hm]
      rw [page_of_ref (by rw [hr]; exact hne0), hr, Disk.page, if_pos hz']
      show s'.blocks s.freeblock = _
      rw [hsame _ (.inr (.inr le_rfl)), h.zero _ le_rfl]
    · refine page_congr (by rw [href, if_neg hm]) fun hne => ?_
      refine hsame _ (.inr (.inl ⟨_, h.owner hi hne, ?_⟩))
      have := slotOf_ne_indirect m
      simpa using this

/-- The contents of a block of the file are replaced. -/
theorem Laid.write (h : Laid s ino own) {bn : Nat} (hx : own b = some (i, slotOf bn)) (c : Block)
    (hfree : s.freeblock ≤ FSSIZE) :
    Laid (s.write b c) ino own ∧ Frame s own i (s.write b c) own := by
  obtain ⟨h1, h2⟩ := h.data b (by simp [hx])
  have hlt : b < FSSIZE := by omega
  have hsame : ∀ x, x ≠ b → (s.write b c).blocks x = s.blocks x :=
    fun x hx => write_blocks_of_ne hlt hx
  refine ⟨⟨write_sectors hlt h.sectors, h.low, fun j sl x hne => ?_, h.data, fun x hxf => ?_⟩,
    ⟨rfl, fun x hxm => hsame x (by omega), fun _ _ => id, fun x p hp hpi => hsame x ?_⟩⟩
  · rw [← h.ref j sl x hne]
    refine and_congr_right fun hj => ?_
    have hown : ∀ y, own y = some (j, .indirect) → (s.write b c).blocks y = s.blocks y := by
      intro y hy
      refine hsame y ?_
      rintro rfl
      rw [hx] at hy
      exact slotOf_ne_indirect bn (Prod.mk.inj (Option.some.inj hy)).2
    rw [h.ref_same hj hown]
  · have hxf' : s.freeblock ≤ x := hxf
    rw [hsame x (by omega), h.zero x hxf]
  · rintro rfl
    rw [hx] at hp
    exact hpi (by rw [← Option.some.inj hp])

end Owners

/-! ## The block for an index -/

/-- The image after `freeblock++`. -/
def Image.taken (s : Image) : Image := { s with freeblock := s.freeblock + 1 }

theorem ends_nextBlock (s : Image) : Ends nextBlock s s.freeblock s.taken := rfl

/-- The blocks that `blockFor` takes. -/
def Image.needs (s : Image) (d : Dinode) (fbn : Nat) : Nat :=
  if s.disk.ref d (slotOf fbn) = 0 then
    if fbn < NDIRECT ∨ d.addrs INDIRECT ≠ 0 then 1 else 2
  else 0

/-- The result of `blockFor` for index `fbn` of inode `i`. -/
structure Placed (s : Image) (ino : Nat → Dinode) (own : Nat → Option Pos) (i fbn x : Nat)
    (s' : Image) (d' : Dinode) (own' : Nat → Option Pos) : Prop where
  laid  : Laid s' (update ino i d') own'
  frame : Frame s own i s' own'
  same  : d' = { ino i with addrs := d'.addrs }
  addr  : own' x = some (i, slotOf fbn)
  ref   : s'.disk.ref d' (slotOf fbn) = x
  only  : ∀ m < MAXFILE, m ≠ fbn → s'.disk.ref d' (slotOf m) = s.disk.ref (ino i) (slotOf m)
  ind   : d'.addrs INDIRECT ≠ 0 ↔ (ino i).addrs INDIRECT ≠ 0 ∨ ¬ fbn < NDIRECT
  page  : ∀ m, s'.disk.page d' m = s.disk.page (ino i) m
  next  : s'.freeblock = s.freeblock + s.needs (ino i) fbn

section Blocks

variable {s : Image} {ino : Nat → Dinode} {own : Nat → Option Pos} {i fbn b : Nat}

theorem addrs_setAddr_self (d : Dinode) (k : Fin (NDIRECT + 1)) (b : Nat) :
    (setAddr d k b).addrs k = b := by
  simp [setAddr]

/-- References after an address of the inode was set. -/
theorem ref_setAddr_direct (d : Dinode) (k : Fin NDIRECT) (b : Nat) (sl : Slot) :
    s.taken.disk.ref (setAddr d k.castSucc b) sl =
      if sl = .direct k then b else s.disk.ref d sl := by
  have hlast : INDIRECT ≠ k.castSucc := (castSucc_ne_indirect k).symm
  have hind : (setAddr d k.castSucc b).addrs INDIRECT = d.addrs INDIRECT :=
    update_of_ne hlast _ _
  cases sl with
  | direct k' =>
    by_cases hk : k' = k
    · subst hk
      rw [if_pos rfl]
      exact update_self ..
    · rw [if_neg (by simpa using hk)]
      exact update_of_ne (fun he => hk (Fin.castSucc_inj.mp he)) _ _
  | indirect =>
    rw [if_neg (by simp)]
    exact hind
  | entry j =>
    rw [if_neg (by simp)]
    simp only [Disk.ref, hind]
    rfl

theorem ref_setAddr_indirect (d : Dinode) (hz : d.addrs INDIRECT = 0) (hb : s.blocks b = .fill 0)
    (sl : Slot) :
    s.taken.disk.ref (setAddr d INDIRECT b) sl = if sl = .indirect then b else s.disk.ref d sl := by
  have hind := addrs_setAddr_self d INDIRECT b
  cases sl with
  | direct k =>
    rw [if_neg (by simp)]
    exact update_of_ne (castSucc_ne_indirect k) _ _
  | indirect =>
    rw [if_pos rfl]
    exact hind
  | entry j =>
    -- the new block holds no block numbers
    have hword : (s.taken.disk.blocks b).word j = 0 := by
      show (s.blocks b).word j = 0
      rw [hb, word_zero]
    rw [if_neg (by simp)]
    simp only [Disk.ref, hind, hz, if_true, hword, ite_self]

theorem ref_setWord (d : Dinode) (hind : d.addrs INDIRECT ≠ 0) (hlt : d.addrs INDIRECT < FSSIZE)
    (hb : b < 2 ^ 32) (j : Fin NINDIRECT) (sl : Slot) :
    (s.taken.write (d.addrs INDIRECT) ((s.blocks (d.addrs INDIRECT)).setWord j b)).disk.ref d sl =
      if sl = .entry j then b else s.disk.ref d sl := by
  have hword : ∀ k : Fin NINDIRECT, 4 * (k : Nat) + 4 ≤ BSIZE := by
    intro k
    have := k.isLt
    simp only [NINDIRECT, BSIZE] at *
    omega
  cases sl with
  | direct k | indirect =>
    rw [if_neg (by simp)]
    rfl
  | entry k =>
    simp only [Disk.ref, hind, if_false]
    have hblk : (s.taken.write (d.addrs INDIRECT)
        ((s.blocks (d.addrs INDIRECT)).setWord j b)).disk.blocks (d.addrs INDIRECT) =
        (s.blocks (d.addrs INDIRECT)).setWord j b := write_blocks_self hlt
    rw [hblk]
    by_cases hk : k = j
    · subst hk
      rw [if_pos rfl, Block.word_setWord_self (hword k) hb]
    · rw [if_neg (by simpa using hk), Block.word_setWord_of_ne (hword k)
        (fun he => hk (Fin.ext he))]
      rfl

/-- One entry more in an indirect block that is there. -/
theorem entryFor_spec (h : Laid s ino own) (hi : s.Live i) (hind : (ino i).addrs INDIRECT ≠ 0)
    (hd : ¬ fbn < NDIRECT) (hfbn : fbn < MAXFILE) (hz : s.disk.ref (ino i) (slotOf fbn) = 0)
    (hfree : s.freeblock ≤ FSSIZE) :
    ∃ s', Ends (entryFor (ino i) (fbn - NDIRECT)) s (s.freeblock, ino i) s' ∧
      Laid s' (update ino i (ino i))
        (update own s.freeblock (some (i, slotOf fbn))) ∧
      Frame s own i s' (update own s.freeblock (some (i, slotOf fbn))) ∧
      (∀ m, s'.disk.page (ino i) m = s.disk.page (ino i) m) ∧
      (∀ sl, s'.disk.ref (ino i) sl =
        if sl = slotOf fbn then s.freeblock else s.disk.ref (ino i) sl) ∧
      s'.freeblock = s.freeblock + 1 := by
  have hlt : fbn - NDIRECT < NINDIRECT := by
    simp only [MAXFILE] at hfbn
    omega
  have hsl := slotOf_entry hd hlt
  have hown := h.owner hi (show s.disk.ref (ino i) .indirect ≠ 0 from hind)
  obtain ⟨hin1, hin2⟩ : nmeta ≤ (ino i).addrs INDIRECT ∧ (ino i).addrs INDIRECT < s.freeblock :=
    h.in_data hi (show s.disk.ref (ino i) .indirect ≠ 0 from hind)
  have hltind : (ino i).addrs INDIRECT < FSSIZE := by omega
  have hword : (s.blocks ((ino i).addrs INDIRECT)).word (fbn - NDIRECT) = 0 := by
    rw [hsl] at hz
    have hentry : s.disk.ref (ino i) (.entry ⟨fbn - NDIRECT, hlt⟩) =
      (s.blocks ((ino i).addrs INDIRECT)).word (fbn - NDIRECT) := if_neg hind
    rw [← hentry, hz]
  have hnot : ∀ x, x < nmeta ∨ (∃ p, own x = some p ∧ p ≠ (i, .indirect)) ∨ s.freeblock ≤ x →
      x ≠ (ino i).addrs INDIRECT := by
    rintro x hx rfl
    rcases hx with hx | ⟨p, hp, hne⟩ | hx
    · omega
    · exact hne (Option.some.inj (hp.symm.trans hown))
    · omega
  have href := ref_setWord (s := s) (ino i) hind hltind (b := s.freeblock)
    (by simp only [FSSIZE] at hfree; omega) ⟨fbn - NDIRECT, hlt⟩
  rw [← hsl] at href
  have hsec : (s.taken.write ((ino i).addrs INDIRECT) ((s.blocks ((ino i).addrs INDIRECT)).setWord
      (fbn - NDIRECT) s.freeblock)).sectors = FSSIZE := write_sectors hltind h.sectors
  obtain ⟨hlaid, hframe, hpage⟩ := h.add hi hz hsec rfl rfl
    (fun x hx => write_blocks_of_ne hltind (hnot x hx)) href
  refine ⟨_, ?_, hlaid, hframe, hpage, href, rfl⟩
  unfold Ends entryFor
  rw [run_bind_of_ends (ends_rsect hltind h.sectors), if_pos hword,
    run_bind_of_ends (ends_nextBlock s), run_bind_of_ends ends_wsect]
  rfl

theorem blockFor_there (h : Laid s ino own) (hi : s.Live i) (hfree : s.freeblock ≤ FSSIZE)
    (hfbn : fbn < MAXFILE) (hz : s.disk.ref (ino i) (slotOf fbn) ≠ 0) :
    Ends (blockFor (ino i) fbn) s (s.disk.ref (ino i) (slotOf fbn), ino i) s := by
  unfold blockFor
  by_cases hd : fbn < NDIRECT
  · rw [slotOf_direct hd] at hz ⊢
    rw [dif_pos hd, fillAddr, if_neg (show (ino i).addrs ⟨fbn, _⟩ ≠ 0 from hz)]
    rfl
  · have hlt : fbn - NDIRECT < NINDIRECT := by
      simp only [MAXFILE] at hfbn
      omega
    rw [slotOf_entry hd hlt] at hz ⊢
    have hind : (ino i).addrs INDIRECT ≠ 0 := by
      intro hc
      exact hz (if_pos hc)
    have hin := h.in_data hi (show s.disk.ref (ino i) .indirect ≠ 0 from hind)
    have hread : Ends (rsect ((ino i).addrs INDIRECT)) s (s.blocks ((ino i).addrs INDIRECT)) s := by
      refine ends_rsect ?_ h.sectors
      have : (ino i).addrs INDIRECT < s.freeblock := hin.2
      omega
    have hword : s.disk.ref (ino i) (.entry ⟨fbn - NDIRECT, hlt⟩) =
        (s.blocks ((ino i).addrs INDIRECT)).word (fbn - NDIRECT) := if_neg hind
    rw [hword] at hz ⊢
    rw [dif_neg hd, fillAddr, if_neg hind]
    unfold Ends
    rw [pure_bind, entryFor, run_bind_of_ends hread, if_neg hz]
    rfl

/-- The block for the next bytes; it may be the first one after the last sector. -/
theorem blockFor_spec (h : Laid s ino own) (hi : s.Live i) (hfbn : fbn < MAXFILE)
    (hfree : s.freeblock ≤ FSSIZE) (hroom : s.freeblock + s.needs (ino i) fbn ≤ FSSIZE + 1) :
    ∃ x s' d' own', Ends (blockFor (ino i) fbn) s (x, d') s' ∧
      Placed s ino own i fbn x s' d' own' ∧
      (s.needs (ino i) fbn ≠ 0 → x + 1 = s'.freeblock) := by
  have hlow := h.low
  have hmeta : 0 < nmeta := by decide
  by_cases hz : s.disk.ref (ino i) (slotOf fbn) ≠ 0
  · have hneeds : s.needs (ino i) fbn = 0 := if_neg hz
    refine ⟨_, s, ino i, own, blockFor_there h hi hfree hfbn hz, ⟨?_, .refl .., rfl,
      h.owner hi hz, rfl, fun _ _ _ => rfl, ⟨.inl, ?_⟩, fun _ => rfl, by rw [hneeds]; rfl⟩,
      fun hne => absurd hneeds hne⟩
    · rw [update_eq_self]
      exact h
    · rintro (hc | hc)
      · exact hc
      · intro hi0
        refine hz ?_
        rw [slotOf_entry hc (by simp only [MAXFILE] at hfbn; omega)]
        exact if_pos hi0
  rw [not_not] at hz
  have hother : ∀ m < MAXFILE, m ≠ fbn → slotOf m ≠ slotOf fbn := fun m hm hne he =>
    hne (slotOf_inj hm hfbn he)
  by_cases hd : fbn < NDIRECT
  · -- a direct block
    have hneeds : s.needs (ino i) fbn = 1 := by
      unfold Image.needs
      rw [if_pos hz, if_pos (.inl hd)]
    have hsl := slotOf_direct hd
    rw [hsl] at hz
    obtain ⟨hlaid, hframe, hpage⟩ := h.add hi hz (show s.taken.sectors = FSSIZE from h.sectors)
      rfl rfl (fun _ _ => rfl) (ref_setAddr_direct (ino i) ⟨fbn, hd⟩ s.freeblock)
    refine ⟨s.freeblock, s.taken, setAddr (ino i) (Fin.castSucc ⟨fbn, hd⟩) s.freeblock, _, ?_,
      ⟨hlaid, hframe, rfl, ?_, ?_, fun m hm hne => ?_, ?_, hpage, by rw [hneeds]; rfl⟩,
      fun _ => rfl⟩
    · unfold blockFor
      rw [dif_pos hd, fillAddr, if_pos (show (ino i).addrs ⟨fbn, _⟩ = 0 from hz)]
      have hself := addrs_setAddr_self (ino i) ⟨fbn, Nat.lt_succ_of_lt hd⟩ s.freeblock
      unfold Ends
      rw [bind_assoc, run_bind_of_ends (ends_nextBlock s), pure_bind, hself]
      rfl
    · rw [update_self, hsl]
    · rw [ref_setAddr_direct, hsl, if_pos rfl]
    · rw [ref_setAddr_direct, if_neg]
      rw [← hsl]
      exact hother m hm hne
    · have hlast : INDIRECT ≠ Fin.castSucc ⟨fbn, hd⟩ := (castSucc_ne_indirect _).symm
      rw [show (setAddr (ino i) (Fin.castSucc ⟨fbn, hd⟩) s.freeblock).addrs INDIRECT =
        (ino i).addrs INDIRECT from update_of_ne hlast _ _]
      simp [hd]
  · by_cases hind : (ino i).addrs INDIRECT ≠ 0
    · have hneeds : s.needs (ino i) fbn = 1 := by
        unfold Image.needs
        rw [if_pos hz, if_pos (.inr hind)]
      obtain ⟨s', hrun, hlaid, hframe, hpage, href, hnext⟩ :=
        entryFor_spec h hi hind hd hfbn hz hfree
      refine ⟨s.freeblock, s', ino i, _, ?_, ⟨hlaid, hframe, rfl, update_self .., ?_,
        fun m hm hne => ?_, by simp [hind, hd], hpage, by rw [hneeds, hnext]⟩, fun _ => hnext.symm⟩
      · unfold blockFor
        rw [dif_neg hd, fillAddr, if_neg hind]
        unfold Ends
        rw [pure_bind]
        exact hrun
      · rw [href, if_pos rfl]
      · rw [href, if_neg (hother m hm hne)]
    · rw [not_not] at hind
      have hneeds : s.needs (ino i) fbn = 2 := by
        unfold Image.needs
        rw [if_pos hz, if_neg (by simp [hd, hind])]
      -- the indirect block first
      have href1 := ref_setAddr_indirect (s := s) (ino i) hind (h.zero _ le_rfl)
      obtain ⟨hlaid1, hframe1, hpage1⟩ := h.add hi (show s.disk.ref (ino i) .indirect = 0 from hind)
        (show s.taken.sectors = FSSIZE from h.sectors) rfl rfl (fun _ _ => rfl) href1
      have hself := addrs_setAddr_self (ino i) INDIRECT s.freeblock
      have hz1 : s.taken.disk.ref (setAddr (ino i) INDIRECT s.freeblock) (slotOf fbn) = 0 := by
        rw [href1, if_neg (slotOf_ne_indirect fbn), hz]
      have hupd : update ino i (setAddr (ino i) INDIRECT s.freeblock) i =
        setAddr (ino i) INDIRECT s.freeblock := update_self ..
      obtain ⟨s', hrun, hlaid, hframe, hpage, href, hnext⟩ := entryFor_spec hlaid1
        (hframe1.live_iff.mpr hi) (by rw [hupd, hself]; omega) hd hfbn (by rw [hupd]; exact hz1)
        (by show s.freeblock + 1 ≤ FSSIZE; omega)
      rw [hupd] at hrun hlaid hpage href
      rw [update_idem] at hlaid
      refine ⟨s.freeblock + 1, s', setAddr (ino i) INDIRECT s.freeblock, _, ?_, ⟨hlaid,
        hframe1.trans hframe, rfl, update_self .., ?_, fun m hm hne => ?_, ?_,
        fun m => (hpage m).trans (hpage1 m), ?_⟩, fun _ => hnext.symm⟩
      · unfold blockFor
        rw [dif_neg hd, fillAddr, if_pos hind]
        unfold Ends
        rw [bind_assoc, run_bind_of_ends (ends_nextBlock s), pure_bind]
        exact hrun
      · rw [href, if_pos rfl]
        rfl
      · rw [href, if_neg (hother m hm hne), href1, if_neg (slotOf_ne_indirect m)]
      · rw [hself]
        simp only [hind, hd]
        simp
        omega
      · rw [hneeds, hnext]
        rfl

/-- Without room the block cannot be read. -/
theorem blockFor_full (h : Laid s ino own) (hi : s.Live i) (hfree : s.freeblock ≤ FSSIZE)
    (hfbn : fbn < MAXFILE) (hfull : ¬ s.freeblock + s.needs (ino i) fbn ≤ FSSIZE) :
    (∃ e, (blockFor (ino i) fbn).run s = .error e) ∨
    ∃ x d' s', Ends (blockFor (ino i) fbn) s (x, d') s' ∧ (rsect x).run s' = .error "read" := by
  have herr : ∀ {s' : Image} {x : Nat}, x = FSSIZE → s'.sectors = FSSIZE →
      (rsect x).run s' = .error "read" := by
    intro s' x hx hs
    exact rsect_error (by omega) (by simp only [hx, FSSIZE]; omega) hs
  by_cases hroom : s.freeblock + s.needs (ino i) fbn ≤ FSSIZE + 1
  · obtain ⟨x, s', d', own', hrun, hp, hx⟩ := blockFor_spec h hi hfbn hfree hroom
    have hlast := hx (by omega)
    have hnext := hp.next
    exact .inr ⟨x, d', s', hrun, herr (by omega) hp.laid.sectors⟩
  · -- no block for the indirect block, which is read first
    unfold Image.needs at hroom
    split at hroom
    case isFalse => omega
    split at hroom
    case isTrue => omega
    case isFalse hno =>
      rw [not_or, not_not] at hno
      have hself := addrs_setAddr_self (ino i) INDIRECT s.freeblock
      left
      unfold blockFor entryFor
      rw [dif_neg hno.1, fillAddr, if_pos hno.2, bind_assoc, run_bind_of_ends (ends_nextBlock s),
        pure_bind, hself]
      exact ⟨_, run_bind_of_error (herr (by omega) h.sectors)⟩

end Blocks

end Xv6.Mkfs
