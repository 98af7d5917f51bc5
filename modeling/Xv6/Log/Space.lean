import Xv6.Log.Safety

/-! # Log space

    `begin_op` admits an operation while `lh.n + (outstanding+1)*MAXOPBLOCKS` fits in `LOGSIZE`;
    `log_write` panics once `lh.n` reaches `log.size - 1`, since one block of the log is the header.
    On an image made by `mkfs` `log.size` is `LOGSIZE`, so the two bounds are one block apart, and
    `log_write` makes its test before it looks for a block to absorb.

    `log_space_iff` says exactly which runs panic, and `log_space_of_spares` how much more room an
    admission would have to find for no run to panic.
-/

namespace Xv6.Log

open LTS

variable {P : Type*} {ls : List (Event P)} {e : Event P}

/-! ## Operations that respect their reservation -/

/-- Every operation logs at most `MAXOPBLOCKS` distinct blocks. -/
def Respects (s : State P) : Event P → Prop
  | .log_write p b =>
      match s.pc p with
      | .inOp used => (insert b used).card ≤ MAXOPBLOCKS
      | _ => True
  | _ => True

instance (s : State P) : (e : Event P) → Decidable (Respects s e)
  | .log_write p b => by
      unfold Respects
      dsimp only
      split
      · exact inferInstance
      · exact inferInstance
  | .begin_op _ | .test _ | .append _ _ | .end_op _ | .commit _ | .finish _ => isTrue trivial

/-! ## Exactly when `log_write` panics -/

/-- Every `log_write` of the run finds fewer than `LOGSIZE - 1` distinct blocks
    logged since the last commit. -/
def NeverFull (ls : List (Event P)) : Prop :=
  ∀ ms p b, ms ++ [.log_write p b] <+: ls → (logged ms).card < LOGSIZE - 1

theorem neverFull_snoc :
    NeverFull (ls ++ [e]) ↔
      NeverFull ls ∧ ∀ p b, e = .log_write p b → (logged ls).card < LOGSIZE - 1 := by
  constructor
  · intro h
    refine ⟨fun ms p b hpre => h ms p b (hpre.trans (List.prefix_append _ _)), ?_⟩
    rintro p b rfl
    exact h ls p b (List.prefix_refl _)
  · rintro ⟨h, hlast⟩ ms p b hpre
    rcases List.prefix_concat_iff.mp hpre with heq | hpre
    · obtain ⟨rfl, he⟩ := List.append_inj' heq rfl
      exact hlast p b (by simpa using he.symm)
    · exact h ms p b hpre

theorem neverFull_keep (h : NeverFull ls) (he : ∀ p b, e ≠ .log_write p b) :
    NeverFull (ls ++ [e]) :=
  neverFull_snoc.mpr ⟨h, fun p b h' => absurd h' (he p b)⟩

/-- One step either keeps the run free of the panic, or is the `log_write`
    that panics because the log is full. -/
theorem panic_step [DecidableEq P] {s s' : State P} (ht : Tracks ls s) (hnf : NeverFull ls)
    (hnp : s.panicked = none) (hf : Fires s e s') :
    s'.panicked ≠ some tooBig ↔ NeverFull (ls ++ [e]) := by
  have hlen := ht.length
  have hsize := ht.size
  cases hf with
  | tooBig hpc hbig =>
    refine iff_of_false (by simp [State.panic]) fun h => ?_
    have := (neverFull_snoc.mp h).2 _ _ rfl
    omega
  | log_write hpc hroom =>
    refine iff_of_true (by simp [State.at, hnp]) (neverFull_snoc.mpr ⟨hnf, ?_⟩)
    intro _ _ _
    omega
  | outside hpc hroom hout =>
    refine iff_of_true (by simp [State.panic, tooBig]) (neverFull_snoc.mpr ⟨hnf, ?_⟩)
    intro _ _ _
    omega
  | end_panic hpc hc =>
    exact iff_of_true (by simp [State.panic, tooBig]) (neverFull_keep hnf (by simp))
  | begin_op | wait | enter | append | end_last | end_more | commit | finish =>
    exact iff_of_true (by simp [State.at, hnp]) (neverFull_keep hnf (by simp))

/-- **Log space, exactly.** In every run of operations that respect their reservation, `log_write`
    does not panic with a full log if and only if every `log_write` finds fewer than `LOGSIZE - 1`
    distinct blocks logged since the last commit. -/
theorem log_space_iff [DecidableEq P] {ls : List (Event P)} {s : State P}
    (hrun : ((system P).restrict Respects).Run boot ls s) :
    s.panicked ≠ some tooBig ↔ NeverFull ls := by
  have h : Tracks ls s ∧ (s.panicked ≠ some tooBig ↔ NeverFull ls) := by
    refine System.run_invariant
      (I := fun ls s => Tracks ls s ∧ (s.panicked ≠ some tooBig ↔ NeverFull ls)) ?_ ?_
      (show ((system P).restrict Respects).init boot from rfl) hrun
    · rintro s rfl
      refine ⟨⟨rfl, List.nodup_nil, rfl⟩, iff_of_true (by simp [boot]) ?_⟩
      intro ms p b hpre
      simp at hpre
    · rintro ls s e s' ⟨ht, hiff⟩ hstep
      obtain ⟨hnp, hf⟩ := step_fires hstep.1
      have hnf : NeverFull ls := hiff.mp (by simp [hnp])
      exact ⟨tracks_step ht hf, panic_step ht hnf hnp hf⟩
  exact h.2

/-! ## Two blocks to spare -/

/-- An admitted operation finds room for two blocks more than `begin_op` asks for: one for the
    header, and one because `log_write` makes its test for a block that is logged already, too. -/
def Spares (s : State P) : Event P → Prop
  | .test _ => MustWait s ∨ s.lh.length + (s.outstanding + 1) * MAXOPBLOCKS + 2 ≤ LOGSIZE
  | _ => True

/-- How many blocks the operation at `pc` may still log. -/
def Pc.left (pc : Pc) : Nat := pc.used.elim 0 fun used => MAXOPBLOCKS - used.card

/-- What the operation at `pc` logged is in the log, and what it is logging is reserved. -/
def Pc.Within (pc : Pc) (lh : List Nat) : Prop :=
  (∀ used ∈ pc.used, ∀ b ∈ used, b ∈ lh) ∧
    ∀ used b, pc = .logging used b → (insert b used).card ≤ MAXOPBLOCKS

section Reserve

variable [Fintype P] {s s' : State P} {pc : P → Pc} {x : Pc} {lh lh' : List Nat} {p : P}

/-- What the operations may still log fits, with two blocks to spare. -/
structure Fits (lh : List Nat) (pc : P → Pc) : Prop where
  within : ∀ p, (pc p).Within lh
  room   : lh.length + ∑ p, (pc p).left + 2 ≤ LOGSIZE

theorem within_of_none (hx : x.used = none) : x.Within lh := by
  refine ⟨by simp [hx], ?_⟩
  rintro used b rfl
  cases hx

theorem Fits.wakeup (h : Fits lh pc) : Fits lh (wakeup pc) := by
  refine ⟨fun q => ?_, ?_⟩
  · unfold Log.wakeup
    split
    · exact within_of_none rfl
    · exact h.within q
  · simp only [Pc.left, wakeup_used]
    exact h.room

theorem Counts.sum_left {A : Finset P} (h : Counts A s) :
    ∑ p, (s.pc p).left ≤ s.outstanding * MAXOPBLOCKS := by
  rw [h.outstanding, ← Finset.sum_subset (Finset.subset_univ A) fun p _ hp => ?_]
  · refine Finset.sum_le_card_nsmul _ _ _ fun p _ => ?_
    unfold Pc.left
    cases (s.pc p).used with
    | none => exact Nat.zero_le _
    | some used => exact Nat.sub_le _ _
  · have hnone : (s.pc p).used = none := by simpa [h.active] using hp
    simp [Pc.left, hnone]

variable [DecidableEq P]

/-- One process moves, and the log grows by no more than its reservation shrinks. -/
theorem Fits.move (h : Fits lh pc) (hx : x.Within lh') (hw : ∀ q, q ≠ p → (pc q).Within lh')
    (hle : lh'.length + x.left ≤ lh.length + (pc p).left) : Fits lh' (Function.update pc p x) := by
  refine ⟨fun q => ?_, ?_⟩
  · by_cases hq : q = p
    · rwa [hq, Function.update_self]
    · rw [Function.update_of_ne hq]
      exact hw q hq
  · have hrest : ∑ q ∈ Finset.univ.erase p, (Function.update pc p x q).left =
        ∑ q ∈ Finset.univ.erase p, (pc q).left :=
      Finset.sum_congr rfl fun q hq => by rw [Function.update_of_ne (Finset.ne_of_mem_erase hq)]
    have hroom := h.room
    rw [← Finset.add_sum_erase _ _ (Finset.mem_univ p)] at hroom ⊢
    rw [Function.update_self, hrest]
    omega

theorem Fits.append (h : Fits lh pc) {used : Finset Nat} {b : Nat} (hpc : pc p = .logging used b) :
    Fits (absorb lh b) (Function.update pc p (.inOp (insert b used))) := by
  have hkept : ∀ c ∈ used, c ∈ lh := (h.within p).1 used (by rw [hpc]; rfl)
  have hcard := (h.within p).2 used b hpc
  refine h.move ⟨?_, by simp⟩ (fun q _ => ⟨fun u hu c hc => ?_, (h.within q).2⟩) ?_
  · rintro _ ⟨⟩ c hc
    exact mem_absorb.mpr ((Finset.mem_insert.mp hc).imp_right (hkept c))
  · exact mem_absorb.mpr (.inr ((h.within q).1 u hu c hc))
  · -- a block that is new in the log is new to its operation
    rw [absorb_eq, hpc]
    simp only [Pc.left, Pc.used, Option.elim_some]
    by_cases hb : b ∈ lh
    · have := Finset.card_le_card (Finset.subset_insert b used)
      rw [if_pos hb]
      omega
    · rw [Finset.card_insert_of_notMem fun hu => hb (hkept b hu)] at hcard ⊢
      rw [if_neg hb, List.length_append, List.length_singleton]
      omega

/-- A process that is in no operation afterwards. -/
theorem Fits.idle (h : Fits lh pc) (hx : x.used = none) : Fits lh (Function.update pc p x) :=
  h.move (within_of_none hx) (fun q _ => h.within q) (by simp [Pc.left, hx])

theorem fits_step {A : Finset P} (hA : Counts A s) (h : Fits s.lh s.pc) (hr : Respects s e)
    (hs : Spares s e) (hf : Fires s e s') : Fits s'.lh s'.pc := by
  cases hf with
  | begin_op | wait | end_last => exact h.idle rfl
  | end_more | finish => exact (h.idle rfl).wakeup
  | tooBig | outside | end_panic => exact h
  | append hpc => exact h.append hpc
  | @enter p hpc hc hroom =>
    have hsum := (hA.enter hpc hc).sum_left
    have hspare := hs.resolve_left (by simp [MustWait, hc, hroom])
    refine ⟨fun q => ?_, ?_⟩
    · by_cases hq : q = p
      · simp [State.at, hq, Pc.Within, Pc.used]
      · simpa [State.at, hq] using h.within q
    · simp only [State.at] at hsum ⊢
      omega
  | @log_write p used b hpc hroom =>
    have hw := (h.within p).1
    rw [hpc] at hw
    refine h.move ⟨hw, ?_⟩ (fun q _ => h.within q) (by rw [hpc]; exact le_rfl)
    rintro _ _ ⟨⟩
    simpa [Respects, hpc] using hr
  | commit hpc =>
    -- nobody is in an operation
    have hidle := hA.idle (hA.ender _ (.inl hpc))
    refine h.move (within_of_none rfl) (fun q _ => within_of_none ?_)
      (by simp [State.at, Pc.left, Pc.used])
    simpa [hidle] using hA.active q

/-- **Log space, by admission.** If every operation that is admitted finds room for two blocks more
    than it asks for, and stays within its reservation, then no `log_write` finds the log full. -/
theorem log_space_of_spares {ls : List (Event P)}
    (hrun : ((system P).restrict fun s e => Respects s e ∧ Spares s e).Run boot ls s) :
    s.panicked ≠ some tooBig := by
  have h : s.size = LOGSIZE ∧ (∃ A, Counts A s) ∧ Fits s.lh s.pc ∧ s.panicked ≠ some tooBig := by
    refine System.run_invariant
      (I := fun _ s => s.size = LOGSIZE ∧ (∃ A, Counts A s) ∧ Fits s.lh s.pc ∧
        s.panicked ≠ some tooBig) ?_ ?_ (show ((system P).restrict _).init boot from rfl) hrun
    · rintro s rfl
      exact ⟨rfl, ⟨∅, counts_boot⟩,
        ⟨fun _ => within_of_none rfl, by simp [boot, Pc.left, Pc.used]; decide⟩,
        by simp [boot]⟩
    · rintro ls s e s' ⟨hsize, ⟨A, hA⟩, hfits, -⟩ ⟨hstep, hr, hs⟩
      obtain ⟨hnp, hf⟩ := step_fires hstep
      refine ⟨?_, counts_step hA hf, fits_step hA hfits hr hs hf, ?_⟩
      · cases hf <;> exact hsize
      · have := hfits.room
        cases hf with
        | tooBig hpc hbig => omega
        | outside | end_panic => simp [State.panic, tooBig]
        | begin_op | wait | enter | log_write | append | end_last | end_more | commit | finish =>
          simp [State.at, hnp]
  exact h.2.2.2

end Reserve

/-! ## The boundary -/

/-- Process `p` logs the `n` blocks from `b` on. -/
def logBlocks (p : P) (b n : Nat) : List (Event P) :=
  (List.range n).flatMap fun k => [.log_write p (b + k), .append p (b + k)]

/-- Three operations, admitted together, log ten blocks each; the last block does not fit. -/
def threeFullOps : List (Event (Fin 3)) :=
  [.begin_op 0, .test 0, .begin_op 1, .test 1, .begin_op 2, .test 2] ++
    logBlocks 0 100 10 ++ logBlocks 1 110 10 ++ logBlocks 2 120 9 ++ [.log_write 2 129]

theorem three_full_ops_panic :
    ¬ ∀ ls s, ((system (Fin 3)).restrict Respects).Run boot ls s →
        s.panicked ≠ some tooBig := by
  intro h
  obtain ⟨s, hs, hp⟩ : ∃ s, System.replay (fun s l => if Respects s l then step s l else none)
      boot threeFullOps = some s ∧ s.panicked = some tooBig := ⟨_, rfl, rfl⟩
  exact h threeFullOps s (System.run_restrict_of_replay hs) hp

/-- Two full operations, a commit, and a third operation after it. -/
def twoThenOne : List (Event (Fin 3)) :=
  [.begin_op 0, .test 0, .begin_op 1, .test 1] ++ logBlocks 0 100 10 ++ logBlocks 1 110 10 ++
    [.end_op 0, .end_op 1, .commit 1, .finish 1, .begin_op 2, .test 2] ++ logBlocks 2 120 10

theorem log_space_iff_twoThenOne :
    ∃ s, ((system (Fin 3)).restrict Respects).Run boot twoThenOne s ∧
      s.panicked ≠ some tooBig ∧ NeverFull twoThenOne := by
  obtain ⟨s, hs, hp⟩ : ∃ s, System.replay (fun s l => if Respects s l then step s l else none)
      boot twoThenOne = some s ∧ s.panicked = none := ⟨_, rfl, rfl⟩
  have hrun : ((system (Fin 3)).restrict Respects).Run boot twoThenOne s :=
    System.run_restrict_of_replay hs
  have hne : s.panicked ≠ some tooBig := by simp [hp]
  exact ⟨s, hrun, hne, (log_space_iff hrun).mp hne⟩

end Xv6.Log
