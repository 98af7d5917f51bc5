import Xv6.Log.Protocol

/-! # Safety of the log protocol

    `log.outstanding` counts the processes between `begin_op` and `end_op`, and there is none of
    them during a commit. A process that sleeps on `&log` does so for a reason that still holds, and
    some process that will call `wakeup(&log)` is on its way.
-/

namespace Xv6.Log

open LTS Function

variable {P : Type*} {ls : List (Event P)} {s : State P} {e : Event P} {pc : P → Pc} {x : Pc}
  {q : P}

/-! ## What is in the log -/

/-- The blocks logged since the last commit, read off the run. -/
def logged (ls : List (Event P)) : Finset Nat :=
  ls.foldl (fun acc e =>
    match e with
    | .append _ b => insert b acc
    | .commit _ => ∅
    | _ => acc) ∅

theorem logged_snoc (ls : List (Event P)) (e : Event P) :
    logged (ls ++ [e]) =
      match e with
      | .append _ b => insert b (logged ls)
      | .commit _ => ∅
      | _ => logged ls := by
  simp only [logged, List.foldl_append, List.foldl_cons, List.foldl_nil]

/-- `lh` is the set of blocks logged since the last commit, without repetition. -/
structure Tracks (ls : List (Event P)) (s : State P) : Prop where
  size  : s.size = LOGSIZE
  nodup : s.lh.Nodup
  eq    : s.lh.toFinset = logged ls

theorem Tracks.length (h : Tracks ls s) : s.lh.length = (logged ls).card := by
  rw [← h.eq, List.toFinset_card_of_nodup h.nodup]

theorem tracks_step [DecidableEq P] {s' : State P} (h : Tracks ls s) (hf : Fires s e s') :
    Tracks (ls ++ [e]) s' := by
  cases hf with
  | append hpc =>
    refine ⟨h.size, absorb_nodup h.nodup _, ?_⟩
    rw [logged_snoc]
    ext x
    have hx : x ∈ s.lh ↔ x ∈ logged ls := by rw [← h.eq, List.mem_toFinset]
    show x ∈ (absorb s.lh _).toFinset ↔ _
    rw [List.mem_toFinset, mem_absorb, Finset.mem_insert, hx]
  | commit hpc =>
    exact ⟨h.size, List.nodup_nil, by rw [logged_snoc]; rfl⟩
  | begin_op | wait | enter | tooBig | outside | log_write | end_panic | end_last
  | end_more | finish =>
    exact ⟨h.size, h.nodup, by rw [logged_snoc]; exact h.eq⟩

/-! ## Who is in an operation -/

/-- The blocks the operation at `pc` has logged, if there is one. -/
def Pc.used : Pc → Option (Finset Nat)
  | .inOp used => some used
  | .logging used _ => some used
  | _ => none

/-- The process is the committer. -/
def Pc.Commits (pc : Pc) : Prop := pc = .ending ∨ pc = .committed

instance (pc : Pc) : Decidable pc.Commits := inferInstanceAs (Decidable (_ ∨ _))

/-- `A` is the set of processes in an operation. -/
structure Counts (A : Finset P) (s : State P) : Prop where
  active      : ∀ p, p ∈ A ↔ (s.pc p).used.isSome
  outstanding : s.outstanding = A.card
  idle        : s.committing = true → A = ∅
  ender       : ∀ p, (s.pc p).Commits → s.committing = true
  sole        : ∀ p q, (s.pc p).Commits → (s.pc q).Commits → p = q

theorem wakeup_used (pc : P → Pc) (p : P) : (wakeup pc p).used = (pc p).used := by
  unfold wakeup
  split
  · next h => simp [h, Pc.used]
  · rfl

theorem commits_wakeup (q : P) (hq : (wakeup pc q).Commits) : (pc q).Commits := by
  unfold wakeup at hq
  split at hq
  · simp [Pc.Commits] at hq
  · exact hq

variable {A : Finset P} {s s' : State P} {p : P}

theorem Counts.lh (h : Counts A s) (lh : List Nat) : Counts A { s with lh := lh } :=
  ⟨h.active, h.outstanding, h.idle, h.ender, h.sole⟩

theorem Counts.panic (h : Counts A s) (msg : String) : Counts A (s.panic msg) :=
  ⟨h.active, h.outstanding, h.idle, h.ender, h.sole⟩

theorem Counts.not_committing (h : Counts A s) (hp : (s.pc p).used.isSome) :
    ¬ s.committing = true := by
  intro hc
  have hA := (h.active p).mpr hp
  rw [h.idle hc] at hA
  simp at hA

variable [DecidableEq P]

theorem commits_update (pc : P → Pc) (p : P) (x : Pc) (h : x.Commits → (pc p).Commits) (q : P)
    (hq : (update pc p x q).Commits) : (pc q).Commits := by
  by_cases hqp : q = p
  · subst hqp
    exact h (by simpa using hq)
  · simpa [hqp] using hq

/-- A process moves, and stays inside or outside its operation. -/
theorem Counts.at (h : Counts A s) {pc : Pc} (hused : pc.used.isSome = (s.pc p).used.isSome)
    (hpc : pc.Commits → (s.pc p).Commits) : Counts A (s.at p pc) := by
  have hcom := commits_update s.pc p pc hpc
  refine ⟨fun q => ?_, h.outstanding, h.idle, fun q hq => h.ender q (hcom q hq),
    fun q r hq hr => h.sole q r (hcom q hq) (hcom r hr)⟩
  by_cases hq : q = p
  · subst hq
    simp only [State.at, update_self, hused]
    exact h.active q
  · simpa [State.at, hq] using h.active q

theorem Counts.enter (h : Counts A s) (hpc : s.pc p = .testing) (hc : s.committing = false) :
    Counts (insert p A) ({ s with outstanding := s.outstanding + 1 }.at p (.inOp ∅)) := by
  have hp : p ∉ A := by rw [h.active, hpc]; simp [Pc.used]
  have hcom := commits_update s.pc p (.inOp ∅) (by simp [Pc.Commits])
  refine ⟨fun q => ?_, ?_, fun hcom => ?_, fun q hq => h.ender q (hcom q hq),
    fun q r hq hr => h.sole q r (hcom q hq) (hcom r hr)⟩
  · by_cases hq : q = p
    · subst hq; simp [State.at, Pc.used]
    · simpa [State.at, hq] using h.active q
  · simp [State.at, h.outstanding, hp]
  · simp [State.at, hc] at hcom

theorem Counts.end_op (h : Counts A s) {used : Finset Nat} (com : Bool) (hpc : s.pc p = .inOp used)
    (hidle : com = true → A.erase p = ∅)
    (hused : ∀ q, (pc q).used = if q = p then none else (s.pc q).used)
    (hend : ∀ q, (pc q).Commits → q = p ∧ com = true) :
    Counts (A.erase p)
      { s with outstanding := s.outstanding - 1, committing := com, pc := pc } := by
  have hp : p ∈ A := by rw [h.active, hpc]; simp [Pc.used]
  refine ⟨fun q => ?_, ?_, hidle, fun q hq => (hend q hq).2,
    fun q r hq hr => (hend q hq).1.trans (hend r hr).1.symm⟩
  · by_cases hq : q = p
    · subst hq; simp [hused]
    · simpa [hused, hq] using h.active q
  · simp [h.outstanding, Finset.card_erase_of_mem hp]

theorem Counts.end_last (h : Counts A s) {used : Finset Nat} (hpc : s.pc p = .inOp used)
    (hc : s.committing = false) (hlast : s.outstanding - 1 = 0) :
    Counts (A.erase p)
      ({ s with outstanding := s.outstanding - 1, committing := true }.at p .ending) := by
  have hp : p ∈ A := (h.active p).mpr (by rw [hpc]; rfl)
  refine h.end_op true hpc (fun _ => ?_) (fun q => ?_) fun q hq => ?_
  · rw [← Finset.card_eq_zero, Finset.card_erase_of_mem hp, ← h.outstanding]
    exact hlast
  · by_cases hq : q = p
    · subst hq; simp [Pc.used]
    · simp [hq]
  · by_cases hqp : q = p
    · exact ⟨hqp, rfl⟩
    · have := h.ender q (by simpa [hqp] using hq)
      simp [hc] at this

theorem Counts.end_more (h : Counts A s) {used : Finset Nat} (hpc : s.pc p = .inOp used)
    (hc : s.committing = false) :
    Counts (A.erase p) { s with outstanding := s.outstanding - 1,
                                pc := wakeup (update s.pc p .out) } := by
  refine h.end_op s.committing hpc (by simp [hc]) (fun q => ?_) fun q hq => ?_
  · rw [wakeup_used]
    by_cases hq : q = p
    · subst hq; simp [Pc.used]
    · simp [hq]
  · have := h.ender q (commits_update _ _ _ (by simp [Pc.Commits]) q (commits_wakeup q hq))
    simp [hc] at this

theorem finish_used (hpc : s.pc p = .committed) (q : P) :
    (wakeup (update s.pc p .out) q).used = (s.pc q).used := by
  rw [wakeup_used]
  by_cases hq : q = p
  · subst hq; simp [hpc, Pc.used]
  · simp [hq]

theorem Counts.finish (h : Counts A s) (hpc : s.pc p = .committed) :
    Counts A { s with committing := false,
                      pc := wakeup (update s.pc p .out) } := by
  have hnone : ∀ q, ¬ (wakeup (update s.pc p .out) q).Commits := by
    intro q hq
    have hq' := commits_wakeup q hq
    by_cases hqp : q = p
    · subst hqp; simp [Pc.Commits] at hq'
    · rw [update_of_ne hqp] at hq'
      exact hqp (h.sole q p hq' (.inr hpc))
  refine ⟨fun q => ?_, h.outstanding, by simp, fun q hq => absurd hq (hnone q),
    fun q _ hq => absurd hq (hnone q)⟩
  rw [finish_used hpc]
  exact h.active q

theorem counts_step (h : Counts A s) (hf : Fires s e s') : ∃ A', Counts A' s' := by
  cases hf with
  | begin_op hpc | wait hpc _ | log_write hpc _ =>
    exact ⟨A, h.at (by rw [hpc]; rfl) (by simp [Pc.Commits])⟩
  | enter hpc hc _ => exact ⟨_, h.enter hpc hc⟩
  | tooBig | outside => exact ⟨A, h.panic _⟩
  | append hpc => exact ⟨A, (h.lh _).at (by dsimp only; rw [hpc]; rfl) (by simp [Pc.Commits])⟩
  | end_panic hpc hc => exact absurd hc (h.not_committing (by rw [hpc]; rfl))
  | end_last hpc hc hlast => exact ⟨_, h.end_last hpc hc hlast⟩
  | end_more hpc hc _ => exact ⟨_, h.end_more hpc hc⟩
  | commit hpc => exact ⟨A, (h.lh _).at (by dsimp only; rw [hpc]; rfl) fun _ => .inl hpc⟩
  | finish hpc => exact ⟨A, h.finish hpc⟩

omit [DecidableEq P] in
theorem counts_boot : Counts ∅ (boot : State P) := by
  refine ⟨?_, rfl, fun _ => rfl, ?_, ?_⟩ <;> simp [boot, Pc.used, Pc.Commits]

/-! ## Who sleeps -/

/-- The test of `begin_op` fails. -/
def MustWait (s : State P) : Prop :=
  s.committing = true ∨ LOGSIZE < s.lh.length + (s.outstanding + 1) * MAXOPBLOCKS

/-- Sleepers have a reason, and the log is empty when nobody uses it. -/
structure Waits (s : State P) : Prop where
  counts    : ∃ A, Counts A s
  committer : s.committing = true → ∃ p, (s.pc p).Commits
  empty     : s.committing = false → s.outstanding = 0 → s.lh = []
  emptied   : ∀ p, s.pc p = .committed → s.lh = []
  reason    : ∀ p, s.pc p = .asleep → MustWait s
  sound     : s.panicked ≠ some "log.committing"

omit [DecidableEq P] in
theorem wakeup_ne_asleep (pc : P → Pc) (p : P) : wakeup pc p ≠ .asleep := by
  unfold wakeup
  split
  · simp
  · next h => exact h

theorem length_le_absorb (lh : List Nat) (b : Nat) : lh.length ≤ (absorb lh b).length := by
  rw [absorb_eq]
  split <;> simp

theorem asleep_update (hx : x ≠ .asleep) (hq : update pc p x q = .asleep) : pc q = .asleep := by
  by_cases hqp : q = p
  · subst hqp
    rw [update_self] at hq
    exact absurd hq hx
  · rwa [update_of_ne hqp] at hq

/-- The reason to sleep lasts until the next `wakeup(&log)`. -/
theorem reason_step (h : Waits s) (hf : Fires s e s') (q : P) (hq : s'.pc q = .asleep) :
    MustWait s' := by
  cases hf with
  | begin_op hpc | log_write hpc _ => exact h.reason q (asleep_update (by simp) hq)
  | @wait p hpc hwhy =>
    by_cases hqp : q = p
    · exact hwhy
    · exact h.reason q (by simpa [State.at, hqp] using hq)
  | enter hpc hc _ =>
    rcases h.reason q (asleep_update (by simp) hq) with hc' | hfull
    · simp [hc] at hc'
    · refine .inr ?_
      simp only [State.at, MAXOPBLOCKS] at hfull ⊢
      omega
  | tooBig | outside => exact h.reason q hq
  | @append p used b hpc =>
    rcases h.reason q (asleep_update (by simp) hq) with hc | hfull
    · exact .inl hc
    · have hlen := length_le_absorb s.lh b
      refine .inr ?_
      simp only [State.at]
      omega
  | end_panic hpc hc => exact .inl hc
  | end_last => exact .inl rfl
  | end_more | finish => exact absurd hq (wakeup_ne_asleep _ q)
  | @commit p hpc =>
    obtain ⟨A, hA⟩ := h.counts
    exact .inl (hA.ender p (.inl hpc))

theorem committer_step (h : Waits s) (hf : Fires s e s') (hc : s'.committing = true) :
    ∃ q, (s'.pc q).Commits := by
  -- a process that is not the committer moves
  have hmove : ∀ {p x}, ¬ (s.pc p).Commits → s.committing = true →
      ∃ q, (update s.pc p x q).Commits := by
    intro p x hp hc
    obtain ⟨q, hq⟩ := h.committer hc
    refine ⟨q, ?_⟩
    rwa [update_of_ne]
    rintro rfl
    exact hp hq
  cases hf with
  | begin_op hpc | wait hpc _ | enter hpc _ _ | log_write hpc _ | append hpc =>
    exact hmove (by simp [hpc, Pc.Commits]) hc
  | tooBig | outside | end_panic => exact h.committer hc
  | @end_last p _ _ _ _ => exact ⟨p, .inl (by simp [State.at])⟩
  | end_more hpc hno _ =>
    rw [show s.committing = true from hc] at hno
    cases hno
  | @commit p hpc => exact ⟨p, .inr (by simp [State.at])⟩
  | finish => cases hc

theorem empty_step (h : Waits s) (hf : Fires s e s') (hc : s'.committing = false)
    (hout : s'.outstanding = 0) : s'.lh = [] := by
  cases hf with
  | begin_op | wait | log_write | tooBig | outside => exact h.empty hc hout
  | enter => simp [State.at] at hout
  | @append p used b hpc =>
    -- the operation that logs is counted
    obtain ⟨A, hA⟩ := h.counts
    have hp := (hA.active p).mpr (by rw [hpc]; rfl)
    have hcard : s.outstanding = 0 := hout
    rw [hA.outstanding, Finset.card_eq_zero] at hcard
    simp [hcard] at hp
  | end_panic hpc hc' =>
    rw [show s.committing = false from hc] at hc'
    cases hc'
  | end_last => cases hc
  | end_more hpc _ hmore => exact absurd hout hmore
  | commit => rfl
  | finish hpc => exact h.emptied _ hpc

theorem emptied_step (h : Waits s) (hf : Fires s e s') (q : P) (hq : s'.pc q = .committed) :
    s'.lh = [] := by
  obtain ⟨A, hA⟩ := h.counts
  have hmove : ∀ {p x}, x ≠ .committed → update s.pc p x q = .committed →
      s.pc q = .committed := by
    intro p x hx hq
    by_cases hqp : q = p
    · subst hqp
      rw [update_self] at hq
      exact absurd hq hx
    · rwa [update_of_ne hqp] at hq
  cases hf with
  | begin_op | wait | enter | log_write | end_last => exact h.emptied q (hmove (by simp) hq)
  | tooBig | outside | end_panic => exact h.emptied q hq
  | append hpc =>
    have hc := hA.ender q (.inr (hmove (by simp) hq))
    exact absurd hc (hA.not_committing (by rw [hpc]; rfl))
  | end_more hpc hc _ =>
    have hq' := commits_update s.pc _ _ (by simp [Pc.Commits]) q (commits_wakeup q (.inr hq))
    rw [hA.ender q hq'] at hc
    cases hc
  | commit => rfl
  | finish hpc => exact h.emptied _ hpc

theorem waits_step (h : Waits s) (hnp : s.panicked = none) (hf : Fires s e s') : Waits s' := by
  obtain ⟨A, hA⟩ := h.counts
  refine ⟨counts_step hA hf, committer_step h hf, empty_step h hf, emptied_step h hf,
    reason_step h hf, ?_⟩
  cases hf with
  | tooBig | outside => simp [State.panic, tooBig]
  | end_panic hpc hc => exact absurd hc (hA.not_committing (by rw [hpc]; rfl))
  | begin_op | wait | enter | log_write | append | end_last | end_more | commit | finish =>
    simp [State.at, hnp]

omit [DecidableEq P] in
theorem waits_boot : Waits (boot : State P) := by
  refine ⟨⟨∅, counts_boot⟩, ?_, ?_, ?_, ?_, ?_⟩ <;> simp [boot]

/-- During a commit nothing is logged and nobody is admitted. -/
theorem committing_step (hA : Counts A s) (hc : s.committing = true) (hf : Fires s e s') :
    (∀ p b, e ≠ .log_write p b ∧ e ≠ .append p b) ∧
      ∀ p, (s.pc p).used = none → (s'.pc p).used = none := by
  have hmove : ∀ {p x} {q : P}, x.used = none → (s.pc q).used = none →
      (update s.pc p x q).used = none := by
    intro p x q hx hq
    by_cases hqp : q = p
    · subst hqp
      rwa [update_self]
    · rwa [update_of_ne hqp]
  cases hf with
  | begin_op | wait | commit => exact ⟨by simp, fun q hq => hmove rfl hq⟩
  | finish hpc =>
    refine ⟨by simp, fun q hq => ?_⟩
    rw [finish_used hpc]
    exact hq
  | enter _ hno _ =>
    rw [hc] at hno
    cases hno
  | tooBig hpc _ | outside hpc _ _ | log_write hpc _ | append hpc | end_panic hpc _
  | end_last hpc _ _ | end_more hpc _ _ =>
    exact absurd hc (hA.not_committing (by rw [hpc]; rfl))

omit [DecidableEq P] in
theorem wakeup_eq (hx : x ≠ .asleep) (hx' : x ≠ .testing) : wakeup pc q = x ↔ pc q = x := by
  unfold wakeup
  split
  · next h => simp [h, hx.symm, hx'.symm]
  · rfl

/-- Who enters and leaves `commit`, and when `lh` changes. -/
theorem ending_fires (hf : Fires s e s') :
    (∀ q, s'.pc q = .ending → s.pc q = .ending ∨ e = .end_op q) ∧
    (∀ q, s.pc q = .ending → s'.pc q = .ending ∨ e = .commit q) ∧
    (∀ q, s'.pc q = .committed → s.pc q = .committed ∨ e = .commit q) ∧
    (s'.lh = s.lh ∨ (∃ p b, e = .append p b) ∨ ∃ p, e = .commit p) := by
  have hnew : ∀ {p : P} {x y : Pc} (q : P), x ≠ y → update s.pc p x q = y → s.pc q = y := by
    intro p x y q hx hq
    by_cases hqp : q = p
    · subst hqp
      rw [update_self] at hq
      exact absurd hq hx
    · rwa [update_of_ne hqp] at hq
  have hold : ∀ {p : P} {x y : Pc} (q : P), s.pc p ≠ y → s.pc q = y → update s.pc p x q = y := by
    intro p x y q hp hq
    have hqp : q ≠ p := by
      rintro rfl
      exact hp hq
    rwa [update_of_ne hqp]
  cases hf with
  | tooBig | outside | end_panic =>
    exact ⟨fun _ => .inl, fun _ => .inl, fun _ => .inl, .inl rfl⟩
  | begin_op hpc | wait hpc | enter hpc | log_write hpc | append hpc =>
    exact ⟨fun q hq => .inl (hnew q (by simp) hq), fun q hq => .inl (hold q (by simp [hpc]) hq),
      fun q hq => .inl (hnew q (by simp) hq), by simp [State.at]⟩
  | end_more hpc | finish hpc =>
    refine ⟨fun q hq => .inl ?_, fun q hq => .inl ?_, fun q hq => .inl ?_, .inl rfl⟩
    · exact hnew q (by simp) ((wakeup_eq (by simp) (by simp)).mp hq)
    · exact (wakeup_eq (by simp) (by simp)).mpr (hold q (by simp [hpc]) hq)
    · exact hnew q (by simp) ((wakeup_eq (by simp) (by simp)).mp hq)
  | @end_last p _ hpc =>
    refine ⟨fun q hq => ?_, fun q hq => .inl ?_, fun q hq => .inl (hnew q (by simp) hq), .inl rfl⟩
    · by_cases hqp : q = p
      · exact .inr (hqp ▸ rfl)
      · exact .inl (by simpa [State.at, hqp] using hq)
    · by_cases hqp : q = p
      · subst hqp
        simp [State.at]
      · simpa [State.at, hqp] using hq
  | @commit p hpc =>
    refine ⟨fun q hq => .inl (hnew q (by simp) hq), fun q hq => ?_, fun q hq => ?_,
      .inr (.inr ⟨_, rfl⟩)⟩
    all_goals
      by_cases hqp : q = p
      · exact .inr (hqp ▸ rfl)
      · exact .inl (by simpa [State.at, hqp] using hq)

theorem run_waits (hrun : (system P).Run boot ls s) : Tracks ls s ∧ Waits s := by
  refine System.run_invariant (I := fun ls s => Tracks ls s ∧ Waits s) ?_ ?_
    (show (system P).init boot from rfl) hrun
  · rintro s rfl
    exact ⟨⟨rfl, List.nodup_nil, rfl⟩, waits_boot⟩
  · intro ls s e s' ⟨ht, hw⟩ hstep
    obtain ⟨hnp, hf⟩ := step_fires hstep
    exact ⟨tracks_step ht hf, waits_step hw hnp hf⟩

/-- In every state of every run: no operation is on while a commit is; nothing is logged and no
    operation is admitted then; `lh` has each block logged since the last commit once; and a process
    that sleeps on `&log` has a reason to, and another one will wake it. -/
theorem log_protocol_safe {ls : List (Event P)} {s : State P} (hrun : (system P).Run boot ls s) :
    (s.committing = true → s.outstanding = 0) ∧
    (s.committing = true → ∀ e s', step s e = some s' →
      (∀ p b, e ≠ .log_write p b ∧ e ≠ .append p b) ∧
        ∀ p, (s.pc p).used = none → (s'.pc p).used = none) ∧
    s.panicked ≠ some "log.committing" ∧
    s.lh.Nodup ∧ s.lh.toFinset = logged ls ∧
    ∀ p, s.pc p = .asleep →
      (s.committing = true ∨ LOGSIZE < s.lh.length + (s.outstanding + 1) * MAXOPBLOCKS) ∧
        ((s.committing = true ∧ ∃ q, (s.pc q).Commits) ∨
          (0 < s.outstanding ∧ ∃ q, (s.pc q).used.isSome)) := by
  obtain ⟨ht, hw⟩ := run_waits hrun
  obtain ⟨A, hA⟩ := hw.counts
  have hidle : s.committing = true → s.outstanding = 0 := by
    intro hc
    rw [hA.outstanding, hA.idle hc, Finset.card_empty]
  refine ⟨hidle, fun hc e s' hstep => committing_step hA hc (step_fires hstep).2, hw.sound,
    ht.nodup, ht.eq, fun p hp => ?_⟩
  · refine ⟨hw.reason p hp, ?_⟩
    by_cases hc : s.committing = true
    · exact .inl ⟨hc, hw.committer hc⟩
    · -- the log is not empty, so somebody is in an operation
      have hpos : 0 < s.outstanding := by
        by_contra hzero
        have hempty := hw.empty (by simpa using hc) (by omega)
        rcases hw.reason p hp with hc' | hfull
        · exact hc hc'
        · rw [hempty, show s.outstanding = 0 by omega] at hfull
          simp [LOGSIZE, MAXOPBLOCKS] at hfull
      obtain ⟨q, hq⟩ := Finset.card_pos.mp (hA.outstanding ▸ hpos)
      exact .inr ⟨hpos, q, (hA.active q).mp hq⟩

/-- Process 2 waits while process 0 commits. -/
def waitForCommit : List (Event (Fin 3)) :=
  [.begin_op 0, .test 0, .log_write 0 100, .append 0 100, .end_op 0, .begin_op 2, .test 2]

theorem log_protocol_safe_waitForCommit :
    ∃ s, (system (Fin 3)).Run boot waitForCommit s ∧ s.pc 2 = .asleep ∧ s.outstanding = 0 ∧
      s.lh.toFinset = {100} ∧ ∃ q, (s.pc q).Commits := by
  obtain ⟨s, hs, hp, hc, ho⟩ : ∃ s, System.replay step boot waitForCommit = some s ∧
      s.pc 2 = .asleep ∧ s.committing = true ∧ s.outstanding = 0 := ⟨_, rfl, rfl, rfl, rfl⟩
  have hrun : (system (Fin 3)).Run boot waitForCommit s := System.run_of_replay hs
  obtain ⟨h1, -, -, -, h5, h6⟩ := log_protocol_safe hrun
  refine ⟨s, hrun, hp, h1 hc, h5, ?_⟩
  rcases (h6 2 hp).2 with ⟨-, hq⟩ | ⟨hpos, -⟩
  · exact hq
  · omega

end Xv6.Log
