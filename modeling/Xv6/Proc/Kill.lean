import Xv6.Proc.Reap

/-! # `kill`

    `kill` marks the first slot with the pid, whatever its state. An `UNUSED` slot has pid 0, or the
    pid of a process that was never made because `allocproc` or `copyuvm` failed in `fork`; `kill`
    of such a pid returns 0 and marks the slot, and `allocproc` does not clear the mark.
-/

namespace Xv6.Ptable

open LTS

variable {t t' : State} {p q c np : Slot} {pid x : Int} {l : Label} {ls : List Label}

/-! ## One call -/

/-- The slot that `kill` finds, if any, is not `UNUSED`. -/
def Named (t : State) (pid : Int) : Prop :=
  ∀ p, target t pid = some p → (t.proc p).state ≠ .unused

/-- `kill` acts on the process with the pid, and on nothing else. -/
structure KillsNamed (t : State) (pid : Int) : Prop where
  ret   : (kill pid t).1 = 0 ↔ ∃ c, (t.proc c).state ≠ .unused ∧ (t.proc c).pid = pid
  marks : (kill pid t).1 = 0 → ∃ c, (t.proc c).state ≠ .unused ∧ (t.proc c).pid = pid ∧
    ((kill pid t).2.proc c).killed = true ∧ ∀ q, q ≠ c → (kill pid t).2.proc q = t.proc q
  fails : (kill pid t).1 ≠ 0 → (kill pid t).1 = -1 ∧ (kill pid t).2 = t

theorem kill_none (h : target t pid = none) : kill pid t = (-1, t) := by
  unfold kill
  rw [h]

theorem kill_some (h : target t pid = some p) : kill pid t = (0, t.set p Entry.kill) := by
  unfold kill
  rw [h]

theorem target_none (h : target t pid = none) (c : Slot) : (t.proc c).pid ≠ pid := by
  simpa using List.find?_eq_none.mp h c (List.mem_finRange c)

theorem killsNamed_of_named (h : Named t pid) : KillsNamed t pid := by
  cases htg : target t pid with
  | none =>
    have hk := kill_none htg
    constructor
    case ret =>
      rw [hk]
      exact iff_of_false (by simp) fun ⟨c, _, hc⟩ => target_none htg c hc
    case marks =>
      rw [hk]
      exact fun h0 => absurd h0 (by simp)
    case fails =>
      rw [hk]
      exact fun _ => ⟨rfl, rfl⟩
  | some p =>
    have hk := kill_some htg
    have hp := target_some htg
    constructor
    case ret =>
      rw [hk]
      exact iff_of_true rfl ⟨p, h p htg, hp⟩
    case marks =>
      rw [hk]
      intro _
      refine ⟨p, h p htg, hp, ?_, fun q hq => set_ne hq _⟩
      rw [set_self]
      rfl
    case fails =>
      rw [hk]
      exact fun h0 => absurd rfl h0

/-- With different pids, nothing else makes `kill` go wrong. -/
theorem Pids.killsNamed_iff {n : Nat} (h : Pids n t) : KillsNamed t pid ↔ Named t pid := by
  refine ⟨fun hk p htg hu => ?_, killsNamed_of_named⟩
  have hp := target_some htg
  obtain ⟨c, hc, hcp⟩ := hk.ret.mp (by rw [kill_some htg])
  have hne : c ≠ p := fun he => hc (he ▸ hu)
  exact hne (h.inj c p (hcp.trans hp.symm) (h.live c hc))

/-! ## Who gets marked -/

theorem numbered_killed (q : Slot) : ((numbered t np).proc q).killed = (t.proc q).killed := by
  by_cases hq : q = np
  · subst hq
    show ((t.set q fun e => { e with pid := t.nextpid }).proc q).killed = _
    rw [set_self]
  · rw [numbered_ne hq]

theorem effect_keeps (he : Effect t l t') : Keeps t l.event t' := by
  cases he with
  | calm _ hk _ => exact hk
  | failed => exact fun q hq => .inl (numbered_killed q ▸ hq)
  | @forked p np _ _ _ _ =>
    intro q hq
    by_cases hqn : q = np
    · subst hqn
      rw [set_self] at hq
      exact .inl (numbered_killed q ▸ hq)
    · rw [set_ne hqn] at hq
      exact .inl (numbered_killed q ▸ hq)
  | exited _ _ hx =>
    intro q hq
    rw [(hx.rest q).2.1] at hq
    exact .inl hq
  | @reaped p c _ _ _ =>
    intro q hq
    by_cases hqc : q = c
    · subst hqc
      rw [set_self] at hq
      cases hq
    · rw [set_ne hqc] at hq
      exact .inl hq

/-- No `UNUSED` slot is marked. -/
def Unmarked (t : State) : Prop :=
  ∀ q, (t.proc q).state = .unused → (t.proc q).killed = false

/-- Every `kill` finds a process, or nothing. -/
def NamedStep (t : State) (l : Label) : Prop := ∀ pid, l.event = .kill pid → Named t pid

theorem Marks.used (h : step t l = some t') (hn : NamedStep t l) (hm : Marks t l.event q) :
    (t.proc q).state ≠ .unused := by
  rcases hm with hf | ⟨pid, hk, htg⟩
  · have hen := (step_eq h).1
    rw [hf] at hen
    have hrun : (t.proc q).state = .running := hen
    simp [hrun]
  · exact hn pid hk q htg

theorem unmarked_step (h : step t l = some t') (hn : NamedStep t l) (hu : Unmarked t) :
    Unmarked t' := by
  intro q hq
  by_contra hk
  rw [Bool.not_eq_false] at hk
  -- the slot was in use, and marked there or before
  have hused : (t.proc q).state ≠ .unused := by
    rcases effect_keeps (step_effect h) q hk with hold | hm
    · intro hun
      rw [hu q hun] at hold
      cases hold
    · exact hm.used h hn
  cases step_effect h with
  | calm hc _ _ => exact hused ((hc.unused q).mp hq)
  | failed hnp => exact hused (((sameTree_numbered hnp).unused q).mp hq)
  | @forked p np _ _ hp hnp =>
    by_cases hqn : q = np
    · rw [hqn] at hused
      exact hused hnp
    · rw [set_ne hqn] at hq
      exact hused (((sameTree_numbered hnp).unused q).mp hq)
  | @exited p _ hp hinit hx =>
    by_cases hqp : q = p
    · rw [hqp, hx.zombie] at hq
      cases hq
    · rcases hx.state q hqp with he | ⟨-, he⟩
      · exact hused (he ▸ hq)
      · rw [he] at hq
        cases hq
  | @reaped p c _ _ _ =>
    by_cases hqc : q = c
    · subst hqc
      rw [set_self] at hk
      cases hk
    · rw [set_ne hqc] at hq
      exact hused hq

theorem unmarked_init (h : ∃ kstack, userinit kstack zero = some t) : Unmarked t := by
  obtain ⟨kstack, h⟩ := h
  obtain rfl := userinit_zero h
  intro q _
  by_cases hq : q = 0
  · subst hq
    rfl
  · exact congrArg Entry.killed (Function.update_of_ne hq _ zero.proc)

theorem reachable_unmarked (h : (system.restrict NamedStep).Reachable t) : Unmarked t := by
  refine System.invariant (fun _ => unmarked_init) ?_ h
  intro t l t' hu hs
  exact unmarked_step hs.1 hs.2 hu

/-! ## A new process -/

/-- The process with pid `x` in slot `q`, if it is still there, is not marked. -/
def Spared (q : Slot) (x : Int) (t : State) : Prop :=
  (t.proc q).pid = x → (t.proc q).killed = false

/-- The slot a step puts a process into, or takes one from, is not marked. -/
theorem spared_step (h : step t l = some t') (hn : NamedStep t l) (hu : Unmarked t)
    (hs : Spared q x t) (hl : l.event ≠ .kill x) (hf : l.event ≠ .fault q) : Spared q x t' := by
  intro hx
  by_contra hk
  rw [Bool.not_eq_false] at hk
  have he := step_effect h
  have hmark := effect_keeps he q hk
  -- if the slot has its pid from before, it was marked before or is the target of the kill
  have hold : (t.proc q).pid = x → False := by
    intro hx
    rcases hmark with hold | hfault | ⟨pid, hkill, htg⟩
    · rw [hs hx] at hold
      cases hold
    · exact hf hfault
    · rw [← target_some htg, hx] at hkill
      exact hl hkill
  -- if it was `UNUSED`, nothing can mark it
  have hfree : (t.proc q).state = .unused → False := by
    intro hun
    rcases hmark with hold | hm
    · rw [hu q hun] at hold
      cases hold
    · exact hm.used h hn hun
  cases he with
  | calm hc _ _ => exact hold ((hc.pid q).symm.trans hx)
  | @failed p np _ _ hnp =>
    by_cases hqn : q = np
    · exact hfree (hqn ▸ hnp)
    · rw [numbered_ne hqn] at hx
      exact hold hx
  | @forked p np _ _ hp hnp =>
    by_cases hqn : q = np
    · exact hfree (hqn ▸ hnp)
    · rw [set_ne hqn, numbered_ne hqn] at hx
      exact hold hx
  | exited _ _ hxt => exact hold ((hxt.rest q).1.symm.trans hx)
  | @reaped p c _ _ _ =>
    by_cases hqc : q = c
    · subst hqc
      rw [set_self] at hk
      cases hk
    · rw [set_ne hqc] at hx
      exact hold hx

theorem spared_run {t1 t2 : State} {ms : List Label}
    (hrun : (system.restrict NamedStep).Run t1 ms t2) (hu : Unmarked t1) (hs : Spared q x t1)
    (hms : ∀ l ∈ ms, l.event ≠ .kill x ∧ l.event ≠ .fault q) : Unmarked t2 ∧ Spared q x t2 := by
  induction hrun with
  | nil => exact ⟨hu, hs⟩
  | @snoc t u ms l hrun hstep ih =>
    obtain ⟨hu', hs'⟩ := ih fun l hl => hms l (List.mem_append_left _ hl)
    obtain ⟨hk, hf⟩ := hms l (by simp)
    exact ⟨unmarked_step hstep.1 hstep.2 hu', spared_step hstep.1 hstep.2 hu' hs' hk hf⟩

/-- A slot that becomes a process is not marked. -/
theorem fork_unmarked {kstack pgdir : Nat} {ret : Option Int} (hu : Unmarked t)
    (h : step t ⟨.fork p kstack pgdir, ret⟩ = some t') (hnp : (t.proc np).state = .unused) :
    (t'.proc np).killed = false := by
  by_contra hk
  rw [Bool.not_eq_false] at hk
  rcases effect_keeps (step_effect h) np hk with hold | hf | ⟨pid, hkill, -⟩
  · rw [hu np hnp] at hold
    cases hold
  · cases hf
  · cases hkill

/-- In a run in which every `kill` finds a process or nothing: `kill` acts on
    the process with the pid and on nothing else, and no other `kill` does, as
    long as pids differ; and a process that `fork` made is not marked until a
    `kill` with its pid, or a fault of its own. -/
theorem kill_named (h : (system.restrict NamedStep).Reachable t) :
    (∀ pid, Named t pid → KillsNamed t pid) ∧
    (∀ t₀ ls, system.init t₀ → system.Run t₀ ls t → forks ls < 2 ^ 31 →
      ∀ pid, KillsNamed t pid ↔ Named t pid) ∧
    ∀ p np kstack pgdir x t₁, step t ⟨.fork p kstack pgdir, some x⟩ = some t₁ →
      (t.proc np).state = .unused → (t₁.proc np).state ≠ .unused →
      ∀ ms t₂, (system.restrict NamedStep).Run t₁ ms t₂ →
        (∀ l ∈ ms, l.event ≠ .kill x ∧ l.event ≠ .fault np) →
        (t₂.proc np).pid = x → (t₂.proc np).killed = false := by
  refine ⟨fun pid => killsNamed_of_named, fun t₀ ls h₀ hrun hforks pid => ?_, ?_⟩
  · obtain ⟨n, -, hpids, -⟩ := run_counted h₀ hrun hforks
    exact hpids.killsNamed_iff
  intro p np kstack pgdir x t₁ hstep hnp _ ms t₂ hrun hms
  have hu := reachable_unmarked h
  have hn : NamedStep t ⟨.fork p kstack pgdir, some x⟩ := fun pid hk => by cases hk
  exact (spared_run hrun (unmarked_step hstep hn hu) (fun _ => fork_unmarked hu hstep hnp) hms).2

/-- `init` makes a child, then kills it. -/
theorem kill_named_child : ∃ t, (system.restrict NamedStep).Reachable t ∧ Named t 2 ∧
    KillsNamed t 2 ∧ (kill 2 t).1 = 0 := by
  obtain ⟨t0, h₀⟩ : ∃ t, userinit 4096 zero = some t := ⟨_, rfl⟩
  have hrun : ∃ t, (system.restrict NamedStep).Run t0
      [⟨.dispatch 0, none⟩, ⟨.fork 0 4096 8192, some 2⟩] t ∧ (t.proc 1).state = .runnable ∧
      target t 2 = some 1 := by
    obtain rfl := userinit_zero h₀
    refine ⟨_, .cons ⟨rfl, fun _ h => by cases h⟩
      (.cons ⟨rfl, fun _ h => by cases h⟩ (.nil _)), by decide, by decide⟩
  obtain ⟨t, hrun, hst, htg⟩ := hrun
  have hreach : (system.restrict NamedStep).Reachable t := ⟨t0, _, ⟨4096, h₀⟩, hrun⟩
  have hn : Named t 2 := by
    intro p hp
    rw [htg, Option.some.injEq] at hp
    rw [← hp, hst]
    decide
  exact ⟨t, hreach, hn, (kill_named hreach).1 2 hn, by rw [kill_some htg]⟩

/-- `kill(0)` marks slot 1, which is `UNUSED`, and the next process that is
    made starts out killed. -/
theorem kill_zero_marks_child : ∃ t t₁, system.Reachable t ∧ ¬ KillsNamed t 0 ∧
    system.Run t [⟨.kill 0, some 0⟩, ⟨.fork 0 4096 8192, some 2⟩] t₁ ∧
    (t₁.proc 1).state = .runnable ∧ (t₁.proc 1).pid = 2 ∧ (t₁.proc 1).killed = true := by
  obtain ⟨t0, h₀⟩ : ∃ t, userinit 4096 zero = some t := ⟨_, rfl⟩
  have hfirst : system.Run t0 [⟨.dispatch 0, none⟩] (dispatch 0 t0) := by
    obtain rfl := userinit_zero h₀
    exact .single rfl
  have hrest : ∃ t₁, system.Run (dispatch 0 t0)
      [⟨.kill 0, some 0⟩, ⟨.fork 0 4096 8192, some 2⟩] t₁ ∧
      decide ((t₁.proc 1).state = .runnable ∧ (t₁.proc 1).pid = 2 ∧ (t₁.proc 1).killed = true)
        = true :=
    System.exists_run_of_replay (by obtain rfl := userinit_zero h₀; decide)
  have hret : (kill 0 (dispatch 0 t0)).1 = 0 := by
    obtain rfl := userinit_zero h₀
    decide
  -- the only process is `init`, with pid 1
  have hno : ¬ ∃ c, ((dispatch 0 t0).proc c).state ≠ .unused ∧
      ((dispatch 0 t0).proc c).pid = 0 := by
    obtain rfl := userinit_zero h₀
    intro ⟨c, hc, h0⟩
    by_cases hc0 : c = 0
    · subst hc0
      exact absurd h0 (by decide)
    · rw [dispatch, set_ne hc0] at hc
      exact hc (congrArg Entry.state (Function.update_of_ne hc0 _ zero.proc))
  obtain ⟨t₁, hrest, hq⟩ := hrest
  exact ⟨_, t₁, ⟨t0, _, ⟨4096, h₀⟩, hfirst⟩, fun hk => hno (hk.ret.mp hret), hrest,
    of_decide_eq_true hq⟩

end Xv6.Ptable
