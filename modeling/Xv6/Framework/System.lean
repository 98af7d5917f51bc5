import Mathlib.Data.List.Basic

/-! # Labelled transition systems and their runs

    A system is an initial-state predicate together with a labelled step relation. Runs are finite
    label sequences; safety properties are proved by the invariant rule `System.invariant`, or, when
    the property speaks about the labels of the whole run, by `System.run_invariant`.

    `System.restrict` keeps only the steps that meet a condition on the state before the step. It is
    how a conditional safety result is stated here: the runs of `sys.restrict ok` are exactly the
    runs of `sys` whose steps all satisfy `ok`.
-/

namespace LTS

/-- A labelled transition system. -/
structure System (State : Type*) (Label : Type*) where
  init : State → Prop
  step : State → Label → State → Prop

namespace System

variable {State Label : Type*} (sys : System State Label) {s t u s' : State} {ls : List Label}
  {l : Label} {ok : State → Label → Prop} {init : State → Prop} {f : State → Label → Option State}

/-! ## Runs -/

/-- `sys.Run s ls s'`: from `s` the system can fire the labels `ls`, in this
    order, and end in `s'`. -/
inductive Run : State → List Label → State → Prop where
  | nil (s : State) : Run s [] s
  | snoc {s t u : State} {ls : List Label} {l : Label} :
      Run s ls t → sys.step t l u → Run s (ls ++ [l]) u

/-- States on some run from an initial state. -/
def Reachable (s : State) : Prop :=
  ∃ s₀ ls, sys.init s₀ ∧ sys.Run s₀ ls s

/-- The steps of `sys` that start in a state where the label meets `ok`. -/
def restrict (ok : State → Label → Prop) : System State Label where
  init := sys.init
  step := fun s l s' => sys.step s l s' ∧ ok s l

variable {sys}

theorem Run.trans {ms : List Label} (h1 : sys.Run s ls t) (h2 : sys.Run t ms u) :
    sys.Run s (ls ++ ms) u := by
  induction h2 with
  | nil => simpa using h1
  | snoc _ hstep ih =>
    rw [← List.append_assoc]
    exact .snoc ih hstep

theorem Run.single (h : sys.step s l t) : sys.Run s [l] t := by
  simpa using Run.snoc (Run.nil s) h

theorem Run.cons (h : sys.step s l t) (hrun : sys.Run t ls u) : sys.Run s (l :: ls) u := by
  simpa using (Run.single h).trans hrun

theorem Reachable.of_init (h : sys.init s) : sys.Reachable s :=
  ⟨s, [], h, .nil s⟩

theorem Reachable.step (h : sys.Reachable s) (hstep : sys.step s l t) : sys.Reachable t := by
  obtain ⟨s0, ls, hinit, hrun⟩ := h
  exact ⟨s0, ls ++ [l], hinit, .snoc hrun hstep⟩

theorem Reachable.run (h : sys.Reachable s) (hrun : sys.Run s ls t) : sys.Reachable t := by
  obtain ⟨s0, ms, hinit, hrun0⟩ := h
  exact ⟨s0, ms ++ ls, hinit, hrun0.trans hrun⟩

/-! ## Invariant rules -/

/-- A property of the label sequence and the current state that holds at the
    start and is kept by every step holds along every run. -/
theorem run_invariant {I : List Label → State → Prop} (hinit : ∀ s, sys.init s → I [] s)
    (hstep : ∀ ls s l s', I ls s → sys.step s l s' → I (ls ++ [l]) s') {s0 : State}
    (h0 : sys.init s0) (hrun : sys.Run s0 ls s) : I ls s := by
  induction hrun with
  | nil => exact hinit _ h0
  | snoc _ hs ih => exact hstep _ _ _ _ ih hs

theorem invariant {I : State → Prop} (hinit : ∀ s, sys.init s → I s)
    (hstep : ∀ s l s', I s → sys.step s l s' → I s') (h : sys.Reachable s) : I s := by
  obtain ⟨s0, ls, h0, hrun⟩ := h
  exact run_invariant (I := fun _ s => I s) hinit (fun _ s l s' hi hs => hstep s l s' hi hs) h0 hrun

/-- A run of the restricted system is a run of the system. -/
theorem Run.of_restrict (h : (sys.restrict ok).Run s ls t) : sys.Run s ls t := by
  induction h with
  | nil => exact .nil _
  | snoc _ hs ih => exact .snoc ih hs.1

/-! ## Executable systems

    When a label determines the successor, the step relation is the graph of a
    guarded step function and a concrete run can be replayed. -/

/-- The system of a guarded step function: `none` means the label is not enabled. -/
def ofStep (init : State → Prop) (f : State → Label → Option State) :
    System State Label where
  init := init
  step := fun s l s' => f s l = some s'

/-- Fire the labels one after the other. -/
def replay (f : State → Label → Option State) : State → List Label → Option State
  | s, [] => some s
  | s, l :: ls => (f s l).bind fun t => replay f t ls

theorem run_of_replay (h : replay f s ls = some s') : (ofStep init f).Run s ls s' := by
  induction ls generalizing s with
  | nil =>
    obtain rfl : s = s' := by simpa [replay] using h
    exact .nil _
  | cons l ls ih =>
    obtain ⟨t, ht, hrest⟩ := Option.bind_eq_some_iff.mp h
    exact .cons ht (ih hrest)

/-- A replay that ends in a state with a decidable property. -/
theorem exists_run_of_replay {q : State → Bool} (h : (replay f s ls).any q = true) :
    ∃ s', (ofStep init f).Run s ls s' ∧ q s' = true := by
  cases hr : replay f s ls with
  | none => simp [hr] at h
  | some s' => exact ⟨s', run_of_replay hr, by simpa [hr] using h⟩

/-- Replay of a restricted system: each step checks the condition first. -/
theorem run_restrict_of_replay [∀ s l, Decidable (ok s l)]
    (h : replay (fun s l => if ok s l then f s l else none) s ls = some s') :
    ((ofStep init f).restrict ok).Run s ls s' := by
  induction ls generalizing s with
  | nil =>
    obtain rfl : s = s' := by simpa [replay] using h
    exact .nil _
  | cons l ls ih =>
    obtain ⟨t, ht, hrest⟩ := Option.bind_eq_some_iff.mp h
    dsimp only at ht
    by_cases hok : ok s l
    · rw [if_pos hok] at ht
      exact .cons ⟨ht, hok⟩ (ih hrest)
    · rw [if_neg hok] at ht
      cases ht

end System

end LTS
