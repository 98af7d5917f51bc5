import Mathlib.Data.List.Chain
import Xv6.Framework.System
import Xv6.Proc.Basic

/-! # The two-level time slice

    `allocproc`, the timer block of `trap`, `sys_increasepriority` and the priority boost of
    `scheduler` all write `priority` and `timecpu`. A process at priority 1 is meant to yield on its
    first timer tick, one at priority 0 on its second.

    `trap` compares `timecpu` with `==`, so the slice is only bounded while the two fields stay in
    step: `timecpu = 0` at priority 1. Raising the priority of a process that has already used the
    first tick of a low priority slice breaks this, and the process then runs on without being
    preempted.
-/

namespace Xv6.TimeSlice

open LTS

/-! ## Model -/

/-- The process table; `prioritybump` only decides when the boost comes, and
    events come in any order here. -/
abbrev State : Type := Slot → Proc

/-- What can happen to the table. A tick carries whether `trap` called `yield`. -/
inductive Event where
  | allocproc (i : Slot)
  | ready (i : Slot)
  | dispatch (i : Slot)
  | tick (i : Slot) (yielded : Bool)
  | increasepriority (i : Slot)
  | boost
  | sleep (i : Slot) (chan : Nat)
  | wakeup (chan : Nat)
  | kill (i : Slot)
  | exit (i : Slot)
  | reap (i : Slot)
  deriving DecidableEq, Repr

/-- `yield`, up to its call of `sched`. -/
def yield (p : Proc) : Proc := { p with state := .runnable }

/-- The timer block of `trap` for a running `proc`, and whether it yields. -/
def trap (p : Proc) : Proc × Bool :=
  let p := { p with timecpu := incInt p.timecpu }
  if p.priority = 1 ∧ p.timecpu = 1 then
    (yield { p with timecpu := p.timecpu - 1, priority := p.priority - 1 }, true)
  else if p.priority = 0 ∧ p.timecpu = 2 then
    (yield { p with timecpu := 0 }, true)
  else
    (p, false)

/-- `sys_increasepriority` on `proc`. -/
def sys_increasepriority (p : Proc) : Proc :=
  if p.priority = 0 then { p with priority := 1 } else p

/-- The body of the boost loop of `scheduler`. -/
def boost (p : Proc) : Proc :=
  if p.state ≠ .runnable then p
  else if p.priority = 0 then { p with priority := 1 } else p

/-- The body of the loop of `wakeup1`. -/
def wakeup1 (chan : Nat) (p : Proc) : Proc :=
  if p.state = .sleeping ∧ p.chan = chan then { p with state := .runnable } else p

/-- Change slot `i` by `f` if its process is in state `st`. -/
def on (s : State) (i : Slot) (st : ProcState) (f : Proc → Proc) : Option State :=
  if (s i).state = st then some (setProc s i (f (s i))) else none

/-- One event. -/
def step (s : State) : Event → Option State
  | .allocproc i => on s i .unused fun p => { p with state := .embryo }.initSched
  | .ready i => on s i .embryo fun p => { p with state := .runnable }
  | .dispatch i => on s i .runnable fun p => { p with state := .running }
  | .tick i yielded =>
      if (trap (s i)).2 = yielded then on s i .running fun p => (trap p).1 else none
  | .increasepriority i => on s i .running sys_increasepriority
  | .boost => some fun i => boost (s i)
  | .sleep i chan => on s i .running fun p => { p with chan := chan, state := .sleeping }
  | .wakeup chan => some fun i => wakeup1 chan (s i)
  | .kill i => on s i .sleeping fun p => { p with killed := true, state := .runnable }
  | .exit i => on s i .running fun p => { p with state := .zombie }
  | .reap i => on s i .zombie fun p => { p with state := .unused }

/-- Start: the zero-initialised table. -/
def boot : State := fun _ => Proc.zero

/-- The scheduling system. -/
def system : System State Event := System.ofStep (· = boot) step

/-! ## What the slice should be -/

/-- The outcomes, in order, of the ticks process `i` takes in a run. -/
def ticksOf (i : Slot) (ls : List Event) : List Bool :=
  ls.filterMap fun
    | .tick j yielded => if j = i then some yielded else none
    | _ => none

/-- No two ticks in a row without a `yield`. -/
def SliceBounded (i : Slot) (ls : List Event) : Prop :=
  (ticksOf i ls).IsChain fun a b => a = true ∨ b = true

/-- The bounded time slice, at the end of the run `ls` in state `s`. -/
structure Bounded (ls : List Event) (s : State) : Prop where
  priority : ∀ i, (s i).priority = 0 ∨ (s i).priority = 1
  high     : ∀ i, (s i).state = .running → (s i).priority = 1 → (trap (s i)).2 = true
  slice    : ∀ i, SliceBounded i ls

/-- The event raises no process out of a slice it has already started to
    use: the processes it raises from priority 0 have `timecpu = 0`. -/
def RaisesFresh (s : State) : Event → Prop
  | .increasepriority i => (s i).priority = 0 → (s i).timecpu = 0
  | .boost => ∀ i, (s i).state = .runnable → (s i).priority = 0 → (s i).timecpu = 0
  | _ => True

instance (s : State) : (e : Event) → Decidable (RaisesFresh s e)
  | .increasepriority i =>
      inferInstanceAs (Decidable ((s i).priority = 0 → (s i).timecpu = 0))
  | .boost => inferInstanceAs (Decidable
      (∀ i, (s i).state = .runnable → (s i).priority = 0 → (s i).timecpu = 0))
  | .allocproc _ | .ready _ | .dispatch _ | .tick _ _ | .sleep _ _ | .wakeup _
  | .kill _ | .exit _ | .reap _ => isTrue trivial

/-! ## The invariant

    `InSlice` is what every writer of the two fields has to restore. -/

/-- `timecpu` counts the ticks used of the slice that `priority` gives. -/
def InSlice (p : Proc) : Prop :=
  (p.priority = 1 ∧ p.timecpu = 0) ∨ (p.priority = 0 ∧ (p.timecpu = 0 ∨ p.timecpu = 1))

/-- A process is due when its next tick must yield. -/
def Due (p : Proc) : Prop :=
  (p.priority = 1 ∧ p.timecpu = 0) ∨ (p.priority = 0 ∧ p.timecpu = 1)

/-- What one event does to the scheduling fields of one process. -/
inductive Effect (i : Slot) (p p' : Proc) : Event → Prop where
  | keep {e : Event} (hp : p'.priority = p.priority) (ht : p'.timecpu = p.timecpu)
      (hne : ∀ yielded, e ≠ .tick i yielded) : Effect i p p' e
  | fresh (hp : p'.priority = 1) (ht : p'.timecpu = 0) : Effect i p p' (.allocproc i)
  | tick (hrun : p.state = .running) (hp' : p' = (trap p).1) :
      Effect i p p' (.tick i (trap p).2)
  | raise {e : Event} (hp : p.priority = 0) (hp' : p'.priority = 1)
      (ht : p'.timecpu = p.timecpu)
      (he : e = .increasepriority i ∨ (e = .boost ∧ p.state = .runnable)) :
      Effect i p p' e

variable {s s' : State} {i : Slot} {st : ProcState} {f : Proc → Proc}

theorem on_eq_some (h : on s i st f = some s') : (s i).state = st ∧ s' = setProc s i (f (s i)) := by
  unfold on at h
  split at h
  · next hst => exact ⟨hst, (Option.some.inj h).symm⟩
  · cases h

variable {e : Event}

/-- An event that changes slot `j` by a function that leaves the two fields
    alone keeps them in every slot. -/
theorem effect_on {j : Slot} (h : on s j st f = some s') (hp : (f (s j)).priority = (s j).priority)
    (ht : (f (s j)).timecpu = (s j).timecpu) (hne : ∀ yielded, e ≠ .tick i yielded) :
    Effect i (s i) (s' i) e := by
  obtain ⟨-, rfl⟩ := on_eq_some h
  by_cases hij : i = j
  · subst hij
    exact .keep (by simpa using hp) (by simpa using ht) hne
  · exact .keep (by simp [hij]) (by simp [hij]) hne

/-- The inversion lemma: everything an event can do to `priority` and `timecpu`. -/
theorem step_effect (h : step s e = some s') (i : Slot) : Effect i (s i) (s' i) e := by
  cases e with
  | allocproc j =>
    simp only [step] at h
    obtain ⟨-, rfl⟩ := on_eq_some h
    by_cases hij : i = j
    · subst hij
      exact .fresh (by simp [Proc.initSched]) (by simp [Proc.initSched])
    · exact .keep (by simp [hij]) (by simp [hij]) (by simp)
  | ready j | dispatch j | sleep j chan | kill j | exit j | reap j =>
    simp only [step] at h
    exact effect_on h rfl rfl (by simp)
  | tick j yielded =>
    simp only [step] at h
    split at h
    · next hy =>
      obtain ⟨hrun, rfl⟩ := on_eq_some h
      by_cases hij : i = j
      · subst hij
        subst hy
        exact .tick hrun (by simp)
      · exact .keep (by simp [hij]) (by simp [hij]) (by simp [Ne.symm hij])
    · cases h
  | increasepriority j =>
    obtain ⟨-, rfl⟩ := on_eq_some h
    by_cases hij : i = j
    · subst hij
      by_cases hp : (s i).priority = 0
      · exact .raise hp (by simp [sys_increasepriority, hp])
          (by simp [sys_increasepriority, hp]) (.inl rfl)
      · exact .keep (by simp [sys_increasepriority, hp])
          (by simp [sys_increasepriority, hp]) (by simp)
    · exact .keep (by simp [hij]) (by simp [hij]) (by simp)
  | boost =>
    cases h
    by_cases hr : (s i).state = .runnable
    · by_cases hp : (s i).priority = 0
      · exact .raise hp (by simp [boost, hr, hp]) (by simp [boost, hr, hp]) (.inr ⟨rfl, hr⟩)
      · exact .keep (by simp [boost, hp]) (by simp [boost, hp]) (by simp)
    · exact .keep (by simp [boost, hr]) (by simp [boost, hr]) (by simp)
  | wakeup chan =>
    cases h
    refine .keep ?_ ?_ (by simp) <;> simp only [wakeup1] <;> split <;> rfl

/-! ## One tick -/

variable {p : Proc}

/-- A due process yields, and its next slice starts at priority 0. -/
theorem trap_due (h : Due p) :
    (trap p).2 = true ∧ (trap p).1.priority = 0 ∧ (trap p).1.timecpu = 0 := by
  rcases h with ⟨hp, ht⟩ | ⟨hp, ht⟩ <;>
    simp [trap, yield, incInt, hp, ht, Int.bmod]

/-- The first tick at priority 0 does not yield; the process is then due. -/
theorem trap_fresh_low (hp : p.priority = 0) (ht : p.timecpu = 0) :
    (trap p).2 = false ∧ (trap p).1.priority = 0 ∧ (trap p).1.timecpu = 1 := by
  simp [trap, incInt, hp, ht, Int.bmod]

theorem trap_priority (h : p.priority = 0 ∨ p.priority = 1) :
    (trap p).1.priority = 0 ∨ (trap p).1.priority = 1 := by
  unfold trap
  dsimp only
  split
  · next h1 => exact .inl (by simp [yield, h1.1])
  · split
    · simpa [yield] using h
    · exact h

theorem InSlice.due_or (h : InSlice p) : Due p ∨ (p.priority = 0 ∧ p.timecpu = 0) := by
  rcases h with h | ⟨hp, ht | ht⟩
  · exact .inl (.inl h)
  · exact .inr ⟨hp, ht⟩
  · exact .inl (.inr ⟨hp, ht⟩)

/-! ## Every run -/

theorem ticksOf_snoc_tick (i : Slot) (ls : List Event) (yielded : Bool) :
    ticksOf i (ls ++ [.tick i yielded]) = ticksOf i ls ++ [yielded] := by
  simp [ticksOf]

theorem ticksOf_snoc_other (ls : List Event) (h : ∀ yielded, e ≠ .tick i yielded) :
    ticksOf i (ls ++ [e]) = ticksOf i ls := by
  cases e <;> simp_all [ticksOf]

/-- `priority` is a two-valued field on every run, whoever raises it. -/
theorem priority_binary (h : system.Reachable s) (i : Slot) :
    (s i).priority = 0 ∨ (s i).priority = 1 := by
  revert i
  refine System.invariant (I := fun s => ∀ i, (s i).priority = 0 ∨ (s i).priority = 1) ?_ ?_ h
  · rintro s rfl i
    exact .inl rfl
  · intro s e s' ih hstep i
    cases step_effect hstep i with
    | keep hp _ _ => rw [hp]; exact ih i
    | fresh hp _ => exact .inr hp
    | tick _ hp' =>
      rw [hp']
      exact trap_priority (ih i)
    | raise _ hp' _ _ => exact .inr hp'

/-- The run invariant: every process is within its slice, a process whose last tick did not yield is
    due, one with a used tick did not yield on it, and no slice has been overrun so far. -/
structure RunInv (ls : List Event) (s : State) : Prop where
  inSlice : ∀ i, InSlice (s i)
  missed  : ∀ i, (ticksOf i ls).getLast? = some false → Due (s i)
  used    : ∀ i, (s i).timecpu = 1 → (ticksOf i ls).getLast? = some false
  slice   : ∀ i, SliceBounded i ls

theorem runInv_boot : RunInv [] boot where
  inSlice := fun _ => .inr ⟨rfl, .inl rfl⟩
  missed := fun _ h => by simp [ticksOf] at h
  used := fun _ h => by simp [boot, Proc.zero] at h
  slice := fun _ => .nil

variable {ls : List Event}

/-- An outcome may follow a run in which the last tick made the process due. -/
theorem sliceBounded_snoc {yielded : Bool} (h : SliceBounded i ls)
    (hy : (ticksOf i ls).getLast? = some false → yielded = true) :
    SliceBounded i (ls ++ [.tick i yielded]) := by
  unfold SliceBounded at *
  rw [ticksOf_snoc_tick, List.isChain_append]
  refine ⟨h, .singleton _, ?_⟩
  intro a ha b hb
  obtain rfl : yielded = b := by simpa using hb
  cases a with
  | true => exact .inl rfl
  | false => exact .inr (hy ha)

theorem runInv_step (hinv : RunInv ls s) (hstep : step s e = some s') (hok : RaisesFresh s e) :
    RunInv (ls ++ [e]) s' := by
  -- the four parts, process by process
  suffices h : ∀ i, InSlice (s' i) ∧
      ((ticksOf i (ls ++ [e])).getLast? = some false → Due (s' i)) ∧
      ((s' i).timecpu = 1 → (ticksOf i (ls ++ [e])).getLast? = some false) ∧
      SliceBounded i (ls ++ [e]) from
    ⟨fun i => (h i).1, fun i => (h i).2.1, fun i => (h i).2.2.1, fun i => (h i).2.2.2⟩
  intro i
  have hin := hinv.inSlice i
  have hmiss := hinv.missed i
  have hused := hinv.used i
  have hb := hinv.slice i
  cases step_effect hstep i with
  | keep hp ht hne =>
    unfold SliceBounded
    rw [ticksOf_snoc_other ls hne]
    unfold InSlice Due at *
    rw [hp, ht]
    exact ⟨hin, hmiss, hused, hb⟩
  | fresh hp ht =>
    unfold SliceBounded
    rw [ticksOf_snoc_other ls (by simp)]
    exact ⟨.inl ⟨hp, ht⟩, fun _ => .inl ⟨hp, ht⟩, fun h => by omega, hb⟩
  | tick _ hp' =>
    rcases hin.due_or with hdue | ⟨hp, ht⟩
    · obtain ⟨hy, hp, ht⟩ := trap_due hdue
      refine ⟨.inr ⟨by rw [hp', hp], .inl (by rw [hp', ht])⟩, ?_, ?_, ?_⟩
      · rw [ticksOf_snoc_tick, hy]
        simp
      · rw [hp', ht]
        simp
      · exact sliceBounded_snoc hb fun _ => hy
    · obtain ⟨hy, hp1, ht1⟩ := trap_fresh_low hp ht
      refine ⟨.inr ⟨by rw [hp', hp1], .inr (by rw [hp', ht1])⟩,
        fun _ => .inr ⟨by rw [hp', hp1], by rw [hp', ht1]⟩, ?_, ?_⟩
      · rw [ticksOf_snoc_tick, hy]
        simp
      · -- a process at the start of a slice was not due, so it had not missed
        refine sliceBounded_snoc hb fun hlast => ?_
        rcases hmiss hlast with ⟨h1, _⟩ | ⟨_, h1⟩ <;> omega
  | raise hp hp' ht he =>
    have hfresh : (s i).timecpu = 0 := by
      rcases he with rfl | ⟨rfl, hr⟩
      · exact hok hp
      · exact hok i hr hp
    unfold SliceBounded
    rw [ticksOf_snoc_other ls (by rcases he with rfl | ⟨rfl, _⟩ <;> simp)]
    exact ⟨.inl ⟨hp', by omega⟩, fun _ => .inl ⟨hp', by omega⟩, fun h => by omega, hb⟩

theorem runInv_of_run (hrun : (system.restrict RaisesFresh).Run boot ls s) : RunInv ls s := by
  refine System.run_invariant (I := RunInv) ?_ ?_
    (show (system.restrict RaisesFresh).init boot from rfl) hrun
  · rintro s rfl
    exact runInv_boot
  · intro ls s e s' hinv hstep
    exact runInv_step hinv hstep.1 hstep.2

/-- **Bounded time slice.** On every run whose raises all come at the start of a slice, `priority`
    is 0 or 1, a running process at priority 1 yields on its next tick and no process takes two
    ticks in a row without yielding. -/
theorem time_slice_bounded {ls : List Event} {s : State}
    (hrun : (system.restrict RaisesFresh).Run boot ls s) : Bounded ls s := by
  have hinv := runInv_of_run hrun
  refine ⟨fun i => ?_, fun i _ hp => ?_, hinv.slice⟩
  · exact priority_binary ⟨boot, ls, rfl, hrun.of_restrict⟩ i
  · rcases (hinv.inSlice i).due_or with hdue | ⟨h0, _⟩
    · exact (trap_due hdue).1
    · omega

/-- A life of process 0: a high tick, the first tick of a low slice after a
    raise at its start, and the second tick of the next low slice. -/
def lawfulRun : List Event :=
  [.allocproc 0, .ready 0, .dispatch 0, .tick 0 true, .boost, .dispatch 0, .tick 0 true,
    .dispatch 0, .tick 0 false, .sleep 0 7, .wakeup 7, .dispatch 0, .tick 0 true]

theorem time_slice_bounded_lawfulRun :
    ∃ s, (system.restrict RaisesFresh).Run boot lawfulRun s ∧ Bounded lawfulRun s := by
  obtain ⟨s, hs⟩ : ∃ s, System.replay
      (fun s l => if RaisesFresh s l then step s l else none) boot lawfulRun = some s :=
    ⟨_, rfl⟩
  have hrun : (system.restrict RaisesFresh).Run boot lawfulRun s :=
    System.run_restrict_of_replay hs
  exact ⟨s, hrun, time_slice_bounded hrun⟩

/-! ## The late raise -/

/-- One tick into a low-priority slice process 0 raises its priority and is
    not preempted by the next tick. -/
def lateRaise : List Event :=
  [.allocproc 0, .ready 0, .dispatch 0, .tick 0 true, .dispatch 0, .tick 0 false,
    .increasepriority 0, .tick 0 false]

theorem late_raise_unbounded :
    ¬ ∀ ls s, system.Run boot ls s → Bounded ls s := by
  intro h
  obtain ⟨s, hs⟩ : ∃ s, System.replay step boot lateRaise = some s := ⟨_, rfl⟩
  have hslice := (h lateRaise s (System.run_of_replay hs)).slice 0
  simp [SliceBounded, ticksOf, lateRaise] at hslice

end Xv6.TimeSlice
