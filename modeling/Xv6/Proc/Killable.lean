import Xv6.Framework.System
import Xv6.Proc.Basic
import Mathlib.Logic.Function.Basic

/-! # Killing a process that is about to sleep

    One process, the target, runs one of the loops that a `kill` is to end, while other processors
    call `kill` on it, wake it up or schedule it. Every `acquire` and `release`, the read of
    `proc->killed` and the assignment of `SLEEPING` is a step of its own.

    What the target reads of the data under the lock of the loop is the argument of its step: in
    `test`, whether it has to wait; in `check`, whether the loop ends for a reason other than
    `killed` (no read end, no children).
-/

namespace Xv6.Killable

open LTS Option

variable {C : Type} {b : Bool}

/-! ## State -/

inductive Loop where
  | piperead
  | pipewrite
  | consoleread
  | sys_sleep
  | wait
  deriving DecidableEq

/-- Where the target is. -/
inductive Pc where
  /-- Before `acquire` of the lock of the loop. -/
  | enter
  /-- At the condition of the loop. -/
  | test
  /-- At `if(proc->killed)`. -/
  | check
  /-- At `wakeup(&p->nread)` in `pipewrite`: before `acquire(&ptable.lock)`. -/
  | wakeup
  /-- In that `wakeup`, before `release(&ptable.lock)`. -/
  | wakeup1
  /-- In `sleep`, before `acquire(&ptable.lock)`. -/
  | sleepAcquire
  /-- In `sleep`, before `release(lk)`. -/
  | sleepRelease
  /-- In `sleep`, before `proc->state = SLEEPING`. -/
  | setSleeping
  /-- Before the switch to the scheduler. -/
  | sched
  /-- Switched away from. -/
  | away
  /-- Back in `sleep`, after `sched`. -/
  | back
  /-- Before `acquire(lk)` at the end of `sleep`. -/
  | sleepEnd
  /-- After the loop, with the lock. -/
  | body
  /-- The lock is released. -/
  | left
  deriving DecidableEq

/-- What another processor does with `ptable.lock`. -/
inductive Cpu where
  | idle
  /-- `kill` has the lock. -/
  | killLocked
  /-- `killed` is set. -/
  | killMarked
  /-- A sleeping target is made `RUNNABLE`. -/
  | killWoken
  /-- `kill` has released the lock. -/
  | killDone
  /-- `wakeup` or the scheduler has the lock. -/
  | otherLocked
  deriving DecidableEq

/-- Who holds a lock. -/
inductive Holder (C : Type) where
  | target
  | cpu (c : C)
  deriving DecidableEq

structure State (C : Type) where
  loop   : Loop
  pc     : Pc
  state  : ProcState
  killed : Bool
  /-- The lock that the loop gives to `sleep`, if it is not `ptable.lock`. -/
  lk     : Option (Holder C)
  ptable : Option (Holder C)
  cpu    : C → Cpu

/-! ## Steps -/

/-- `acquire(&ptable.lock)`: possible when it is free. -/
def State.lockTable (s : State C) (h : Holder C) : Option (State C) :=
  if s.ptable = none then some { s with ptable := some h } else none

/-- `acquire` of the lock of the loop. -/
def State.lockLoop (s : State C) : Option (State C) :=
  if s.loop = .wait then s.lockTable .target
  else if s.lk = none then some { s with lk := some .target } else none

def State.unlockLoop (s : State C) : State C :=
  if s.loop = .wait then { s with ptable := none } else { s with lk := none }

/-- The test in `check` has another disjunct. -/
def Loop.givesUp : Loop → Bool
  | .pipewrite | .wait => true
  | _ => false

/-- The loop is entered again for the next byte. -/
def Loop.again : Loop → Bool
  | .pipewrite | .consoleread => true
  | _ => false

/-- The statement after the test of `killed`. -/
def Loop.afterCheck : Loop → Pc
  | .pipewrite => .wakeup
  | .wait => .setSleeping
  | _ => .sleepAcquire

/-- One step of the target. -/
def target (s : State C) (b : Bool) : Option (State C) :=
  match s.pc with
  | .enter => s.lockLoop.map fun s => { s with pc := .test }
  | .test => some { s with pc := if b then .check else .body }
  | .check =>
      if s.killed || (s.loop.givesUp && b) then some { s.unlockLoop with pc := .left }
      else some { s with pc := s.loop.afterCheck }
  | .wakeup => (s.lockTable .target).map fun s => { s with pc := .wakeup1 }
  | .wakeup1 => some { s with ptable := none, pc := .sleepAcquire }
  | .sleepAcquire => (s.lockTable .target).map fun s => { s with pc := .sleepRelease }
  | .sleepRelease => some { s with lk := none, pc := .setSleeping }
  | .setSleeping => some { s with state := .sleeping, pc := .sched }
  | .sched => some { s with ptable := none, pc := .away }
  | .away => none
  | .back =>
      if s.loop = .wait then some { s with pc := .test }
      else some { s with ptable := none, pc := .sleepEnd }
  | .sleepEnd => s.lockLoop.map fun s => { s with pc := .test }
  | .body =>
      if s.loop.again && b then some { s with pc := .test }
      else some { s.unlockLoop with pc := .left }
  | .left => none

inductive Event (C : Type) where
  | target (b : Bool)
  | killAcquire (c : C)
  | killMark (c : C)
  | killWake (c : C)
  | killRelease (c : C)
  | otherAcquire (c : C)
  /-- `wakeup1` finds the target, or does not. -/
  | otherWake (c : C) (found : Bool)
  /-- The scheduler switches to the target, which then has `ptable.lock`. -/
  | dispatch (c : C)
  | otherRelease (c : C)
  | lkAcquire (c : C)
  | lkRelease (c : C)

def State.move [DecidableEq C] (s : State C) (c : C) (x : Cpu) : State C :=
  { s with cpu := Function.update s.cpu c x }

/-- Make the target `RUNNABLE` if it sleeps. -/
def wake (st : ProcState) : ProcState := if st = .sleeping then .runnable else st

def step [DecidableEq C] (s : State C) : Event C → Option (State C)
  | .target b => target s b
  | .killAcquire c =>
      if s.cpu c = .idle then (s.lockTable (.cpu c)).map fun s => s.move c .killLocked else none
  | .killMark c =>
      if s.cpu c = .killLocked then some ({ s with killed := true }.move c .killMarked) else none
  | .killWake c =>
      if s.cpu c = .killMarked then some ({ s with state := wake s.state }.move c .killWoken)
      else none
  | .killRelease c =>
      if s.cpu c = .killWoken then some ({ s with ptable := none }.move c .killDone) else none
  | .otherAcquire c =>
      if s.cpu c = .idle then (s.lockTable (.cpu c)).map fun s => s.move c .otherLocked else none
  | .otherWake c found =>
      if s.cpu c = .otherLocked then some
        { s with state := if found then wake s.state else s.state }
      else none
  | .dispatch c =>
      if s.cpu c = .otherLocked ∧ s.state = .runnable ∧ s.pc = .away then
        some ({ s with state := .running, pc := .back, ptable := some .target }.move c .idle)
      else none
  | .otherRelease c =>
      if s.cpu c = .otherLocked then some ({ s with ptable := none }.move c .idle) else none
  | .lkAcquire c => if s.lk = none then some { s with lk := some (.cpu c) } else none
  | .lkRelease c => if s.lk = some (.cpu c) then some { s with lk := none } else none

/-- The target is about to enter the loop, and nobody has called `kill`. -/
def Starts (s : State C) : Prop :=
  s.pc = .enter ∧ s.state = .running ∧ s.killed = false ∧ s.lk = none ∧ s.ptable = none ∧
    ∀ c, s.cpu c = .idle

def system (C : Type) [DecidableEq C] : System (State C) (Event C) := System.ofStep Starts step

/-! ## Lost kills -/

/-- A `kill` is over, and the target sleeps in the loop. -/
def Lost (s : State C) : Prop :=
  (∃ c, s.cpu c = .killDone) ∧ s.killed = true ∧ s.state = .sleeping

/-- Between the read of `proc->killed` and `acquire(&ptable.lock)` in `sleep`. -/
def Window : Pc → Prop
  | .wakeup | .wakeup1 | .sleepAcquire => True
  | _ => False

instance (pc : Pc) : Decidable (Window pc) := by
  cases pc <;> unfold Window <;> infer_instance

/-- `kill` does not set `killed` in the window. In `wait` there is no window. -/
def Clear (s : State C) : Event C → Prop
  | .killMark _ => s.loop ≠ .wait → ¬ Window s.pc
  | _ => True

instance (s : State C) (e : Event C) : Decidable (Clear s e) := by
  cases e <;> unfold Clear <;> infer_instance

/-- The target holds `ptable.lock`. -/
def Pc.locked (loop : Loop) : Pc → Prop
  | .wakeup1 | .sleepRelease | .setSleeping | .sched | .back => True
  | .test | .check | .body => loop = .wait
  | _ => False

/-- The target has read `killed` and will sleep. -/
def Pc.decided : Pc → Prop
  | .wakeup | .wakeup1 | .sleepAcquire | .sleepRelease | .setSleeping => True
  | _ => False

/-- The processor holds `ptable.lock`. -/
def Cpu.locked : Cpu → Prop
  | .killLocked | .killMarked | .killWoken | .otherLocked => True
  | _ => False

structure Inv (s : State C) : Prop where
  target : s.pc.locked s.loop → s.ptable = some .target
  cpu    : ∀ c, (s.cpu c).locked → s.ptable = some (.cpu c)
  mark   : ∀ c, s.cpu c = .killMarked ∨ s.cpu c = .killWoken ∨ s.cpu c = .killDone →
    s.killed = true
  unseen : s.pc.decided → s.killed = false
  asleep : s.state = .sleeping → ∀ c, s.cpu c ≠ .killWoken ∧ s.cpu c ≠ .killDone

/-- `wait` holds `ptable.lock` when it reads `killed`. -/
def NoWindow (s : State C) : Prop := s.loop = .wait → ¬ Window s.pc

variable {s s' : State C} {pc : Pc} {loop : Loop}

theorem starts_inv (h : Starts s) : Inv s := by
  obtain ⟨hpc, hst, hk, hlk, hpt, hcpu⟩ := h
  constructor
  · rw [hpc]
    exact False.elim
  · intro c hc
    rw [hcpu c] at hc
    exact hc.elim
  · intro c hc
    simp [hcpu c] at hc
  · rw [hpc]
    exact False.elim
  · intro hs
    rw [hst] at hs
    cases hs

theorem lockTable_eq {h : Holder C} (hl : s.lockTable h = some s') :
    s.ptable = none ∧ s' = { s with ptable := some h } := by
  obtain ⟨hp, he⟩ := ite_none_right_eq_some.mp hl
  exact ⟨hp, (some.inj he).symm⟩

theorem lockLoop_eq (hl : s.lockLoop = some s') :
    s.loop = .wait ∧ s.ptable = none ∧ s' = { s with ptable := some .target } ∨
      s.loop ≠ .wait ∧ s' = { s with lk := some .target } := by
  unfold State.lockLoop at hl
  by_cases hw : s.loop = .wait
  · rw [if_pos hw] at hl
    exact .inl ⟨hw, lockTable_eq hl⟩
  · rw [if_neg hw] at hl
    obtain ⟨-, he⟩ := ite_none_right_eq_some.mp hl
    exact .inr ⟨hw, (some.inj he).symm⟩

/-- The target moves on without touching `ptable.lock`. -/
theorem Inv.go {l : Option (Holder C)} (h : Inv s) (hl : pc.locked s.loop → s.pc.locked s.loop)
    (hd : pc.decided → s.killed = false) : Inv { s with lk := l, pc := pc } :=
  ⟨fun hpc => h.target (hl hpc), h.cpu, h.mark, hd, h.asleep⟩

theorem Inv.take (h : Inv s) (hfree : s.ptable = none) (hd : pc.decided → s.killed = false) :
    Inv { s with ptable := some .target, pc := pc } := by
  refine ⟨fun _ => rfl, fun c hc => ?_, h.mark, hd, h.asleep⟩
  have := h.cpu c hc
  rw [hfree] at this
  cases this

theorem Inv.give (h : Inv s) (hheld : s.pc.locked s.loop) (hpc : ¬ pc.locked s.loop)
    (hd : pc.decided → s.killed = false) : Inv { s with ptable := none, pc := pc } := by
  refine ⟨fun hl => absurd hl hpc, fun c hc => ?_, h.mark, hd, h.asleep⟩
  have := h.cpu c hc
  rw [h.target hheld] at this
  cases this

theorem Inv.leave (h : Inv s) (hheld : s.loop = .wait → s.pc.locked s.loop) :
    Inv { s.unlockLoop with pc := .left } := by
  unfold State.unlockLoop
  by_cases hw : s.loop = .wait
  · rw [if_pos hw]
    exact h.give (hheld hw) False.elim False.elim
  · rw [if_neg hw]
    exact h.go False.elim False.elim

theorem Inv.lockLoop {s1 : State C} (h : Inv s) (hl : s.lockLoop = some s1) :
    Inv { s1 with pc := .test } := by
  rcases lockLoop_eq hl with ⟨-, hfree, rfl⟩ | ⟨hw, rfl⟩
  · exact h.take hfree False.elim
  · exact h.go (fun ht => absurd ht hw) False.elim

theorem afterCheck_locked (h : loop.afterCheck.locked loop) : loop = .wait := by
  cases loop <;> simp_all [Loop.afterCheck, Pc.locked]

theorem target_noWindow (h : NoWindow s) (hs : target s b = some s') : NoWindow s' := by
  unfold target at hs
  intro hw
  cases hpc : s.pc <;> rw [hpc] at hs <;> dsimp only at hs
  case enter =>
    obtain ⟨s1, -, rfl⟩ := map_eq_some_iff.mp hs
    exact id
  case test =>
    cases hs
    cases b <;> exact id
  case check =>
    split at hs
    · cases hs
      exact id
    · cases hs
      have hw : s.loop = .wait := hw
      show ¬ Window s.loop.afterCheck
      rw [hw]
      exact id
  case wakeup =>
    obtain ⟨s1, hl, rfl⟩ := map_eq_some_iff.mp hs
    obtain ⟨-, rfl⟩ := lockTable_eq hl
    exact absurd (by rw [hpc]; trivial) (h hw)
  case wakeup1 =>
    cases hs
    exact absurd (by rw [hpc]; trivial) (h hw)
  case sleepAcquire =>
    obtain ⟨s1, -, rfl⟩ := map_eq_some_iff.mp hs
    exact id
  case away => cases hs
  case back =>
    split at hs <;> cases hs <;> exact id
  case sleepEnd =>
    obtain ⟨s1, -, rfl⟩ := map_eq_some_iff.mp hs
    exact id
  case body =>
    split at hs <;> cases hs <;> exact id
  case left => cases hs
  all_goals
    cases hs
    exact id

theorem target_inv (h : Inv s) (hs : target s b = some s') : Inv s' := by
  unfold target at hs
  cases hpc : s.pc <;> rw [hpc] at hs <;> dsimp only at hs
  case enter =>
    obtain ⟨s1, hl, rfl⟩ := map_eq_some_iff.mp hs
    exact h.lockLoop hl
  case test =>
    cases hs
    refine h.go (l := s.lk) (fun hl => ?_) fun hd => ?_
    · rw [hpc]
      cases b <;> exact hl
    · cases b <;> exact hd.elim
  case check =>
    by_cases hk : (s.killed || (s.loop.givesUp && b)) = true
    · rw [if_pos hk] at hs
      cases hs
      exact h.leave fun hw => by rw [hpc]; exact hw
    · rw [if_neg hk] at hs
      cases hs
      refine h.go (l := s.lk) (fun hl => ?_) fun _ => ?_
      · rw [hpc]
        exact afterCheck_locked hl
      · simp only [Bool.or_eq_true, not_or, Bool.not_eq_true] at hk
        exact hk.1
  case wakeup =>
    obtain ⟨s1, hl, rfl⟩ := map_eq_some_iff.mp hs
    obtain ⟨hfree, rfl⟩ := lockTable_eq hl
    exact h.take hfree fun _ => h.unseen (by rw [hpc]; trivial)
  case wakeup1 =>
    cases hs
    exact h.give (by rw [hpc]; trivial) False.elim fun _ => h.unseen (by rw [hpc]; trivial)
  case sleepAcquire =>
    obtain ⟨s1, hl, rfl⟩ := map_eq_some_iff.mp hs
    obtain ⟨hfree, rfl⟩ := lockTable_eq hl
    exact h.take hfree fun _ => h.unseen (by rw [hpc]; trivial)
  case sleepRelease =>
    cases hs
    exact h.go (fun _ => by rw [hpc]; trivial) fun _ => h.unseen (by rw [hpc]; trivial)
  case setSleeping =>
    cases hs
    have hk := h.unseen (by rw [hpc]; trivial)
    have hpt := h.target (by rw [hpc]; trivial)
    -- no `kill` has set `killed`, so none can have missed the target
    refine ⟨fun _ => hpt, h.cpu, h.mark, False.elim, fun _ c => ⟨fun hc => ?_, fun hc => ?_⟩⟩
    · have := h.mark c (.inr (.inl hc))
      rw [hk] at this
      cases this
    · have := h.mark c (.inr (.inr hc))
      rw [hk] at this
      cases this
  case sched =>
    cases hs
    exact h.give (by rw [hpc]; trivial) False.elim False.elim
  case away => cases hs
  case back =>
    by_cases hw : s.loop = .wait
    · rw [if_pos hw] at hs
      cases hs
      exact h.go (l := s.lk) (fun _ => by rw [hpc]; trivial) False.elim
    · rw [if_neg hw] at hs
      cases hs
      exact h.give (by rw [hpc]; trivial) False.elim False.elim
  case sleepEnd =>
    obtain ⟨s1, hl, rfl⟩ := map_eq_some_iff.mp hs
    exact h.lockLoop hl
  case body =>
    by_cases ha : (s.loop.again && b) = true
    · rw [if_pos ha] at hs
      cases hs
      exact h.go (l := s.lk) (fun hl => by rw [hpc]; exact hl) False.elim
    · rw [if_neg ha] at hs
      cases hs
      exact h.leave fun hw => by rw [hpc]; exact hw
  case left => cases hs

theorem Inv.alone {c : C} (h : Inv s) (hc : (s.cpu c).locked) :
    ¬ s.pc.locked s.loop ∧ ∀ d, d ≠ c → ¬ (s.cpu d).locked := by
  have hpt := h.cpu c hc
  refine ⟨fun hl => ?_, fun d hdc hd => ?_⟩
  · have := h.target hl
    rw [hpt] at this
    cases this
  · have := h.cpu d hd
    rw [hpt] at this
    injection this with this
    injection this with this
    exact hdc this.symm

section Cpus

variable [DecidableEq C] {c : C} {x : Cpu} {e : Event C}

theorem move_self (s : State C) (c : C) (x : Cpu) : (s.move c x).cpu c = x := by
  simp [State.move]

theorem move_ne {d : C} (hd : d ≠ c) (s : State C) (x : Cpu) : (s.move c x).cpu d = s.cpu d := by
  simp [State.move, hd]

theorem Inv.cpuTake (h : Inv s) (hfree : s.ptable = none)
    (hx : x ≠ .killMarked ∧ x ≠ .killWoken ∧ x ≠ .killDone) :
    Inv ({ s with ptable := some (.cpu c) }.move c x) := by
  constructor
  case target =>
    intro hl
    have := h.target hl
    rw [hfree] at this
    cases this
  case cpu =>
    intro d hd
    by_cases hdc : d = c
    · rw [hdc]
      rfl
    · rw [move_ne hdc] at hd
      have := h.cpu d hd
      rw [hfree] at this
      cases this
  case mark =>
    intro d hd
    by_cases hdc : d = c
    · rw [hdc, move_self] at hd
      rcases hd with hd | hd | hd
      · exact absurd hd hx.1
      · exact absurd hd hx.2.1
      · exact absurd hd hx.2.2
    · rw [move_ne hdc] at hd
      exact h.mark d hd
  case unseen => exact h.unseen
  case asleep =>
    intro hs d
    by_cases hdc : d = c
    · rw [hdc, move_self]
      exact hx.2
    · rw [move_ne hdc]
      exact h.asleep hs d

theorem Inv.cpuGive (h : Inv s) (hc : (s.cpu c).locked) (hx : ¬ x.locked)
    (hdone : x = .killDone → s.cpu c = .killWoken) : Inv ({ s with ptable := none }.move c x) := by
  obtain ⟨hpc, hcpu⟩ := h.alone hc
  constructor
  case target => exact fun hl => absurd hl hpc
  case cpu =>
    intro d hd
    by_cases hdc : d = c
    · rw [hdc, move_self] at hd
      exact absurd hd hx
    · rw [move_ne hdc] at hd
      exact absurd hd (hcpu d hdc)
  case mark =>
    intro d hd
    by_cases hdc : d = c
    · rw [hdc, move_self] at hd
      rcases hd with rfl | rfl | hd
      · exact absurd trivial hx
      · exact absurd trivial hx
      · exact h.mark c (.inr (.inl (hdone hd)))
    · rw [move_ne hdc] at hd
      exact h.mark d hd
  case unseen => exact h.unseen
  case asleep =>
    intro hs d
    by_cases hdc : d = c
    · rw [hdc, move_self]
      refine ⟨fun hw => hx (hw ▸ trivial), fun hd => ?_⟩
      exact (h.asleep hs c).1 (hdone hd)
    · rw [move_ne hdc]
      exact h.asleep hs d

theorem killMark_inv (h : Inv s) (hc : s.cpu c = .killLocked) (hw : ¬ Window s.pc) :
    Inv ({ s with killed := true }.move c .killMarked) := by
  have hlock : (s.cpu c).locked := by rw [hc]; trivial
  obtain ⟨hpc, -⟩ := h.alone hlock
  constructor
  case target => exact fun hl => absurd hl hpc
  case cpu =>
    intro d hd
    by_cases hdc : d = c
    · rw [hdc]
      exact h.cpu c hlock
    · rw [move_ne hdc] at hd
      exact h.cpu d hd
  case mark => exact fun _ _ => rfl
  case unseen =>
    -- outside the window the target holds `ptable.lock` until it sleeps
    intro hd
    have hd : s.pc.decided := hd
    cases hs : s.pc <;> rw [hs] at hd hw hpc <;> first
      | exact hd.elim
      | exact absurd trivial hw
      | exact absurd trivial hpc
  case asleep =>
    intro hs d
    by_cases hdc : d = c
    · rw [hdc, move_self]
      exact ⟨by simp, by simp⟩
    · rw [move_ne hdc]
      exact h.asleep hs d

theorem wake_ne (st : ProcState) : wake st ≠ .sleeping := by
  unfold wake
  by_cases h : st = .sleeping
  · simp [h]
  · rw [if_neg h]
    exact h

theorem killWake_inv (h : Inv s) (hc : s.cpu c = .killMarked) :
    Inv ({ s with state := wake s.state }.move c .killWoken) := by
  constructor
  case target => exact h.target
  case cpu =>
    intro d hd
    by_cases hdc : d = c
    · rw [hdc]
      exact h.cpu c (by rw [hc]; trivial)
    · rw [move_ne hdc] at hd
      exact h.cpu d hd
  case mark => exact fun _ _ => h.mark c (.inl hc)
  case unseen => exact h.unseen
  case asleep => exact fun hs => absurd hs (wake_ne s.state)

/-- Only the target and the scheduler move the target. -/
theorem step_noWindow (h : NoWindow s) (hs : step s e = some s') : NoWindow s' := by
  cases e with
  | target b => exact target_noWindow h hs
  | killAcquire c | otherAcquire c =>
    obtain ⟨-, hs⟩ := ite_none_right_eq_some.mp hs
    obtain ⟨s1, hl, rfl⟩ := map_eq_some_iff.mp hs
    obtain ⟨-, rfl⟩ := lockTable_eq hl
    exact h
  | dispatch c =>
    obtain ⟨-, hs⟩ := ite_none_right_eq_some.mp hs
    cases hs
    exact fun _ => id
  | killMark c | killWake c | killRelease c | otherWake c _ | otherRelease c | lkAcquire c
  | lkRelease c =>
    obtain ⟨-, hs⟩ := ite_none_right_eq_some.mp hs
    cases hs
    exact h

theorem step_inv (h : Inv s) (hn : NoWindow s) (hs : step s e = some s') (hclear : Clear s e) :
    Inv s' := by
  cases e with
  | target b => exact target_inv h hs
  | killAcquire c | otherAcquire c =>
    obtain ⟨-, hs⟩ := ite_none_right_eq_some.mp hs
    obtain ⟨s1, hl, rfl⟩ := map_eq_some_iff.mp hs
    obtain ⟨hfree, rfl⟩ := lockTable_eq hl
    exact h.cpuTake hfree (by simp)
  | killMark c =>
    obtain ⟨hc, hs⟩ := ite_none_right_eq_some.mp hs
    cases hs
    exact killMark_inv h hc fun hw => hclear (fun hwait => hn hwait hw) hw
  | killWake c =>
    obtain ⟨hc, hs⟩ := ite_none_right_eq_some.mp hs
    cases hs
    exact killWake_inv h hc
  | killRelease c =>
    obtain ⟨hc, hs⟩ := ite_none_right_eq_some.mp hs
    cases hs
    exact h.cpuGive (by rw [hc]; trivial) id fun _ => hc
  | otherWake c found =>
    obtain ⟨-, hs⟩ := ite_none_right_eq_some.mp hs
    cases hs
    refine ⟨h.target, h.cpu, h.mark, h.unseen, fun hst => h.asleep ?_⟩
    cases found
    · exact hst
    · exact absurd hst (wake_ne s.state)
  | dispatch c =>
    obtain ⟨⟨hc, hst, hpc⟩, hs⟩ := ite_none_right_eq_some.mp hs
    cases hs
    -- the lock goes from the scheduler to the target
    have hgive : Inv ({ s with ptable := none }.move c .idle) :=
      h.cpuGive (by rw [hc]; trivial) id (by simp)
    have hback := hgive.take rfl (fun h : Pc.back.decided => h.elim)
    exact ⟨fun _ => rfl, hback.cpu, hgive.mark, False.elim, fun hs => by cases hs⟩
  | otherRelease c =>
    obtain ⟨hc, hs⟩ := ite_none_right_eq_some.mp hs
    cases hs
    exact h.cpuGive (by rw [hc]; trivial) id (by simp)
  | lkAcquire c | lkRelease c =>
    obtain ⟨-, hs⟩ := ite_none_right_eq_some.mp hs
    cases hs
    exact ⟨h.target, h.cpu, h.mark, h.unseen, h.asleep⟩

/-- In a run in which no `kill` sets `killed` between the target's read of it
    and `acquire(&ptable.lock)` in `sleep`, no `kill` is lost. -/
theorem kill_not_lost (h : ((system C).restrict Clear).Reachable s) : ¬ Lost s := by
  have hinv : Inv s ∧ NoWindow s := by
    refine System.invariant (I := fun s => Inv s ∧ NoWindow s) (fun s hs => ?_) ?_ h
    · refine ⟨starts_inv hs, fun _ => ?_⟩
      rw [hs.1]
      exact id
    · intro s e s' ⟨hi, hn⟩ hs
      exact ⟨step_inv hi hn hs.1 hs.2, step_noWindow hn hs.1⟩
  intro ⟨⟨c, hc⟩, _, hst⟩
  exact (hinv.1.asleep hst c).2 hc

end Cpus

/-! ## The window -/

/-- The target enters the loop. -/
def begin (loop : Loop) : State Unit where
  loop := loop
  pc := .enter
  state := .running
  killed := false
  lk := none
  ptable := none
  cpu := fun _ => .idle

/-- A `kill` on one processor. -/
def killCall : List (Event Unit) :=
  [.killAcquire (), .killMark (), .killWake (), .killRelease ()]

/-- The target reads `killed`. -/
def readKilled : List (Event Unit) := [.target true, .target true, .target false]

/-- The target goes to sleep in `wait`, and a `kill` wakes it up. -/
theorem kill_not_lost_asleep : ∃ s, ((system Unit).restrict Clear).Reachable s ∧
    s.cpu () = .killDone ∧ s.killed = true ∧ s.state = .runnable ∧ ¬ Lost s := by
  have hrun : ∃ s, ((system Unit).restrict Clear).Run (begin .wait)
      (readKilled ++ [.target false, .target false] ++ killCall) s ∧ s.cpu () = .killDone ∧
      s.killed = true ∧ s.state = .runnable :=
    ⟨_, System.run_restrict_of_replay rfl, rfl, rfl, rfl⟩
  obtain ⟨s, hrun, hdone, hk, hst⟩ := hrun
  have hreach : ((system Unit).restrict Clear).Reachable s :=
    ⟨begin .wait, _, ⟨rfl, rfl, rfl, rfl, rfl, fun _ => rfl⟩, hrun⟩
  exact ⟨s, hreach, hdone, hk, hst, kill_not_lost hreach⟩

/-- The rest of `sleep`, after `wakeup` in `pipewrite`. -/
def fallAsleep : Loop → List (Event Unit)
  | .pipewrite => List.replicate 5 (.target false)
  | _ => List.replicate 3 (.target false)

/-- In the loops with a lock of their own, a `kill` in the window is lost. -/
theorem window_lost (hw : loop ≠ .wait) : ∃ s, Starts (begin loop) ∧
    (system Unit).Run (begin loop) (readKilled ++ killCall ++ fallAsleep loop) s ∧ Lost s := by
  cases loop
  case wait => exact absurd rfl hw
  all_goals
    refine ⟨_, ⟨rfl, rfl, rfl, rfl, rfl, fun _ => rfl⟩, System.run_of_replay rfl, ⟨(), rfl⟩, ?_⟩
    exact ⟨rfl, rfl⟩

/-- A reader of a pipe reads `killed`, is killed, and goes to sleep. -/
theorem kill_in_window_lost : ∃ s, Starts (begin .piperead) ∧
    (system Unit).Run (begin .piperead) (readKilled ++ killCall ++ fallAsleep .piperead) s ∧
    Lost s :=
  window_lost (by decide)

end Xv6.Killable
