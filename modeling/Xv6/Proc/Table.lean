import Xv6.Framework.System
import Xv6.Proc.Basic
import Mathlib.Data.List.FinRange
import Mathlib.Logic.Function.Basic

/-! # The process table

    `proc.c` seen through `ptable.lock`: the state is the part of the table that the lock protects,
    and a step is one critical section.

    - `fork` holds the lock from `allocproc` to the end, so it is one step.
      What `kalloc` and `copyuvm` return in it is part of the event.
    - `exit` is the section that starts at `wakeup1(proc->parent)`; the wakeups
      of the files that it closes before are steps of their own.
    - A step of `wait` is one scan of the table, which ends in a return or in
      `sleep`.
    - `fault` is the assignment `proc->killed = 1` in `trap`.

    A label carries what the call returned.
-/

namespace Xv6.Ptable

open LTS

/-! ## The table -/

/-- The fields of `struct proc` that the critical sections use. -/
structure Entry where
  state  : ProcState
  pid    : Int
  parent : Option Slot
  killed : Bool
  chan   : Nat
  deriving DecidableEq

structure State where
  proc     : Slot → Entry
  nextpid  : Int
  initproc : Option Slot

/-- The address of a slot, as a channel to sleep on. -/
def chanOf (p : Slot) : Nat := p.val + 1

def State.set (t : State) (p : Slot) (f : Entry → Entry) : State :=
  { t with proc := Function.update t.proc p (f (t.proc p)) }

/-! ## The critical sections -/

def wakeup1 (chan : Nat) (t : State) : State :=
  { t with proc := fun p =>
      if (t.proc p).state = .sleeping ∧ (t.proc p).chan = chan then
        { t.proc p with state := .runnable }
      else t.proc p }

/-- `wakeup1` on the address of a slot, or on the null pointer. -/
def wakeupProc : Option Slot → State → State
  | none => wakeup1 0
  | some p => wakeup1 (chanOf p)

/-- Find the first `UNUSED` slot. -/
def freeSlot (t : State) : Option Slot :=
  (List.finRange NPROC).find? fun p => (t.proc p).state = .unused

theorem freeSlot_some {t : State} {p : Slot} (h : freeSlot t = some p) :
    (t.proc p).state = .unused := by
  simpa using List.find?_some h

/-- `allocproc`, given what `kalloc` returns. -/
def allocproc (kstack : Nat) (t : State) : Option Slot × State :=
  match freeSlot t with
  | none => (none, t)
  | some p =>
      let t := t.set p fun e => { e with state := .embryo, pid := t.nextpid }
      let t := { t with nextpid := incInt t.nextpid }
      if kstack = 0 then (none, t.set p fun e => { e with state := .unused })
      else (some p, t)

/-- `fork`, given what `kalloc` and `copyuvm` return. -/
def fork (p : Slot) (kstack pgdir : Nat) (t : State) : Int × State :=
  match allocproc kstack t with
  | (none, t) => (-1, t)
  | (some np, t) =>
      if pgdir = 0x1000 then (-1, t.set np fun e => { e with state := .unused })
      else
        let t := t.set np fun e => { e with parent := some p }
        ((t.proc np).pid, t.set np fun e => { e with state := .runnable })

/-- The loop of `exit` over the children. -/
def reparent (p : Slot) : List Slot → State → State
  | [], t => t
  | c :: cs, t =>
      if (t.proc c).parent = some p then
        let t' := t.set c fun e => { e with parent := t.initproc }
        if (t.proc c).state = .zombie then reparent p cs (wakeupProc t.initproc t')
        else reparent p cs t'
      else reparent p cs t

/-- The critical section of `exit`. -/
def exit (p : Slot) (t : State) : State :=
  let t := wakeupProc (t.proc p).parent t
  let t := reparent p (List.finRange NPROC) t
  t.set p fun e => { e with state := .zombie }

/-- `sleep`, up to the call of `sched`. -/
def sleep (p : Slot) (chan : Nat) (t : State) : State :=
  t.set p fun e => { e with chan := chan, state := .sleeping }

/-- The child that `wait` frees: the first zombie. -/
def zombieChild (t : State) (p : Slot) : Option Slot :=
  (List.finRange NPROC).find? fun c => (t.proc c).parent = some p ∧ (t.proc c).state = .zombie

theorem zombieChild_some {t : State} {p c : Slot} (h : zombieChild t p = some c) :
    (t.proc c).parent = some p ∧ (t.proc c).state = .zombie := by
  simpa using List.find?_some h

def havekids (t : State) (p : Slot) : Bool :=
  (List.finRange NPROC).any fun c => (t.proc c).parent = some p

/-- One scan of `wait`; it returns nothing if it goes to sleep. -/
def wait (p : Slot) (t : State) : Option Int × State :=
  match zombieChild t p with
  | some c =>
      (some (t.proc c).pid,
        t.set c fun e => { e with pid := 0, parent := none, killed := false, state := .unused })
  | none =>
      if havekids t p = false ∨ (t.proc p).killed = true then (some (-1), t)
      else (none, sleep p (chanOf p) t)

/-- The slot that `kill` marks: the first one with the pid. -/
def target (t : State) (pid : Int) : Option Slot :=
  (List.finRange NPROC).find? fun p => (t.proc p).pid = pid

/-- What `kill` does to the slot. -/
def Entry.kill (e : Entry) : Entry :=
  { e with killed := true, state := if e.state = .sleeping then .runnable else e.state }

def kill (pid : Int) (t : State) : Int × State :=
  match target t pid with
  | none => (-1, t)
  | some p => (0, t.set p Entry.kill)

/-- The scheduler switches to `p`, which leaves `sleep` or `yield`. -/
def dispatch (p : Slot) (t : State) : State :=
  t.set p fun e => { e with state := .running, chan := 0 }

def yield (p : Slot) (t : State) : State := t.set p fun e => { e with state := .runnable }

def fault (p : Slot) (t : State) : State := t.set p fun e => { e with killed := true }

/-- The zero-initialised table. -/
def zero : State where
  proc := fun _ => { state := .unused, pid := 0, parent := none, killed := false, chan := 0 }
  nextpid := 1
  initproc := none

/-- `userinit`, given the stack that `kalloc` returns. -/
def userinit (kstack : Nat) (t : State) : Option State :=
  match allocproc kstack t with
  | (none, _) => none
  | (some p, t) =>
      some ({ t with initproc := some p }.set p fun e => { e with state := .runnable })

/-! ## The system -/

inductive Event where
  | dispatch (p : Slot)
  | yield (p : Slot)
  | sleep (p : Slot) (chan : Nat)
  | wakeup (chan : Nat)
  | kill (pid : Int)
  | fork (p : Slot) (kstack pgdir : Nat)
  | exit (p : Slot)
  | wait (p : Slot)
  | fault (p : Slot)

/-- A critical section, and what the call returned in it. -/
structure Label where
  event : Event
  ret   : Option Int

/-- When a section can be entered. Only `wait` sleeps on the address of a slot, and `init` panics in
    `exit`. -/
def Enabled (t : State) : Event → Prop
  | .wakeup _ | .kill _ => True
  | .dispatch p => (t.proc p).state = .runnable
  | .sleep p chan => (t.proc p).state = .running ∧ ∀ c, chan ≠ chanOf c
  | .exit p => (t.proc p).state = .running ∧ t.initproc ≠ some p
  | .yield p | .fork p _ _ | .wait p | .fault p => (t.proc p).state = .running

instance (t : State) (e : Event) : Decidable (Enabled t e) := by
  cases e <;> unfold Enabled <;> infer_instance

def perform (t : State) : Event → Option Int × State
  | .dispatch p => (none, dispatch p t)
  | .yield p => (none, yield p t)
  | .sleep p chan => (none, sleep p chan t)
  | .wakeup chan => (none, wakeup1 chan t)
  | .kill pid => ((kill pid t).1, (kill pid t).2)
  | .fork p kstack pgdir => ((fork p kstack pgdir t).1, (fork p kstack pgdir t).2)
  | .exit p => (none, exit p t)
  | .wait p => wait p t
  | .fault p => (none, fault p t)

def step (t : State) (l : Label) : Option State :=
  if Enabled t l.event ∧ (perform t l.event).1 = l.ret then some (perform t l.event).2 else none

/-- The process table from `userinit` on. -/
def system : System State Label :=
  System.ofStep (fun t => ∃ kstack, userinit kstack zero = some t) step

theorem step_eq {t t' : State} {l : Label} (h : step t l = some t') :
    Enabled t l.event ∧ (perform t l.event).1 = l.ret ∧ (perform t l.event).2 = t' := by
  obtain ⟨⟨hen, hret⟩, ht⟩ := Option.ite_none_right_eq_some.mp h
  exact ⟨hen, hret, Option.some.inj ht⟩

end Xv6.Ptable
