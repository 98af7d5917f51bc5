import Mathlib.Algebra.BigOperators.Group.Finset.Basic
import Mathlib.Algebra.Order.BigOperators.Group.Finset
import Xv6.Framework.System
import Xv6.Param

/-! # The log protocol

    `begin_op`, `log_write` and `end_op` of `log.c` as steps of any number of processes `P` over the
    shared `struct log`. The steps are the critical sections of the code; `log_write` is split in
    two, because it tests the size of the log before it takes `log.lock`.

    The state of a process inside an operation carries the blocks the operation has logged so far.
    No code reads it: it is there to say when an operation stays within `MAXOPBLOCKS`.
-/

namespace Xv6.Log

open LTS Function

/-! ## Model -/

/-- Where a process stands with respect to the log. -/
inductive Pc where
  /-- Not in a file-system operation. -/
  | out
  /-- In the loop of `begin_op`, about to test. -/
  | testing
  /-- In the `sleep(&log, &log.lock)` of `begin_op`. -/
  | asleep
  /-- Between `begin_op` and `end_op`. -/
  | inOp (used : Finset Nat)
  /-- In `log_write(b)`, past its two panics. -/
  | logging (used : Finset Nat) (b : Nat)
  /-- In `end_op` with `do_commit` set, before `commit`. -/
  | ending
  /-- In `end_op`, after `commit`. -/
  | committed
  deriving DecidableEq

/-- `struct log`, the processes, and the message of the first panic.
    `lh.block[0..lh.n)` is the list `lh`. -/
structure State (P : Type*) where
  size        : Nat
  outstanding : Nat
  committing  : Bool
  lh          : List Nat
  pc          : P → Pc
  panicked    : Option String

/-- The steps. -/
inductive Event (P : Type*) where
  | begin_op (p : P)
  | test (p : P)
  | log_write (p : P) (b : Nat)
  | append (p : P) (b : Nat)
  | end_op (p : P)
  | commit (p : P)
  | finish (p : P)
  deriving DecidableEq

def tooBig : String := "too big a transaction"

variable {P : Type*} [DecidableEq P] {lh : List Nat}

/-- `wakeup(&log)`. -/
def wakeup (pc : P → Pc) : P → Pc :=
  fun p => if pc p = .asleep then .testing else pc p

/-- The critical section of `log_write`: look for the block, store it at the
    index found or at the end. -/
def absorb : List Nat → Nat → List Nat
  | [], b => [b]
  | x :: xs, b => if x = b then b :: xs else x :: absorb xs b

/-- Move process `p`. -/
def State.at (s : State P) (p : P) (pc : Pc) : State P :=
  { s with pc := update s.pc p pc }

/-- `panic(msg)`: nothing runs any more. -/
def State.panic (s : State P) (msg : String) : State P :=
  { s with panicked := some msg }

/-- The test of `begin_op`. -/
def begin_op (s : State P) (p : P) : State P :=
  if s.committing then s.at p .asleep
  else if s.lh.length + (s.outstanding + 1) * MAXOPBLOCKS > LOGSIZE then s.at p .asleep
  else { s with outstanding := s.outstanding + 1 }.at p (.inOp ∅)

/-- `log_write`, up to its `acquire`. -/
def log_write (s : State P) (p : P) (used : Finset Nat) (b : Nat) : State P :=
  if s.lh.length ≥ LOGSIZE ∨ s.lh.length ≥ s.size - 1 then s.panic tooBig
  else if s.outstanding < 1 then s.panic "log_write outside of trans"
  else s.at p (.logging used b)

/-- `end_op`, up to its first `release`. -/
def end_op (s : State P) (p : P) : State P :=
  let s := { s with outstanding := s.outstanding - 1 }
  if s.committing then s.panic "log.committing"
  else if s.outstanding = 0 then { s with committing := true }.at p .ending
  else { s with pc := wakeup (update s.pc p .out) }

/-- One step. -/
def step (s : State P) (e : Event P) : Option (State P) :=
  if s.panicked ≠ none then none else
  match e with
  | .begin_op p =>
      match s.pc p with
      | .out => some (s.at p .testing)
      | _ => none
  | .test p =>
      match s.pc p with
      | .testing => some (begin_op s p)
      | _ => none
  | .log_write p b =>
      match s.pc p with
      | .inOp used => some (log_write s p used b)
      | _ => none
  | .append p b =>
      match s.pc p with
      | .logging used b' =>
          if b = b' then some ({ s with lh := absorb s.lh b }.at p (.inOp (insert b used)))
          else none
      | _ => none
  | .end_op p =>
      match s.pc p with
      | .inOp _ => some (end_op s p)
      | _ => none
  | .commit p =>
      match s.pc p with
      | .ending => some ({ s with lh := [] }.at p .committed)
      | _ => none
  | .finish p =>
      match s.pc p with
      | .committed =>
          some { s with committing := false, pc := wakeup (update s.pc p .out) }
      | _ => none

/-- After `initlog` on an image made by `mkfs`, where `sb.nlog = LOGSIZE`. -/
def boot : State P where
  size := LOGSIZE
  outstanding := 0
  committing := false
  lh := []
  pc := fun _ => .out
  panicked := none

variable (P) in
/-- The log system. -/
def system : System (State P) (Event P) := System.ofStep (· = boot) step

/-! ## The absorbing append -/

theorem absorb_eq (lh : List Nat) (b : Nat) : absorb lh b = if b ∈ lh then lh else lh ++ [b] := by
  induction lh with
  | nil => simp [absorb]
  | cons x xs ih =>
    by_cases hx : x = b
    · simp [absorb, hx]
    · have hb : b ≠ x := fun h => hx h.symm
      simp only [absorb, if_neg hx, ih, List.mem_cons, hb, false_or]
      split <;> simp

theorem absorb_nodup (h : lh.Nodup) (b : Nat) : (absorb lh b).Nodup := by
  rw [absorb_eq]
  split
  · exact h
  · next hb => exact List.nodup_append.mpr ⟨h, by simp, by
      intro x hx y hy hxy
      obtain rfl : y = b := by simpa using hy
      exact hb (hxy ▸ hx)⟩

theorem mem_absorb {b x : Nat} : x ∈ absorb lh b ↔ x = b ∨ x ∈ lh := by
  rw [absorb_eq]
  split
  · next hb =>
    constructor
    · exact .inr
    · rintro (rfl | hx)
      · exact hb
      · exact hx
  · simp [or_comm]

/-! ## What a step can do -/

/-- Everything one step can do, with its guards. -/
inductive Fires (s : State P) : Event P → State P → Prop where
  | begin_op {p : P} (hpc : s.pc p = .out) : Fires s (.begin_op p) (s.at p .testing)
  | wait {p : P} (hpc : s.pc p = .testing)
      (hwhy : s.committing = true ∨ LOGSIZE < s.lh.length + (s.outstanding + 1) * MAXOPBLOCKS) :
      Fires s (.test p) (s.at p .asleep)
  | enter {p : P} (hpc : s.pc p = .testing) (hc : s.committing = false)
      (hroom : s.lh.length + (s.outstanding + 1) * MAXOPBLOCKS ≤ LOGSIZE) :
      Fires s (.test p) ({ s with outstanding := s.outstanding + 1 }.at p (.inOp ∅))
  | tooBig {p : P} {used : Finset Nat} {b : Nat} (hpc : s.pc p = .inOp used)
      (hbig : LOGSIZE ≤ s.lh.length ∨ s.size - 1 ≤ s.lh.length) :
      Fires s (.log_write p b) (s.panic tooBig)
  | outside {p : P} {used : Finset Nat} {b : Nat} (hpc : s.pc p = .inOp used)
      (hroom : s.lh.length < LOGSIZE ∧ s.lh.length < s.size - 1)
      (hout : s.outstanding < 1) :
      Fires s (.log_write p b) (s.panic "log_write outside of trans")
  | log_write {p : P} {used : Finset Nat} {b : Nat} (hpc : s.pc p = .inOp used)
      (hroom : s.lh.length < LOGSIZE ∧ s.lh.length < s.size - 1) :
      Fires s (.log_write p b) (s.at p (.logging used b))
  | append {p : P} {used : Finset Nat} {b : Nat} (hpc : s.pc p = .logging used b) :
      Fires s (.append p b) ({ s with lh := absorb s.lh b }.at p (.inOp (insert b used)))
  | end_panic {p : P} {used : Finset Nat} (hpc : s.pc p = .inOp used)
      (hc : s.committing = true) :
      Fires s (.end_op p)
        ({ s with outstanding := s.outstanding - 1 }.panic "log.committing")
  | end_last {p : P} {used : Finset Nat} (hpc : s.pc p = .inOp used)
      (hc : s.committing = false) (hlast : s.outstanding - 1 = 0) :
      Fires s (.end_op p)
        ({ s with outstanding := s.outstanding - 1, committing := true }.at p .ending)
  | end_more {p : P} {used : Finset Nat} (hpc : s.pc p = .inOp used)
      (hc : s.committing = false) (hmore : s.outstanding - 1 ≠ 0) :
      Fires s (.end_op p)
        { s with outstanding := s.outstanding - 1,
                 pc := wakeup (update s.pc p .out) }
  | commit {p : P} (hpc : s.pc p = .ending) :
      Fires s (.commit p) ({ s with lh := [] }.at p .committed)
  | finish {p : P} (hpc : s.pc p = .committed) :
      Fires s (.finish p)
        { s with committing := false, pc := wakeup (update s.pc p .out) }

theorem step_fires {s s' : State P} {e : Event P} (h : step s e = some s') :
    s.panicked = none ∧ Fires s e s' := by
  unfold step at h
  split at h
  · cases h
  next hp =>
  refine ⟨by simpa using hp, ?_⟩
  cases e with
  | begin_op p =>
    dsimp only at h
    split at h
    · next hpc => cases h; exact .begin_op hpc
    · cases h
  | test p =>
    dsimp only at h
    split at h
    · next hpc =>
      cases h
      unfold begin_op
      split
      · next hc => exact .wait hpc (.inl hc)
      · next hc =>
        split
        · next hfull => exact .wait hpc (.inr hfull)
        · next hroom => exact .enter hpc (by simpa using hc) (by omega)
    · cases h
  | log_write p b =>
    dsimp only at h
    split at h
    · next used hpc =>
      cases h
      unfold log_write
      split
      · next hbig => exact .tooBig hpc hbig
      · next hroom =>
        split
        · next hout => exact .outside hpc (by omega) hout
        · exact .log_write hpc (by omega)
    · cases h
  | append p b =>
    dsimp only at h
    split at h
    · next used b' hpc =>
      split at h
      · next hb =>
        subst hb
        cases h
        exact .append hpc
      · cases h
    · cases h
  | end_op p =>
    dsimp only at h
    split at h
    · next used hpc =>
      cases h
      unfold end_op
      dsimp only
      split
      · next hc => exact .end_panic hpc hc
      · next hc =>
        split
        · next hlast => exact .end_last hpc (by simpa using hc) hlast
        · next hmore => exact .end_more hpc (by simpa using hc) hmore
    · cases h
  | commit p =>
    dsimp only at h
    split at h
    · next hpc => cases h; exact .commit hpc
    · cases h
  | finish p =>
    dsimp only at h
    split at h
    · next hpc => cases h; exact .finish hpc
    · cases h

end Xv6.Log
