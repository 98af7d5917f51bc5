import Xv6.Framework.Locks
import Xv6.Framework.System
import Xv6.Param

/-! # Spinlocks of the process and inode layers

    The acquire and release steps that `proc.c`, `fs.c`, `file.c`, `kalloc.c` and `vm.c` perform on
    `ptable.lock`, `icache.lock`, `ftable.lock` and `kmem.lock`. The code of a function is the
    regular language of the lock operations on its paths; what it computes in between is left out.
    The other locks of the kernel are left out too: a `sleep` on one of them shows only its use of
    `ptable.lock`.

    A thread that calls `sched` with `ptable.lock` held leaves the lock to the scheduler of its CPU,
    and the thread the scheduler switches to releases it.
-/

namespace Xv6.Sync

open LTS LockFlow Function

/-! ## Lock operations -/

inductive Lock where
  | ptable | icache | ftable | kmem
  deriving DecidableEq

/-- The functions that call `acquire`. -/
inductive Fn where
  | kalloc | kfree
  | fork | exit | wait | scheduler | yield | sleep | wakeup | kill
  | iget | idup | ilock | iunlock | iput
  | filedup | fileclose
  deriving DecidableEq

inductive Act where
  /-- `acquire(&l)` in the function `f`. -/
  | acq (f : Fn) (l : Lock)
  /-- `release(&l)`. -/
  | rel (l : Lock)
  /-- `sched()`, from which the thread returns when it is scheduled again. -/
  | sched
  /-- The `sched()` of `exit`, from which it does not. -/
  | quit
  /-- The `swtch` of `scheduler`. -/
  | swtch
  deriving DecidableEq

/-- The lock operations on the paths of a function. -/
abbrev Code := RegularExpression Act

/-! ## The functions -/

def acquire (f : Fn) (l : Lock) : Code := .char (.acq f l)

def release (l : Lock) : Code := .char (.rel l)

def sched : Code := .char .sched

/-- `kalloc` and `kfree`, once `kmem.use_lock` is set. -/
def kalloc : Code := acquire .kalloc .kmem * release .kmem

def kfree : Code := acquire .kfree .kmem * release .kmem

def wakeup : Code := acquire .wakeup .ptable * release .ptable

/-- `sleep(chan, lk)`; `none` stands for a lock outside the four. -/
def sleep : Option Lock → Code
  | none => acquire .sleep .ptable * sched * release .ptable
  | some .ptable => sched
  | some lk =>
      acquire .sleep .ptable * release lk * sched * release .ptable * acquire .sleep lk

/-- `bread`, `brelse`, `log_write`, `iderw` and the rest of the block layer:
    they sleep and wake up on locks of their own. -/
def blockLayer : Code := (sleep none + wakeup).star

def iget : Code := acquire .iget .icache * release .icache

def idup : Code := acquire .idup .icache * release .icache

def ilock : Code :=
  acquire .ilock .icache * (sleep (some .icache)).star * release .icache * (1 + blockLayer)

def iunlock : Code := acquire .iunlock .icache * wakeup * release .icache

/-- The last reference to an unlinked inode takes the second branch. -/
def iput : Code :=
  acquire .iput .icache *
    (1 + release .icache * blockLayer * acquire .iput .icache * wakeup) *
    release .icache

def filedup : Code := acquire .filedup .ftable * release .ftable

def begin_op : Code := (sleep none).star

def end_op : Code := wakeup + blockLayer * wakeup

def pipeclose : Code := wakeup * (1 + kfree)

def fileclose : Code :=
  acquire .fileclose .ftable * release .ftable *
    (1 + pipeclose + begin_op * iput * end_op)

/-- `setupkvm` allocates the directory and, in `walkpgdir`, the tables; a
    failed `kalloc` is the last one. -/
def setupkvm : Code := kalloc * kalloc.star

def freevm : Code := kfree.star

def copyuvm : Code := setupkvm * kalloc.star * (1 + freevm)

/-- The branches: `allocproc` finds no slot, or no kernel stack; `copyuvm`
    gives the value the code tests for; the child is made. -/
def fork : Code :=
  acquire .fork .ptable *
    (1 + kalloc * (1 + copyuvm * (kfree + filedup.star * idup))) *
    release .ptable

def exit : Code :=
  fileclose.star * begin_op * iput * end_op * acquire .exit .ptable * .char .quit

def wait : Code :=
  acquire .wait .ptable * (sleep (some .ptable)).star * (1 + kfree * freevm) *
    release .ptable

def kill : Code := acquire .kill .ptable * release .ptable

def yield : Code := acquire .yield .ptable * sched * release .ptable

/-- One round of the loop of `scheduler`. -/
def scheduler : Code :=
  acquire .scheduler .ptable * (RegularExpression.char Act.swtch).star * release .ptable

/-- Where a new process starts; the first one reads the superblock and recovers the log. -/
def forkret : Code := release .ptable * (1 + blockLayer)

/-- What a process may do next. -/
def operation : Code :=
  fork + exit + wait + kill + yield + sleep none + wakeup + iget + idup + ilock + iunlock +
    iput

/-- What a device or timer interrupt may do to a process. -/
def interrupt : Code := wakeup + yield

/-! ## CPUs and processes -/

/-- `lock l = some (c, f)`: CPU `c` took `l` in the function `f`. A CPU runs a process or its own
    scheduler; `todo` and `sch` are the lock operations still to come. `susp p` says that process
    `p` waits to be scheduled. -/
structure State (C P : Type*) where
  lock : Lock → Option (C × Fn)
  run  : C → Option P
  sch  : C → List Act
  todo : P → List Act
  susp : P → Bool

inductive Event (C P : Type*) where
  /-- CPU `c` enters the code that goes through `w`. -/
  | start (c : C) (w : List Act)
  /-- An interrupt on CPU `c` goes through `w`. -/
  | intr (c : C) (w : List Act)
  /-- CPU `c` performs its next lock operation. -/
  | exec (c : C)
  /-- The scheduler of CPU `c` switches to process `p`. -/
  | swtch (c : C) (p : P)

variable {C P : Type*} [DecidableEq C] [DecidableEq P]

/-- What CPU `c` has still to do. -/
def State.code (s : State C P) (c : C) : List Act :=
  match s.run c with
  | none => s.sch c
  | some p => s.todo p

def State.setCode (s : State C P) (c : C) (w : List Act) : State C P :=
  match s.run c with
  | none => { s with sch := update s.sch c w }
  | some p => { s with todo := update s.todo p w }

def State.holds (s : State C P) (c : C) (l : Lock) : Bool :=
  match s.lock l with
  | some (c', _) => c' = c
  | none => false

/-- Interrupts are enabled: the CPU holds no spinlock. -/
def State.enabled (s : State C P) (c : C) : Bool :=
  !s.holds c .ptable && !s.holds c .icache && !s.holds c .ftable && !s.holds c .kmem

/-- `sched` panics unless `ptable.lock` is the only lock held. -/
def State.mayLeave (s : State C P) (c : C) : Bool :=
  s.holds c .ptable && !s.holds c .icache && !s.holds c .ftable && !s.holds c .kmem

/-- The next lock operation of CPU `c`. `acquire` spins while the lock is taken; `release` and
    `sched` panic where they are refused. -/
def exec (s : State C P) (c : C) : Option (State C P) :=
  match s.code c with
  | .acq f l :: w =>
      if s.lock l = none then
        some { s.setCode c w with lock := update s.lock l (some (c, f)) }
      else none
  | .rel l :: w =>
      if s.holds c l then some { s.setCode c w with lock := update s.lock l none }
      else none
  | .sched :: w =>
      match s.run c with
      | some p =>
          if s.mayLeave c then
            some { s.setCode c w with run := update s.run c none,
                                      susp := update s.susp p true }
          else none
      | none => none
  | .quit :: w =>
      match s.run c with
      | some _ =>
          if s.mayLeave c then
            some { s.setCode c w with run := update s.run c none }
          else none
      | none => none
  | _ => none

def step (s : State C P) : Event C P → Option (State C P)
  | .start c w =>
      let code := if s.run c = none then scheduler else operation
      if s.code c = [] ∧ code.rmatch w then some (s.setCode c w) else none
  | .intr c w =>
      let code := if s.run c = none then wakeup else interrupt
      if s.enabled c ∧ code.rmatch w then some (s.setCode c (w ++ s.code c)) else none
  | .exec c => exec s c
  | .swtch c p =>
      match s.run c, s.sch c with
      | none, .swtch :: w =>
          if s.susp p then
            some { s with run := update s.run c (some p),
                          sch := update s.sch c w,
                          susp := update s.susp p false }
          else none
      | _, _ => none

/-- Every CPU is about to enter its scheduler, and every process is about to
    run for the first time. -/
structure Init (s : State C P) : Prop where
  lock : ∀ l, s.lock l = none
  run  : ∀ c, s.run c = none
  sch  : ∀ c, s.sch c = []
  todo : ∀ p, forkret.rmatch (s.todo p)

variable (C P) in
def system : System (State C P) (Event C P) := System.ofStep Init step

end Xv6.Sync
