import Xv6.Param

/-! # The process structure

    `struct proc` of `proc.h` and `struct file` of `file.h`, with the fields the modelled functions
    read or write. Pointers are kernel addresses, `0` being the null pointer; `int` fields are
    signed 32-bit values kept in `Int`.
-/

namespace Xv6

/-- `enum procstate`. -/
inductive ProcState where
  | unused
  | embryo
  | sleeping
  | runnable
  | running
  | zombie
  deriving DecidableEq, Repr

/-- A slot of `ptable.proc`. -/
abbrev Slot : Type := Fin NPROC

/-- The registers of `struct trapframe` that system calls touch. -/
structure TrapFrame where
  eax : Nat
  eip : Nat
  esp : Nat
  deriving DecidableEq, Repr

/-- The type of an open file. -/
inductive FdType where
  | none
  | pipe
  | inode
  deriving DecidableEq, Repr

/-- `struct file`. A pipe is named by the address of its page. -/
structure File where
  type     : FdType
  ref      : Nat
  readable : Bool
  writable : Bool
  pipe     : Nat
  ip       : Option (Fin NINODE)
  off      : Nat
  deriving DecidableEq

/-- The fields of `struct pipe` that say which ends are open. -/
structure Pipe where
  readopen  : Bool
  writeopen : Bool
  deriving DecidableEq

/-- One end is closed. -/
def Pipe.close (x : Pipe) (writable : Bool) : Pipe :=
  if writable then { x with writeopen := false } else { x with readopen := false }

/-- `struct proc`. -/
structure Proc where
  sz       : Nat
  pgdir    : Nat
  kstack   : Nat
  state    : ProcState
  pid      : Int
  parent   : Option Slot
  tf       : TrapFrame
  chan     : Nat
  killed   : Bool
  ofile    : Fin NOFILE → Option (Fin NFILE)
  cwd      : Option (Fin NINODE)
  name     : List UInt8
  priority : Int
  timecpu  : Int

/-- A slot of the zero-initialised table. -/
def Proc.zero : Proc where
  sz := 0
  pgdir := 0
  kstack := 0
  state := .unused
  pid := 0
  parent := none
  tf := { eax := 0, eip := 0, esp := 0 }
  chan := 0
  killed := false
  ofile := fun _ => none
  cwd := none
  name := []
  priority := 0
  timecpu := 0

/-- Functional update of the process table. -/
def setProc (pt : Slot → Proc) (i : Slot) (p : Proc) : Slot → Proc :=
  fun j => if j = i then p else pt j

@[simp] theorem setProc_self (pt : Slot → Proc) (i : Slot) (p : Proc) : setProc pt i p i = p := by
  simp [setProc]

@[simp] theorem setProc_ne (pt : Slot → Proc) (i j : Slot) (p : Proc)
    (h : j ≠ i) : setProc pt i p j = pt j := by
  simp [setProc, h]

/-- The end of `allocproc`: the scheduling fields of a new process. -/
def Proc.initSched (p : Proc) : Proc :=
  { p with priority := 1, timecpu := 0 }

/-- `proc->x++` on a C `int`. -/
def incInt (x : Int) : Int := Int.bmod (x + 1) (2 ^ 32)

end Xv6
