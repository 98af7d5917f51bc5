import Xv6.Framework.System
import Xv6.Mem.Exec
import Xv6.Proc.Table

/-! # Processes, open files and their pages

    The functions of `proc.c`, `exec.c`, `file.c` and `pipe.c` that take pages from the allocator or
    give them back, as one system. A step is one call; it carries the list of the `kalloc` calls
    that fail.

    The contents of kernel stacks and pipe buffers are kept in records, not in the bytes of their
    pages. The file system is seen through the reference counts of inodes and the contents of the
    file that `exec` reads.
-/

namespace Xv6.Kernel

open Program Mem Function

/-! ## State -/

/-- What the modelled functions share. -/
structure State where
  phys     : Phys
  proc     : Slot → Proc
  nextpid  : Int
  initproc : Option Slot
  kpgdir   : Nat
  /-- The stacks that `startothers` allocated. -/
  cpuStack : List Nat
  file     : Fin NFILE → File
  /-- The `struct pipe` in the page at an address. -/
  pipe     : Nat → Pipe
  /-- `ip->ref`. -/
  iref     : Fin NINODE → Int
  /-- Directories that no process has. -/
  detached : List Nat

abbrev K := StateT State (Except Halt)

/-- Code that touches memory only. -/
def onPhys {α : Type} (x : VM α) : K α := fun k =>
  match x.run k.phys with
  | .ok (a, s) => .ok (a, { k with phys := s })
  | .error e => .error e

def panic (msg : String) {α : Type} : K α := throw (.panic msg)

def State.setProc (k : State) (p : Slot) (f : Proc → Proc) : State :=
  { k with proc := Xv6.setProc k.proc p (f (k.proc p)) }

def State.setFile (k : State) (i : Fin NFILE) (f : File → File) : State :=
  { k with file := update k.file i (f (k.file i)) }

def modifyProc (p : Slot) (f : Proc → Proc) : K Unit := modify fun k => k.setProc p f

def modifyFile (i : Fin NFILE) (f : File → File) : K Unit := modify fun k => k.setFile i f

/-- The part of the process table that `ptable.lock` protects. -/
def State.table (k : State) : Ptable.State where
  proc p := {
    state := (k.proc p).state, pid := (k.proc p).pid, parent := (k.proc p).parent
    killed := (k.proc p).killed, chan := (k.proc p).chan }
  nextpid := k.nextpid
  initproc := k.initproc

def wakeup1 (chan : Nat) : K Unit := modify fun k =>
  { k with proc := fun p =>
      { k.proc p with state := ((Ptable.wakeup1 chan k.table).proc p).state } }

/-! ## `file.c` and `pipe.c` -/

section Files

variable (L : Layout)

/-- Find the first file with no reference. -/
def freeFile (k : State) : Option (Fin NFILE) :=
  (List.finRange NFILE).find? fun i => (k.file i).ref = 0

def filealloc : K (Option (Fin NFILE)) := do
  let k ← get
  match freeFile k with
  | none => return none
  | some f => do
      modifyFile f fun x => { x with ref := 1 }
      return some f

def filedup (f : Fin NFILE) : K Unit := do
  let k ← get
  if (k.file f).ref < 1 then panic "filedup"
  else modifyFile f fun x => { x with ref := x.ref + 1 }

/-- `&p->nread` and `&p->nwrite`. -/
def nread (a : Nat) : Nat := a + 564
def nwrite (a : Nat) : Nat := a + 568

def pipeclose (a : Nat) (writable : Bool) : K Unit := do
  modify fun k => { k with pipe := update k.pipe a ((k.pipe a).close writable) }
  wakeup1 (if writable then nread a else nwrite a)
  let k ← get
  if (k.pipe a).readopen = false ∧ (k.pipe a).writeopen = false then onPhys (kfree L a)
  else return ()

/-- `iput`, as far as the cache is concerned. -/
def iput (ip : Option (Fin NINODE)) : K Unit := modify fun k =>
  match ip with
  | none => k
  | some i => { k with iref := update k.iref i (k.iref i - 1) }

def idup (ip : Option (Fin NINODE)) : K Unit := modify fun k =>
  match ip with
  | none => k
  | some i => { k with iref := update k.iref i (k.iref i + 1) }

def fileclose (f : Fin NFILE) : K Unit := do
  let k ← get
  let ff := k.file f
  if ff.ref < 1 then panic "fileclose"
  else if ff.ref - 1 > 0 then modifyFile f fun x => { x with ref := x.ref - 1 }
  else do
    modifyFile f fun x => { x with ref := 0, type := .none }
    match ff.type with
    | .pipe => pipeclose L ff.pipe ff.writable
    | .inode => iput ff.ip
    | .none => return ()

/-- The assignments at the end of `pipealloc`. -/
def openPipe (rf wf : Fin NFILE) (a : Nat) : K Unit := do
  modify fun k => { k with pipe := update k.pipe a ⟨true, true⟩ }
  modifyFile rf fun x => { x with type := .pipe, readable := true, writable := false, pipe := a }
  modifyFile wf fun x => { x with type := .pipe, readable := false, writable := true, pipe := a }

def pipealloc : K (Option (Fin NFILE × Fin NFILE)) := do
  let f0 ← filealloc
  match f0 with
  | none => return none
  | some rf => do
      let f1 ← filealloc
      match f1 with
      | none => do
          fileclose L rf
          return none
      | some wf => do
          let a ← onPhys kalloc
          if a = 0 then do
            fileclose L rf
            fileclose L wf
            return none
          else do
            openPipe rf wf a
            return some (rf, wf)

/-- The first free descriptor of `p`. -/
def freeFd (k : State) (p : Slot) : Option (Fin NOFILE) :=
  (List.finRange NOFILE).find? fun fd => ((k.proc p).ofile fd).isNone

def setFd (p : Slot) (fd : Fin NOFILE) (f : Option (Fin NFILE)) : K Unit :=
  modifyProc p fun x => { x with ofile := update x.ofile fd f }

def fdalloc (p : Slot) (f : Fin NFILE) : K (Option (Fin NOFILE)) := do
  let k ← get
  match freeFd k p with
  | none => return none
  | some fd => do
      setFd p fd (some f)
      return some fd

/-- `sys_pipe`, without the user's array. -/
def sys_pipe (p : Slot) : K Int := do
  let r ← pipealloc L
  match r with
  | none => return -1
  | some (rf, wf) => do
      let fd0 ← fdalloc p rf
      match fd0 with
      | none => do
          fileclose L rf
          fileclose L wf
          return -1
      | some fd => do
          let fd1 ← fdalloc p wf
          match fd1 with
          | none => do
              setFd p fd none
              fileclose L rf
              fileclose L wf
              return -1
          | some _ => return 0

/-- `sys_close` on an open descriptor. -/
def sys_close (p : Slot) (fd : Fin NOFILE) : K Int := do
  let k ← get
  match (k.proc p).ofile fd with
  | none => return -1
  | some f => do
      setFd p fd none
      fileclose L f
      return 0

def sys_dup (p : Slot) (fd : Fin NOFILE) : K Int := do
  let k ← get
  match (k.proc p).ofile fd with
  | none => return -1
  | some f => do
      let fd' ← fdalloc p f
      match fd' with
      | none => return -1
      | some fd' => do
          filedup f
          return fd'.val

/-- `sys_open` from `filealloc` on; `ip` is the inode that was found. -/
def sys_open (p : Slot) (ip : Fin NINODE) (readable writable : Bool) : K Int := do
  idup (some ip)
  let f ← filealloc
  match f with
  | none => do
      iput (some ip)
      return -1
  | some f => do
      let fd ← fdalloc p f
      match fd with
      | none => do
          fileclose L f
          iput (some ip)
          return -1
      | some fd => do
          modifyFile f fun x =>
            { x with type := .inode, ip := some ip, off := 0, readable, writable }
          return fd.val

end Files

/-! ## `proc.c` and `exec.c` -/

section Procs

variable (L : Layout)

/-- Find the first `UNUSED` slot. -/
def freeSlot (k : State) : Option Slot := Ptable.freeSlot k.table

def allocproc : K (Option Slot) := do
  let k ← get
  match freeSlot k with
  | none => return none
  | some p => do
      modifyProc p fun x => { x with state := .embryo, pid := k.nextpid }
      modify fun k => { k with nextpid := incInt k.nextpid }
      let kstack ← onPhys kalloc
      modifyProc p fun x => { x with kstack := kstack }
      if kstack = 0 then do
        modifyProc p fun x => { x with state := .unused }
        return none
      else do
        modifyProc p Proc.initSched
        return some p

/-- `switchuvm`, as far as it can fail. -/
def switchuvm (p : Slot) : K Unit := do
  let k ← get
  if (k.proc p).pgdir = 0 then panic "switchuvm: no pgdir" else return ()

def growproc (p : Slot) (n : Int) : K Int := do
  let k ← get
  let x := k.proc p
  let newsz := u32 (x.sz + toU32 n)
  if n > 0 then do
    let sz ← onPhys (allocuvm L x.pgdir x.sz newsz)
    if sz = 0 then return -1
    else do
      modifyProc p fun x => { x with sz := sz }
      switchuvm p
      return 0
  else if n < 0 then do
    let sz ← onPhys (deallocuvm L x.pgdir x.sz newsz)
    if sz = 0 then return -1
    else do
      modifyProc p fun x => { x with sz := sz }
      switchuvm p
      return 0
  else do
    switchuvm p
    return 0

/-- The loop of `fork` over the open files. -/
def dupFiles (p np : Slot) : List (Fin NOFILE) → K Unit
  | [] => return ()
  | fd :: fds => do
      let k ← get
      match (k.proc p).ofile fd with
      | none => dupFiles p np fds
      | some f => do
          filedup f
          setFd np fd (some f)
          dupFiles p np fds

/-- `fork`, once it has the slot `np`. -/
def forkInto (p np : Slot) : K Int := do
  let k ← get
  let pgdir ← onPhys (copyuvm L (k.proc p).pgdir (k.proc p).sz)
  modifyProc np fun x => { x with pgdir := pgdir }
  if pgdir = 0x1000 then do
    onPhys (kfree L (k.proc np).kstack)
    modifyProc np fun x => { x with kstack := 0, state := .unused }
    return -1
  else do
    modifyProc np fun x => { x with
      sz := (k.proc p).sz, parent := some p, tf := { (k.proc p).tf with eax := 0 } }
    dupFiles p np (List.finRange NOFILE)
    idup (k.proc p).cwd
    modifyProc np fun x => { x with
      cwd := (k.proc p).cwd, name := (k.proc p).name, state := .runnable }
    return (k.proc np).pid

def fork (p : Slot) : K Int := do
  let r ← allocproc
  match r with
  | none => return -1
  | some np => forkInto L p np

/-- The loop of `exit` over the open files. -/
def closeFiles (p : Slot) : List (Fin NOFILE) → K Unit
  | [] => return ()
  | fd :: fds => do
      let k ← get
      match (k.proc p).ofile fd with
      | none => closeFiles p fds
      | some f => do
          fileclose L f
          setFd p fd none
          closeFiles p fds

/-- `wakeup1` on the address of a slot, or on the null pointer. -/
def wakeupProc : Option Slot → K Unit
  | none => wakeup1 0
  | some p => wakeup1 (Ptable.chanOf p)

/-- The loop of `exit` over the children. -/
def reparent (p : Slot) : List Slot → K Unit
  | [] => return ()
  | c :: cs => do
      let k ← get
      if (k.proc c).parent = some p then do
        modifyProc c fun x => { x with parent := k.initproc }
        if (k.proc c).state = .zombie then do
          wakeupProc k.initproc
          reparent p cs
        else reparent p cs
      else reparent p cs

def exit (p : Slot) : K Unit := do
  let k ← get
  if k.initproc = some p then panic "init exiting"
  else do
    closeFiles L p (List.finRange NOFILE)
    iput (k.proc p).cwd
    modifyProc p fun x => { x with cwd := none }
    wakeupProc (k.proc p).parent
    reparent p (List.finRange NPROC)
    modifyProc p fun x => { x with state := .zombie }

/-- `sleep`, up to the call of `sched`. -/
def sleep (p : Slot) (chan : Nat) : K Unit :=
  modifyProc p fun x => { x with chan := chan, state := .sleeping }

/-- The child that `wait` frees: the first zombie. -/
def zombieChild (k : State) (p : Slot) : Option Slot := Ptable.zombieChild k.table p

def havekids (k : State) (p : Slot) : Bool := Ptable.havekids k.table p

/-- One round of the loop of `wait`; `none` if it goes to sleep. -/
def wait (p : Slot) : K (Option Int) := do
  let k ← get
  match zombieChild k p with
  | some c => do
      onPhys (kfree L (k.proc c).kstack)
      onPhys (freevm L (k.proc c).pgdir)
      modifyProc c fun x => { x with
        kstack := 0, pid := 0, parent := none, name := [], killed := false, state := .unused }
      return some (k.proc c).pid
  | none =>
      if havekids k p = false ∨ (k.proc p).killed = true then return some (-1)
      else do
        sleep p (Ptable.chanOf p)
        return none

/-- `kill` marks the first slot with the pid. -/
def kill (pid : Int) : K Int := do
  let k ← get
  match (List.finRange NPROC).find? fun p => (k.proc p).pid = pid with
  | none => return -1
  | some p => do
      modifyProc p fun x => { x with
        killed := true, state := if x.state = .sleeping then .runnable else x.state }
      return 0

/-- What `exec` keeps of the path as the name: up to 15 bytes after the last slash. -/
def lastElem (path : CStr) : List UInt8 :=
  ((path.1.reverse.takeWhile (· ≠ 47)).reverse).take 15

def setImage (path : CStr) (img : Image) (x : Proc) : Proc :=
  { x with
    name := lastElem path, pgdir := img.pgdir, sz := img.sz,
    tf := { x.tf with eip := img.entry, esp := img.sp } }

/-- The end of `exec`: commit to the user image. -/
def commitImage (p : Slot) (path : CStr) (img : Image) : K Int := do
  let k ← get
  let oldpgdir := (k.proc p).pgdir
  modifyProc p (setImage path img)
  switchuvm p
  onPhys (freevm L oldpgdir)
  return 0

/-- `exec`; `ip` is what `namei` finds. -/
def exec (p : Slot) (path : CStr) (ip : Option Content) (argv : List CStr) : K Int := do
  match ip with
  | none => return -1
  | some ip => do
      let r ← onPhys (buildImage L ip argv)
      match r with
      | none => return -1
      | some img => commitImage L p path img

/-- The scheduler switches to `p`, which leaves `sleep` or `yield`. -/
def dispatch (p : Slot) : K Unit := do
  switchuvm p
  modifyProc p fun x => { x with state := .running, chan := 0 }

def yield (p : Slot) : K Unit := modifyProc p fun x => { x with state := .runnable }

end Procs

/-! ## Boot -/

section Boot

variable (L : Layout)

/-- `kvmalloc`. -/
def kvmalloc : K Unit := do
  let d ← onPhys (setupkvm L)
  modify fun k => { k with kpgdir := d }

/-- The loop of `startothers`, as far as it takes pages. -/
def startothers : Nat → K Unit
  | 0 => return ()
  | n + 1 => do
      let stack ← onPhys kalloc
      modify fun k => { k with cpuStack := stack :: k.cpuStack }
      startothers n

/-- The name of the first process, "initcode". -/
def initName : List UInt8 := [105, 110, 105, 116, 99, 111, 100, 101]

/-- `userinit`; the binary is the first `size` bytes of `initcode`, and `root` is what `namei("/")`
    finds. There is a free slot, so the null pointer is not used. -/
def userinit (initcode : ByteMem.Mem) (size : Nat) (root : Fin NINODE) : K Unit := do
  let r ← allocproc
  match r with
  | none => throw .fault
  | some p => do
      modify fun k => { k with initproc := some p }
      let d ← onPhys (setupkvm L)
      modifyProc p fun x => { x with pgdir := d }
      if d = 0 then panic "userinit: out of memory?"
      else do
        onPhys (inituvm d initcode size)
        idup (some root)
        modifyProc p fun x => { x with
          sz := PGSIZE, tf := { eax := 0, eip := 0, esp := PGSIZE }, name := initName,
          cwd := some root, state := .runnable }

/-- `main` on a machine with `ncpu` processors. -/
def main (ncpu : Nat) (initcode : ByteMem.Mem) (size : Nat) (root : Fin NINODE) : K Unit := do
  onPhys (kinit1 L L.end_ (KERNBASE + 0x400000))
  kvmalloc L
  startothers (ncpu - 1)
  onPhys (kinit2 L (KERNBASE + 0x400000) (KERNBASE + PHYSTOP))
  userinit L initcode size root

/-- The state in which `main` starts: the kernel's data is zero, the rest of memory is `m`. -/
def start (m : ByteMem.Mem) : State where
  phys := { mem := m, freelist := 0, deny := [] }
  proc := fun _ => Proc.zero
  nextpid := 1
  initproc := none
  kpgdir := 0
  cpuStack := []
  file := fun _ =>
    { type := .none, ref := 0, readable := false, writable := false, pipe := 0, ip := none,
      off := 0 }
  pipe := fun _ => { readopen := false, writeopen := false }
  iref := fun _ => 0
  detached := []

/-- What varies between boots. -/
structure Machine where
  mem      : ByteMem.Mem
  ncpu     : Nat
  initcode : ByteMem.Mem
  size     : Nat
  root     : Fin NINODE
  ncpu_le  : ncpu ≤ NCPU
  size_lt  : size < PGSIZE

/-- `k` is the state after `main`. -/
def Booted (k : State) : Prop :=
  ∃ c : Machine, Ends (main L c.ncpu c.initcode c.size c.root) (start c.mem) () k

end Boot

/-! ## The system -/

inductive Event where
  | setupkvm
  | allocuvm (d oldsz newsz : Nat)
  | deallocuvm (d oldsz newsz : Nat)
  | copyuvm (d sz : Nat)
  | freevm (d : Nat)
  | dispatch (p : Slot)
  | yield (p : Slot)
  | sleep (p : Slot) (chan : Nat)
  | wakeup (chan : Nat)
  | kill (pid : Int)
  | fork (p : Slot)
  | exec (p : Slot) (path : CStr) (ip : Option Content) (argv : List CStr)
  | growproc (p : Slot) (n : Int)
  | exit (p : Slot)
  | wait (p : Slot)
  | open_ (p : Slot) (ip : Fin NINODE) (readable writable : Bool)
  | pipe (p : Slot)
  | close (p : Slot) (fd : Fin NOFILE)
  | dup (p : Slot) (fd : Fin NOFILE)

/-- A call, and the calls of `kalloc` in it that fail. -/
structure Label where
  event : Event
  deny  : List Bool

/-- When a call can be made. The functions of `vm.c` are called on their own with directories that
    no process has, and with sizes up to `KERNBASE`, as in the kernel. -/
def Enabled (k : State) : Event → Prop
  | .setupkvm | .wakeup _ | .kill _ => True
  | .allocuvm d _ _ | .freevm d => d ∈ k.detached
  | .deallocuvm d oldsz _ => d ∈ k.detached ∧ oldsz ≤ KERNBASE
  | .copyuvm d sz => d ∈ k.detached ∧ sz ≤ KERNBASE
  | .dispatch p => (k.proc p).state = .runnable
  | .sleep p chan => (k.proc p).state = .running ∧ ∀ c, chan ≠ Ptable.chanOf c
  | .yield p | .fork p | .exec p _ _ _ | .growproc p _ | .exit p | .wait p | .open_ p _ _ _
  | .pipe p | .close p _ | .dup p _ => (k.proc p).state = .running

instance (k : State) (e : Event) : Decidable (Enabled k e) := by
  cases e <;> unfold Enabled <;> infer_instance

variable (L : Layout)

/-- Keep a directory that the code returned. -/
def keepDir (d : Nat) : K Unit :=
  modify fun k => if d = 0 then k else { k with detached := d :: k.detached }

def perform : Event → K Unit
  | .setupkvm => do keepDir (← onPhys (setupkvm L))
  | .allocuvm d oldsz newsz => do let _ ← onPhys (allocuvm L d oldsz newsz)
  | .deallocuvm d oldsz newsz => do let _ ← onPhys (deallocuvm L d oldsz newsz)
  | .copyuvm d sz => do keepDir (← onPhys (copyuvm L d sz))
  | .freevm d => do
      onPhys (freevm L d)
      modify fun k => { k with detached := k.detached.erase d }
  | .dispatch p => dispatch p
  | .yield p => yield p
  | .sleep p chan => sleep p chan
  | .wakeup chan => wakeup1 chan
  | .kill pid => do let _ ← kill pid
  | .fork p => do let _ ← fork L p
  | .exec p path ip argv => do let _ ← exec L p path ip argv
  | .growproc p n => do let _ ← growproc L p n
  | .exit p => exit L p
  | .wait p => do let _ ← wait L p
  | .open_ p ip readable writable => do let _ ← sys_open L p ip readable writable
  | .pipe p => do let _ ← sys_pipe L p
  | .close p fd => do let _ ← sys_close L p fd
  | .dup p fd => do let _ ← sys_dup p fd

/-- The state with the failures of the next call. -/
def State.withDeny (k : State) (deny : List Bool) : State :=
  { k with phys := { k.phys with deny := deny } }

/-- One call; a panic ends the run. -/
def step (k : State) (l : Label) : Option State :=
  if Enabled k l.event then
    match (perform L l.event).run (k.withDeny l.deny) with
    | .ok (_, k') => some k'
    | .error _ => none
  else none

/-- The kernel. -/
def system : LTS.System State Label := LTS.System.ofStep (Booted L) (step L)

end Xv6.Kernel
