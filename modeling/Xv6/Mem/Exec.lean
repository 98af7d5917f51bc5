import Xv6.Mem.Vm

/-! # The user image that `exec` builds

    The part of `exec.c` that works on page tables: it reads the ELF file, builds a new address
    space and pushes the arguments. The file system and the process table are left to the caller.
-/

namespace Xv6.Mem

open ByteMem Program

variable (L : Layout)

/-! ## The file -/

/-- The fields of `struct elfhdr` that `exec` uses. -/
structure ElfHdr where
  magic : Nat
  entry : Nat
  phoff : Nat
  phnum : Nat

/-- The fields of `struct proghdr` that `exec` uses. -/
structure ProgHdr where
  type   : Nat
  off    : Nat
  vaddr  : Nat
  filesz : Nat
  memsz  : Nat

/-- `sizeof(struct elfhdr)`. -/
abbrev ELFHDR : Nat := 52

/-- `sizeof(struct proghdr)`. -/
abbrev PROGHDR : Nat := 32

def elfhdr (ip : Content) : ElfHdr where
  magic := load ip.data 0 4
  entry := load ip.data 24 4
  phoff := load ip.data 28 4
  phnum := load ip.data 44 2

def proghdr (ip : Content) (off : Nat) : ProgHdr where
  type := load ip.data off 4
  off := load ip.data (off + 4) 4
  vaddr := load ip.data (off + 8) 4
  filesz := load ip.data (off + 16) 4
  memsz := load ip.data (off + 20) 4

/-! ## The image -/

/-- The loop over the program headers, `n` of which are left; the value is the
    size reached, or `none` for `goto bad`. -/
def loadSegments (pgdir : Nat) (ip : Content) : Nat → Nat → Nat → VM (Option Nat)
  | 0, _, sz => return some sz
  | n + 1, off, sz => do
      let ph := proghdr ip off
      if toU32 (ip.readi off PROGHDR) ≠ PROGHDR then return none
      else if ph.type ≠ ELF_PROG_LOAD then
        loadSegments pgdir ip n (u32 (off + PROGHDR)) sz
      else if ph.memsz < ph.filesz then return none
      else if u32 (ph.vaddr + ph.memsz) < ph.vaddr then return none
      else do
        let sz ← allocuvm L pgdir sz (u32 (ph.vaddr + ph.memsz))
        if sz = 0 then return none
        else if ph.vaddr % PGSIZE ≠ 0 then return none
        else do
          let ok ← loaduvm pgdir ph.vaddr ip ph.off ph.filesz
          if ok then loadSegments pgdir ip n (u32 (off + PROGHDR)) sz
          else return none

/-- A string without its terminating zero. -/
abbrev CStr : Type := { s : List UInt8 // (0 : UInt8) ∉ s }

theorem zero_notMem_nil : (0 : UInt8) ∉ ([] : List UInt8) := List.not_mem_nil

def CStr.strlen (s : CStr) : Nat := s.1.length

/-- The bytes of a string, with the zero. -/
def CStr.bytes (s : CStr) : ByteMem.Mem := fun i => s.1.getD i 0

/-- The bytes of an array of `uint`. -/
def wordBytes (ws : List Nat) : ByteMem.Mem :=
  fun i => UInt8.ofNat (ws.getD (i / 4) 0 / 256 ^ (i % 4))

/-- The loop that pushes the argument strings. `ptrs` is `ustack[3..3+argc)`. -/
def pushArgs (pgdir : Nat) : List CStr → Nat → List Nat → VM (Option (Nat × List Nat))
  | [], sp, ptrs => return some (sp, ptrs)
  | arg :: argv, sp, ptrs => do
      if ptrs.length ≥ MAXARG then return none
      else do
        let sp := u32 (sp + 2 ^ 32 - (arg.strlen + 1)) / 4 * 4
        let ok ← copyout pgdir sp arg.bytes (arg.strlen + 1)
        if ok then pushArgs pgdir argv sp (ptrs ++ [sp]) else return none

/-- `ustack`. -/
def ustack (sp : Nat) (ptrs : List Nat) : List Nat :=
  [0xffffffff, ptrs.length, u32 (sp + 2 ^ 32 - (ptrs.length + 1) * 4)] ++ ptrs ++ [0]

/-- The arguments and `ustack` go to the stack of an image of size `sz`; the value is the size and
    the stack pointer. -/
def pushUstack (pgdir : Nat) (argv : List CStr) (sz : Nat) : VM (Option (Nat × Nat)) := do
  let r ← pushArgs pgdir argv sz []
  match r with
  | none => return none
  | some (sp, ptrs) => do
      let n := (3 + ptrs.length + 1) * 4
      let ok ← copyout pgdir (u32 (sp + 2 ^ 32 - n)) (wordBytes (ustack sp ptrs)) n
      return if ok then some (sz, u32 (sp + 2 ^ 32 - n)) else none

/-- The part of `exec` after the program headers, on an image of size `sz`. -/
def pushStack (pgdir : Nat) (argv : List CStr) (sz : Nat) : VM (Option (Nat × Nat)) := do
  let sz := PGROUNDUP sz
  let sz ← allocuvm L pgdir sz (u32 (sz + 2 * PGSIZE))
  if sz = 0 then return none
  else do
    clearpteu pgdir (sz - 2 * PGSIZE)
    pushUstack pgdir argv sz

/-- From the first program header to the last `copyout`. -/
def fillImage (pgdir : Nat) (ip : Content) (argv : List CStr) : VM (Option (Nat × Nat)) := do
  let r ← loadSegments L pgdir ip (elfhdr ip).phnum (elfhdr ip).phoff PGSIZE
  match r with
  | none => return none
  | some sz => pushStack L pgdir argv sz

/-- A user image. -/
structure Image where
  pgdir : Nat
  sz    : Nat
  entry : Nat
  sp    : Nat

/-- `exec` on the file `ip`, up to the commit; `none` after `bad`. -/
def buildImage (ip : Content) (argv : List CStr) : VM (Option Image) := do
  if toU32 (ip.readi 0 ELFHDR) < ELFHDR then return none
  else if (elfhdr ip).magic ≠ ELF_MAGIC then return none
  else do
    let pgdir ← setupkvm L
    if pgdir = 0 then return none
    else do
      let r ← fillImage L pgdir ip argv
      match r with
      | some (sz, sp) => return some { pgdir, sz, entry := (elfhdr ip).entry, sp }
      | none => do
          freevm L pgdir
          return none

end Xv6.Mem
