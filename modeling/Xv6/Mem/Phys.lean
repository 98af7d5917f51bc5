import Xv6.Framework.Bytes
import Xv6.Framework.Program
import Xv6.Param

/-! # Physical memory and its allocator

    The kernel's view of physical memory and `kalloc.c`. Memory is indexed by kernel virtual
    address, so that the page a pointer `v` of the code points to is the range `[v, v + PGSIZE)`.
    The free list is threaded through the free pages.
-/

namespace Xv6.Mem

open ByteMem Program

/-! ## Macros of `mmu.h` and `memlayout.h` -/

def PGROUNDUP (sz : Nat) : Nat := u32 (sz + PGSIZE - 1) / PGSIZE * PGSIZE
def PGROUNDDOWN (a : Nat) : Nat := a / PGSIZE * PGSIZE

def PDX (va : Nat) : Nat := va / 2 ^ 22 % 1024
def PTX (va : Nat) : Nat := va / 2 ^ 12 % 1024

def PTE_ADDR (pte : Nat) : Nat := pte / PGSIZE * PGSIZE
def PTE_FLAGS (pte : Nat) : Nat := pte % PGSIZE

def V2P (a : Nat) : Nat := u32 (a + 2 ^ 32 - KERNBASE)
def P2V (a : Nat) : Nat := u32 (a + KERNBASE)

/-- `pte & PTE_P`. -/
def present (pte : Nat) : Bool := pte &&& PTE_P ≠ 0

/-! ## State -/

/-- The addresses `data` and `end` that `kernel.ld` defines. The kernel ends well below the 4 MB
    that the boot page table maps. -/
structure Layout where
  data : Nat
  end_ : Nat
  data_aligned : data % PGSIZE = 0
  text_lt      : KERNLINK < data
  data_le      : data ≤ end_
  end_le       : end_ ≤ KERNBASE + 0x200000

/-- How the kernel stops. -/
inductive Halt where
  | panic (msg : String)
  /-- A page fault in the kernel. -/
  | fault
  /-- A loop that does not end. -/
  | hang
  deriving DecidableEq, Repr

/-- Memory and `kmem.freelist`. `deny` says which of the coming calls of `kalloc` fail although
    there is a free page. -/
structure Phys where
  mem      : ByteMem.Mem
  freelist : Nat
  deny     : List Bool

abbrev VM := StateT Phys (Except Halt)

def load32 (a : Nat) : VM Nat := fun s => .ok (load s.mem a 4, s)

def store32 (a v : Nat) : VM Unit := fun s => .ok ((), { s with mem := store s.mem a 4 v })

def memset (a : Nat) (c : UInt8) (n : Nat) : VM Unit :=
  fun s => .ok ((), { s with mem := fill s.mem a n c })

/-- `memmove` of `n` bytes of `src` from offset `from_` on. -/
def memmove (dst : Nat) (src : ByteMem.Mem) (from_ n : Nat) : VM Unit :=
  fun s => .ok ((), { s with mem := copy s.mem dst src from_ n })

def panic (msg : String) {α : Type} : VM α := throw (.panic msg)

/-! ## `kalloc.c` -/

section Kalloc

variable (L : Layout)

def kfree (v : Nat) : VM Unit := do
  if v % PGSIZE ≠ 0 ∨ v < L.end_ ∨ V2P v ≥ PHYSTOP then panic "kfree"
  else
    memset v 1 PGSIZE
    let s ← get
    store32 v s.freelist
    modify fun s => { s with freelist := v }

def kalloc : VM Nat := fun s =>
  let s' := { s with deny := s.deny.tail }
  if s.deny.head? = some true then .ok (0, s')
  else if s.freelist = 0 then .ok (0, s')
  else .ok (s.freelist, { s' with freelist := load s.mem s.freelist 4 })

/-- The loop of `freerange`. -/
def freerangeFrom (vend : Nat) : Nat → Nat → VM Unit
  | 0, _ => throw .hang
  | n + 1, p =>
      if u32 (p + PGSIZE) ≤ vend then do
        kfree L p
        freerangeFrom vend n (u32 (p + PGSIZE))
      else pure ()

/-- A loop that steps by pages takes at most this many steps. -/
abbrev MAXPAGES : Nat := 2 ^ 20

def freerange (vstart vend : Nat) : VM Unit :=
  freerangeFrom L vend MAXPAGES (PGROUNDUP vstart)

def kinit1 (vstart vend : Nat) : VM Unit := freerange L vstart vend

def kinit2 (vstart vend : Nat) : VM Unit := freerange L vstart vend

end Kalloc

end Xv6.Mem
