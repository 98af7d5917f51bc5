import Xv6.Fs.Content
import Xv6.Mem.Phys

/-! # Page tables

    The functions of `vm.c` on page directories in memory. A page directory is named by the kernel
    address of its page.
-/

namespace Xv6.Mem

open ByteMem Program

variable (L : Layout)

/-- The address of the page-table entry for `va`, or `none` for the null pointer. -/
def walkpgdir (pgdir va : Nat) (alloc : Bool) : VM (Option Nat) := do
  let pde ← load32 (pgdir + 4 * PDX va)
  if present pde then
    return some (P2V (PTE_ADDR pde) + 4 * PTX va)
  else if !alloc then
    return none
  else do
    let pgtab ← kalloc
    if pgtab = 0 then
      return none
    else do
      -- make sure all those PTE_P bits are zero
      memset pgtab 0 PGSIZE
      store32 (pgdir + 4 * PDX va) (V2P pgtab ||| PTE_P ||| PTE_W ||| PTE_U)
      return some (pgtab + 4 * PTX va)

/-- The loop of `mappages`; the value says whether it ended well. -/
def mappagesFrom (pgdir last perm : Nat) : Nat → Nat → Nat → VM Bool
  | 0, _, _ => throw .hang
  | n + 1, a, pa => do
      let pte ← walkpgdir pgdir a true
      match pte with
      | none => return false
      | some pte => do
          let e ← load32 pte
          if present e then panic "remap"
          else do
            store32 pte (pa ||| perm ||| PTE_P)
            if a = last then return true
            else mappagesFrom pgdir last perm n (u32 (a + PGSIZE)) (u32 (pa + PGSIZE))

def mappages (pgdir va size pa perm : Nat) : VM Bool :=
  mappagesFrom pgdir (PGROUNDDOWN (u32 (va + size + 2 ^ 32 - 1))) perm MAXPAGES
    (PGROUNDDOWN va) pa

/-- `struct kmap`. -/
structure Kmap where
  virt       : Nat
  phys_start : Nat
  phys_end   : Nat
  perm       : Nat

def kmap : List Kmap :=
  [ { virt := KERNBASE, phys_start := 0,            phys_end := EXTMEM,       perm := PTE_W },
    { virt := KERNLINK, phys_start := V2P KERNLINK, phys_end := V2P L.data,   perm := 0 },
    { virt := L.data,   phys_start := V2P L.data,   phys_end := PHYSTOP,      perm := PTE_W },
    { virt := DEVSPACE, phys_start := DEVSPACE,     phys_end := 0,            perm := PTE_W } ]

/-- The loop of `setupkvm` over the table. -/
def mapKernel (pgdir : Nat) : List Kmap → VM Bool
  | [] => return true
  | k :: ks => do
      let ok ← mappages pgdir k.virt (u32 (k.phys_end + 2 ^ 32 - k.phys_start)) k.phys_start k.perm
      if ok then mapKernel pgdir ks else return false

/-- `setupkvm`; `0` is the null pointer. `P2V(PHYSTOP)` is below `DEVSPACE`, so its panic is left
    out. -/
def setupkvm : VM Nat := do
  let pgdir ← kalloc
  if pgdir = 0 then return 0
  else do
    memset pgdir 0 PGSIZE
    let ok ← mapKernel pgdir (kmap L)
    if ok then return pgdir else return 0

/-- `inituvm` puts `sz` bytes of `init` at address 0. -/
def inituvm (pgdir : Nat) (init : ByteMem.Mem) (sz : Nat) : VM Unit := do
  if sz ≥ PGSIZE then panic "inituvm: more than a page"
  else do
    let mem ← kalloc
    memset mem 0 PGSIZE
    let _ ← mappages pgdir 0 PGSIZE (V2P mem) (PTE_W ||| PTE_U)
    memmove mem init 0 sz

/-- The loop of `loaduvm`; the value says whether it ended well. -/
def loadFrom (pgdir addr : Nat) (ip : Content) (offset sz : Nat) : Nat → Nat → VM Bool
  | 0, _ => throw .hang
  | k + 1, i =>
      if i < sz then do
        let pte ← walkpgdir pgdir (u32 (addr + i)) false
        match pte with
        | none => panic "loaduvm: address should exist"
        | some pte => do
            let e ← load32 pte
            let n := if sz - i < PGSIZE then sz - i else PGSIZE
            let r := ip.readi (u32 (offset + i)) n
            memmove (P2V (PTE_ADDR e)) ip.data (u32 (offset + i)) r.toNat
            if toU32 r ≠ n then return false
            else loadFrom pgdir addr ip offset sz k (u32 (i + PGSIZE))
      else return true

def loaduvm (pgdir addr : Nat) (ip : Content) (offset sz : Nat) : VM Bool := do
  if addr % PGSIZE ≠ 0 then panic "loaduvm: addr must be page aligned"
  else loadFrom pgdir addr ip offset sz MAXPAGES 0

/-- The loop of `deallocuvm`. -/
def deallocFrom (pgdir oldsz : Nat) : Nat → Nat → VM Unit
  | 0, _ => throw .hang
  | n + 1, a =>
      if a < oldsz then do
        let pte ← walkpgdir pgdir a false
        match pte with
        | none => deallocFrom pgdir oldsz n (u32 (a + (NPTENTRIES - 1) * PGSIZE + PGSIZE))
        | some pte => do
            let e ← load32 pte
            if present e then do
              if PTE_ADDR e = 0 then panic "kfree"
              else do
                kfree L (P2V (PTE_ADDR e))
                store32 pte 0
                deallocFrom pgdir oldsz n (u32 (a + PGSIZE))
            else deallocFrom pgdir oldsz n (u32 (a + PGSIZE))
      else pure ()

def deallocuvm (pgdir oldsz newsz : Nat) : VM Nat := do
  if newsz ≥ oldsz then return oldsz
  else do
    deallocFrom L pgdir oldsz MAXPAGES (PGROUNDUP newsz)
    return newsz

/-- The loop of `allocuvm`; the value says whether it ended well. -/
def allocFrom (pgdir oldsz newsz : Nat) : Nat → Nat → VM Bool
  | 0, _ => throw .hang
  | n + 1, a =>
      if a < newsz then do
        let mem ← kalloc
        if mem = 0 then do
          let _ ← deallocuvm L pgdir newsz oldsz
          return false
        else do
          memset mem 0 PGSIZE
          let ok ← mappages pgdir a PGSIZE (V2P mem) (PTE_W ||| PTE_U)
          if ok then allocFrom pgdir oldsz newsz n (u32 (a + PGSIZE))
          else do
            let _ ← deallocuvm L pgdir newsz oldsz
            kfree L mem
            return false
      else return true

def allocuvm (pgdir oldsz newsz : Nat) : VM Nat := do
  if newsz ≥ KERNBASE then return 0
  else if newsz < oldsz then return oldsz
  else do
    let ok ← allocFrom L pgdir oldsz newsz MAXPAGES (PGROUNDUP oldsz)
    return if ok then newsz else 0

/-- The loop of `freevm` over the directory. -/
def freeTables (pgdir : Nat) : Nat → Nat → VM Unit
  | 0, _ => pure ()
  | n + 1, i => do
      let pde ← load32 (pgdir + 4 * i)
      if present pde then do
        kfree L (P2V (PTE_ADDR pde))
        freeTables pgdir n (i + 1)
      else freeTables pgdir n (i + 1)

def freevm (pgdir : Nat) : VM Unit := do
  if pgdir = 0 then panic "freevm: no pgdir"
  else do
    let _ ← deallocuvm L pgdir KERNBASE 0
    freeTables L pgdir NPDENTRIES 0
    kfree L pgdir

/-- `*pte &= ~PTE_U`. -/
def clearpteu (pgdir uva : Nat) : VM Unit := do
  let pte ← walkpgdir pgdir uva false
  match pte with
  | none => panic "clearpteu"
  | some pte => do
      let e ← load32 pte
      store32 pte (if e &&& PTE_U ≠ 0 then e - PTE_U else e)

/-- The loop of `copyuvm`; the value says whether it ended well. -/
def copyFrom (pgdir d sz : Nat) : Nat → Nat → VM Bool
  | 0, _ => throw .hang
  | n + 1, i =>
      if i < sz then do
        let pte ← walkpgdir pgdir i false
        match pte with
        | none => panic "copyuvm: pte should exist"
        | some pte => do
            let e ← load32 pte
            if !present e then panic "copyuvm: page not present"
            else do
              let mem ← kalloc
              if mem = 0 then return false
              else do
                let s ← get
                memmove mem s.mem (P2V (PTE_ADDR e)) PGSIZE
                let ok ← mappages d i PGSIZE (V2P mem) (PTE_FLAGS e)
                if ok then copyFrom pgdir d sz n (u32 (i + PGSIZE)) else return false
      else return true

/-- `copyuvm`; `0` is the null pointer. -/
def copyuvm (pgdir sz : Nat) : VM Nat := do
  let d ← setupkvm L
  if d = 0 then return 0
  else do
    let ok ← copyFrom pgdir d sz MAXPAGES PGSIZE
    if ok then return d
    else do
      freevm L d
      return 0

/-- `uva2ka`; `0` is the null pointer. The entry is read without a test for the null pointer. -/
def uva2ka (pgdir uva : Nat) : VM Nat := do
  let pte ← walkpgdir pgdir uva false
  match pte with
  | none => throw .fault
  | some pte => do
      let e ← load32 pte
      if !present e then return 0
      else if e &&& PTE_U = 0 then return 0
      else return P2V (PTE_ADDR e)

/-- The loop of `copyout`: `len` bytes of `buf` from offset `off` on. -/
def copyoutFrom (pgdir : Nat) (buf : ByteMem.Mem) : Nat → Nat → Nat → Nat → VM Bool
  | 0, _, _, _ => throw .hang
  | n + 1, va, off, len =>
      if 0 < len then do
        let va0 := PGROUNDDOWN va
        let pa0 ← uva2ka pgdir va0
        if pa0 = 0 then return false
        else do
          let k := min (PGSIZE + 1 - (va - va0)) len
          memmove (pa0 + (va - va0)) buf off k
          copyoutFrom pgdir buf n (u32 (va0 + PGSIZE)) (off + k) (len - k)
      else return true

def copyout (pgdir va : Nat) (buf : ByteMem.Mem) (len : Nat) : VM Bool :=
  copyoutFrom pgdir buf MAXPAGES va 0 len

end Xv6.Mem
