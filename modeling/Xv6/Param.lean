import Mathlib.Algebra.Order.Ring.Int

/-! # Kernel constants and machine integers

    The macros of `param.h`, `fs.h`, `mmu.h`, `memlayout.h` and `elf.h` that the model uses, under
    their C names. A `uint` is a natural number, and its arithmetic wraps where the code's can: the
    wrap is written `u32`.
-/

namespace Xv6

/-! ## `param.h` -/

abbrev NPROC : Nat := 64
abbrev NCPU : Nat := 8
abbrev NOFILE : Nat := 16
abbrev NFILE : Nat := 100
abbrev NINODE : Nat := 50
abbrev NDEV : Nat := 10
abbrev MAXARG : Nat := 32
abbrev MAXOPBLOCKS : Nat := 10
abbrev LOGSIZE : Nat := MAXOPBLOCKS * 3
abbrev NBUF : Nat := MAXOPBLOCKS * 3
abbrev FSSIZE : Nat := 1000

/-! ## `fs.h` -/

abbrev BSIZE : Nat := 512
abbrev NDIRECT : Nat := 12
abbrev NINDIRECT : Nat := BSIZE / 4
abbrev MAXFILE : Nat := NDIRECT + NINDIRECT

/-! ## `mmu.h` -/

abbrev PGSIZE : Nat := 4096
abbrev NPDENTRIES : Nat := 1024
abbrev NPTENTRIES : Nat := 1024
abbrev PTE_P : Nat := 0x001
abbrev PTE_W : Nat := 0x002
abbrev PTE_U : Nat := 0x004

/-! ## `memlayout.h` -/

abbrev EXTMEM : Nat := 0x100000
abbrev PHYSTOP : Nat := 0xE000000
abbrev DEVSPACE : Nat := 0xFE000000
abbrev KERNBASE : Nat := 0x80000000
abbrev KERNLINK : Nat := KERNBASE + EXTMEM

/-! ## `elf.h` -/

abbrev ELF_MAGIC : Nat := 0x464C457F
abbrev ELF_PROG_LOAD : Nat := 1

/-! ## Tables that are not empty

    Slots and processors are written as numerals. -/

instance neZero_NPROC : NeZero NPROC := ⟨by decide⟩
instance neZero_NBUF : NeZero NBUF := ⟨by decide⟩
instance neZero_two : NeZero 2 := ⟨by decide⟩
instance neZero_three : NeZero 3 := ⟨by decide⟩

/-! ## Machine integers -/

def u32 (x : Nat) : Nat := x % 2 ^ 32

/-- An `int` converted to `uint`. -/
def toU32 (i : Int) : Nat := (i % 2 ^ 32).toNat

/-- A `uint` converted to `int`. -/
def toI32 (n : Nat) : Int := if n < 2 ^ 31 then n else n - 2 ^ 32

theorem u32_of_lt {x : Nat} (h : x < 2 ^ 32) : u32 x = x := Nat.mod_eq_of_lt h

theorem u32_lt (x : Nat) : u32 x < 2 ^ 32 := Nat.mod_lt _ (by decide)

theorem toU32_ofNat {n : Nat} (h : n < 2 ^ 32) : toU32 n = n := by
  unfold toU32
  omega

end Xv6
