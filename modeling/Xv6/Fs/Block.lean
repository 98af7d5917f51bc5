import Xv6.Framework.Bytes
import Xv6.Param

/-! # Disk blocks

    A block is `BSIZE` bytes. The code reads structures out of the `data` of a buffer by casting the
    pointer; here they are loads at byte offsets.
-/

namespace Xv6

open ByteMem

/-- The contents of one disk block. -/
def Block : Type := Fin BSIZE → UInt8

namespace Block

/-- The bytes of a block, as memory from address 0 on. -/
def bytes (b : Block) : Mem := fun i => if h : i < BSIZE then b ⟨i, h⟩ else 0

/-- The block at address 0 of `m`. -/
def ofBytes (m : Mem) : Block := fun i => m i

/-- Word `i` of a block seen as an array of 32-bit words. -/
def word (b : Block) (i : Nat) : Nat := load b.bytes (4 * i) 4

/-- Store the 32-bit word `v` at index `i`. -/
def setWord (b : Block) (i v : Nat) : Block := ofBytes (store b.bytes (4 * i) 4 v)

/-- A block of equal bytes. -/
def fill (v : UInt8) : Block := fun _ => v

variable {b : Block} {m : Mem} {i j v : Nat}

theorem bytes_ofBytes (h : i < BSIZE) : (ofBytes m).bytes i = m i := by
  simp [bytes, ofBytes, h]

theorem load_ofBytes {a n : Nat} (h : a + n ≤ BSIZE) : load (ofBytes m).bytes a n = load m a n :=
  load_congr fun _ _ hx => bytes_ofBytes (by omega)

theorem word_setWord_self (h : 4 * i + 4 ≤ BSIZE) (hv : v < 2 ^ 32) :
    (b.setWord i v).word i = v := by
  unfold word setWord
  rw [load_ofBytes h, load_store_self]
  exact Nat.mod_eq_of_lt (by omega)

theorem word_setWord_of_ne (h : 4 * i + 4 ≤ BSIZE) (hij : i ≠ j) :
    (b.setWord j v).word i = b.word i := by
  unfold word setWord
  rw [load_ofBytes h, load_store_of_disjoint (by omega)]

end Block

end Xv6
