import Xv6.Framework.Bytes
import Xv6.Param

/-! # The contents of a regular file

    What `readi` makes of an inode of type `T_FILE` or `T_DIR`, with the blocks put together.
-/

namespace Xv6

/-- The bytes of a file. `bmap` finds no block beyond `MAXFILE`. -/
structure Content where
  size    : Nat
  data    : ByteMem.Mem
  size_le : size ≤ MAXFILE * BSIZE

namespace Content

/-- The value of `readi(ip, dst, off, n)`; where it is not `-1`, it is the
    number of bytes that `readi` copies to `dst`. -/
def readi (f : Content) (off n : Nat) : Int :=
  if off > f.size ∨ u32 (off + n) < off then -1
  else if u32 (off + n) > f.size then (f.size - off : Nat)
  else n

/-- A count that was not cut off is the one asked for. -/
theorem toNat_readi_le (f : Content) (off n : Nat) : (f.readi off n).toNat ≤ n := by
  unfold readi
  split
  · omega
  · next h =>
    split
    · next h' =>
      have : u32 (off + n) ≤ off + n := Nat.mod_le _ _
      omega
    · omega

end Content

end Xv6
