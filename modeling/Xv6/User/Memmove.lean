import Xv6.Framework.Bytes
import Xv6.Param

/-! # The two functions `memmove`

    `memmove` of `string.c`, which the kernel uses, looks at how the two ranges lie and copies from
    the end where that is needed. `memmove` of `ulib.c`, which programs use, always copies from the
    start.

    `forward_apply` says what a copy from the start does to every byte, also where the ranges
    overlap: the first bytes repeat.
-/

namespace Xv6

open ByteMem Function

/-! ## The loops -/

/-- `while(n-- > 0) *d++ = *s++`. -/
def forward : Nat → Nat → Nat → Mem → Mem
  | 0, _, _, m => m
  | n + 1, d, s, m => forward n (u32 (d + 1)) (u32 (s + 1)) (update m d (m s))

/-- `while(n-- > 0) *--d = *--s`. -/
def backward : Nat → Nat → Nat → Mem → Mem
  | 0, _, _, m => m
  | n + 1, d, s, m =>
      let d := u32 (d + 2 ^ 32 - 1)
      let s := u32 (s + 2 ^ 32 - 1)
      backward n d s (update m d (m s))

/-- `memmove` of `string.c`. -/
def KString.memmove (m : Mem) (dst src n : Nat) : Mem :=
  if src < dst ∧ dst < u32 (src + n) then backward n (u32 (dst + n)) (u32 (src + n)) m
  else forward n dst src m

/-- `memmove` of `ulib.c`, where `n` is an `int`. -/
def Ulib.memmove (m : Mem) (dst src : Nat) (n : Int) : Mem := forward n.toNat dst src m

/-! ## What the loops do -/

variable {m : Mem} {d s n x : Nat}

/-- Which byte from `s` on ends up `i` bytes after `d`. -/
def origin (d s i : Nat) : Nat := if s < d then i % (d - s) else i

theorem origin_succ (d s i : Nat) : (s < d ∧ s + 1 + origin (d + 1) (s + 1) i = d ∧
      origin d s (i + 1) = 0) ∨
    (s + 1 + origin (d + 1) (s + 1) i ≠ d ∧
      s + origin d s (i + 1) = s + 1 + origin (d + 1) (s + 1) i) := by
  unfold origin
  by_cases hsd : s < d
  · rw [if_pos hsd, if_pos (by omega), show d + 1 - (s + 1) = d - s by omega, Nat.add_mod i 1]
    have hlt := Nat.mod_lt i (show 0 < d - s by omega)
    by_cases hlast : i % (d - s) + 1 = d - s
    · refine .inl ⟨hsd, by omega, ?_⟩
      rw [← Nat.add_mod, ← Nat.mod_add_mod, hlast, Nat.mod_self]
    · refine .inr ⟨by omega, ?_⟩
      rw [← Nat.add_mod, ← Nat.mod_add_mod,
        Nat.mod_eq_of_lt (show i % (d - s) + 1 < d - s by omega)]
      omega
  · rw [if_neg hsd, if_neg (by omega)]
    exact .inr ⟨by omega, by omega⟩

theorem forward_apply (hd : d + n ≤ 2 ^ 32) (hs : s + n ≤ 2 ^ 32) : forward n d s m x =
    if d ≤ x ∧ x < d + n then m (s + origin d s (x - d)) else m x := by
  induction n generalizing d s m with
  | zero => exact (if_neg (by omega)).symm
  | succ n ih =>
    -- after the last byte a pointer may wrap, and is not used again
    have hwrap : forward (n + 1) d s m = forward n (d + 1) (s + 1) (update m d (m s)) := by
      cases n with
      | zero => rfl
      | succ n => rw [forward, u32_of_lt (by omega), u32_of_lt (by omega)]
    rw [hwrap, ih (by omega) (by omega)]
    by_cases hx : x = d
    · subst hx
      rw [if_neg (by omega), if_pos (by omega), update_self, Nat.sub_self]
      unfold origin
      split <;> simp
    · by_cases hin : d ≤ x ∧ x < d + (n + 1)
      · rw [if_pos hin, if_pos (by omega), show x - d = x - (d + 1) + 1 by omega]
        rcases origin_succ d s (x - (d + 1)) with ⟨-, hat, hzero⟩ | ⟨hne, heq⟩
        · -- this byte was overwritten by the first one
          rw [hat, hzero, update_self, add_zero]
        · rw [update_of_ne hne, heq]
      · rw [if_neg hin, if_neg (by omega), update_of_ne hx]

theorem backward_apply (hsd : s < d) (hd : d + n ≤ 2 ^ 32) :
    backward n (u32 (d + n)) (u32 (s + n)) m x = copy m d m s n x := by
  induction n generalizing m with
  | zero => exact (if_neg (by omega)).symm
  | succ n ih =>
    have hd' : u32 (u32 (d + (n + 1)) + 2 ^ 32 - 1) = d + n := by
      unfold u32
      omega
    have hs' : u32 (u32 (s + (n + 1)) + 2 ^ 32 - 1) = s + n := by
      unfold u32
      omega
    have hstep : backward (n + 1) (u32 (d + (n + 1))) (u32 (s + (n + 1))) m =
        backward n (u32 (d + n)) (u32 (s + n)) (update m (d + n) (m (s + n))) := by
      rw [backward, hd', hs', u32_of_lt (by omega), u32_of_lt (by omega)]
    rw [hstep, ih (by omega)]
    unfold copy
    by_cases hx : x = d + n
    · subst hx
      rw [if_neg (by omega), if_pos (by omega), update_self, Nat.add_sub_cancel_left]
    · by_cases hin : d ≤ x ∧ x < d + n
      · rw [if_pos hin, if_pos (by omega), update_of_ne (by omega)]
      · rw [if_neg hin, if_neg (by omega), update_of_ne hx]

/-! ## The two functions -/

theorem kmemmove_eq_copy (hd : d + n ≤ 2 ^ 32) (hs : s + n ≤ 2 ^ 32) :
    KString.memmove m d s n = copy m d m s n := by
  funext x
  unfold KString.memmove
  by_cases hover : s < d ∧ d < u32 (s + n)
  · rw [if_pos hover]
    exact backward_apply hover.1 hd
  · rw [if_neg hover, forward_apply hd hs]
    unfold copy
    by_cases hin : d ≤ x ∧ x < d + n
    · rw [if_pos hin, if_pos hin]
      unfold origin
      by_cases hsd : s < d
      · rw [if_pos hsd, Nat.mod_eq_of_lt]
        rw [u32_of_lt (by omega)] at hover
        omega
      · rw [if_neg hsd]
    · rw [if_neg hin, if_neg hin]

/-- A source that overlaps the bytes after it must repeat with the distance. -/
def Repeats (m : Mem) (d s n : Nat) : Prop :=
  s < d → ∀ i, d - s ≤ i → i < n → m (s + i) = m (s + (i - (d - s)))

theorem repeats_iff : Repeats m d s n ↔ ∀ i < n, m (s + origin d s i) = m (s + i) := by
  unfold Repeats origin
  by_cases hsd : s < d
  · simp only [hsd, if_true, true_imp_iff]
    constructor
    · intro h i
      induction i using Nat.strong_induction_on with
      | _ i ih =>
        intro hi
        by_cases hlt : i < d - s
        · rw [Nat.mod_eq_of_lt hlt]
        · rw [Nat.mod_eq_sub_mod (by omega), ih (i - (d - s)) (by omega) (by omega),
            h i (by omega) hi]
    · intro h i hle hi
      rw [← h i hi, Nat.mod_eq_sub_mod hle, h _ (by omega)]
  · simp [hsd]

/-- The kernel's function copies, wherever the ranges lie. The user's function does so, and agrees
    with it, exactly where the source repeats. -/
theorem memmove_agree_iff (hd : d + n ≤ 2 ^ 32) (hs : s + n ≤ 2 ^ 32) :
    KString.memmove m d s n = copy m d m s n ∧
      (Ulib.memmove m d s n = copy m d m s n ↔ Repeats m d s n) ∧
      (Ulib.memmove m d s n = KString.memmove m d s n ↔ Repeats m d s n) := by
  have hk : KString.memmove m d s n = copy m d m s n := kmemmove_eq_copy hd hs
  rw [hk]
  have hu : Ulib.memmove m d s n = copy m d m s n ↔ Repeats m d s n := by
    rw [repeats_iff]
    show forward n d s m = _ ↔ _
    constructor
    · intro h i hi
      have hi' := congrFun h (d + i)
      rw [forward_apply hd hs, copy, if_pos (by omega), if_pos (by omega),
        Nat.add_sub_cancel_left] at hi'
      exact hi'
    · intro h
      funext x
      rw [forward_apply hd hs]
      unfold copy
      by_cases hin : d ≤ x ∧ x < d + n
      · rw [if_pos hin, if_pos hin, h _ (by omega)]
      · rw [if_neg hin, if_neg hin]
  exact ⟨rfl, hu, hu⟩

/-- Eight bytes moved four down. -/
theorem memmove_agree_down : Ulib.memmove (fun a => UInt8.ofNat a) 0 4 8 =
    KString.memmove (fun a => UInt8.ofNat a) 0 4 8 :=
  (memmove_agree_iff (n := 8) (by decide) (by decide)).2.2.mpr fun h => absurd h (by decide)

/-- Two bytes moved one up: the second is lost. -/
theorem memmove_disagree_up : Ulib.memmove (fun a => UInt8.ofNat a) 1 0 2 2 = 0 ∧
    KString.memmove (fun a => UInt8.ofNat a) 1 0 2 2 = 1 := by
  decide

end Xv6
