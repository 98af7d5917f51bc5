import Mathlib.Algebra.BigOperators.Group.Finset.Basic
import Mathlib.Algebra.Order.BigOperators.Group.Finset
import Mathlib.Algebra.Order.Ring.Int

/-! # Counting references

    A table of optional references, and how the number of references to an object changes when one
    place of the table is written.
-/

namespace Refs

open Function

variable {α β : Type*} [Fintype α] [DecidableEq α] [DecidableEq β]

/-- The number of places of `g` that refer to `b`. -/
def count (g : α → Option β) (b : β) : Int := ∑ x, if g x = some b then 1 else 0

theorem count_update (g : α → Option β) (x : α) (o : Option β) (b : β) :
    count (update g x o) b =
      count g b - (if g x = some b then 1 else 0) + (if o = some b then 1 else 0) := by
  have hrest : ∑ y ∈ Finset.univ.erase x, (if update g x o y = some b then (1 : Int) else 0)
      = ∑ y ∈ Finset.univ.erase x, if g y = some b then 1 else 0 := by
    apply Finset.sum_congr rfl
    intro y hy
    rw [update_of_ne (Finset.ne_of_mem_erase hy)]
  unfold count
  rw [← Finset.add_sum_erase _ _ (Finset.mem_univ x), hrest, update_self,
    ← Finset.add_sum_erase (a := x) _ (fun y => if g y = some b then (1 : Int) else 0)
      (Finset.mem_univ x)]
  omega

omit [DecidableEq α] in
theorem count_nonneg (g : α → Option β) (b : β) : 0 ≤ count g b := by
  apply Finset.sum_nonneg
  intro x _
  split <;> decide

theorem count_pos {g : α → Option β} {x : α} {b : β} (h : g x = some b) : 1 ≤ count g b := by
  have hupd := count_update g x none b
  have hnn := count_nonneg (update g x none) b
  simp only [h, if_true, reduceCtorEq, if_false] at hupd
  omega

end Refs
