import Mathlib.Logic.Function.Basic
import Mathlib.Data.List.Basic

/-! # Devices with atomic writes

    A device is a map from addresses to contents, changed by single writes that are atomic and reach
    it in order. A crash keeps a prefix of the writes issued. A recovery procedure is a plan: the
    writes it issues when it starts on a given device.
-/

namespace Device

open Function

variable {α β : Type*} [DecidableEq α]

/-- Perform the writes in order. -/
def apply (d : α → β) : List (α × β) → (α → β)
  | [] => d
  | w :: ws => apply (update d w.1 w.2) ws

variable {d d' : α → β} {ws us : List (α × β)} {a : α}

@[simp] theorem apply_nil : apply d [] = d := rfl

@[simp] theorem apply_cons {w : α × β} : apply d (w :: ws) = apply (update d w.1 w.2) ws := rfl

theorem apply_append : apply d (us ++ ws) = apply (apply d us) ws := by
  induction us generalizing d with
  | nil => rfl
  | cons w us ih => exact ih

/-- An address no write goes to keeps its contents. -/
theorem apply_of_notMem (h : ∀ w ∈ ws, w.1 ≠ a) : apply d ws a = d a := by
  induction ws generalizing d with
  | nil => rfl
  | cons w ws ih =>
    have hw : a ≠ w.1 := (h w (by simp)).symm
    rw [apply_cons, ih fun w' hw' => h w' (by simp [hw']), update_of_ne hw]

/-- The contents of one address depend on the writes and on its old contents only. -/
theorem apply_congr (h : d a = d' a) : apply d ws a = apply d' ws a := by
  induction ws generalizing d d' with
  | nil => exact h
  | cons w ws ih =>
    refine ih ?_
    by_cases ha : a = w.1
    · subst ha; simp
    · simp [ha, h]

/-- An address that is written ends with contents the old device has no part in. -/
theorem apply_eq_of_mem (h : ∃ w ∈ ws, w.1 = a) : apply d ws a = apply d' ws a := by
  induction ws generalizing d d' with
  | nil => simp at h
  | cons w ws ih =>
    by_cases hin : ∃ w ∈ ws, w.1 = a
    · exact ih hin
    · obtain ⟨w', hw', rfl⟩ := h
      rcases List.mem_cons.mp hw' with rfl | hw'
      · show apply (update d w'.1 w'.2) ws w'.1 =
          apply (update d' w'.1 w'.2) ws w'.1
        exact apply_congr (by simp)
      · exact absurd ⟨w', hw', rfl⟩ hin

/-- Writes that are all written over leave no trace. -/
theorem apply_absorb (h : ∀ u ∈ us, ∃ w ∈ ws, w.1 = u.1) : apply (apply d us) ws = apply d ws := by
  funext a
  by_cases ha : ∃ w ∈ ws, w.1 = a
  · exact apply_eq_of_mem ha
  · refine apply_congr (apply_of_notMem fun u hu hua => ha ?_)
    rw [← hua]
    exact h u hu

/-- Where every write to `a` carries `x`, an address that is written holds `x`. -/
theorem apply_eq {x : β} (hmem : ∃ w ∈ ws, w.1 = a) (h : ∀ w ∈ ws, w.1 = a → w.2 = x) :
    apply d ws a = x := by
  induction ws generalizing d with
  | nil => simp at hmem
  | cons w ws ih =>
    by_cases hin : ∃ w ∈ ws, w.1 = a
    · exact ih hin fun w' hw' => h w' (by simp [hw'])
    · obtain ⟨w', hw', rfl⟩ := hmem
      rcases List.mem_cons.mp hw' with rfl | hw'
      · rw [apply_cons, apply_of_notMem fun w'' hw'' he => hin ⟨w'', hw'', he⟩]
        simpa using h w' (by simp) rfl
      · exact absurd ⟨w', hw', rfl⟩ hin

/-! ## Interrupted recovery -/

/-- The device after the writes of `plan` were cut off after `k`. -/
def interrupt (plan : (α → β) → List (α × β)) (d : α → β) (k : Nat) : α → β :=
  apply d ((plan d).take k)

/-- Run `plan` again and again, cut off after `k` writes for each `k` of the list. -/
def interrupted (plan : (α → β) → List (α × β)) (d : α → β) (ks : List Nat) : α → β :=
  ks.foldl (interrupt plan) d

/-- What every cut-off run of the plan keeps holds however often it is restarted. -/
theorem interrupted_invariant {plan : (α → β) → List (α × β)} {I : (α → β) → Prop}
    (hstep : ∀ d k, I d → I (interrupt plan d k)) (h : I d) (ks : List Nat) :
    I (interrupted plan d ks) := by
  induction ks generalizing d with
  | nil => exact h
  | cons k ks ih => exact ih (hstep d k h)

end Device
