import Mathlib.Computability.RegularExpressions
import Mathlib.Logic.Relation

/-! # Lock programs

    The lock operations a piece of code can perform form a regular language. `check` runs an
    abstract state through a regular expression; `check_sound` says that every word of the language
    takes the abstract state the same way. `no_cycle_of_rank` is the usual argument that an order on
    the locks excludes deadlock: along a cycle of waiting parties the ranks would increase for ever.
-/

namespace LockFlow

/-! ## Regular programs -/

section Flow

variable {A H : Type*} (step : H → A → Option H)

/-- Run the abstract state along a word. -/
def follow (h : H) : List A → Option H
  | [] => some h
  | a :: w => (step h a).bind fun h' => follow h' w

/-- Run the abstract state through a program. The two branches of a choice must agree, and a loop
    must restore the state. -/
def check [DecidableEq H] (h : H) : RegularExpression A → Option H
  | .zero => none
  | .epsilon => some h
  | .char a => step h a
  | .plus p q =>
      match check h p, check h q with
      | some h₁, some h₂ => if h₁ = h₂ then some h₁ else none
      | _, _ => none
  | .comp p q => (check h p).bind fun h' => check h' q
  | .star p => if check h p = some h then some h else none

variable {step} {h h' : H}

theorem follow_append (u w : List A) :
    follow step h (u ++ w) = (follow step h u).bind fun h' => follow step h' w := by
  induction u generalizing h with
  | nil => rfl
  | cons a u ih =>
    show (step h a).bind _ = ((step h a).bind _).bind _
    rw [Option.bind_assoc]
    congr 1
    funext h1
    exact ih

/-- A loop body that restores the state may run any number of times. -/
theorem follow_flatten {ws : List (List A)} (hall : ∀ w ∈ ws, follow step h w = some h) :
    follow step h ws.flatten = some h := by
  induction ws with
  | nil => rfl
  | cons w ws ih =>
    rw [List.flatten_cons, follow_append, hall w (by simp)]
    exact ih fun u hu => hall u (by simp [hu])

/-- Every word of a program that passes the check goes through. -/
theorem check_sound [DecidableEq H] {p : RegularExpression A} {w : List A}
    (hc : check step h p = some h') (hw : w ∈ p.matches') : follow step h w = some h' := by
  induction p generalizing h h' w with
  | zero => cases hc
  | epsilon =>
    obtain rfl : w = [] := hw
    exact hc
  | char a =>
    obtain rfl : w = [a] := hw
    show (step h a).bind some = some h'
    rw [Option.bind_fun_some]
    exact hc
  | plus p q ihp ihq =>
    simp only [check] at hc
    split at hc
    · next h₁ h₂ h1 h2 =>
      split at hc
      · next heq =>
        cases hc
        rcases hw with hw | hw
        · exact ihp h1 hw
        · exact ihq (heq ▸ h2) hw
      · cases hc
    · cases hc
  | comp p q ihp ihq =>
    obtain ⟨h₁, h1, h2⟩ := Option.bind_eq_some_iff.mp hc
    obtain ⟨u, hu, v, hv, rfl⟩ := Language.mem_mul.mp hw
    rw [follow_append, ihp h1 hu]
    exact ihq h2 hv
  | star p ih =>
    simp only [check] at hc
    split at hc
    · next h1 =>
      cases hc
      obtain ⟨ws, rfl, hws⟩ := Language.mem_kstar.mp hw
      exact follow_flatten fun u hu => ih h1 (hws u hu)
    · cases hc

end Flow

/-! ## Cycles of waiting parties -/

section Cycle

variable {C L : Type*} {holds : C → L → Prop} {wants : C → L → Prop}

/-- `c` waits for a lock that `c'` holds. -/
def WaitsFor (holds wants : C → L → Prop) (c c' : C) : Prop := ∃ l, wants c l ∧ holds c' l

/-- If every party asks only for locks above those it holds, no party waits,
    however indirectly, for itself. -/
theorem no_cycle_of_rank (rank : L → Nat)
    (horder : ∀ c l l', wants c l → holds c l' → rank l' < rank l) (c : C) :
    ¬ Relation.TransGen (WaitsFor holds wants) c c := by
  -- a chain of waits from `c` to `c'` ends at a lock of `c'`; its rank is at
  -- least that of any lock `c` asks for
  have hchain : ∀ c', Relation.TransGen (WaitsFor holds wants) c c' →
      ∃ l l', wants c l ∧ holds c' l' ∧ rank l ≤ rank l' := by
    intro c' h
    induction h with
    | single h =>
      obtain ⟨l, hw, hh⟩ := h
      exact ⟨l, l, hw, hh, le_refl _⟩
    | tail _ h ih =>
      obtain ⟨l, l', hw, hh, hle⟩ := ih
      obtain ⟨l'', hw', hh'⟩ := h
      exact ⟨l, l'', hw, hh', le_trans hle (le_of_lt (horder _ _ _ hw' hh))⟩
  intro hcyc
  obtain ⟨l, l', hw, hh, hle⟩ := hchain c hcyc
  have := horder c l l' hw hh
  omega

end Cycle

end LockFlow
