import Mathlib.Data.List.Basic
import Mathlib.Data.List.Nodup
import Mathlib.Logic.Function.Basic

/-! # Circular singly linked lists

    Nodes of any type with one `next` pointer each. `Leads` says which nodes the pointers spell from
    one node up to another; a circular list leads from a node back to it, and can be entered
    anywhere.
-/

universe u

namespace Cycle

variable {α : Type u}

/-! ## Stretches -/

/-- From `p` on, the nodes are `l`, and then comes `y`. -/
def Leads (next : α → α) : α → List α → α → Prop
  | p, [], y => p = y
  | p, x :: l, y => p = x ∧ Leads next (next x) l y

variable {next next' : α → α} {p w x y z : α} {l l1 l2 : List α}

theorem leads_append : Leads next p (l1 ++ l2) y ↔ ∃ z, Leads next p l1 z ∧ Leads next z l2 y := by
  induction l1 generalizing p with
  | nil => simp [Leads]
  | cons x l1 ih => simp [Leads, ih, and_assoc]

theorem Leads.congr (h : Leads next p l y) (heq : ∀ x ∈ l, next' x = next x) :
    Leads next' p l y := by
  induction l generalizing p with
  | nil => exact h
  | cons x l ih =>
    refine ⟨h.1, ?_⟩
    rw [heq x List.mem_cons_self]
    exact ih h.2 fun z hz => heq z (List.mem_cons_of_mem _ hz)

theorem Leads.next_eq (h : Leads next p (l1 ++ x :: l2) y) : Leads next (next x) l2 y := by
  obtain ⟨z, -, h2⟩ := leads_append.mp h
  exact h2.2

/-- The last pointer now leads to `w`. -/
theorem Leads.retarget [DecidableEq α] (h : Leads next p (l ++ [x]) y) (hnd : (l ++ [x]).Nodup)
    (w : α) : Leads (Function.update next x w) p (l ++ [x]) w := by
  obtain ⟨z, h1, hx, -⟩ := leads_append.mp h
  refine leads_append.mpr ⟨z, h1.congr fun u hu => ?_, hx, ?_⟩
  · refine Function.update_of_ne ?_ _ _
    rintro rfl
    exact List.disjoint_of_nodup_append hnd hu List.mem_cons_self
  · exact Function.update_self _ _ _

/-! ## Going round -/

/-- A circular list can be entered at each of its nodes. -/
theorem Leads.rotate (h : Leads next x (l1 ++ p :: l2) x) : Leads next p (p :: l2 ++ l1) p := by
  obtain ⟨z, h1, hz, h2⟩ := leads_append.mp h
  subst hz
  exact leads_append.mpr ⟨x, ⟨rfl, h2⟩, h1⟩

/-- The loop that follows `next` until `q` holds. -/
def scan (next : α → α) (q : α → Bool) : Nat → α → Option α
  | 0, _ => none
  | n + 1, p => if q p then some p else scan next q n (next p)

theorem Leads.scan {q : α → Bool} (h : Leads next p l y) (hex : ∃ x ∈ l, q x = true) {n : Nat}
    (hn : l.length ≤ n) : ∃ x ∈ l, scan next q n p = some x ∧ q x = true := by
  induction l generalizing p n with
  | nil =>
    obtain ⟨x, hx, -⟩ := hex
    cases hx
  | cons x l ih =>
    obtain ⟨n, rfl⟩ := Nat.exists_eq_add_of_le' (Nat.lt_of_lt_of_le (Nat.succ_pos _) hn)
    obtain ⟨rfl, h⟩ := h
    rw [Cycle.scan]
    cases hq : q p with
    | true => exact ⟨p, List.mem_cons_self, rfl, hq⟩
    | false =>
      have hex' : ∃ x ∈ l, q x = true := by
        obtain ⟨z, hz, hqz⟩ := hex
        rcases List.mem_cons.mp hz with rfl | hz
        · rw [hq] at hqz
          cases hqz
        · exact ⟨z, hz, hqz⟩
      obtain ⟨z, hz, hs, hqz⟩ := ih h hex' (Nat.le_of_succ_le_succ hn)
      exact ⟨z, List.mem_cons_of_mem _ hz, hs, hqz⟩

end Cycle
