import Mathlib.Data.List.Basic
import Mathlib.Logic.Function.Basic

/-! # Lists that end in a null pointer

    Nodes of any type with one `next` pointer each, and a variable that points to the first node. A
    cell is the variable or the `next` of a node, so a pointer to a cell is what C writes `node
    **pp`.
-/

universe u

/-- A list in memory: the variable and the pointers of the nodes. -/
structure Chain (α : Type u) where
  first : Option α
  next  : α → Option α

namespace Chain

open Function

variable {α : Type u} {next : α → Option α} {p : Option α} {l' : List α}

/-- `*pp`, where `none` is the variable and `some x` is the `next` of `x`. -/
def cell (c : Chain α) : Option α → Option α
  | none => c.first
  | some x => c.next x

/-- From the pointer `p` on, the nodes are `l`. -/
def Spells (next : α → Option α) : Option α → List α → Prop
  | p, [] => p = none
  | p, x :: l => p = some x ∧ Spells next (next x) l

/-- The nodes of the list are `l`, and none comes twice. -/
structure Is (c : Chain α) (l : List α) : Prop where
  nodup  : l.Nodup
  spells : Spells c.next c.first l

/-- The loop that moves `pp` to the cell that holds the null pointer. -/
def lastCell (c : Chain α) : Nat → Option α → Option (Option α)
  | 0, _ => none
  | n + 1, pp =>
      match c.cell pp with
      | none => some pp
      | some x => lastCell c n (some x)

/-- The list without its first node. -/
def pop (c : Chain α) : Chain α :=
  match c.first with
  | none => c
  | some x => { c with first := c.next x }

variable {c : Chain α} {l : List α} {b : α}

theorem Is.first_eq (h : c.Is l) : c.first = l.head? := by
  cases l with
  | nil => exact h.spells
  | cons x l => exact h.spells.1

theorem Spells.unique (h : Spells next p l) (h' : Spells next p l') : l = l' := by
  induction l generalizing p l' with
  | nil =>
    cases l' with
    | nil => rfl
    | cons y l' =>
      obtain rfl : p = none := h
      cases h'.1
  | cons x l ih =>
    cases l' with
    | nil =>
      obtain rfl : p = none := h'
      cases h.1
    | cons y l' =>
      cases h.1.symm.trans h'.1
      rw [ih h.2 h'.2]

theorem Is.unique (h : c.Is l) (h' : c.Is l') : l = l' := h.spells.unique h'.spells

theorem Is.pop {x : α} (h : c.Is (x :: l)) : c.pop.Is l := by
  have hpop : c.pop = { c with first := c.next x } := by
    unfold Chain.pop
    rw [h.first_eq]
    rfl
  rw [hpop]
  exact ⟨h.nodup.of_cons, h.spells.2⟩

theorem Spells.congr {next' : α → Option α} (h : Spells next p l) (heq : ∀ x ∈ l, next' x = next x)
    : Spells next' p l := by
  induction l generalizing p with
  | nil => exact h
  | cons x l ih =>
    refine ⟨h.1, ?_⟩
    rw [heq x List.mem_cons_self]
    exact ih h.2 fun y hy => heq y (List.mem_cons_of_mem _ hy)

section Append

variable [DecidableEq α] {n : Nat}

/-- `*pp = p`. -/
def setCell (c : Chain α) (pp p : Option α) : Chain α :=
  match pp with
  | none => { c with first := p }
  | some x => { c with next := update c.next x p }

/-- `b->next = 0`, and then the null pointer at the end becomes `b`. The loop takes at most `n`
    rounds. -/
def append (c : Chain α) (n : Nat) (b : α) : Option (Chain α) :=
  let c := { c with next := update c.next b none }
  (c.lastCell n none).map fun pp => c.setCell pp (some b)

/-- The loop from a cell on, and what the list becomes from this cell on. -/
theorem lastCell_spec (hb : c.next b = none) : ∀ {pp : Option α} {l : List α},
    Spells c.next (c.cell pp) l → (∀ x ∈ pp, x ∉ l ∧ x ≠ b) → l.Nodup → b ∉ l → l.length < n →
    ∃ qq, c.lastCell n pp = some qq ∧ (qq = pp ∨ ∃ x ∈ l, qq = some x) ∧
      Spells (c.setCell qq (some b)).next ((c.setCell qq (some b)).cell pp) (l ++ [b]) := by
  induction n with
  | zero =>
    intro pp l _ _ _ _ hn
    exact absurd hn (Nat.not_lt_zero _)
  | succ n ih =>
    intro pp l hs hpp hnd hbl hn
    rw [lastCell]
    cases l with
    | nil =>
      rw [show c.cell pp = none from hs]
      refine ⟨pp, rfl, .inl rfl, ?_⟩
      cases pp with
      | none => exact ⟨rfl, hb⟩
      | some x =>
        have hxb := (hpp x rfl).2
        show update c.next x (some b) x = some b ∧
          update c.next x (some b) b = none
        rw [update_self, update_of_ne hxb.symm]
        exact ⟨rfl, hb⟩
    | cons y l =>
      rw [hs.1]
      obtain ⟨hyl, hnd⟩ := List.nodup_cons.mp hnd
      obtain ⟨hby, hbl⟩ : b ≠ y ∧ b ∉ l := by simpa using hbl
      have hnext : ∀ x ∈ (some y : Option α), x ∉ l ∧ x ≠ b := by
        intro x hx
        cases hx
        exact ⟨hyl, hby.symm⟩
      obtain ⟨qq, hqq, hmem, hspells⟩ :=
        ih (show Spells c.next (c.cell (some y)) l from hs.2) hnext hnd hbl
        (Nat.lt_of_succ_lt_succ hn)
      -- the cell that changes is behind `pp`
      have hz : ∃ z ∈ y :: l, qq = some z := by
        rcases hmem with rfl | ⟨z, hz, rfl⟩
        · exact ⟨y, List.mem_cons_self, rfl⟩
        · exact ⟨z, List.mem_cons_of_mem _ hz, rfl⟩
      obtain ⟨z, hz, rfl⟩ := hz
      have hcell : (c.setCell (some z) (some b)).cell pp = c.cell pp := by
        cases pp with
        | none => rfl
        | some x =>
          have hxz : x ≠ z := by
            rintro rfl
            exact (hpp x rfl).1 hz
          exact update_of_ne hxz _ _
      refine ⟨some z, hqq, .inr ⟨z, hz, rfl⟩, ?_⟩
      rw [hcell]
      exact ⟨hs.1, hspells⟩

/-- A node that is not in the list is put at its end. -/
theorem Is.append (h : c.Is l) (hb : b ∉ l) (hn : l.length < n) :
    ∃ c', c.append n b = some c' ∧ c'.Is (l ++ [b]) := by
  have hspells : Spells (update c.next b none) c.first l := by
    apply h.spells.congr
    intro x hx
    exact update_of_ne (fun he : x = b => hb (he ▸ hx)) _ _
  obtain ⟨qq, hqq, -, hs⟩ :=
    lastCell_spec (c := { c with next := update c.next b none }) (n := n) (b := b)
      (update_self _ _ _)
      (show Spells _ (Chain.cell { c with next := update c.next b none } none) l from hspells)
      (fun x hx => by cases hx) h.nodup hb hn
  refine ⟨_, by rw [Chain.append, hqq]; rfl, ?_, hs⟩
  refine List.nodup_append.mpr ⟨h.nodup, by simp, fun x hx y hy => ?_⟩
  rw [List.mem_singleton.mp hy]
  exact fun he => hb (he ▸ hx)

end Append

end Chain
