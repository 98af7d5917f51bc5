import Mathlib.Logic.Function.Basic
import Mathlib.Data.List.Basic

/-! # Circular doubly linked lists

    Nodes of any type with a `next` and a `prev` pointer each, and a list of them through a fixed
    head. `Ring` says which list the pointers spell; the two updates below change it as their names
    say, and a loop over the nodes that stops at the head is a `List.find?`.
-/

universe u

structure Links (α : Type u) where
  next : α → α
  prev : α → α

namespace Links

open Function List

variable {α : Type u}

/-! ## Segments -/

/-- `y` follows `x`, in both directions. -/
def Joined (L : Links α) (x y : α) : Prop := L.next x = y ∧ L.prev y = x

/-- From `x` through `l` to `y`. -/
def Segment (L : Links α) (x : α) : List α → α → Prop
  | [], y => L.Joined x y
  | b :: l, y => L.Joined x b ∧ L.Segment b l y

/-- The pointers the other way round. -/
def flip (L : Links α) : Links α := ⟨L.prev, L.next⟩

variable {L L' : Links α} {x y b h : α} {l l1 l2 : List α}

theorem segment_append : L.Segment x (l1 ++ b :: l2) y ↔ L.Segment x l1 b ∧ L.Segment b l2 y := by
  induction l1 generalizing x with
  | nil => simp [Segment]
  | cons c l1 ih => simp [Segment, ih, and_assoc]

/-- A segment looks at the `next` of its first nodes and the `prev` of its last ones. -/
theorem Segment.congr (hs : L.Segment x l y) (hnext : ∀ u ∈ x :: l, L'.next u = L.next u)
    (hprev : ∀ v ∈ l ++ [y], L'.prev v = L.prev v) : L'.Segment x l y := by
  induction l generalizing x with
  | nil =>
    exact ⟨(hnext x (by simp)).trans hs.1, (hprev y (by simp)).trans hs.2⟩
  | cons c l ih =>
    refine ⟨⟨(hnext x (by simp)).trans hs.1.1, (hprev c (by simp)).trans hs.1.2⟩, ih hs.2 ?_ ?_⟩
    · intro u hu
      exact hnext u (mem_cons_of_mem _ hu)
    · intro v hv
      exact hprev v (mem_cons_of_mem _ hv)

theorem Segment.prev_mem (hs : L.Segment x l y) : L.prev y ∈ x :: l := by
  induction l generalizing x with
  | nil => simp [hs.2]
  | cons c l ih => exact mem_cons_of_mem _ (ih hs.2)

theorem Segment.flip (hs : L.Segment x l y) : L.flip.Segment y l.reverse x := by
  induction l generalizing x with
  | nil => exact ⟨hs.2, hs.1⟩
  | cons c l ih =>
    rw [reverse_cons, segment_append]
    exact ⟨ih hs.2, hs.1.2, hs.1.1⟩

/-! ## Rings -/

/-- The pointers spell the list `l` through the head `h`, in both directions. -/
structure Ring (L : Links α) (h : α) (l : List α) : Prop where
  nodup   : (h :: l).Nodup
  segment : L.Segment h l h

/-- The loop from `b` on that follows `f` until it is back at `h`, and returns
    the first node with `q`. -/
def scan [DecidableEq α] (f : α → α) (h : α) (q : α → Bool) : Nat → α → Option α
  | 0, _ => none
  | n + 1, b => if b = h then none else if q b then some b else scan f h q n (f b)

section

variable [DecidableEq α] {n : Nat}

theorem Segment.scan (hs : L.Segment x l h) (hh : h ∉ l) (q : α → Bool) (hn : l.length < n) :
    Links.scan L.next h q n (L.next x) = l.find? q := by
  induction l generalizing x n with
  | nil =>
    obtain ⟨n, rfl⟩ := Nat.exists_eq_add_of_lt hn
    simp [Links.scan, hs.1]
  | cons c l ih =>
    obtain ⟨m, rfl⟩ : ∃ m, n = m + 1 := ⟨n - 1, by simp at hn; omega⟩
    have hc : c ≠ h := fun hc => hh (by simp [hc])
    rw [hs.1.1, Links.scan, if_neg hc, find?_cons]
    cases q c with
    | true => rfl
    | false => exact ih hs.2 (fun hm => hh (mem_cons_of_mem _ hm)) (by simpa using hn)

theorem Ring.scan_next (hr : L.Ring h l) (q : α → Bool) (hn : l.length < n) :
    scan L.next h q n (L.next h) = l.find? q :=
  hr.segment.scan (nodup_cons.mp hr.nodup).1 q hn

theorem Ring.scan_prev (hr : L.Ring h l) (q : α → Bool) (hn : l.length < n) :
    scan L.prev h q n (L.prev h) = l.reverse.find? q :=
  hr.segment.flip.scan (by simpa using (nodup_cons.mp hr.nodup).1) q (by simpa using hn)

/-! ## Updates -/

/-- Take `b` out: `b->next->prev = b->prev`, `b->prev->next = b->next`. -/
def unlink (L : Links α) (b : α) : Links α where
  next := update L.next (L.prev b) (L.next b)
  prev := update L.prev (L.next b) (L.prev b)

/-- Put `b` behind `h`: `b->next = h->next`, `b->prev = h`, `h->next->prev = b`, `h->next = b`. -/
def pushFront (L : Links α) (h b : α) : Links α :=
  let L := { L with next := update L.next b (L.next h) }
  let L := { L with prev := update L.prev b h }
  let L := { L with prev := update L.prev (L.next h) b }
  { L with next := update L.next h b }

/-- The head alone. -/
def single (h : α) : Links α := ⟨fun _ => h, fun _ => h⟩

omit [DecidableEq α] in
theorem ring_single (h : α) : (single h).Ring h [] := ⟨by simp, rfl, rfl⟩

/-- The segment that ended in `b` now ends in `y`. -/
theorem Segment.relink (hs : L.Segment x l b) (hy : y ∉ l) (hnd : (x :: l).Nodup) :
    Segment ⟨update L.next (L.prev b) y, update L.prev y (L.prev b)⟩ x l y := by
  induction l generalizing x with
  | nil => simp [Segment, Joined, hs.2]
  | cons c l ih =>
    -- the node that points to `b` comes later
    have hlast : x ≠ L.prev b := by
      intro he
      exact (nodup_cons.mp hnd).1 (he ▸ hs.2.prev_mem)
    have hc : c ≠ y := fun he => hy (by simp [he])
    refine ⟨⟨?_, ?_⟩, ih hs.2 (fun hm => hy (mem_cons_of_mem _ hm)) hnd.of_cons⟩
    · simpa [update_of_ne hlast] using hs.1.1
    · simpa [update_of_ne hc] using hs.1.2

theorem Ring.unlink (hr : L.Ring h (l1 ++ b :: l2)) : (L.unlink b).Ring h (l1 ++ l2) := by
  have hnd := hr.nodup
  obtain ⟨h1, h2⟩ := segment_append.mp hr.segment
  have hsub : (h :: (l1 ++ l2)).Sublist (h :: (l1 ++ b :: l2)) := by simp
  refine ⟨hnd.sublist hsub, ?_⟩
  have hnd1 : (h :: l1).Nodup := hnd.sublist (by simp)
  cases l2 with
  | nil =>
    -- `b` was the last node
    have hb : L.next b = h := h2.1
    rw [append_nil, Links.unlink, hb]
    exact h1.relink (nodup_cons.mp hnd1).1 hnd1
  | cons y l2 =>
    have hb : L.next b = y := h2.1.1
    have hmem := h1.prev_mem
    rw [segment_append, Links.unlink, hb]
    have hdis : ∀ u ∈ y :: l2, u ∉ h :: l1 := by
      intro u hu hu'
      grind
    refine ⟨h1.relink (fun hm => hdis y (by simp) (mem_cons_of_mem _ hm)) hnd1, h2.2.congr ?_ ?_⟩
    · intro u hu
      exact update_of_ne (fun he : u = L.prev b => hdis u hu (he ▸ hmem)) _ _
    · intro v hv
      refine update_of_ne (fun he => ?_) _ _
      grind

theorem Ring.pushFront (hr : L.Ring h l) (hb : b ∉ h :: l) : (L.pushFront h b).Ring h (b :: l) := by
  obtain ⟨hbh, hbl⟩ : b ≠ h ∧ b ∉ l := by simpa using hb
  refine ⟨by have := hr.nodup; grind, ?_⟩
  cases l with
  | nil =>
    have hh := hr.segment
    refine ⟨⟨?_, ?_⟩, ?_, ?_⟩ <;> simp [Links.pushFront, hbh, hbh.symm, hh.1]
  | cons c l =>
    obtain ⟨hc, hs⟩ := hr.segment
    have hnd := hr.nodup
    have hbc : b ≠ c := by grind
    have hch : c ≠ h := by grind
    refine ⟨⟨?_, ?_⟩, ⟨?_, ?_⟩, hs.congr ?_ ?_⟩
    · simp [Links.pushFront]
    · simp [Links.pushFront, hbc, hbh.symm, hc.1]
    · simp [Links.pushFront, hbh, hc.1]
    · simp [Links.pushFront, hbh.symm, hc.1]
    · intro u hu
      have hub : u ≠ b := by grind
      have huh : u ≠ h := by grind
      simp [Links.pushFront, hub, huh]
    · intro v hv
      have hvc : v ≠ c := by grind
      have hvb : v ≠ b := by grind
      simp [Links.pushFront, hbh.symm, hc.1, hvc, hvb]

theorem Ring.toFront (hr : L.Ring h (l1 ++ b :: l2)) :
    ((L.unlink b).pushFront h b).Ring h (b :: (l1 ++ l2)) := by
  refine hr.unlink.pushFront ?_
  have hnd := hr.nodup
  grind

end

end Links
