import Mathlib.Data.Nat.ModEq
import Mathlib.Logic.Function.Basic

/-! # Ring buffers whose counters wrap

    A ring buffer has `N` cells and counts the elements read and written modulo `M`, where `N`
    divides `M`. The cell of an element is its number modulo `N`, so the wrap of a counter does not
    move any element.
-/

/-- The cells and the two counters. -/
structure RingBuffer (α : Type) where
  data   : Nat → α
  nread  : Nat
  nwrite : Nat

namespace RingBuffer

open List

variable {α : Type} {N M a k : Nat} {r : RingBuffer α}

/-- How many elements are in the buffer. -/
def count (M : Nat) (r : RingBuffer α) : Nat := (r.nwrite + M - r.nread) % M

/-- The elements in the buffer, oldest first. -/
def contents (N M : Nat) (r : RingBuffer α) : List α :=
  (List.range (r.count M)).map fun j => r.data ((r.nread + j) % N)

/-- The oldest element, if there is one. -/
def head (N : Nat) (r : RingBuffer α) : α := r.data (r.nread % N)

def push (N M : Nat) (r : RingBuffer α) (a : α) : RingBuffer α where
  data := Function.update r.data (r.nwrite % N) a
  nread := r.nread
  nwrite := (r.nwrite + 1) % M

def pop (M : Nat) (r : RingBuffer α) : RingBuffer α where
  data := r.data
  nread := (r.nread + 1) % M
  nwrite := r.nwrite

/-- Take back the element written last. -/
def unpush (M : Nat) (r : RingBuffer α) : RingBuffer α where
  data := r.data
  nread := r.nread
  nwrite := (r.nwrite + M - 1) % M

/-- The element written last, if there is one. -/
def last (N M : Nat) (r : RingBuffer α) : α := r.data ((r.nwrite + M - 1) % M % N)

/-- The counters are in range and at most `N` apart. -/
structure Ok (N M : Nat) (r : RingBuffer α) : Prop where
  nread  : r.nread < M
  nwrite : r.nwrite < M
  count  : r.count M ≤ N

@[simp] theorem length_contents : (r.contents N M).length = r.count M := by
  simp [contents]

theorem count_eq (h : r.Ok N M) :
    r.count M = if r.nread ≤ r.nwrite then r.nwrite - r.nread else r.nwrite + M - r.nread := by
  have h1 := h.nread
  have h2 := h.nwrite
  unfold count
  split
  · rw [show r.nwrite + M - r.nread = r.nwrite - r.nread + M by omega, Nat.add_mod_right,
      Nat.mod_eq_of_lt (by omega)]
  · exact Nat.mod_eq_of_lt (by omega)

/-- The next element to be written has the number `nread + count`. -/
theorem nwrite_modEq (h : r.Ok N M) : r.nwrite ≡ r.nread + r.count M [MOD M] := by
  have h1 := h.nread
  have h2 := h.nwrite
  rw [count_eq h]
  split
  · rw [Nat.add_sub_cancel' (by assumption)]
  · rw [show r.nread + (r.nwrite + M - r.nread) = r.nwrite + M by omega]
    exact (Nat.add_modEq_right).symm

theorem empty_iff (h : r.Ok N M) : r.nread = r.nwrite ↔ r.count M = 0 := by
  have h1 := h.nread
  have h2 := h.nwrite
  rw [count_eq h]
  split <;> omega

theorem full_iff (hlt : N < M) (h : r.Ok N M) : r.nwrite = (r.nread + N) % M ↔ r.count M = N := by
  have h1 := h.nread
  have h2 := h.nwrite
  rw [count_eq h]
  by_cases hw : r.nread + N < M
  · rw [Nat.mod_eq_of_lt hw]
    split <;> omega
  · rw [show r.nread + N = r.nread + N - M + M by omega, Nat.add_mod_right,
      Nat.mod_eq_of_lt (by omega)]
    split <;> omega

/-- A counter may be taken modulo `M` before the difference is. -/
theorem count_mod {b : Nat} (hb : b < M) : (a % M + M - b) % M = (a + M - b) % M := by
  rw [Nat.add_sub_assoc hb.le, Nat.add_sub_assoc hb.le, Nat.mod_add_mod]

theorem count_push (hlt : N < M) (h : r.Ok N M) (hfull : r.count M ≠ N) (a : α) :
    (r.push N M a).count M = r.count M + 1 := by
  have h1 := h.nread
  have hle := h.count
  calc (r.push N M a).count M = (r.nwrite + 1 + M - r.nread) % M := count_mod h1
    _ = (r.nwrite + M - r.nread + 1) % M := by rw [show r.nwrite + 1 + M - r.nread =
          r.nwrite + M - r.nread + 1 by omega]
    _ = (r.count M + 1) % M := (Nat.mod_add_mod _ _ _).symm
    _ = r.count M + 1 := Nat.mod_eq_of_lt (by omega)

theorem count_pop (h : r.Ok N M) (hne : r.count M ≠ 0) : (r.pop M).count M = r.count M - 1 := by
  have h1 := h.nread
  have h2 := h.nwrite
  rw [count_eq h] at hne ⊢
  show (r.nwrite + M - (r.nread + 1) % M) % M = _
  by_cases hw : r.nread + 1 < M
  · rw [Nat.mod_eq_of_lt hw]
    split at hne
    · rw [if_pos (by assumption), show r.nwrite + M - (r.nread + 1) =
        r.nwrite - r.nread - 1 + M by omega,
        Nat.add_mod_right, Nat.mod_eq_of_lt (by omega)]
    · rw [if_neg (by assumption), Nat.mod_eq_of_lt (by omega)]
      omega
  · rw [show r.nread + 1 = M by omega, Nat.mod_self, Nat.sub_zero, Nat.add_mod_right,
      Nat.mod_eq_of_lt h2]
    split at hne
    · rw [if_pos (by assumption)]
      omega
    · rw [if_neg (by assumption)]
      omega

theorem Ok.push (hlt : N < M) (h : r.Ok N M) (hfull : r.count M ≠ N) (a : α) :
    (r.push N M a).Ok N M where
  nread := h.nread
  nwrite := Nat.mod_lt _ (by omega)
  count := by
    have := h.count
    rw [count_push hlt h hfull]
    omega

theorem Ok.pop (hlt : N < M) (h : r.Ok N M) (hne : r.count M ≠ 0) : (r.pop M).Ok N M where
  nread := Nat.mod_lt _ (by omega)
  nwrite := h.nwrite
  count := by
    have := h.count
    rw [count_pop h hne]
    omega

theorem contents_push (hlt : N < M) (hdvd : N ∣ M) (h : r.Ok N M) (hfull : r.count M ≠ N) (a : α) :
    (r.push N M a).contents N M = r.contents N M ++ [a] := by
  have hle := h.count
  have hcell : r.nwrite % N = (r.nread + r.count M) % N := (nwrite_modEq h).of_dvd hdvd
  unfold contents
  rw [count_push hlt h hfull, range_succ, map_append]
  congr 1
  · refine map_congr_left fun j hj => ?_
    have hj := mem_range.mp hj
    refine Function.update_of_ne ?_ _ _
    -- less than `N` elements lie between the two cells
    intro heq
    have hmod : r.nread + j ≡ r.nread + r.count M [MOD N] := heq.trans hcell
    have := Nat.ModEq.add_left_cancel' r.nread hmod
    rw [Nat.ModEq, Nat.mod_eq_of_lt (by omega), Nat.mod_eq_of_lt (by omega)] at this
    omega
  · show [Function.update r.data (r.nwrite % N) a ((r.nread + r.count M) % N)] = [a]
    rw [← hcell, Function.update_self]

theorem contents_pop (hdvd : N ∣ M) (h : r.Ok N M) (hne : r.count M ≠ 0) :
    r.contents N M = r.head N :: (r.pop M).contents N M := by
  unfold contents
  rw [count_pop h hne]
  obtain ⟨c, hc⟩ := Nat.exists_eq_succ_of_ne_zero hne
  rw [hc, range_succ_eq_map, map_cons, map_map, Nat.succ_sub_one]
  congr 1
  refine map_congr_left fun j _ => ?_
  show r.data ((r.nread + (j + 1)) % N) = r.data (((r.nread + 1) % M + j) % N)
  congr 1
  have : (r.nread + 1) % M ≡ r.nread + 1 [MOD N] := (Nat.mod_modEq _ _).of_dvd hdvd
  rw [show r.nread + (j + 1) = r.nread + 1 + j by omega]
  exact (this.add_right j).symm

/-- What was written last is the last element. -/
theorem contents_unpush (hlt : N < M) (hdvd : N ∣ M) (h : r.Ok N M) (hne : r.count M ≠ 0) :
    (r.unpush M).Ok N M ∧ r.contents N M = (r.unpush M).contents N M ++ [r.last N M] := by
  have h1 := h.nread
  have h2 := h.nwrite
  have h3 := h.count
  -- the number of the last element
  have hmod : (r.nwrite + M - 1) % M ≡ r.nread + (r.count M - 1) [MOD M] := by
    have hw := nwrite_modEq h
    refine (Nat.mod_modEq _ _).trans ?_
    refine Nat.ModEq.add_right_cancel' 1 ?_
    rw [show r.nwrite + M - 1 + 1 = r.nwrite + M by omega,
      show r.nread + (r.count M - 1) + 1 = r.nread + r.count M by omega]
    exact (Nat.add_modEq_right).trans hw
  have hcount : (r.unpush M).count M = r.count M - 1 := by
    show ((r.nwrite + M - 1) % M + M - r.nread) % M = _
    have hlast : (r.nwrite + M - 1) % M = (r.nread + (r.count M - 1)) % M := by
      rw [hmod.symm, Nat.mod_mod]
    rw [hlast, count_mod h1, show r.nread + (r.count M - 1) + M - r.nread =
      r.count M - 1 + M by omega, Nat.add_mod_right, Nat.mod_eq_of_lt (by omega)]
  refine ⟨⟨h1, Nat.mod_lt _ (by omega), by rw [hcount]; omega⟩, ?_⟩
  obtain ⟨c, hc⟩ := Nat.exists_eq_succ_of_ne_zero hne
  unfold contents
  rw [hcount, hc, range_succ, map_append, Nat.succ_sub_one]
  congr 1
  show [r.data ((r.nread + c) % N)] = [r.data ((r.nwrite + M - 1) % M % N)]
  rw [hmod.of_dvd hdvd, hc]
  rfl

/-- The number of elements from `a` on when the next number is `a + k`. -/
theorem count_add {d : Nat → α} (ha : a < M) (hk : k < M) :
    (⟨d, a, (a + k) % M⟩ : RingBuffer α).count M = k := by
  show ((a + k) % M + M - a) % M = k
  rw [count_mod ha, show a + k + M - a = k + M by omega, Nat.add_mod_right, Nat.mod_eq_of_lt hk]

/-- A third counter between the two cuts the contents. -/
theorem contents_split (hlt : N < M) (hdvd : N ∣ M) (h : r.Ok N M) (hk : k ≤ r.count M) :
    r.contents N M =
      (⟨r.data, r.nread, (r.nread + k) % M⟩ : RingBuffer α).contents N M ++
      (⟨r.data, (r.nread + k) % M, r.nwrite⟩ : RingBuffer α).contents N M := by
  have h1 := h.nread
  have h3 := h.count
  obtain ⟨m, hm⟩ := Nat.exists_eq_add_of_le hk
  have hcut : (r.nread + k) % M < M := Nat.mod_lt _ (by omega)
  have hw : r.nwrite = ((r.nread + k) % M + m) % M := by
    rw [Nat.mod_add_mod, add_assoc, ← hm, ← (nwrite_modEq h), Nat.mod_eq_of_lt h.nwrite]
  have hfirst := count_add (α := α) (d := r.data) h1 (show k < M by omega)
  have hsecond := count_add (α := α) (d := r.data) hcut (show m < M by omega)
  rw [← hw] at hsecond
  unfold contents
  rw [hfirst, hsecond, hm, range_add, map_append, map_map]
  congr 1
  refine map_congr_left fun j _ => ?_
  show r.data ((r.nread + (k + j)) % N) = r.data (((r.nread + k) % M + j) % N)
  have hmod : (r.nread + k) % M ≡ r.nread + k [MOD N] := (Nat.mod_modEq _ _).of_dvd hdvd
  rw [← add_assoc, (hmod.add_right j)]

end RingBuffer
