import Mathlib.Data.List.TakeWhile
import Xv6.Framework.Bytes
import Xv6.Param

/-! # Names

    A name is an array of `DIRSIZ` bytes that ends at its first zero byte, if it has one. `strncpy`
    stores names, `strncmp` compares them and `skipelem` takes them out of a path; all three agree
    on the string that an array holds.
-/

namespace Xv6.Fs

open ByteMem Function List

/-- `DIRSIZ`. -/
abbrev DIRSIZ : Nat := 14

/-! ## Strings in arrays -/

/-- The string from place `i` of `m` on, cut off after `n` bytes. -/
def cstr (m : Mem) : Nat → Nat → List UInt8
  | 0, _ => []
  | n + 1, i => if m i = 0 then [] else m i :: cstr m n (i + 1)

/-- `strncmp` from place `i` of both arrays on. -/
def strncmp (p q : Mem) : Nat → Nat → Int
  | 0, _ => 0
  | n + 1, i =>
      if p i ≠ 0 ∧ p i = q i then strncmp p q n (i + 1)
      else ((p i).toNat : Int) - ((q i).toNat : Int)

/-- `strncpy` from place `i` of both arrays on: after the terminator the rest is
    filled with zeros. -/
def strncpy (s t : Mem) : Nat → Nat → Mem
  | 0, _ => s
  | n + 1, i =>
      if t i ≠ 0 then strncpy (update s i (t i)) t n (i + 1)
      else fill (update s i (t i)) (i + 1) n 0

section Strings

variable {m m' s t p q : Mem} {n i x : Nat}

theorem cstr_congr (h : ∀ x, i ≤ x → x < i + n → m x = m' x) : cstr m n i = cstr m' n i := by
  induction n generalizing i with
  | zero => rfl
  | succ n ih =>
    rw [cstr, cstr, h i (by omega) (by omega), ih fun x h1 h2 => h x (by omega) (by omega)]

theorem length_cstr_le (m : Mem) (n i : Nat) : (cstr m n i).length ≤ n := by
  induction n generalizing i with
  | zero => exact le_rfl
  | succ n ih =>
    rw [cstr]
    split
    · exact Nat.zero_le _
    · exact Nat.succ_le_succ (ih (i + 1))

/-- `strncmp` is 0 exactly for equal strings. -/
theorem strncmp_eq_zero : strncmp p q n i = 0 ↔ cstr p n i = cstr q n i := by
  induction n generalizing i with
  | zero => exact iff_of_true rfl rfl
  | succ n ih =>
    rw [strncmp, cstr, cstr]
    by_cases h : p i ≠ 0 ∧ p i = q i
    · rw [if_pos h, if_neg h.1, ih, if_neg (h.2 ▸ h.1), h.2]
      simp
    · rw [if_neg h]
      by_cases he : p i = q i
      · -- both strings end here
        have hz : p i = 0 := by
          by_contra hz
          exact h ⟨hz, he⟩
        rw [if_pos hz, if_pos (he ▸ hz), he]
        simp
      · have hne : ((p i).toNat : Int) - ((q i).toNat : Int) ≠ 0 := by
          intro hc
          exact he (UInt8.toNat_inj.mp (by omega))
        refine iff_of_false hne ?_
        by_cases hp : p i = 0
        · rw [if_pos hp, if_neg fun hq => he (hp.trans hq.symm)]
          simp
        · rw [if_neg hp]
          split
          · simp
          · simp [he]

theorem strncpy_outside (h : x < i ∨ i + n ≤ x) : strncpy s t n i x = s x := by
  induction n generalizing s i with
  | zero => rfl
  | succ n ih =>
    have hx : x ≠ i := by omega
    rw [strncpy]
    split
    · rw [ih (by omega), update_of_ne hx]
    · rw [fill, if_neg (by omega), update_of_ne hx]

/-- The copy holds the string that the source holds. -/
theorem cstr_strncpy : cstr (strncpy s t n i) n i = cstr t n i := by
  induction n generalizing s i with
  | zero => rfl
  | succ n ih =>
    rw [cstr, cstr]
    by_cases h : t i ≠ 0
    · have hi : strncpy s t (n + 1) i = strncpy (update s i (t i)) t n (i + 1) :=
        if_pos h
      rw [hi, strncpy_outside (by omega), update_self, if_neg h, if_neg h, ih]
    · have hi : strncpy s t (n + 1) i i = t i := by
        rw [strncpy, if_neg h, fill, if_neg (by omega), update_self]
      rw [hi, if_pos (not_not.mp h), if_pos (not_not.mp h)]

end Strings

/-! ## Names -/

/-- The string in an array of `DIRSIZ` bytes. -/
def nameOf (m : Mem) : List UInt8 := cstr m DIRSIZ 0

def namecmp (s t : Mem) : Int := strncmp s t DIRSIZ 0

theorem namecmp_eq_zero {s t : Mem} : namecmp s t = 0 ↔ nameOf s = nameOf t := strncmp_eq_zero

/-- `'/'`. -/
abbrev SLASH : UInt8 := 47

/-- The bytes `l` are stored from place 0 on. -/
def storeList (m : Mem) (l : List UInt8) : Mem :=
  fun x => if h : x < l.length then l.get ⟨x, h⟩ else m x

/-- `skipelem` on a path without its terminator: the rest of the path and the array `name`. -/
def skipelem (path : List UInt8) (name : Mem) : Option (List UInt8 × Mem) :=
  let path := path.dropWhile (· = SLASH)
  if path = [] then none
  else
    let s := path.takeWhile (· ≠ SLASH)
    let path := path.dropWhile (· ≠ SLASH)
    let name := if s.length ≥ DIRSIZ then storeList name (s.take DIRSIZ)
      else update (storeList name s) s.length 0
    some (path.dropWhile (· = SLASH), name)

section Names

variable {l : List UInt8} {m name : Mem}

theorem cstr_storeList (hl : ∀ x ∈ l, x ≠ 0) (n : Nat) :
    ∀ i, i + n ≤ l.length → cstr (storeList m l) n i = (l.drop i).take n := by
  induction n with
  | zero => intro i _; rw [cstr, take_zero]
  | succ n ih =>
    intro i hi
    have hlt : i < l.length := by omega
    have hget : storeList m l i = l.get ⟨i, hlt⟩ := dif_pos hlt
    rw [cstr, hget, if_neg (hl _ (l.get_mem _)), ih (i + 1) (by omega),
      drop_eq_getElem_cons hlt, take_succ_cons]
    rfl

/-- A name shorter than the array is followed by a zero byte. -/
theorem cstr_terminated (hl : ∀ x ∈ l, x ≠ 0) (n : Nat) :
    ∀ i, i ≤ l.length → l.length < i + n →
      cstr (update (storeList m l) l.length 0) n i = l.drop i := by
  induction n with
  | zero => intro i h1 h2; omega
  | succ n ih =>
    intro i h1 h2
    rw [cstr]
    by_cases hi : i = l.length
    · rw [hi, update_self, if_pos rfl, drop_length]
    · have hlt : i < l.length := by omega
      have hget : storeList m l i = l.get ⟨i, hlt⟩ := dif_pos hlt
      rw [update_of_ne hi, hget, if_neg (hl _ (l.get_mem _)), ih (i + 1) (by omega) (by omega),
        drop_eq_getElem_cons hlt]
      rfl

/-- The name that `skipelem` delivers is the path element, cut off after `DIRSIZ` bytes. -/
theorem nameOf_elem (hl : ∀ x ∈ l, x ≠ 0) :
    nameOf (if l.length ≥ DIRSIZ then storeList name (l.take DIRSIZ)
      else update (storeList name l) l.length 0) = l.take DIRSIZ := by
  unfold nameOf
  by_cases hlen : l.length ≥ DIRSIZ
  · have hcut : (l.take DIRSIZ).length = DIRSIZ := by
      rw [length_take]
      omega
    rw [if_pos hlen, cstr_storeList (fun x hx => hl x (mem_of_mem_take hx)) _ 0 (by omega),
      drop_zero, take_take, Nat.min_self]
  · rw [if_neg hlen, cstr_terminated hl _ 0 (by omega) (by omega), drop_zero,
      take_of_length_le (by omega)]

/-- After its slashes a path has an element, up to the end or the next slash. -/
theorem skipelem_spec {path rest : List UInt8} {name' : Mem}
    (h : skipelem path name = some (rest, name')) :
    ∃ s tl, path.dropWhile (· = SLASH) = s ++ tl ∧ s ≠ [] ∧ (∀ x ∈ s, x ≠ SLASH) ∧
      (tl = [] ∨ ∃ r, tl = SLASH :: r) ∧ rest = tl.dropWhile (· = SLASH) ∧
      ((∀ x ∈ s, x ≠ 0) → nameOf name' = s.take DIRSIZ) := by
  unfold skipelem at h
  dsimp only at h
  by_cases hnil : path.dropWhile (· = SLASH) = []
  · rw [if_pos hnil] at h
    cases h
  rw [if_neg hnil] at h
  cases h
  have hhead := head_dropWhile_not (· = SLASH) hnil
  generalize path.dropWhile (· = SLASH) = p at hnil hhead
  refine ⟨p.takeWhile (· ≠ SLASH), p.dropWhile (· ≠ SLASH), takeWhile_append_dropWhile.symm, ?_,
    fun x hx => by simpa using mem_takeWhile_imp hx, ?_, rfl, nameOf_elem⟩
  · obtain ⟨a, as, rfl⟩ := exists_cons_of_ne_nil hnil
    have ha : a ≠ SLASH := of_decide_eq_false hhead
    rw [takeWhile_cons, if_pos (decide_eq_true ha)]
    simp
  · by_cases hend : p.dropWhile (· ≠ SLASH) = []
    · exact .inl hend
    · have hslash := head_dropWhile_not (· ≠ SLASH) hend
      obtain ⟨a, r, har⟩ := exists_cons_of_ne_nil hend
      simp only [har, head_cons] at hslash
      obtain rfl : a = SLASH := by simpa using hslash
      exact .inr ⟨r, har⟩

end Names

end Xv6.Fs
