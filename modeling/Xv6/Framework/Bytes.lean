import Mathlib.Logic.Function.Basic
import Mathlib.Data.List.Range
import Mathlib.Tactic.Linarith

/-! # Byte-addressed memory

    A memory is a map from addresses to bytes. Multi-byte values are stored little-endian, `n` bytes
    at a time; `copy` and `fill` are `memmove` and `memset`.
-/

namespace ByteMem

open Function List

abbrev Mem := Nat → UInt8

/-! ## Definitions -/

/-- The little-endian value of the `n` bytes from `a` on. -/
def load (m : Mem) (a : Nat) : Nat → Nat
  | 0 => 0
  | n + 1 => (m a).toNat + 256 * load m (a + 1) n

/-- Store the low `n` bytes of `v` from `a` on. -/
def store (m : Mem) (a : Nat) : Nat → Nat → Mem
  | 0, _ => m
  | n + 1, v => update (store m (a + 1) n (v / 256)) a (UInt8.ofNat v)

/-- Copy `n` bytes from address `src` of `from_` to address `dst`. -/
def copy (m : Mem) (dst : Nat) (from_ : Mem) (src n : Nat) : Mem :=
  fun x => if dst ≤ x ∧ x < dst + n then from_ (src + (x - dst)) else m x

/-- Set `n` bytes from `a` on to `v`. -/
def fill (m : Mem) (a n : Nat) (v : UInt8) : Mem :=
  fun x => if a ≤ x ∧ x < a + n then v else m x

/-! ## Loads and stores -/

variable {m m' f : Mem} {a n v x b k : Nat}

theorem load_lt (m : Mem) (a n : Nat) : load m a n < 256 ^ n := by
  induction n generalizing a with
  | zero => simp [load]
  | succ n ih =>
    have h := ih (a + 1)
    have hb := (m a).toNat_lt
    rw [load, pow_succ]
    omega

/-- A load depends only on the bytes it reads. -/
theorem load_congr (h : ∀ x, a ≤ x → x < a + n → m x = m' x) : load m a n = load m' a n := by
  induction n generalizing a with
  | zero => rfl
  | succ n ih =>
    rw [load, load, h a (by omega) (by omega), ih fun x h1 h2 => h x (by omega) (by omega)]

theorem load_zero (a n : Nat) : load (fun _ => 0) a n = 0 := by
  induction n generalizing a with
  | zero => rfl
  | succ n ih => rw [load, ih]; rfl

theorem store_outside (h : x < a ∨ a + n ≤ x) : store m a n v x = m x := by
  induction n generalizing a v with
  | zero => rfl
  | succ n ih =>
    have hx : x ≠ a := by omega
    rw [store, update_of_ne hx, ih (by omega)]

/-- The bytes inside its range do not depend on what was there. -/
theorem store_inside (m m' : Mem) (h1 : a ≤ x) (h2 : x < a + n) :
    store m a n v x = store m' a n v x := by
  induction n generalizing a v with
  | zero => omega
  | succ n ih =>
    by_cases hx : x = a
    · subst hx
      rw [store, store, update_self, update_self]
    · rw [store, store, update_of_ne hx, update_of_ne hx, ih (by omega) (by omega)]

theorem store_comm {w : Nat} (h : a + n ≤ b ∨ b + k ≤ a) :
    store (store m a n v) b k w = store (store m b k w) a n v := by
  funext x
  by_cases hb : b ≤ x ∧ x < b + k
  · rw [store_inside _ m hb.1 hb.2, store_outside (a := a) (by omega)]
  · rw [store_outside (a := b) (by omega)]
    by_cases ha : a ≤ x ∧ x < a + n
    · exact store_inside _ _ ha.1 ha.2
    · rw [store_outside (a := a) (by omega), store_outside (a := a) (by omega),
        store_outside (a := b) (by omega)]

theorem store_fill_comm {w : UInt8} (h : a + n ≤ b ∨ b + k ≤ a) :
    store (fill m b k w) a n v = fill (store m a n v) b k w := by
  funext x
  by_cases ha : a ≤ x ∧ x < a + n
  · have hb : ¬ (b ≤ x ∧ x < b + k) := by omega
    rw [store_inside _ m ha.1 ha.2, fill, if_neg hb]
  · rw [store_outside (by omega), fill, fill, store_outside (by omega)]

theorem load_store_self (m : Mem) (a n v : Nat) : load (store m a n v) a n = v % 256 ^ n := by
  induction n generalizing a v with
  | zero => simp [load, Nat.mod_one]
  | succ n ih =>
    have hrest : load (store m a (n + 1) v) (a + 1) n =
        load (store m (a + 1) n (v / 256)) (a + 1) n :=
      load_congr fun x h1 _ => by
        have hx : x ≠ a := by omega
        rw [store, update_of_ne hx]
    have hhead : (store m a (n + 1) v a).toNat = v % 256 := by
      rw [store, update_self]
      simp
    rw [load, hrest, ih, hhead, pow_succ, mul_comm (256 ^ n), Nat.mod_mul]

theorem load_store_of_disjoint (h : a + n ≤ b ∨ b + k ≤ a) :
    load (store m b k v) a n = load m a n :=
  load_congr fun x h1 h2 => store_outside (by omega)

theorem load_copy_of_disjoint {dst src : Nat} (h : a + n ≤ dst ∨ dst + k ≤ a) :
    load (copy m dst f src k) a n = load m a n :=
  load_congr fun x h1 h2 => if_neg (by omega)

theorem copy_copy (f g : Mem) (dst src i j : Nat) :
    copy (copy f dst g src i) (dst + i) g (src + i) j = copy f dst g src (i + j) := by
  funext x
  unfold copy
  by_cases h1 : dst + i ≤ x ∧ x < dst + i + j
  · rw [if_pos h1, if_pos (by omega)]
    congr 1
    omega
  · rw [if_neg h1]
    by_cases h2 : dst ≤ x ∧ x < dst + i
    · rw [if_pos h2, if_pos (by omega)]
    · rw [if_neg h2, if_neg (by omega)]

theorem copy_zero (f g : Mem) (dst src : Nat) : copy f dst g src 0 = f := by
  funext x
  exact if_neg (by omega)

/-! ## Byte strings -/

/-- Bytes `off`, …, `off + n - 1` of `f`. -/
def bytesFrom (f : Mem) (off n : Nat) : List UInt8 := (List.range n).map fun i => f (off + i)

theorem bytesFrom_add (f : Mem) (off i j : Nat) :
    bytesFrom f off (i + j) = bytesFrom f off i ++ bytesFrom f (off + i) j := by
  unfold bytesFrom
  rw [range_add, map_append, map_map]
  congr 1
  refine map_congr_left fun x _ => ?_
  show f (off + (i + x)) = f (off + i + x)
  rw [add_assoc]

/-- `bs` over `l` from place `off` on. -/
def overlay {α : Type} (l : List α) (off : Nat) (bs : List α) : List α :=
  l.take off ++ bs ++ l.drop (off + bs.length)

theorem bytesFrom_take (f : Mem) (off i j : Nat) :
    (bytesFrom f off i).take j = bytesFrom f off (min i j) := by
  unfold bytesFrom
  rw [← map_take, take_range, Nat.min_comm]

theorem bytesFrom_drop (f : Mem) (off i j : Nat) :
    (bytesFrom f off i).drop j = bytesFrom f (off + j) (i - j) := by
  by_cases h : j ≤ i
  · obtain ⟨k, rfl⟩ := Nat.exists_eq_add_of_le h
    rw [bytesFrom_add, drop_left' (by simp [bytesFrom]), Nat.add_sub_cancel_left]
  · rw [drop_eq_nil_of_le (by simp [bytesFrom]; omega), Nat.sub_eq_zero_of_le (by omega)]
    rfl

theorem bytesFrom_congr {g : Mem} {i j : Nat} (h : ∀ x < n, f (i + x) = g (j + x)) :
    bytesFrom f i n = bytesFrom g j n :=
  map_congr_left fun x hx => h x (mem_range.mp hx)

theorem bytesFrom_copy (f g : Mem) (src n : Nat) {off size : Nat} (hoff : off ≤ size) :
    bytesFrom (copy f off g src n) 0 (max size (off + n)) =
      overlay (bytesFrom f 0 size) off (bytesFrom g src n) := by
  have hlen : (bytesFrom g src n).length = n := by simp [bytesFrom]
  have hmax : max size (off + n) = off + n + (size - (off + n)) := by omega
  unfold overlay
  rw [hlen, bytesFrom_take, bytesFrom_drop, hmax, bytesFrom_add, bytesFrom_add,
    Nat.min_eq_right hoff, zero_add, zero_add]
  congr 1
  · congr 1
    · refine bytesFrom_congr fun x hx => ?_
      exact if_neg (by omega)
    · refine bytesFrom_congr fun x hx => ?_
      unfold copy
      rw [if_pos (by omega)]
      congr 1
      omega
  · refine bytesFrom_congr fun x hx => ?_
    exact if_neg (by omega)

end ByteMem
