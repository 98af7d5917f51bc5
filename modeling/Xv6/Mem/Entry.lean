import Xv6.Mem.Vm

/-! # Pages and page-table entries

    What the stores of `vm.c` do to the entries of page directories and page tables, and the
    arithmetic of the macros.
-/

namespace Xv6.Mem

open ByteMem Program

/-! ## Arithmetic of the macros -/

theorem present_iff (e : Nat) : present e = true ↔ e % 2 = 1 := by
  simp only [present, PTE_P, Nat.and_one_is_mod, decide_eq_true_eq]
  omega

variable {f : Nat}

/-- Flags fill the low twelve bits of a page address. -/
theorem or_flags {x : Nat} (hx : x % 4096 = 0) (hf : f < 4096) : x ||| f = x + f := by
  obtain ⟨k, rfl⟩ : ∃ k, x = 2 ^ 12 * k := ⟨x / 4096, by omega⟩
  exact (Nat.two_pow_add_eq_or_of_lt (by omega) k).symm

theorem or_lt_4096 {g : Nat} (hf : f < 4096) (hg : g < 4096) : f ||| g < 4096 :=
  Nat.or_lt_two_pow (n := 12) hf hg

theorem or_one_odd (f : Nat) : (f ||| 1) % 2 = 1 := by
  rw [Nat.or_mod_two_eq_one]
  right
  rfl

namespace Layout

variable (L : Layout)

/-- `a` is a page that `kfree` accepts. -/
def IsPage (a : Nat) : Prop := a % PGSIZE = 0 ∧ L.end_ ≤ a ∧ a < KERNBASE + PHYSTOP

variable {L} {a b : Nat}

theorem kernlink_lt_end : KERNLINK < L.end_ := lt_of_lt_of_le L.text_lt L.data_le

theorem IsPage.lt (h : L.IsPage a) : a + 4096 ≤ 0x8E000000 := by
  have h1 := h.1
  have h2 := h.2.2
  simp only [PGSIZE, KERNBASE, PHYSTOP] at h1 h2
  omega

theorem IsPage.gt (h : L.IsPage a) : 0x80100000 < a := by
  have h1 := h.2.1
  have h2 := kernlink_lt_end (L := L)
  simp only [KERNLINK, KERNBASE, EXTMEM] at h2
  omega

theorem IsPage.mod (h : L.IsPage a) : a % 4096 = 0 := h.1

theorem IsPage.V2P (h : L.IsPage a) : Mem.V2P a = a - 0x80000000 := by
  have h1 := h.lt
  have h2 := h.gt
  simp only [Mem.V2P, KERNBASE]
  rw [show a + 2 ^ 32 - 0x80000000 = (a - 0x80000000) + 2 ^ 32 by omega, u32, Nat.add_mod_right]
  exact Nat.mod_eq_of_lt (by omega)

theorem IsPage.disjoint (ha : L.IsPage a) (hb : L.IsPage b) (h : a ≠ b) :
    a + 4096 ≤ b ∨ b + 4096 ≤ a := by
  have h1 := ha.mod
  have h2 := hb.mod
  omega

end Layout

/-! ## Entries -/

/-- The page entry `i` of the table at `p` points to. -/
def ptr (m : ByteMem.Mem) (p i : Nat) : Option Nat :=
  let e := load m (p + 4 * i) 4
  if present e then some (P2V (PTE_ADDR e)) else none

/-- `m` and `m'` hold the same bytes in the page at `a`. -/
def SamePage (m m' : ByteMem.Mem) (a : Nat) : Prop := ∀ x, a ≤ x → x < a + 4096 → m' x = m x

variable {L : Layout} {m m' : ByteMem.Mem} {p i j u v f a n : Nat}

theorem SamePage.load (h : SamePage m m' p) (hi : i < 1024) :
    load m' (p + 4 * i) 4 = load m (p + 4 * i) 4 :=
  load_congr fun x h1 h2 => h x (by omega) (by omega)

theorem SamePage.ptr (h : SamePage m m' p) (hi : i < 1024) : ptr m' p i = ptr m p i := by
  unfold Mem.ptr
  rw [h.load hi]

theorem SamePage.trans {m'' : ByteMem.Mem} (h : SamePage m m' p) (h' : SamePage m' m'' p) :
    SamePage m m'' p := fun x h1 h2 => (h' x h1 h2).trans (h x h1 h2)

theorem samePage_store (h : a + 4 ≤ p ∨ p + 4096 ≤ a) :
    SamePage m (store m a 4 v) p := fun x h1 h2 => store_outside (by omega)

theorem samePage_fill {c : UInt8} (h : a + n ≤ p ∨ p + 4096 ≤ a) :
    SamePage m (fill m a n c) p := fun x h1 h2 => if_neg (by omega)

theorem samePage_copy {k : Nat} {src : ByteMem.Mem} (h : a + n ≤ p ∨ p + 4096 ≤ a) :
    SamePage m (copy m a src k n) p := fun x h1 h2 => if_neg (by omega)

theorem samePage_store_entry {q : Nat} (hp : L.IsPage p) (hq : L.IsPage q) (hne : q ≠ p)
    (hi : i < 1024) : SamePage m (store m (p + 4 * i) 4 v) q := by
  rcases hq.disjoint hp hne with h | h
  · exact samePage_store (by omega)
  · exact samePage_store (by omega)

theorem ptr_store_of_ne (hij : j ≠ i) : ptr (store m (p + 4 * i) 4 v) p j = ptr m p j := by
  unfold ptr
  rw [load_store_of_disjoint (by omega)]

theorem ptr_store_zero (m : ByteMem.Mem) (p i : Nat) :
    ptr (store m (p + 4 * i) 4 0) p i = none := by
  unfold ptr
  rw [load_store_self]
  rfl

/-- The entry for page `u` with flags `f`. -/
theorem ptr_store_self (hu : L.IsPage u) (hf : f < 4096) (hodd : f % 2 = 1) :
    ptr (store m (p + 4 * i) 4 (V2P u + f)) p i = some u := by
  have h1 := hu.lt
  have h2 := hu.gt
  have h3 := hu.mod
  have he : load (store m (p + 4 * i) 4 (V2P u + f)) (p + 4 * i) 4 = u - 0x80000000 + f := by
    rw [load_store_self, hu.V2P]
    exact Nat.mod_eq_of_lt (by omega)
  have hpres : present (u - 0x80000000 + f) = true := by
    rw [present_iff]
    omega
  unfold ptr
  simp only [he, hpres, if_true, Option.some.injEq, P2V, PTE_ADDR, PGSIZE, KERNBASE]
  rw [u32_of_lt (by omega)]
  omega

theorem ptr_of_load_zero (h : load m (p + 4 * i) 4 = 0) : ptr m p i = none := by
  unfold ptr
  rw [h]
  rfl

theorem load_fill_zero (hi : i < 1024) : load (fill m p 4096 0) (p + 4 * i) 4 = 0 := by
  have hz : load (fill m p 4096 0) (p + 4 * i) 4 = load (fun _ => 0) (p + 4 * i) 4 :=
    load_congr fun x h1 h2 => if_pos (by omega)
  rw [hz, load_zero]

theorem ptr_fill_zero (hi : i < 1024) : ptr (fill m p 4096 0) p i = none :=
  ptr_of_load_zero (load_fill_zero hi)

end Xv6.Mem
