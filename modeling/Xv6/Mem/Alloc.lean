import Xv6.Mem.Owner

/-! # Specification of the allocator

    `kalloc` takes the first page of the free list or fails; `kfree` pushes a page. `Took` counts
    the pages that a piece of code obtained one after the other without a failure.
-/

namespace Xv6.Mem

open ByteMem Program List

variable {τ : Type} {L : Layout} {s s' s'' : Phys} {ρ : Nat → Role τ} {fl fl' fl'' : List Nat}
  {q k l n a v : Nat} {r : Unit}

/-! ## Granted pages -/

/-- The next `k` calls of `kalloc` succeed. -/
def Grants (s : Phys) (fl : List Nat) (k : Nat) : Prop :=
  k ≤ fl.length ∧ ∀ b ∈ s.deny.take k, b = false

/-- `k` calls of `kalloc` succeeded between `s` and `s'`. -/
structure Took (s : Phys) (fl : List Nat) (s' : Phys) (fl' : List Nat) (k : Nat) : Prop where
  grants : Grants s fl k
  list   : fl' = fl.drop k
  deny   : s'.deny = s.deny.drop k

theorem Took.zero (h : s'.deny = s.deny) : Took s fl s' fl 0 :=
  ⟨⟨Nat.zero_le _, by simp⟩, rfl, by simpa using h⟩

theorem grants_add (h : Took s fl s' fl' k) : Grants s fl (k + l) ↔ Grants s' fl' l := by
  have hlen := h.grants.1
  unfold Grants
  rw [h.list, h.deny, take_add, length_drop]
  constructor
  · rintro ⟨h1, h2⟩
    exact ⟨by omega, fun b hb => h2 b (by simp [hb])⟩
  · rintro ⟨h1, h2⟩
    refine ⟨by omega, fun b hb => ?_⟩
    rcases mem_append.mp hb with hb | hb
    · exact h.grants.2 b hb
    · exact h2 b hb

theorem Took.trans (h : Took s fl s' fl' k) (h' : Took s' fl' s'' fl'' l) :
    Took s fl s'' fl'' (k + l) :=
  ⟨(grants_add h).mpr h'.grants, by rw [h'.list, h.list, drop_drop],
    by rw [h'.deny, h.deny, drop_drop]⟩

theorem Grants.mono (h : Grants s fl k) (hl : l ≤ k) : Grants s fl l := by
  refine ⟨le_trans hl h.1, fun b hb => h.2 b ?_⟩
  rw [← Nat.sub_add_cancel hl, add_comm, take_add]
  exact mem_append_left _ hb

/-- Code that changes memory only takes no page. -/
theorem Took.mem (h : Took s fl s' fl' k) {m : ByteMem.Mem} :
    Took s fl { s' with mem := m } fl' k := ⟨h.grants, h.list, h.deny⟩

/-- Without refusals the length of the list decides. -/
theorem grants_of_nil (hs : s.deny = []) (hn : n ≤ fl.length) : Grants s fl n :=
  ⟨hn, by simp [hs]⟩

theorem took_nil (h : Took s fl s' fl' n) (hs : s.deny = []) : s'.deny = [] := by
  rw [h.deny, hs, drop_nil]

/-! ## `kalloc` and `kfree` -/

theorem ends_load32 : Ends (load32 a) s v s' ↔ v = load s.mem a 4 ∧ s' = s := by
  show Except.ok (load s.mem a 4, s) = Except.ok (v, s') ↔ _
  simp [eq_comm]

theorem ends_store32 : Ends (store32 a v) s r s' ↔ s' = { s with mem := store s.mem a 4 v } := by
  show Except.ok ((), _) = Except.ok (r, s') ↔ _
  simp [eq_comm]

theorem ends_memset {c : UInt8} :
    Ends (memset a c n) s r s' ↔ s' = { s with mem := fill s.mem a n c } := by
  show Except.ok ((), _) = Except.ok (r, s') ↔ _
  simp [eq_comm]

theorem ends_memmove {dst : Nat} {src : ByteMem.Mem} :
    Ends (memmove dst src k n) s r s' ↔ s' = { s with mem := copy s.mem dst src k n } := by
  show Except.ok ((), _) = Except.ok (r, s') ↔ _
  simp [eq_comm]

theorem not_ends_panic {α : Type} {msg : String} {a : α} : ¬ Ends (panic msg : VM α) s a s' :=
  not_ends_throw

theorem ends_kalloc_cons (h : Inv L s ρ (a :: fl) q) (hg : Grants s (a :: fl) 1) :
    Ends kalloc s a { s with deny := s.deny.tail, freelist := load s.mem a 4 } := by
  have ha : L.IsPage a := h.page a (by simp [(h.free a).mp (by simp)])
  have hne : s.freelist ≠ 0 := by
    have := ha.gt
    rw [h.seg.1]
    omega
  have hdeny : s.deny.head? ≠ some true := by
    intro hd
    have := hg.2 true (by
      cases hdeny : s.deny with
      | nil => simp [hdeny] at hd
      | cons b bs => simp_all)
    cases this
  show (kalloc s) = _
  simp only [kalloc, hdeny, if_false, hne]
  rw [h.seg.1]

/-- What a call of `kalloc` does: it fails, because it is told to or because
    there is no page, or it takes the first page. -/
theorem kalloc_spec (t : τ) (h : Inv L s ρ fl 0) {r : Nat} (he : Ends kalloc s r s') :
    (r = 0 ∧ s' = { s with deny := s.deny.tail } ∧ ¬ Grants s fl 1) ∨
      ∃ fl', fl = r :: fl' ∧ L.IsPage r ∧ s'.mem = s.mem ∧ Took s fl s' fl' 1 ∧
        Inv L s' (Function.update ρ r (.held t)) fl' 0 := by
  by_cases hg : Grants s fl 1
  · right
    cases fl with
    | nil => exact absurd hg.1 (by simp)
    | cons a fl =>
      obtain ⟨rfl, rfl⟩ := he.unique (ends_kalloc_cons h hg)
      refine ⟨fl, rfl, h.page r (by simp [(h.free r).mp (by simp)]), rfl, ⟨hg, rfl, by simp⟩, ?_⟩
      have := h.take t
      exact ⟨this.page, this.seg, this.free, this.nodup, this.tail, this.trees⟩
  · left
    have hfail : s.deny.head? = some true ∨ s.freelist = 0 := by
      by_contra hno
      push Not at hno
      obtain ⟨hd, hfl⟩ := hno
      refine hg ⟨?_, fun b hb => ?_⟩
      · cases fl with
        | nil => exact absurd h.seg hfl
        | cons a fl => simp
      · cases hdeny : s.deny with
        | nil => simp [hdeny] at hb
        | cons b' bs =>
          cases b' with
          | false => simpa [hdeny] using hb
          | true => simp [hdeny] at hd
    have hr : kalloc s = .ok (0, { s with deny := s.deny.tail }) := by
      unfold kalloc
      by_cases hd : s.deny.head? = some true
      · simp [hd]
      · simp [hd, hfail.resolve_left hd]
    have heq : (.ok (r, s') : Except Halt (Nat × Phys)) = .ok (0, { s with deny := s.deny.tail }) :=
      he.symm.trans hr
    obtain ⟨rfl, rfl⟩ : r = 0 ∧ s' = { s with deny := s.deny.tail } := by simpa using heq
    exact ⟨rfl, rfl, hg⟩

theorem ends_kalloc (s : Phys) : ∃ r s', Ends kalloc s r s' := by
  show ∃ r s', kalloc s = .ok (r, s')
  unfold kalloc
  dsimp only
  split
  · exact ⟨_, _, rfl⟩
  · split
    · exact ⟨_, _, rfl⟩
    · exact ⟨_, _, rfl⟩

/-- `kfree` accepts every page of the allocator. -/
theorem ends_kfree (ha : L.IsPage a) :
    Ends (kfree L a) s ()
      { s with mem := store (fill s.mem a 4096 1) a 4 s.freelist, freelist := a } := by
  have hlt := ha.lt
  have hgt := ha.gt
  have hV : V2P a < PHYSTOP := by
    rw [ha.V2P]
    simp only [PHYSTOP]
    omega
  have hok : ¬ (a % PGSIZE ≠ 0 ∨ a < L.end_ ∨ V2P a ≥ PHYSTOP) := by
    have := ha.1
    have := ha.2.1
    omega
  show (kfree L a).run s = _
  unfold kfree
  rw [if_neg hok]
  rfl

/-- A page that was held goes to the front of the free list. -/
theorem kfree_spec {t : τ} (h : Inv L s ρ fl q) (ha : ρ a = .held t)
    (he : Ends (kfree L a) s r s') :
    Inv L s' (Function.update ρ a .free) (a :: fl) q ∧ s'.deny = s.deny := by
  obtain ⟨-, rfl⟩ := he.unique (ends_kfree (h.isPage ha (by simp)))
  exact ⟨h.give ha h.freelist_lt, rfl⟩

/-! ## The free list, followed in memory -/

/-- After a page is taken. -/
def Phys.taken (s : Phys) : Phys :=
  { s with deny := s.deny.tail, freelist := load s.mem s.freelist 4 }

/-- The next `k` calls of `kalloc` succeed, as the code would find out. -/
def granted : Nat → Phys → Bool
  | 0, _ => true
  | k + 1, s => s.deny.head? ≠ some true && s.freelist ≠ 0 && granted k s.taken

/-- The page at position `i` of the free list. -/
def freeAt : Nat → Phys → Option Nat
  | 0, s => if s.freelist = 0 then none else some s.freelist
  | i + 1, s => if s.freelist = 0 then none else freeAt i s.taken

theorem Inv.ne_zero (h : Inv L s ρ fl q) (ha : a ∈ fl) : a ≠ 0 := by
  have hrole := (h.free a).mp ha
  have := (h.isPage hrole (by simp)).gt
  omega

theorem granted_of_seg (k : Nat) : ∀ {s : Phys} {fl : List Nat}, Seg s.mem s.freelist fl 0 →
    (∀ a ∈ fl, a ≠ 0) → (granted k s = true ↔ Grants s fl k) := by
  induction k with
  | zero =>
    intro s fl _ _
    simp [granted, Grants]
  | succ k ih =>
    intro s fl hseg hnz
    cases fl with
    | nil =>
      have hfl : s.freelist = 0 := hseg
      simp [granted, hfl, Grants]
    | cons a fl =>
      have hfl : s.freelist = a := hseg.1
      have hne : s.freelist ≠ 0 := hfl ▸ hnz a (by simp)
      have hseg' : Seg s.taken.mem s.taken.freelist fl 0 := by
        show Seg s.mem (load s.mem s.freelist 4) fl 0
        rw [hfl]
        exact hseg.2
      have hrest := ih hseg' fun b hb => hnz b (by simp [hb])
      simp only [granted, Bool.and_eq_true, hrest, decide_eq_true_eq, hne, ne_eq,
        not_false_eq_true, and_true]
      unfold Grants
      cases hdeny : s.deny with
      | nil => simp [Phys.taken, hdeny]
      | cons b bs => cases b <;> simp [Phys.taken, hdeny]

/-- What the code finds out is what the free list and the refusals say. -/
theorem Inv.granted_iff (h : Inv L s ρ fl 0) : granted k s = true ↔ Grants s fl k :=
  granted_of_seg k h.seg fun _ => h.ne_zero

theorem freeAt_of_seg (i : Nat) : ∀ {s : Phys} {fl : List Nat}, Seg s.mem s.freelist fl 0 →
    (∀ a ∈ fl, a ≠ 0) → freeAt i s = fl[i]? := by
  induction i with
  | zero =>
    intro s fl hseg hnz
    cases fl with
    | nil =>
      have hfl : s.freelist = 0 := hseg
      simp [freeAt, hfl]
    | cons a fl =>
      have hne : a ≠ 0 := hnz a (by simp)
      simp [freeAt, hseg.1, hne]
  | succ i ih =>
    intro s fl hseg hnz
    cases fl with
    | nil =>
      have hfl : s.freelist = 0 := hseg
      simp [freeAt, hfl]
    | cons a fl =>
      have hne : a ≠ 0 := hnz a (by simp)
      rw [freeAt, hseg.1, if_neg hne, getElem?_cons_succ]
      refine ih ?_ fun b hb => hnz b (by simp [hb])
      show Seg s.mem (load s.mem s.freelist 4) fl 0
      rw [hseg.1]
      exact hseg.2

theorem Inv.freeAt_eq (h : Inv L s ρ fl 0) (i : Nat) : freeAt i s = fl[i]? :=
  freeAt_of_seg i h.seg fun _ => h.ne_zero

/-- The state determines the free list. -/
theorem Inv.list_unique {τ' : Type} {ρ' : Nat → Role τ'} (h : Inv L s ρ fl 0)
    (h' : Inv L s ρ' fl' 0) : fl = fl' := by
  refine ext_getElem? fun i => ?_
  rw [← h.freeAt_eq, ← h'.freeAt_eq]

end Xv6.Mem
