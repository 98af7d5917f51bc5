import Xv6.Mem.Image

/-! # What the user sees of memory

    The page and the byte that a page directory shows the user at an address, and which work on page
    tables leaves them as they are.
-/

namespace Xv6.Mem

open ByteMem Program Option

variable {L : Layout} {m m' : ByteMem.Mem} {s s' : Phys} {buf : ByteMem.Mem} {d n u i a lo : Nat}

/-! ## What the user sees -/

/-- The page that the entry `e` shows the user. -/
def userAddr (e : Nat) : Option Nat :=
  if e % 2 = 1 ∧ e &&& PTE_U ≠ 0 then some (P2V (PTE_ADDR e)) else none

/-- The page that directory `d` shows the user at page number `n`. -/
def userPage (m : ByteMem.Mem) (d n : Nat) : Option Nat :=
  (ptr m d (n / 1024)).bind fun a => userAddr (load m (a + 4 * (n % 1024)) 4)

/-- The byte that directory `d` shows the user at address `va`. -/
def userByte (m : ByteMem.Mem) (d va : Nat) : Option UInt8 :=
  (userPage m d (va / PGSIZE)).map fun u => m (u + va % PGSIZE)

theorem ends_uva2ka_userPage (hn : n < 2 ^ 20) (hp : (ptr s.mem d (n / 1024)).isSome) :
    Ends (uva2ka d (4096 * n)) s ((userPage s.mem d n).getD 0) s := by
  obtain ⟨a, ha⟩ := isSome_iff_exists.mp hp
  have hka := ends_uva2ka_ptr hn ha rfl
  unfold userPage userAddr
  rw [ha, bind_some]
  split at hka
  · next hU =>
    rw [if_pos hU, getD_some]
    exact hka
  · next hU =>
    rw [if_neg hU, getD_none]
    exact hka

/-- Without a page table the null pointer is read. -/
theorem uva2ka_fault (hn : n < 2 ^ 20) (hp : ptr s.mem d (n / 1024) = none) :
    (uva2ka d (4096 * n)).run s = .error .fault := by
  have hw : Ends (walkpgdir d (4096 * n) false) s none s := by
    rw [← PDX_page hn] at hp
    exact ends_walk_none hp
  unfold uva2ka
  rw [run_bind_of_ends hw]
  rfl

/-- `x` is a byte of directory `d` or of one of its page tables. -/
def TableByte (m : ByteMem.Mem) (d x : Nat) : Prop :=
  InPage d x ∨ ∃ i < 1024, ∃ a, ptr m d i = some a ∧ InPage a x

/-- The directory and its tables hold the same bytes. -/
def SameTables (m m' : ByteMem.Mem) (d : Nat) : Prop := ∀ x, TableByte m d x → m' x = m x

theorem SameTables.ptr (h : SameTables m m' d) (hi : i < 1024) : ptr m' d i = ptr m d i := by
  have hd : SamePage m m' d := fun x h1 h2 => h x (.inl ⟨h1, h2⟩)
  exact hd.ptr hi

theorem SameTables.userPage (h : SameTables m m' d) (hn : n < 2 ^ 20) :
    userPage m' d n = userPage m d n := by
  unfold Mem.userPage
  rw [h.ptr (by omega)]
  cases ha : Mem.ptr m d (n / 1024) with
  | none => rw [bind_none, bind_none]
  | some a =>
    have hsame : SamePage m m' a :=
      fun x h1 h2 => h x (.inr ⟨n / 1024, by omega, a, ha, h1, h2⟩)
    rw [bind_some, bind_some, hsame.load (Nat.mod_lt _ (by decide))]

/-- The user's pages at the page numbers in `N` are not null and hold no page table. -/
structure Apart (m : ByteMem.Mem) (d : Nat) (N : Nat → Prop) : Prop where
  ne_zero : ∀ n u, N n → userPage m d n = some u → u ≠ 0
  frame   : ∀ n u x, N n → userPage m d n = some u → TableByte m d x → ¬ InPage u x

/-- A copy into a user page, and one byte beyond it that does not change a table. -/
theorem Apart.copy {N : Nat → Prop} (h : Apart m d N) (hn : N n) (hu : userPage m d n = some u)
    (hs : SameTables m m' d) {off k : Nat} (hin : u ≤ a)
    (hout : a + k ≤ u + 4096 ∨
      (a + k = u + 4097 ∧ (TableByte m d (u + 4096) → buf (off + (u + 4096 - a)) = m (u + 4096)))) :
    SameTables m (copy m' a buf off k) d := by
  intro x hx
  have hpage := h.frame n u x hn hu hx
  unfold InPage at hpage
  unfold ByteMem.copy
  split
  · next hc =>
    -- only the byte beyond the page can be a byte of a table
    rcases hout with hle | ⟨heq, hbuf⟩
    · omega
    · obtain rfl : x = u + 4096 := by omega
      exact hbuf hx
  · exact hs x hx

/-! ## Roles of what the user sees -/

variable {τ : Type} {t : τ} {ρ ρ' : Nat → Role τ} {fl fl' : List Nat} {q : Nat}

/-- The entry that shows the user a page. -/
theorem userPage_eq_some : userPage m d n = some u ↔
    ∃ a, ptr m d (n / 1024) = some a ∧ ptr m a (n % 1024) = some u ∧
      load m (a + 4 * (n % 1024)) 4 / 4 % 2 = 1 := by
  unfold userPage
  cases ha : ptr m d (n / 1024) with
  | none => simp
  | some a =>
    rw [bind_some, userAddr]
    have hptr : ptr m a (n % 1024) = if load m (a + 4 * (n % 1024)) 4 % 2 = 1 then
        some (P2V (PTE_ADDR (load m (a + 4 * (n % 1024)) 4))) else none := by
      unfold ptr
      simp only [Mem.present_iff]
    simp only [some.injEq, exists_eq_left', hptr, and_PTE_U]
    generalize load m (a + 4 * (n % 1024)) 4 = e
    by_cases h1 : e % 2 = 1
    · by_cases h2 : e / 4 % 2 = 1
      · simp [h1, h2]
      · simp [h1, h2]
    · simp [h1]

theorem Inv.role_of_userPage (h : Inv L s ρ fl q) (hd : ρ d = .dir t) (hn : n < 524288)
    (hu : userPage s.mem d n = some u) : ρ u = .user d n := by
  obtain ⟨a, ha, hptr, -⟩ := userPage_eq_some.mp hu
  have htab := h.trees.tab d t hd _ (by omega) a ha
  have hrole := h.trees.user a d _ htab (by omega) _ (Nat.mod_lt _ (by decide)) u hptr
  rwa [show 1024 * (n / 1024) + n % 1024 = n by omega] at hrole

theorem Private.lt (h : Private m d) (hn : n < 2 ^ 20) (hu : userPage m d n = some u) :
    n < 524288 := by
  obtain ⟨a, ha, -, hU⟩ := userPage_eq_some.mp hu
  by_contra hge
  have := h n (by omega) hn a ha
  omega

theorem Inv.apart (h : Inv L s ρ fl q) (hd : ρ d = .dir t) (hpriv : Private s.mem d) :
    Apart s.mem d (· < 2 ^ 20) where
  ne_zero n u hn hu := by
    have hrole := h.role_of_userPage hd (hpriv.lt hn hu) hu
    have := (h.isPage hrole (by simp)).gt
    omega
  frame n u x hn hu hx hin := by
    have hrole := h.role_of_userPage hd (hpriv.lt hn hu) hu
    have hpu := h.isPage hrole (by simp)
    obtain ⟨h1, h2⟩ := hin
    rcases hx with ⟨h3, h4⟩ | ⟨i, hi, a, ha, h3, h4⟩
    · have := hpu.disjoint (h.isPage hd (by simp)) (ne_of_role hrole hd (by simp))
      omega
    · have htab := h.trees.tab d t hd i hi a ha
      have := hpu.disjoint (h.isPage htab (by simp)) (ne_of_role hrole htab (by simp))
      omega

theorem Frame.samePage_kern (hf : Frame d lo s ρ s' ρ') (h : Inv L s ρ fl q) (hd : ρ d = .dir t)
    (ha : ρ a = .table d i) (hi : 512 ≤ i) : SamePage s.mem s'.mem a := by
  intro x h1 h2
  exact hf.mem x (h.not_alters hd (by simp [ha]) (by simp [ha]) (ne_of_role ha hd (by simp))
    (fun _ _ => by rw [ha]; simp) (fun j hj => by rw [ha]; simp; omega) ⟨h1, h2⟩)

/-- Work on the user part does not show the user the kernel part. -/
theorem Frame.private (hf : Frame d lo s ρ s' ρ') (h : Inv L s ρ fl q) (h' : Inv L s' ρ' fl' q)
    (hd : ρ d = .dir t) (hd' : ρ' d = .dir t) (hpriv : Private s.mem d) : Private s'.mem d := by
  intro n h1 h2 a ha
  have htab' := h'.trees.tab d t hd' _ (by omega) a ha
  have htab := (hf.kern a _ (by omega)).mp htab'
  rw [(hf.samePage_kern h hd htab (by omega)).load (Nat.mod_lt _ (by decide))]
  exact hpriv n h1 h2 a (h.trees.tabOf a d _ htab).2.2

/-! ## What work on a directory leaves as it is -/

theorem Inv.userPage_none (h : Inv L s ρ fl q) (hd : ρ d = .dir t) (hn : n < 524288)
    (hno : ¬ Maps ρ d n) : userPage s.mem d n = none := by
  by_contra hsee
  obtain ⟨u, hu⟩ := ne_none_iff_exists'.mp hsee
  exact hno ⟨u, h.role_of_userPage hd hn hu⟩

/-- A table that keeps an entry shows the same page there. -/
theorem Inv.userPage_congr (h : Inv L s ρ fl q) (h' : Inv L s' ρ' fl' q)
    (ha : ρ a = .table d (n / 1024)) (ha' : ρ' a = .table d (n / 1024))
    (hl : load s'.mem (a + 4 * (n % 1024)) 4 = load s.mem (a + 4 * (n % 1024)) 4) :
    userPage s'.mem d n = userPage s.mem d n := by
  unfold userPage
  rw [(h.trees.tabOf a d _ ha).2.2, (h'.trees.tabOf a d _ ha').2.2, bind_some, bind_some, hl]

section Below

variable {lo : Nat} (hf : Frame d lo s ρ s' ρ') (h : Inv L s ρ fl q) (h' : Inv L s' ρ' fl' q)
  (hd : ρ d = .dir t) (hd' : ρ' d = .dir t)

include hf h h' hd hd'

/-- A page number below `lo` whose mapping stays shows the same page. -/
theorem Frame.userPage (hn : n < lo) (hlt : n < 524288) (hmaps : Maps ρ' d n ↔ Maps ρ d n)
    (htab : ∀ a, ρ a = .table d (n / 1024) → ρ' a = .table d (n / 1024)) :
    userPage s'.mem d n = userPage s.mem d n := by
  by_cases hm : Maps ρ d n
  · obtain ⟨u, hu⟩ := hm
    obtain ⟨-, a, ha, -⟩ := h.trees.userOf u d n hu
    exact h.userPage_congr h' ha (htab a ha)
      (load_congr fun x h1 h2 => hf.mem x (h.not_alters_entry hd ha hn h1 h2))
  · rw [h.userPage_none hd hlt hm, h'.userPage_none hd' hlt fun hm' => hm (hmaps.mp hm')]

theorem Frame.userByte {va : Nat} (hn : va / 4096 < lo) (hlt : va / 4096 < 524288)
    (hmaps : Maps ρ' d (va / 4096) ↔ Maps ρ d (va / 4096))
    (htab : ∀ a, ρ a = .table d (va / 4096 / 1024) → ρ' a = .table d (va / 4096 / 1024)) :
    userByte s'.mem d va = userByte s.mem d va := by
  unfold Mem.userByte
  simp only [PGSIZE]
  rw [hf.userPage h h' hd hd' hn hlt hmaps htab]
  cases hu : Mem.userPage s.mem d (va / 4096) with
  | none => rfl
  | some u =>
    have hrole := h.role_of_userPage hd hlt hu
    rw [map_some, map_some, hf.mem]
    exact h.not_alters hd (by simp [hrole]) (by simp [hrole]) (ne_of_role hrole hd (by simp))
      (fun k hk => by rw [hrole]; simp; omega) (fun _ _ => by rw [hrole]; simp) ⟨by omega, by omega⟩

theorem Frame.ptr_kern (hge : 524288 ≤ n) (hn : n < 2 ^ 20) :
    ptr s'.mem d (n / 1024) = ptr s.mem d (n / 1024) := by
  refine ext fun a => ?_
  constructor
  · intro ha
    have htab := h'.trees.tab d t hd' _ (by omega) a ha
    exact (h.trees.tabOf a d _ ((hf.kern a _ (by omega)).mp htab)).2.2
  · intro ha
    have htab := h.trees.tab d t hd _ (by omega) a ha
    exact (h'.trees.tabOf a d _ ((hf.kern a _ (by omega)).mpr htab)).2.2

theorem Frame.userPage_kern (hge : 524288 ≤ n) (hn : n < 2 ^ 20) :
    Mem.userPage s'.mem d n = Mem.userPage s.mem d n := by
  unfold Mem.userPage
  rw [hf.ptr_kern h h' hd hd' hge hn]
  cases ha : ptr s.mem d (n / 1024) with
  | none => rw [bind_none, bind_none]
  | some a =>
    have htab := h.trees.tab d t hd _ (by omega) a ha
    rw [bind_some, bind_some, (hf.samePage_kern h hd htab (by omega)).load
      (Nat.mod_lt _ (by decide))]

end Below

end Xv6.Mem
