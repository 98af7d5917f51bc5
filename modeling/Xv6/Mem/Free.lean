import Mathlib.Data.List.Forall2
import Xv6.Mem.Walk

/-! # Specification of `deallocuvm` and `freevm`

    Both give pages back, in an order that follows the page numbers and the indices of the
    directory. Neither needs the free list to end in the null pointer.
-/

namespace Xv6.Mem

open ByteMem Program Function List

variable {τ : Type} {L : Layout} {s s' : Phys} {ρ : Nat → Role τ} {fl ns us : List Nat}
  {q d n u oldsz m x lo : Nat} {t : τ}

/-! ## Giving pages back -/

/-- The pages of `us` become free. -/
def freeAll (ρ : Nat → Role τ) (us : List Nat) : Nat → Role τ :=
  fun x => if x ∈ us then .free else ρ x

@[simp] theorem freeAll_nil (ρ : Nat → Role τ) : freeAll ρ [] = ρ := by
  funext x
  simp [freeAll]

theorem freeAll_cons (ρ : Nat → Role τ) (u : Nat) (us : List Nat) :
    freeAll ρ (u :: us) = freeAll (update ρ u .free) us := by
  funext x
  by_cases hx : x = u
  · subst hx
    simp [freeAll]
  · simp [freeAll, hx]

/-- Directory `d` maps a page at page number `n`. -/
def Maps (ρ : Nat → Role τ) (d n : Nat) : Prop := ∃ u, ρ u = .user d n

/-- The page of a mapping is freed and its entry cleared. -/
theorem Inv.freeUser (h : Inv L s ρ fl q) {a : Nat} (ha : ρ a = .table d (n / 1024))
    (hu : ρ u = .user d n) :
    Inv L { s with
        mem := store (store (fill s.mem u 4096 1) u 4 s.freelist) (a + 4 * (n % 1024)) 4 0,
        freelist := u }
      (update ρ u .free) (u :: fl) q := by
  obtain ⟨⟨t, -⟩, -⟩ := h.trees.tabOf a d _ ha
  have hpa : L.IsPage a := h.isPage ha (by simp)
  have hpu : L.IsPage u := h.isPage hu (by simp)
  have hdis := hpa.disjoint hpu (ne_of_role ha hu (by simp))
  have hgive := (h.delUser t ha hu).give (update_self ..) h.freelist_lt
  rw [update_idem] at hgive
  -- the code clears the entry last
  rw [store_comm (by omega), store_fill_comm (by omega)]
  exact hgive

/-! ## `deallocuvm` -/

/-- What the loop of `deallocuvm` frees: the pages `us`, mapped at the page
    numbers `ns` in increasing order, all at least `n` and below `oldsz`. -/
structure Freed (ρ : Nat → Role τ) (d n oldsz : Nat) (ns us : List Nat) : Prop where
  pages  : List.Forall₂ (fun m u => ρ u = .user d m) ns us
  sorted : ns.Pairwise (· < ·)
  bounds : ∀ m ∈ ns, n ≤ m ∧ 4096 * m < oldsz

theorem Freed.mem (h : Freed ρ d n oldsz ns us) (hu : u ∈ us) : ∃ m ∈ ns, ρ u = .user d m := by
  obtain ⟨hp, -, -⟩ := h
  induction hp with
  | nil => simp at hu
  | cons h1 h2 ih =>
    rcases mem_cons.mp hu with rfl | hu
    · exact ⟨_, by simp, h1⟩
    · obtain ⟨m, hm, hr⟩ := ih hu
      exact ⟨m, by simp [hm], hr⟩

theorem Freed.page (h : Freed ρ d n oldsz ns us) (hm : m ∈ ns) : ∃ u ∈ us, ρ u = .user d m := by
  obtain ⟨hp, -, -⟩ := h
  induction hp with
  | nil => simp at hm
  | cons h1 h2 ih =>
    rcases mem_cons.mp hm with rfl | hm
    · exact ⟨_, by simp, h1⟩
    · obtain ⟨u, hu, hr⟩ := ih hm
      exact ⟨u, by simp [hu], hr⟩

section Rounds

variable {oldsz a pte : Nat} (fuel : Nat)

theorem dealloc_round_end (h : oldsz ≤ a) : Ends (deallocFrom L d oldsz (fuel + 1) a) s () s := by
  unfold Ends
  rw [deallocFrom, if_neg (by omega)]
  rfl

theorem dealloc_round_skip (h : a < oldsz) (hw : Ends (walkpgdir d a false) s none s) :
    (deallocFrom L d oldsz (fuel + 1) a).run s =
      (deallocFrom L d oldsz fuel (u32 (a + (NPTENTRIES - 1) * PGSIZE + PGSIZE))).run s := by
  rw [deallocFrom, if_pos h, run_bind_of_ends hw]

theorem dealloc_round_absent (h : a < oldsz) (hw : Ends (walkpgdir d a false) s (some pte) s)
    (hp : present (load s.mem pte 4) = false) :
    (deallocFrom L d oldsz (fuel + 1) a).run s =
      (deallocFrom L d oldsz fuel (u32 (a + PGSIZE))).run s := by
  rw [deallocFrom, if_pos h, run_bind_of_ends hw]
  dsimp only
  rw [run_bind_of_ends (ends_load32.mpr ⟨rfl, rfl⟩), hp, if_neg (by simp)]

theorem dealloc_round_free (h : a < oldsz) (hw : Ends (walkpgdir d a false) s (some pte) s)
    (hp : present (load s.mem pte 4) = true) (hpu : L.IsPage u)
    (hu : P2V (PTE_ADDR (load s.mem pte 4)) = u) :
    (deallocFrom L d oldsz (fuel + 1) a).run s =
      (deallocFrom L d oldsz fuel (u32 (a + PGSIZE))).run
        { s with mem := store (store (fill s.mem u 4096 1) u 4 s.freelist) pte 4 0,
                 freelist := u } := by
  have hne : PTE_ADDR (load s.mem pte 4) ≠ 0 := by
    intro h0
    have hgt := hpu.gt
    rw [← hu, h0] at hgt
    simp [P2V, u32, KERNBASE] at hgt
  rw [deallocFrom, if_pos h, run_bind_of_ends hw]
  dsimp only
  rw [run_bind_of_ends (ends_load32.mpr ⟨rfl, rfl⟩), hp, if_pos rfl, if_neg hne, hu,
    run_bind_of_ends (ends_kfree hpu), run_bind_of_ends ((ends_store32 (r := ())).mpr rfl)]

end Rounds

theorem next_page (hn : n < 524288) : u32 (4096 * n + PGSIZE) = 4096 * (n + 1) := by
  rw [u32_of_lt (by simp only [PGSIZE]; omega)]
  simp only [PGSIZE]
  omega

/-- Freeing the page at `n` changes no other mapping and no table. -/
theorem maps_update (hu : ρ u = .user d n) (hmn : m ≠ n) :
    Maps (update ρ u .free) d m ↔ Maps ρ d m :=
  exists_update_iff hu (by simp) (by simpa using hmn)

theorem hasTab_update {i : Nat} (hu : ρ u = .user d n) :
    HasTab (update ρ u .free) d i ↔ HasTab ρ d i :=
  exists_update_iff hu (by simp) (by simp)

theorem Freed.cons (hu : ρ u = .user d n) (hlt : 4096 * n < oldsz)
    (h : Freed (update ρ u .free) d (n + 1) oldsz ns us) :
    Freed ρ d n oldsz (n :: ns) (u :: us) where
  pages := .cons hu (h.pages.imp fun _ _ hv => (role_of_update hv (by simp)).2)
  sorted := pairwise_cons.mpr ⟨fun m hm => (h.bounds m hm).1, h.sorted⟩
  bounds m hm := by
    rcases mem_cons.mp hm with rfl | hm
    · exact ⟨le_rfl, hlt⟩
    · have := h.bounds m hm
      omega

theorem Freed.mono {n' : Nat} (h : Freed ρ d n' oldsz ns us) (hn : n ≤ n') :
    Freed ρ d n oldsz ns us :=
  ⟨h.pages, h.sorted, fun m hm => ⟨le_trans hn (h.bounds m hm).1, (h.bounds m hm).2⟩⟩

/-- `x` lies in a page that directory `d` maps at page number `lo` or above, or
    in the entry for such a page number in its user part. -/
def Touches (ρ : Nat → Role τ) (d lo x : Nat) : Prop :=
  (∃ u m, ρ u = .user d m ∧ lo ≤ m ∧ InPage u x) ∨
    ∃ a m, ρ a = .table d (m / 1024) ∧ lo ≤ m ∧ m < 524288 ∧
      a + 4 * (m % 1024) ≤ x ∧ x < a + 4 * (m % 1024) + 4

/-- `x` lies in a page of `us`, or in the entry for a page number in `ns`. -/
def Clears (ρ : Nat → Role τ) (d : Nat) (ns us : List Nat) (x : Nat) : Prop :=
  (∃ u ∈ us, InPage u x) ∨
    ∃ m ∈ ns, ∃ a, ρ a = .table d (m / 1024) ∧ a + 4 * (m % 1024) ≤ x ∧
      x < a + 4 * (m % 1024) + 4

theorem Clears.cons (h : Clears (update ρ u .free) d ns us x) :
    Clears ρ d (n :: ns) (u :: us) x := by
  rcases h with ⟨v, hv, hin⟩ | ⟨m, hm, a, ha, hin⟩
  · exact .inl ⟨v, mem_cons_of_mem _ hv, hin⟩
  · exact .inr ⟨m, mem_cons_of_mem _ hm, a, (role_of_update ha (by simp)).2, hin⟩

theorem Freed.touches (hf : Freed ρ d n oldsz ns us) (h : Inv L s ρ fl q) (hx : Clears ρ d ns us x)
    : Touches ρ d n x := by
  rcases hx with ⟨u, hu, hin⟩ | ⟨m, hm, a, ha, hin⟩
  · obtain ⟨m, hm, hrole⟩ := hf.mem hu
    exact .inl ⟨u, m, hrole, (hf.bounds m hm).1, hin⟩
  · obtain ⟨u, -, hrole⟩ := hf.page hm
    exact .inr ⟨a, m, ha, (hf.bounds m hm).1, (h.trees.userOf u d m hrole).1, hin⟩

theorem Inv.not_clears_dir (h : Inv L s ρ fl q) (hd : ρ d = .dir t) (hf : Freed ρ d n oldsz ns us)
    (hx : InPage d x) : ¬ Clears ρ d ns us x := by
  have hpd := h.isPage hd (by simp)
  obtain ⟨h3, h4⟩ := hx
  rintro (⟨u, hu, h1, h2⟩ | ⟨m, hm, b, hb, h1, h2⟩)
  · obtain ⟨m, -, hum⟩ := hf.mem hu
    have := hpd.disjoint (h.isPage hum (by simp)) (ne_of_role hd hum (by simp))
    omega
  · have := hpd.disjoint (h.isPage hb (by simp)) (ne_of_role hd hb (by simp))
    omega

theorem Inv.not_touches (h : Inv L s ρ fl q) {b : Nat} (hb : ρ b ≠ .other)
    (hu : ∀ m, lo ≤ m → ρ b ≠ .user d m) (ht : ∀ i < 512, ρ b ≠ .table d i) (hx : InPage b x) :
    ¬ Touches ρ d lo x := by
  obtain ⟨h1, h2⟩ := hx
  rintro (⟨u, m, hum, hm, h3, h4⟩ | ⟨a, m, ha, hm, hlt, h3, h4⟩)
  · have hne : u ≠ b := fun he => hu m hm (he ▸ hum)
    have := (h.isPage hum (by simp)).disjoint (h.page b hb) hne
    omega
  · have hne : a ≠ b := fun he => ht (m / 1024) (by omega) (he ▸ ha)
    have := (h.isPage ha (by simp)).disjoint (h.page b hb) hne
    omega

theorem Inv.samePage_dir (h : Inv L s ρ fl q) (hd : ρ d = .dir t)
    (hx : ∀ x, ¬ Touches ρ d lo x → s'.mem x = s.mem x) : SamePage s.mem s'.mem d := by
  intro x h1 h2
  exact hx x (h.not_touches (by simp [hd]) (fun _ _ => by rw [hd]; simp)
    (fun _ _ => by rw [hd]; simp) ⟨h1, h2⟩)

/-- The loop of `deallocuvm` at page number `n` comes past the page number `m`
    of a later table: there is no table in between, and where there is none the
    loop goes to the same index of the next one. -/
def Skipped (ρ : Nat → Role τ) (d n m : Nat) : Prop :=
  n / 1024 < m / 1024 ∧ m % 1024 < n % 1024 ∧ ∀ i, n / 1024 ≤ i → i < m / 1024 → ¬ HasTab ρ d i

theorem not_skipped (h : n % 1024 = 0 ∨ HasTab ρ d (n / 1024)) : ¬ Skipped ρ d n m := by
  rintro ⟨h1, h2, h3⟩
  rcases h with h | h
  · omega
  · exact h3 _ le_rfl h1 h

/-- Where there is no table, the loop skips the same pages from the next index on. -/
theorem skipped_next (htab : ¬ HasTab ρ d (n / 1024)) (hm : n + 1024 ≤ m) :
    Skipped ρ d (n + 1024) m ↔ Skipped ρ d n m := by
  have hdiv : (n + 1024) / 1024 = n / 1024 + 1 := by omega
  have hmod : (n + 1024) % 1024 = n % 1024 := by omega
  unfold Skipped
  rw [hdiv, hmod]
  constructor
  · rintro ⟨h1, h2, h3⟩
    refine ⟨by omega, h2, fun i hi hlt => ?_⟩
    by_cases he : i = n / 1024
    · rw [he]
      exact htab
    · exact h3 i (by omega) hlt
  · rintro ⟨h1, h2, h3⟩
    exact ⟨by omega, h2, fun i hi hlt => h3 i (by omega) hlt⟩

/-- The loop of `deallocuvm`. It frees the mappings of the range that it does not skip. -/
theorem deallocFrom_exact (hold : oldsz ≤ 0x80000000) (fuel : Nat) :
    ∀ {n : Nat} {s : Phys} {ρ : Nat → Role τ} {fl : List Nat}, Inv L s ρ fl q →
    ρ d = .dir t → oldsz + 4096 ≤ 4096 * (n + fuel) → 0 < fuel →
    ∃ s' ns us, Ends (deallocFrom L d oldsz fuel (4096 * n)) s () s' ∧
      Inv L s' (freeAll ρ us) (us.reverse ++ fl) q ∧ s'.deny = s.deny ∧
      (∀ x, ¬ Clears ρ d ns us x → s'.mem x = s.mem x) ∧ Freed ρ d n oldsz ns us ∧
      ∀ m, n ≤ m → 4096 * m < oldsz → Maps ρ d m → (m ∈ ns ↔ ¬ Skipped ρ d n m) := by
  induction fuel with
  | zero => intro n s ρ fl _ _ _ h0; omega
  | succ fuel ih =>
    intro n s ρ fl h hd hfuel _
    by_cases hlt : 4096 * n < oldsz
    swap
    · refine ⟨s, [], [], dealloc_round_end _ (by omega), by simpa using h, rfl,
        fun _ _ => rfl, ⟨.nil, .nil, by simp⟩, fun m h1 h2 => ?_⟩
      omega
    have hn : n < 524288 := by omega
    by_cases htab : HasTab ρ d (n / 1024)
    swap
    · -- no table: the next round is at the same index of the next table
      have hw := h.ends_walk_none hd (by omega) htab
      have hnext : u32 (4096 * n + (NPTENTRIES - 1) * PGSIZE + PGSIZE) = 4096 * (n + 1024) := by
        rw [u32_of_lt (by simp only [PGSIZE, NPTENTRIES]; omega)]
        simp only [PGSIZE, NPTENTRIES]
        omega
      have hrun := dealloc_round_skip (L := L) fuel hlt hw
      rw [hnext] at hrun
      obtain ⟨s', ns, us, he, hinv, hdeny, hsame, hfreed, hall⟩ :=
        ih h hd (n := n + 1024) (by omega) (by omega)
      refine ⟨s', ns, us, hrun.trans he, hinv, hdeny, hsame, hfreed.mono (by omega), ?_⟩
      intro m h1 h2 hm
      by_cases hm' : m < n + 1024
      · -- a mapping of this index would need the table, the others are skipped
        obtain ⟨u, hu⟩ := hm
        obtain ⟨-, a, ha, -⟩ := h.trees.userOf u d m hu
        have hne : m / 1024 ≠ n / 1024 := by
          intro he
          rw [he] at ha
          exact htab ⟨a, ha⟩
        have hskip : Skipped ρ d n m := by
          refine ⟨by omega, by omega, fun i hi hlt => ?_⟩
          obtain rfl : i = n / 1024 := by omega
          exact htab
        refine iff_of_false (fun hmem => ?_) (not_not.mpr hskip)
        have := (hfreed.bounds m hmem).1
        omega
      · rw [hall m (by omega) h2 hm, skipped_next htab (by omega)]
    obtain ⟨a, ha⟩ := htab
    have hj : n % 1024 < 1024 := Nat.mod_lt _ (by decide)
    have hw := h.ends_walk (by omega) ha false
    have hgood : ∀ {ρ' : Nat → Role τ}, (HasTab ρ' d (n / 1024)) →
        (n + 1) % 1024 = 0 ∨ HasTab ρ' d ((n + 1) / 1024) := by
      intro ρ' ht
      by_cases hdiv : (n + 1) / 1024 = n / 1024
      · exact .inr (hdiv ▸ ht)
      · exact .inl (by omega)
    cases hp : present (load s.mem (a + 4 * (n % 1024)) 4) with
    | false =>
      have hrun := dealloc_round_absent (L := L) fuel hlt hw hp
      rw [next_page hn] at hrun
      obtain ⟨s', ns, us, he, hinv, hdeny, hsame, hfreed, hall⟩ :=
        ih h hd (n := n + 1) (by omega) (by omega)
      refine ⟨s', ns, us, hrun.trans he, hinv, hdeny, hsame, hfreed.mono (by omega), ?_⟩
      intro m h1 h2 hm
      refine iff_of_true ((hall m ?_ h2 hm).mpr (not_skipped (hgood ⟨a, ha⟩)))
        (not_skipped (.inr ⟨a, ha⟩))
      by_contra hlt'
      -- page `n` itself is not mapped
      obtain rfl : m = n := by omega
      obtain ⟨u, hu⟩ := hm
      obtain ⟨-, b, hb, hpu⟩ := h.trees.userOf u d m hu
      obtain rfl := h.trees.table_unique hb ha
      simp [ptr, hp] at hpu
    | true =>
      have hptr : ptr s.mem a (n % 1024) =
          some (P2V (PTE_ADDR (load s.mem (a + 4 * (n % 1024)) 4))) := by simp [ptr, hp]
      have hu := h.trees.user a d _ ha (by omega) _ hj _ hptr
      rw [show 1024 * (n / 1024) + n % 1024 = n by omega] at hu
      generalize hudef : P2V (PTE_ADDR (load s.mem (a + 4 * (n % 1024)) 4)) = u at hu
      have hpu : L.IsPage u := h.isPage hu (by simp)
      have hrun := dealloc_round_free (L := L) fuel hlt hw hp hpu hudef
      rw [next_page hn] at hrun
      obtain ⟨s', ns, us, he, hinv, hdeny, hsame, hfreed, hall⟩ :=
        ih (h.freeUser ha hu) (update_role hd hu (by simp)) (n := n + 1) (by omega) (by omega)
      refine ⟨s', n :: ns, u :: us, hrun.trans he, ?_, hdeny, ?_, hfreed.cons hu hlt, ?_⟩
      · rw [freeAll_cons, reverse_cons, append_assoc]
        exact hinv
      · intro x hx
        have h1 : ¬ InPage u x := fun hin => hx (.inl ⟨u, by simp, hin⟩)
        have h2 : ¬ (a + 4 * (n % 1024) ≤ x ∧ x < a + 4 * (n % 1024) + 4) :=
          fun hin => hx (.inr ⟨n, by simp, a, ha, hin⟩)
        unfold InPage at h1
        rw [hsame x fun hc => hx hc.cons]
        dsimp only
        rw [store_outside (by omega), store_outside (by omega)]
        exact if_neg (by omega)
      · intro m h1 h2 hm
        refine iff_of_true ?_ (not_skipped (.inr ⟨a, ha⟩))
        by_cases hmn : m = n
        · simp [hmn]
        · exact mem_cons_of_mem _ ((hall m (by omega) h2 ((maps_update hu hmn).mpr hm)).mpr
            (not_skipped (hgood ((hasTab_update hu).mpr ⟨a, ha⟩))))

/-- The number of pages that `sz` bytes take. -/
def pages (sz : Nat) : Nat := (sz + 4095) / 4096

theorem pages_bounds {oldsz newsz : Nat} (h0 : 0 < oldsz) (hle : oldsz ≤ newsz)
    (hlt : newsz ≤ 0x80000000) :
    1 ≤ pages oldsz ∧ pages oldsz ≤ pages newsz ∧ pages newsz ≤ 524288 := by
  unfold pages
  omega

theorem PGROUNDUP_eq {sz : Nat} (h : sz ≤ 0x80000000) : PGROUNDUP sz = 4096 * pages sz := by
  unfold PGROUNDUP pages
  rw [u32_of_lt (by simp only [PGSIZE]; omega)]
  simp only [PGSIZE]
  omega

/-- `deallocuvm` frees the mappings of the range that its loop does not skip: all
    of them, by `not_skipped`, if it starts at a table or at the first index of one. -/
theorem deallocuvm_spec (oldsz newsz : Nat) (h : Inv L s ρ fl q) (hd : ρ d = .dir t)
    (hold : oldsz ≤ 0x80000000) (hlt : newsz < oldsz) :
    ∃ s' ns us, Ends (deallocuvm L d oldsz newsz) s newsz s' ∧
      Inv L s' (freeAll ρ us) (us.reverse ++ fl) q ∧ s'.deny = s.deny ∧
      (∀ x, ¬ Clears ρ d ns us x → s'.mem x = s.mem x) ∧
      Freed ρ d (pages newsz) oldsz ns us ∧
      ∀ m, pages newsz ≤ m → 4096 * m < oldsz → Maps ρ d m →
        (m ∈ ns ↔ ¬ Skipped ρ d (pages newsz) m) := by
  obtain ⟨s', ns, us, he, hrest⟩ := deallocFrom_exact hold MAXPAGES h hd (n := pages newsz)
    (by simp only [MAXPAGES]; omega) (by decide)
  refine ⟨s', ns, us, ?_, hrest⟩
  unfold Ends deallocuvm
  rw [if_neg (by omega), PGROUNDUP_eq (by omega), run_bind_of_ends he]
  rfl

/-! ## `freevm` -/

theorem freeTables_spec (k : Nat) : ∀ {i : Nat} {s : Phys} {ρ : Nat → Role τ}
    {fl : List Nat}, Inv L s ρ fl q → L.IsPage d → i + k ≤ 1024 →
    (∀ j a, i ≤ j → j < i + k → ptr s.mem d j = some a → ρ a = .held t ∧ a ≠ d) →
    (∀ j j' a, i ≤ j → j < j' → j' < i + k → ptr s.mem d j = some a → ptr s.mem d j' ≠ some a) →
    ∃ s', Ends (freeTables L d k i) s () s' ∧
      Inv L s' (freeAll ρ ((range' i k).filterMap (ptr s.mem d)))
        (((range' i k).filterMap (ptr s.mem d)).reverse ++ fl) q ∧
      s'.deny = s.deny ∧
      ∀ x, (∀ a ∈ (range' i k).filterMap (ptr s.mem d), ¬ InPage a x) →
        s'.mem x = s.mem x := by
  induction k with
  | zero =>
    intro i s ρ fl h _ _ _ _
    exact ⟨s, rfl, by simpa using h, rfl, fun _ _ => rfl⟩
  | succ k ih =>
    intro i s ρ fl h hpd hik hheld hinj
    rw [range'_succ]
    cases hp : ptr s.mem d i with
    | none =>
      rw [filterMap_cons_none hp]
      obtain ⟨s', he, hrest⟩ := ih h hpd (i := i + 1) (by omega)
        (fun j a h1 h2 => hheld j a (by omega) (by omega))
        (fun j j' a h1 h2 h3 => hinj j j' a (by omega) h2 (by omega))
      refine ⟨s', ?_, hrest⟩
      have hnp : present (load s.mem (d + 4 * i) 4) = false := by
        by_contra hne
        simp only [Bool.not_eq_false] at hne
        simp [ptr, hne] at hp
      unfold Ends
      rw [freeTables, run_bind_of_ends (ends_load32.mpr ⟨rfl, rfl⟩), hnp, if_neg (by simp)]
      exact he
    | some a =>
      rw [filterMap_cons_some hp]
      obtain ⟨ha, had⟩ := hheld i a (by omega) (by omega) hp
      have hpa : L.IsPage a := h.isPage ha (by simp)
      have hkf := ends_kfree (s := s) hpa
      obtain ⟨hinv1, hdeny1⟩ := kfree_spec h ha hkf
      generalize hs1 : ({ s with
        mem := store (fill s.mem a 4096 1) a 4 s.freelist, freelist := a } : Phys) = s1 at *
      -- the directory is another page
      have hsame : SamePage s.mem s1.mem d := by
        subst hs1
        have := hpa.disjoint hpd had
        have h1 : SamePage s.mem (fill s.mem a 4096 1) d := samePage_fill (by omega)
        exact h1.trans (samePage_store (by omega))
      have hptr : ∀ j, j < 1024 → ptr s1.mem d j = ptr s.mem d j := fun j hj => hsame.ptr hj
      obtain ⟨s', he, hinv, hdeny, hmem⟩ := ih hinv1 hpd (i := i + 1) (by omega)
        (fun j b h1 h2 hb => by
          rw [hptr j (by omega)] at hb
          obtain ⟨hr, hne⟩ := hheld j b (by omega) (by omega) hb
          have hba : b ≠ a := by
            rintro rfl
            exact hinj i j b (by omega) (by omega) (by omega) hp hb
          rw [update_of_ne hba]
          exact ⟨hr, hne⟩)
        (fun j j' b h1 h2 h3 hb => by
          rw [hptr j (by omega)] at hb
          rw [hptr j' (by omega)]
          exact hinj j j' b (by omega) h2 (by omega) hb)
      have hts : (range' (i + 1) k).filterMap (ptr s1.mem d) =
          (range' (i + 1) k).filterMap (ptr s.mem d) := by
        refine filterMap_congr fun j hj => hptr j ?_
        simp only [mem_range'_1] at hj
        omega
      rw [hts] at hinv hmem
      refine ⟨s', ?_, ?_, hdeny.trans hdeny1, fun x hx => ?_⟩
      · have hpres : present (load s.mem (d + 4 * i) 4) = true := by
          by_contra hne
          simp [ptr, hne] at hp
        have haddr : P2V (PTE_ADDR (load s.mem (d + 4 * i) 4)) = a := by
          simpa [ptr, hpres] using hp
        unfold Ends
        rw [freeTables, run_bind_of_ends (ends_load32.mpr ⟨rfl, rfl⟩), hpres, if_pos rfl,
          haddr, run_bind_of_ends hkf]
        exact he
      · rw [freeAll_cons, reverse_cons, append_assoc]
        exact hinv
      · have hout := hx a mem_cons_self
        unfold InPage at hout
        rw [hmem x fun b hb => hx b (mem_cons_of_mem _ hb), ← hs1]
        dsimp only
        rw [store_outside (by omega)]
        exact if_neg (by omega)

/-- Directory `d`, its tables and its user pages become free. -/
def dropTree (ρ : Nat → Role τ) (d : Nat) : Nat → Role τ := fun x =>
  if x = d then .free
  else match ρ x with
    | .table d' i => if d' = d then .free else .table d' i
    | .user d' n => if d' = d then .free else .user d' n
    | r => r

/-- The page belongs to directory `d`. -/
def InTree (ρ : Nat → Role τ) (d x : Nat) : Prop :=
  x = d ∨ (∃ i, ρ x = .table d i) ∨ ∃ n, ρ x = .user d n

theorem dropTree_of_inTree (h : InTree ρ d x) : dropTree ρ d x = .free := by
  unfold dropTree
  rcases h with rfl | ⟨i, hi⟩ | ⟨m, hm⟩
  · exact if_pos rfl
  · simp [hi]
  · simp [hm]

theorem dropTree_of_not (h : ¬ InTree ρ d x) : dropTree ρ d x = ρ x := by
  unfold dropTree
  rw [if_neg fun hx => h (.inl hx)]
  split
  · next d' i hr =>
    rw [hr, if_neg]
    rintro rfl
    exact h (.inr (.inl ⟨i, hr⟩))
  · next d' m hr =>
    rw [hr, if_neg]
    rintro rfl
    exact h (.inr (.inr ⟨m, hr⟩))
  · rfl

/-- `freevm` frees the user pages by page number, then the tables by index, then the directory. -/
theorem freevm_spec (h : Inv L s ρ fl q) (hd : ρ d = .dir t) :
    ∃ s' ns us, Ends (freevm L d) s () s' ∧
      Inv L s' (dropTree ρ d)
        (d :: (((range 1024).filterMap (ptr s.mem d)).reverse ++ (us.reverse ++ fl))) q ∧
      s'.deny = s.deny ∧ List.Forall₂ (fun m u => ρ u = .user d m) ns us ∧
      ns.Pairwise (· < ·) ∧ (∀ m, m ∈ ns ↔ Maps ρ d m) ∧
      ∀ x, ¬ Mine ρ d x → s'.mem x = s.mem x := by
  have hpd : L.IsPage d := h.isPage hd (by simp)
  obtain ⟨s1, ns, us, he1, hinv1, hdeny1, hclear, hfreed, hall⟩ :=
    deallocuvm_spec KERNBASE 0 h hd (by simp [KERNBASE]) (by decide)
  have hsame := h.samePage_dir hd fun x hx => hclear x fun hc => hx (hfreed.touches h hc)
  have hns : ∀ m, m ∈ ns ↔ Maps ρ d m := by
    intro m
    constructor
    · intro hm
      obtain ⟨u, -, hu⟩ := hfreed.page hm
      exact ⟨u, hu⟩
    · intro hm
      have hlt : m < 524288 := by
        obtain ⟨u, hu⟩ := hm
        exact (h.trees.userOf u d m hu).1
      exact (hall m (by simp [pages]) (by simp only [KERNBASE]; omega) hm).mpr
        (not_skipped (.inl (by decide)))
  have hus : ∀ u, u ∈ us ↔ ∃ m, ρ u = .user d m := by
    intro u
    constructor
    · intro hu
      obtain ⟨m, -, hm⟩ := hfreed.mem hu
      exact ⟨m, hm⟩
    · rintro ⟨m, hm⟩
      obtain ⟨v, hv, hvm⟩ := hfreed.page ((hns m).mpr ⟨u, hm⟩)
      rwa [h.trees.user_unique hm hvm]
  -- what is not a user page of `d` is as before
  have hrole : ∀ {x r}, ρ x = r → (∀ m, r ≠ .user d m) → freeAll ρ us x = r := by
    intro x r hx hr
    have : x ∉ us := by
      intro hmem
      obtain ⟨m, hm⟩ := (hus x).mp hmem
      exact hr m (hx.symm.trans hm)
    simp [freeAll, this, hx]
  have hd1 : freeAll ρ us d = .dir t := hrole hd (by simp)
  have hno : ∀ u m, freeAll ρ us u ≠ .user d m := by
    intro u m hu
    by_cases hmem : u ∈ us
    · simp [freeAll, hmem] at hu
    · simp only [freeAll, hmem, if_false] at hu
      exact hmem ((hus u).mpr ⟨m, hu⟩)
  have hinv2 := hinv1.retire t hd1 hno
  have htab : ∀ j a, j < 1024 → ptr s1.mem d j = some a → ρ a = .table d j := by
    intro j a hj hp
    rw [hsame.ptr hj] at hp
    exact h.trees.tab d t hd j hj a hp
  obtain ⟨s2, he2, hinv3, hdeny2, hmem2⟩ :=
    freeTables_spec (t := t) 1024 hinv2 hpd (i := 0) (by omega)
    (fun j a _ h2 hp => by
      have ha := htab j a (by omega) hp
      have had : a ≠ d := ne_of_role ha hd (by simp)
      refine ⟨?_, had⟩
      rcases retire_eq (freeAll ρ us) d t a with ⟨hr, -⟩ | ⟨-, -, hnt⟩
      · exact hr
      · exact absurd (hrole ha (by simp)) (hnt j))
    (fun j j' a _ h2 h3 hp hp' => by
      have h1 := htab j a (by omega) hp
      have h2' := htab j' a (by omega) hp'
      rw [h1] at h2'
      have : j = j' := by simpa using h2'
      omega)
  have hts : (range' 0 1024).filterMap (ptr s1.mem d) =
      (range 1024).filterMap (ptr s.mem d) := by
    rw [range_eq_range']
    refine filterMap_congr fun j hj => hsame.ptr ?_
    simp only [mem_range'_1] at hj
    omega
  rw [hts] at hinv3 hmem2
  generalize htsdef : (range 1024).filterMap (ptr s.mem d) = ts at *
  have hmem : ∀ a, a ∈ ts ↔ ∃ i, ρ a = .table d i := by
    intro a
    rw [← htsdef, mem_filterMap]
    constructor
    · rintro ⟨j, hj, hp⟩
      exact ⟨j, h.trees.tab d t hd j (mem_range.mp hj) a hp⟩
    · rintro ⟨i, hi⟩
      obtain ⟨-, hlt, hp⟩ := h.trees.tabOf a d i hi
      exact ⟨i, mem_range.mpr hlt, hp⟩
  have hdts : d ∉ ts := by
    intro hin
    obtain ⟨i, hi⟩ := (hmem d).mp hin
    rw [hd] at hi
    cases hi
  have hdheld : freeAll (retire (freeAll ρ us) d t) ts d = .held t := by
    simp [freeAll, hdts, retire]
  have hkf := ends_kfree (s := s2) hpd
  obtain ⟨hinv4, hdeny3⟩ := kfree_spec hinv3 hdheld hkf
  refine ⟨_, ns, us, ?_, ?_, hdeny3.trans (hdeny2.trans hdeny1), hfreed.pages, hfreed.sorted, hns,
    fun x hx => ?_⟩
  · have hgt := hpd.gt
    unfold Ends freevm
    rw [if_neg (by omega), run_bind_of_ends he1, run_bind_of_ends he2]
    exact hkf
  · -- the role map that results is `dropTree`
    have hroles : update (freeAll (retire (freeAll ρ us) d t) ts) d .free =
        dropTree ρ d := by
      funext x
      by_cases hx : InTree ρ d x
      · rw [dropTree_of_inTree hx]
        by_cases hxd : x = d
        · subst hxd
          exact update_self ..
        rw [update_of_ne hxd]
        rcases hx with rfl | hx | hx
        · exact absurd rfl hxd
        · simp [freeAll, (hmem x).mpr hx]
        · have hxu : freeAll ρ us x = .free := by simp [freeAll, (hus x).mpr hx]
          have hxts : x ∉ ts := by
            intro hin
            obtain ⟨i, hi⟩ := (hmem x).mp hin
            obtain ⟨m, hm⟩ := hx
            rw [hi] at hm
            cases hm
          rw [freeAll, if_neg hxts, retire_of_ne hxd (by simp [hxu]), hxu]
      · rw [dropTree_of_not hx]
        have hxd : x ≠ d := fun he => hx (.inl he)
        have hxts : x ∉ ts := fun hin => hx (.inr (.inl ((hmem x).mp hin)))
        have hxus : x ∉ us := fun hin => hx (.inr (.inr ((hus x).mp hin)))
        have hxu : freeAll ρ us x = ρ x := by simp [freeAll, hxus]
        have hxt : ∀ i, freeAll ρ us x ≠ .table d i := by
          intro i hi
          rw [hxu] at hi
          exact hx (.inr (.inl ⟨i, hi⟩))
        rw [update_of_ne hxd, freeAll, if_neg hxts, retire_of_ne hxd hxt, hxu]
    rw [← hroles]
    exact hinv4
  · have hdir : ¬ InPage d x := fun hin => hx ⟨d, hin, .inl rfl⟩
    unfold InPage at hdir
    dsimp only
    rw [store_outside (by omega), fill, if_neg (by omega), hmem2 x fun a ha hin => ?_]
    · refine hclear x fun hc => ?_
      rcases hc with ⟨u, hu, hin⟩ | ⟨m, -, a, ha, hin⟩
      · obtain ⟨m, hm⟩ := (hus u).mp hu
        exact hx ⟨u, hin, .inr (.inr (.inr ⟨m, hm⟩))⟩
      · exact hx ⟨a, ⟨by omega, by omega⟩, .inr (.inr (.inl ⟨_, ha⟩))⟩
    · exact hx ⟨a, hin, .inr (.inr (.inl ((hmem a).mp ha)))⟩

end Xv6.Mem
