import Xv6.Mem.Boot

/-! # The range that `deallocuvm` frees

    Where a page table is missing, `deallocuvm` adds 4 MB to the address that it has reached. If
    this address does not start a table, the loop comes past the first pages of the next table. The
    pages that it does not come past it frees once, clears their entries and changes no other entry.
-/

namespace Xv6.Mem

open ByteMem Program Function

/-! ## Definitions -/

/-- The page that directory `d` maps at page number `n`. -/
def pageOf (m : ByteMem.Mem) (d n : Nat) : Option Nat :=
  (ptr m d (n / 1024)).bind fun a => ptr m a (n % 1024)

/-- Page number `n` is one that `deallocuvm(pgdir, oldsz, newsz)` should free. -/
def InSpan (oldsz newsz n : Nat) : Prop := PGROUNDUP newsz ≤ PGSIZE * n ∧ PGSIZE * n < oldsz

/-- `deallocuvm` returns `newsz`, puts every page of the range on the free list
    `fl` once, clears their entries and keeps the other entries. -/
def FreesSpan (L : Layout) (s : Phys) (fl : List Nat) (q d oldsz newsz : Nat) : Prop :=
  ∃ s' us, Ends (deallocuvm L d oldsz newsz) s newsz s' ∧ Seg s'.mem s'.freelist (us ++ fl) q ∧
    (us ++ fl).Nodup ∧
    (∀ u, u ∈ us ↔ ∃ n, InSpan oldsz newsz n ∧ pageOf s.mem d n = some u) ∧
    (∀ n a, InSpan oldsz newsz n → ptr s.mem d (n / 1024) = some a →
      load s'.mem (a + 4 * (n % 1024)) 4 = 0) ∧
    (∀ i < 1024, load s'.mem (d + 4 * i) 4 = load s.mem (d + 4 * i) 4) ∧
    ∀ n a, n < 2 ^ 20 → ¬ InSpan oldsz newsz n → ptr s.mem d (n / 1024) = some a →
      load s'.mem (a + 4 * (n % 1024)) 4 = load s.mem (a + 4 * (n % 1024)) 4

/-- From page number `n` the loop comes past page number `k`: the tables from that of `n` to the one
    before that of `k` are missing, and `k` has a smaller index in its table. -/
def ComesPast (m : ByteMem.Mem) (d n k : Nat) : Prop :=
  n / 1024 < k / 1024 ∧ k % 1024 < n % 1024 ∧
    ∀ i, n / 1024 ≤ i → i < k / 1024 → ptr m d i = none

/-! ## What is freed and what is kept -/

section Spec

variable {τ : Type} {L : Layout} {s s' : Phys} {ρ : Nat → Role τ} {fl ns us : List Nat}
  {q d n oldsz newsz u k : Nat} {t : τ}

theorem inSpan_iff (h : newsz ≤ 0x80000000) :
    InSpan oldsz newsz n ↔ pages newsz ≤ n ∧ 4096 * n < oldsz := by
  unfold InSpan
  rw [PGROUNDUP_eq h]
  simp only [PGSIZE]
  omega

theorem Inv.pageOf_iff (h : Inv L s ρ fl q) (hd : ρ d = .dir t) (hn : n < 524288) :
    pageOf s.mem d n = some u ↔ ρ u = .user d n := by
  unfold pageOf
  constructor
  · intro hp
    obtain ⟨a, ha, hu⟩ := Option.bind_eq_some_iff.mp hp
    have htab := h.trees.tab d t hd (n / 1024) (by omega) a ha
    have := h.trees.user a d (n / 1024) htab (by omega) (n % 1024) (by omega) u hu
    rwa [show 1024 * (n / 1024) + n % 1024 = n by omega] at this
  · intro hu
    obtain ⟨-, a, ha, hp⟩ := h.trees.userOf u d n hu
    rw [(h.trees.tabOf a d _ ha).2.2]
    exact hp

theorem Inv.comesPast_iff (h : Inv L s ρ fl q) (hd : ρ d = .dir t) (hk : k < 2 ^ 20) :
    ComesPast s.mem d n k ↔ Skipped ρ d n k := by
  unfold ComesPast Skipped
  refine and_congr_right fun _ => and_congr_right fun _ => ?_
  refine forall_congr' fun i => forall_congr' fun _ => forall_congr' fun hi => ?_
  rw [h.hasTab_iff hd (by omega), not_not]

theorem Inv.not_clears (h : Inv L s ρ fl q) (hf : Freed ρ d n oldsz ns us) {a x : Nat}
    (ha : ρ a = .table d (k / 1024)) (hk : k ∉ ns)
    (hx : a + 4 * (k % 1024) ≤ x ∧ x < a + 4 * (k % 1024) + 4) : ¬ Clears ρ d ns us x := by
  have hpa := h.isPage ha (by simp)
  rintro (⟨u, hu, h1, h2⟩ | ⟨m, hm, b, hb, h1, h2⟩)
  · obtain ⟨m, -, hum⟩ := hf.mem hu
    have := hpa.disjoint (h.isPage hum (by simp)) (ne_of_role ha hum (by simp))
    omega
  · by_cases hab : a = b
    · subst hab
      rw [ha] at hb
      have hdiv : k / 1024 = m / 1024 := by simpa using hb
      obtain rfl : k = m := by omega
      exact hk hm
    · have := hpa.disjoint (h.isPage hb (by simp)) hab
      omega

theorem Inv.kept_page (h : Inv L s ρ fl q) (hd : ρ d = .dir t) {fl' : List Nat}
    (hf : Freed ρ d n oldsz ns us) (h' : Inv L s' (freeAll ρ us) fl' q) (hu : ρ u = .user d k)
    (hk : k ∉ ns) : pageOf s'.mem d k = some u := by
  have hout : u ∉ us := by
    intro hmem
    obtain ⟨m, hm, hum⟩ := hf.mem hmem
    rw [hu] at hum
    obtain rfl : k = m := by simpa using hum
    exact hk hm
  have hd' : freeAll ρ us d = .dir t := by
    have hdout : d ∉ us := by
      intro hmem
      obtain ⟨m, hm, hum⟩ := hf.mem hmem
      rw [hd] at hum
      cases hum
    rw [freeAll, if_neg hdout, hd]
  refine (h'.pageOf_iff hd' (h.trees.userOf u d k hu).1).mpr ?_
  rw [freeAll, if_neg hout, hu]

end Spec

/-! ## Main theorem -/

section Main

variable {τ : Type} {L : Layout} {s : Phys} {ρ : Nat → Role τ} {fl : List Nat} {q d : Nat} {t : τ}

/-- **`deallocuvm` frees exactly the range** if and only if its loop does not
    come past a page of it. -/
theorem deallocuvm_frees_iff (oldsz newsz : Nat) (h : Inv L s ρ fl q) (hd : ρ d = .dir t)
    (hlt : newsz < oldsz) (hold : oldsz ≤ KERNBASE) :
    FreesSpan L s fl q d oldsz newsz ↔
      ∀ k u, InSpan oldsz newsz k → pageOf s.mem d k = some u →
        ¬ ComesPast s.mem d (PGROUNDUP newsz / PGSIZE) k := by
  have hold' : oldsz ≤ 0x80000000 := hold
  have hspan : ∀ k, InSpan oldsz newsz k ↔ pages newsz ≤ k ∧ 4096 * k < oldsz := fun k =>
    inSpan_iff (by omega)
  have hfirst : PGROUNDUP newsz / PGSIZE = pages newsz := by
    rw [PGROUNDUP_eq (by omega)]
    exact Nat.mul_div_cancel_left _ (by decide)
  rw [hfirst]
  obtain ⟨s', ns, us, he, h', -, hsame, hfreed, hall⟩ :=
    deallocuvm_spec oldsz newsz h hd hold' hlt
  have hpast : ∀ k, InSpan oldsz newsz k →
      (ComesPast s.mem d (pages newsz) k ↔ Skipped ρ d (pages newsz) k) := by
    intro k hk
    have := (hspan k).mp hk
    exact h.comesPast_iff hd (by omega)
  have hmapped : ∀ k u, InSpan oldsz newsz k → pageOf s.mem d k = some u → ρ u = .user d k := by
    intro k u hk hu
    have := (hspan k).mp hk
    exact (h.pageOf_iff hd (by omega)).mp hu
  constructor
  · rintro ⟨s1, us1, he1, -, -, -, hclear, -, -⟩ k u hk hu hskip
    obtain ⟨-, rfl⟩ := he1.unique he
    have hrole := hmapped k u hk hu
    obtain ⟨h1, h2⟩ := (hspan k).mp hk
    -- the page is left, so its entry is not 0
    have hout : k ∉ ns := fun hc =>
      ((hall k h1 h2 ⟨u, hrole⟩).mp hc) ((hpast k hk).mp hskip)
    have hleft := h.kept_page hd hfreed h' hrole hout
    obtain ⟨a, ha, -⟩ := Option.bind_eq_some_iff.mp hu
    obtain ⟨b, hb, hb'⟩ := Option.bind_eq_some_iff.mp hleft
    have hsamedir : SamePage s.mem s1.mem d := fun x h3 h4 =>
      hsame x (h.not_clears_dir hd hfreed ⟨h3, h4⟩)
    rw [hsamedir.ptr (by omega), ha] at hb
    cases hb
    rw [ptr_of_load_zero (hclear k a hk ha)] at hb'
    cases hb'
  · intro hgood
    have hmem : ∀ k u, InSpan oldsz newsz k → pageOf s.mem d k = some u → k ∈ ns := by
      intro k u hk hu
      obtain ⟨h1, h2⟩ := (hspan k).mp hk
      refine (hall k h1 h2 ⟨u, hmapped k u hk hu⟩).mpr fun hs => ?_
      exact hgood k u hk hu ((hpast k hk).mpr hs)
    refine ⟨s', us.reverse, he, h'.seg, h'.nodup, fun u => ?_, ?_, ?_, ?_⟩
    · rw [List.mem_reverse]
      constructor
      · intro hu
        obtain ⟨m, hm, hum⟩ := hfreed.mem hu
        exact ⟨m, (hspan m).mpr (hfreed.bounds m hm),
          (h.pageOf_iff hd (h.trees.userOf u d m hum).1).mpr hum⟩
      · rintro ⟨k, hk, hu⟩
        obtain ⟨v, hv, hvk⟩ := hfreed.page (hmem k u hk hu)
        rwa [h.trees.user_unique (hmapped k u hk hu) hvk]
    · intro k a hk ha
      obtain ⟨h1, h2⟩ := (hspan k).mp hk
      have htab := h.trees.tab d t hd (k / 1024) (by omega) a ha
      have hnot : ∀ u ∈ us, a ≠ u ∧ d ≠ u := by
        intro u hu
        obtain ⟨m, -, hum⟩ := hfreed.mem hu
        exact ⟨ne_of_role htab hum (by simp), ne_of_role hd hum (by simp)⟩
      have htab' : freeAll ρ us a = .table d (k / 1024) := by
        rw [freeAll, if_neg fun hc => (hnot a hc).1 rfl, htab]
      refine h'.trees.zero a d _ htab' (by omega) _ (Nat.mod_lt _ (by decide)) ?_
      -- a page that is still there would not have been freed
      by_contra hne
      obtain ⟨u, hu⟩ := Option.ne_none_iff_exists'.mp hne
      have hrole := h'.trees.user a d _ htab' (by omega) _ (Nat.mod_lt _ (by decide)) u hu
      rw [show 1024 * (k / 1024) + k % 1024 = k by omega] at hrole
      have hin : u ∉ us := by
        intro hc
        rw [freeAll, if_pos hc] at hrole
        cases hrole
      rw [freeAll, if_neg hin] at hrole
      have hk' := hmem k u hk ((h.pageOf_iff hd (by omega)).mpr hrole)
      obtain ⟨v, hv, hvk⟩ := hfreed.page hk'
      rw [h.trees.user_unique hvk hrole] at hv
      exact hin hv
    · intro i hi
      refine load_congr fun x h1 h2 => hsame x ?_
      exact h.not_clears_dir hd hfreed ⟨by omega, by omega⟩
    · intro k a hk hno ha
      have htab := h.trees.tab d t hd (k / 1024) (by omega) a ha
      have hout : k ∉ ns := fun hc => hno ((hspan k).mpr (hfreed.bounds k hc))
      exact load_congr fun x h1 h2 => hsame x (h.not_clears hfreed htab hout ⟨h1, h2⟩)

end Main

/-! ## A missing table -/

/-- The kernel ends at `0x80160000`. -/
def spanLayout : Layout := builtLayout

/-- A directory at `0x80200000` with one table, for the second 4 MB, that maps
    the page at `0x80202000` at its first address. -/
def gapState : Phys where
  mem := store (store (fun _ => 0) 0x80200004 4 (V2P 0x80201000 + 7)) 0x80201000 4
    (V2P 0x80202000 + 7)
  freelist := 0
  deny := []

theorem gap_inv : ∃ ρ : Nat → Role Unit, Inv spanLayout gapState ρ [] 0 ∧
    ρ 0x80200000 = .dir () := by
  have hpage : ∀ a, a = 0x80200000 ∨ a = 0x80201000 ∨ a = 0x80202000 → spanLayout.IsPage a := by
    rintro a (rfl | rfl | rfl)
    all_goals exact ⟨by decide, by decide, by decide⟩
  have h0 : Inv spanLayout ⟨fun _ => 0, 0, []⟩ (allHeld spanLayout ()) [] 0 := Inv.start () rfl
  have hz : ∀ a i, load (fun _ => (0 : UInt8)) (a + 4 * i) 4 = 0 := by
    intro a i
    rfl
  have h1 := h0.addDir () (allHeld_page (hpage 0x80200000 (by simp)))
    fun i _ => ptr_of_load_zero (hz _ i)
  have h2 := h1.addTable (f := 7) (i := 1) (update_self ..)
    ((update_of_ne (by decide) _ _).trans (allHeld_page (hpage 0x80201000 (by simp))))
    (fun j _ => hz _ j) (by decide) (ptr_of_load_zero (hz _ 1)) (by decide) (by decide)
  have h3 := h2.addUser (f := 7) (i := 1) (j := 0) (u := 0x80202000) (update_self ..)
    (by decide) (by decide)
    ((update_of_ne (by decide) _ _).trans ((update_of_ne (by decide) _ _).trans
      (allHeld_page (hpage 0x80202000 (by simp)))))
    (ptr_of_load_zero (by
      show load (store (fun _ => 0) 0x80200004 4 _) (0x80201000 + 4 * 0) 4 = 0
      rw [load_store_of_disjoint (by decide)]
      rfl))
    (by decide) (by decide)
  refine ⟨_, h3, ?_⟩
  rw [update_of_ne (by decide), update_of_ne (by decide), update_self]

theorem gap_ptr : ptr gapState.mem 0x80200000 0 = none ∧
    ptr gapState.mem 0x80200000 1 = some 0x80201000 ∧
    ptr gapState.mem 0x80201000 0 = some 0x80202000 := by
  refine ⟨?_, ?_, ?_⟩
  · refine ptr_of_load_zero ?_
    show load (store (store _ 0x80200004 4 _) 0x80201000 4 _) (0x80200000 + 4 * 0) 4 = 0
    rw [load_store_of_disjoint (by decide), load_store_of_disjoint (by decide)]
    rfl
  · show ptr (store (store _ 0x80200004 4 _) 0x80201000 4 _) 0x80200000 1 = _
    rw [(samePage_store (by decide)).ptr (by decide)]
    exact ptr_store_self (L := spanLayout) (f := 7) ⟨by decide, by decide, by decide⟩ (by decide)
      (by decide)
  · exact ptr_store_self (L := spanLayout) (i := 0) (f := 7) ⟨by decide, by decide, by decide⟩
      (by decide) (by decide)

/-- The page is mapped at 4 MB. From `newsz = 0x1000` on the loop goes from `0x1000`, where there is
    no table, to `0x401000`. -/
theorem deallocuvm_comes_past : (∃ ρ : Nat → Role Unit, Inv spanLayout gapState ρ [] 0 ∧
      ρ 0x80200000 = .dir ()) ∧
    InSpan 0x401000 0x1000 1024 ∧ pageOf gapState.mem 0x80200000 1024 = some 0x80202000 ∧
    Ends (deallocuvm spanLayout 0x80200000 0x401000 0x1000) gapState 0x1000 gapState ∧
    ¬ FreesSpan spanLayout gapState [] 0 0x80200000 0x401000 0x1000 := by
  obtain ⟨h0, h1, h2⟩ := gap_ptr
  have hpage : pageOf gapState.mem 0x80200000 1024 = some 0x80202000 := by
    show (ptr gapState.mem 0x80200000 1).bind _ = _
    rw [h1]
    exact h2
  have hspan : InSpan 0x401000 0x1000 1024 := ⟨by decide, by decide⟩
  have hrun : Ends (deallocuvm spanLayout 0x80200000 0x401000 0x1000) gapState 0x1000 gapState := by
    have hwalk : Ends (walkpgdir 0x80200000 0x1000 false) gapState none gapState :=
      ends_walk_none h0
    have hskip : (deallocFrom spanLayout 0x80200000 0x401000 (1048575 + 1) 0x1000).run gapState =
        _ :=
      dealloc_round_skip 1048575 (by decide) hwalk
    have hend : Ends (deallocFrom spanLayout 0x80200000 0x401000 1048576 0x1000) gapState ()
        gapState := hskip.trans (dealloc_round_end 1048574 (by decide))
    unfold Ends deallocuvm
    rw [if_neg (by decide)]
    exact run_bind_of_ends hend
  refine ⟨gap_inv, hspan, hpage, hrun, ?_⟩
  rintro ⟨s', us, he, -, -, -, hclear, -⟩
  obtain ⟨-, rfl⟩ := hrun.unique he
  have hz := ptr_of_load_zero (hclear 1024 0x80201000 hspan h1)
  rw [show 1024 % 1024 = 0 by decide, h2] at hz
  cases hz

/-- From `newsz = 0` on it frees the page. -/
theorem deallocuvm_frees_gap : FreesSpan spanLayout gapState [] 0 0x80200000 0x401000 0 := by
  obtain ⟨ρ, hinv, hd⟩ := gap_inv
  refine (deallocuvm_frees_iff 0x401000 0 hinv hd (by decide) (by decide)).mpr ?_
  rintro k u - - ⟨-, h, -⟩
  rw [show PGROUNDUP 0 / PGSIZE % 1024 = 0 by decide] at h
  exact absurd h (Nat.not_lt_zero _)

end Xv6.Mem
