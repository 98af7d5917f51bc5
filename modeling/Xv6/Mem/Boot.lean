import Xv6.Mem.Copy

/-! # Specification of `kinit1`, `kinit2` and `inituvm`

    Before `kinit1` no page is on the free list. `freerange` puts a range of pages there, the last
    one first.
-/

namespace Xv6.Mem

open ByteMem Program Function

variable {τ : Type} {L : Layout} {s s' : Phys} {ρ ρ' : Nat → Role τ} {fl : List Nat} {d a n : Nat}
  {t : τ}

/-! ## The first role map -/

open Classical in
/-- Every page of the allocator is held by `t`. -/
noncomputable def allHeld (L : Layout) (t : τ) : Nat → Role τ :=
  fun a => if L.IsPage a then .held t else .other

theorem allHeld_page (ha : L.IsPage a) : allHeld L t a = .held t := if_pos ha

theorem allHeld_cases (L : Layout) (t : τ) (a : Nat) :
    (L.IsPage a ∧ allHeld L t a = .held t) ∨ (¬ L.IsPage a ∧ allHeld L t a = .other) := by
  by_cases ha : L.IsPage a
  · exact .inl ⟨ha, if_pos ha⟩
  · exact .inr ⟨ha, if_neg ha⟩

theorem Inv.start (t : τ) (h : s.freelist = 0) : Inv L s (allHeld L t) [] 0 := by
  -- every role is `held` or `other`
  have hno : ∀ {a r}, allHeld L t a = r → r ≠ .held t → r ≠ .other → False := by
    intro a r ha h1 h2
    rcases allHeld_cases L t a with ⟨-, he⟩ | ⟨-, he⟩
    · exact h1 (ha.symm.trans he)
    · exact h2 (ha.symm.trans he)
  refine ⟨fun a ha => ?_, h, fun a => ?_, List.nodup_nil, by decide, ?_, ?_, ?_, ?_, ?_⟩
  · rcases allHeld_cases L t a with ⟨hp, -⟩ | ⟨-, he⟩
    · exact hp
    · exact absurd he ha
  · constructor
    · intro ha
      simp at ha
    · intro ha
      exact (hno ha (by simp) (by simp)).elim
  · intro d t' hd
    exact (hno hd (by simp) (by simp)).elim
  · intro a d i ha
    exact (hno ha (by simp) (by simp)).elim
  · intro a d i ha
    exact (hno ha (by simp) (by simp)).elim
  · intro u d n hu
    exact (hno hu (by simp) (by simp)).elim
  · intro a d i ha
    exact (hno ha (by simp) (by simp)).elim

/-! ## `freerange` -/

/-- The `n` pages from `a` on. -/
def pageRun (a n : Nat) : List Nat := (List.range n).map fun i => a + 4096 * i

theorem pageRun_succ (a n : Nat) : pageRun a (n + 1) = a :: pageRun (a + 4096) n := by
  unfold pageRun
  rw [List.range_succ_eq_map, List.map_cons, List.map_map]
  refine congrArg (a :: ·) (List.map_congr_left fun i _ => ?_)
  show a + 4096 * (i + 1) = a + 4096 + 4096 * i
  omega

theorem mem_pageRun {u : Nat} : u ∈ pageRun a n ↔ ∃ i < n, u = a + 4096 * i := by
  simp [pageRun, eq_comm]

@[simp] theorem length_pageRun (a n : Nat) : (pageRun a n).length = n := by simp [pageRun]

theorem freerangeFrom_spec {vend : Nat} (hend : vend ≤ 0x8E000000) (n : Nat) :
    ∀ {fuel a : Nat} {s : Phys} {ρ : Nat → Role τ} {fl : List Nat}, Inv L s ρ fl 0 → n < fuel →
      a + 4096 * n ≤ vend → vend < a + 4096 * (n + 1) → (∀ u ∈ pageRun a n, ρ u = .held t) →
      ∃ s', Ends (freerangeFrom L vend fuel a) s () s' ∧
        Inv L s' (freeAll ρ (pageRun a n)) ((pageRun a n).reverse ++ fl) 0 ∧ s'.deny = s.deny := by
  induction n with
  | zero =>
    intro fuel a s ρ fl h hfuel h1 h2 _
    obtain ⟨fuel, rfl⟩ := Nat.exists_eq_succ_of_ne_zero (ne_of_gt hfuel)
    refine ⟨s, ?_, ?_, rfl⟩
    · unfold Ends freerangeFrom
      have hstop : ¬ u32 (a + PGSIZE) ≤ vend := by
        simp only [u32, PGSIZE]
        rw [Nat.mod_eq_of_lt (by omega)]
        omega
      rw [if_neg hstop]
      rfl
    · simpa [pageRun] using h
  | succ n ih =>
    intro fuel a s ρ fl h hfuel h1 h2 hheld
    obtain ⟨fuel, rfl⟩ := Nat.exists_eq_succ_of_ne_zero (ne_of_gt (Nat.zero_lt_of_lt hfuel))
    rw [pageRun_succ] at hheld ⊢
    rw [Nat.mul_add_one, ← add_assoc] at h1 h2
    have h1' : a + 4096 + 4096 * n ≤ vend := by
      rw [Nat.add_right_comm]
      exact h1
    have hmore : a + 4096 ≤ vend := le_trans (Nat.le_add_right _ _) h1'
    have h2' : vend < a + 4096 + 4096 * (n + 1) := by
      rw [Nat.add_right_comm]
      exact h2
    have ha : ρ a = .held t := hheld a (by simp)
    have hstep : u32 (a + PGSIZE) = a + 4096 :=
      Nat.mod_eq_of_lt (lt_of_le_of_lt (le_trans hmore hend) (by decide))
    have hpage : L.IsPage a := h.isPage ha (by simp)
    obtain ⟨s1, hkf⟩ : ∃ s1, Ends (kfree L a) s () s1 := ⟨_, ends_kfree hpage⟩
    obtain ⟨hinv, hdeny⟩ := kfree_spec h ha hkf
    obtain ⟨s', he, hinv', hdeny'⟩ := ih (a := a + 4096) hinv (Nat.lt_of_succ_lt_succ hfuel)
      h1' h2' fun u hu => by
        have hne : u ≠ a := by
          obtain ⟨i, -, rfl⟩ := mem_pageRun.mp hu
          omega
        rw [update_of_ne hne]
        exact hheld u (by simp [hu])
    refine ⟨s', ?_, ?_, hdeny'.trans hdeny⟩
    · unfold Ends freerangeFrom
      rw [hstep, if_pos hmore, run_bind_of_ends hkf]
      exact he
    · rw [freeAll_cons, List.reverse_cons, List.append_assoc]
      exact hinv'

theorem freerange_spec (vstart : Nat) (h : Inv L s ρ fl 0) (ha : PGROUNDUP vstart = a)
    (hend : a + 4096 * n ≤ 0x8E000000) (hheld : ∀ u ∈ pageRun a n, ρ u = .held t) :
    ∃ s', Ends (freerange L vstart (a + 4096 * n)) s () s' ∧
      Inv L s' (freeAll ρ (pageRun a n)) ((pageRun a n).reverse ++ fl) 0 ∧ s'.deny = s.deny := by
  unfold freerange
  rw [ha]
  exact freerangeFrom_spec hend n h (by simp only [MAXPAGES]; omega) (by omega) (by omega) hheld

/-! ## `inituvm` -/

theorem inituvm_spec (init : ByteMem.Mem) {sz : Nat} (h : Inv L s ρ fl 0) (hd : ρ d = .dir t)
    (hno : ¬ Maps ρ d 0) (htab : ¬ HasTab ρ d 0) (hsz : sz < PGSIZE) (hg : Grants s fl 2) :
    ∃ s' ρ' fl', Ends (inituvm d init sz) s () s' ∧ Inv L s' ρ' fl' 0 ∧ Local d ρ ρ' ∧
      Took s fl s' fl' 2 ∧ ∀ m, Maps ρ' d m ↔ Maps ρ d m ∨ m = 0 := by
  obtain ⟨u, s1, hk⟩ := ends_kalloc s
  rcases kalloc_spec t h hk with ⟨-, -, hg1⟩ | ⟨fl1, rfl, hpage, hmem1, htook1, hinv1⟩
  · exact absurd (hg.mono (by decide)) hg1
  have hfree : ρ u = .free := (h.free u).mp (by simp)
  have hheld : update ρ u (.held t) u = .held t := update_self ..
  have hinv2 := hinv1.zero hheld 0
  have htook2 : Took s (u :: fl1) { s1 with mem := fill s1.mem u 4096 0 } fl1 1 := htook1.mem
  have hd1 : update ρ u (.held t) d = .dir t := update_role hd hfree (by simp)
  have hnew : newTab (update ρ u (.held t)) d (0 / 1024) = 1 :=
    if_neg fun hc => htab ((hasTab_update_held hfree _).mp hc)
  obtain ⟨ok, s3, ρ3, fl3, hmap, hinv3, -, -, ⟨-, -, -, hg'⟩ | ⟨rfl, hadd, htook3, -⟩⟩ :=
    mapUser_spec (n := 0) (PTE_W ||| PTE_U) hinv2 hd1 (by decide) hheld (by decide)
      fun hm => hno ((maps_update_held hfree 0).mp hm)
  · rw [hnew] at hg'
    exact absurd ((grants_add htook2).mp hg) hg'
  rw [hnew] at htook3
  refine ⟨{ s3 with mem := copy s3.mem u init 0 sz }, ρ3, fl3, ?_, ?_, UserAdded.local hfree hadd,
    (htook2.trans htook3).mem, fun m => by rw [hadd.maps hheld m, maps_update_held hfree m]⟩
  · unfold Ends inituvm
    rw [if_neg (not_le.mpr hsz), run_bind_of_ends hk,
      run_bind_of_ends ((ends_memset (r := ())).mpr rfl), run_bind_of_ends hmap]
    rfl
  · -- the program is written into the user page
    refine hinv3.write rfl (by rw [hadd.page]; simp) (by rw [hadd.page]; simp [Role.Structural]) ?_
    intro x hx
    simp only [PGSIZE] at hsz
    exact if_neg (by omega)

/-! ## A kernel of 400 KB -/

theorem data_aligned_400K : 0x80108000 % PGSIZE = 0 := by decide

theorem text_lt_400K : KERNLINK < 0x80108000 := by decide

/-- The addresses that `kernel.ld` gives it. -/
def builtLayout : Layout where
  data := 0x80108000
  end_ := 0x80160000
  data_aligned := data_aligned_400K
  text_lt := text_lt_400K
  data_le := by decide
  end_le := by decide

end Xv6.Mem
