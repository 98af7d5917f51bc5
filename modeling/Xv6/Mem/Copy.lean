import Xv6.Mem.Confined

/-! # Specification of `copyuvm`

    The loop copies the pages of the parent one by one into a new directory. Where the code fails to
    give back what it took, the role map says so.
-/

namespace Xv6.Mem

open ByteMem Program Function

variable {τ : Type} {L : Layout} {s s' : Phys} {ρ ρ' ρ'' : Nat → Role τ} {fl : List Nat}
  {q d n lo m p sz x : Nat} {t tp : τ} {I : Nat → Prop}

/-! ## Pages that have been copied -/

/-- Page number `m` of `d` is a copy of that of `p`: a page that was free, with
    the bytes and the flags of the parent's. -/
def CopyAt (s : Phys) (ρ : Nat → Role τ) (p d : Nat) (s' : Phys) (ρ' : Nat → Role τ) (m : Nat) :
    Prop :=
  ∃ v u e, ρ v = .user p m ∧ EntryIs s ρ p m e ∧ ρ u = .free ∧ ρ' u = .user d m ∧
    EntryIs s' ρ' d m (V2P u + PTE_FLAGS e) ∧ ∀ x < 4096, s'.mem (u + x) = s.mem (v + x)

/-- The `k` pages from page number `n` on have been copied. -/
structure Copied (s : Phys) (ρ : Nat → Role τ) (p d n k : Nat) (s' : Phys) (ρ' : Nat → Role τ) :
    Prop where
  kept  : ∀ x, ρ x ≠ .free → ρ' x = ρ x
  roles : Local d ρ ρ'
  frame : Frame d n s ρ s' ρ'
  pages : ∀ m, n ≤ m → m < n + k → CopyAt s ρ p d s' ρ' m

theorem Copied.zero (h : s'.mem = s.mem) : Copied s ρ p d n 0 s' ρ where
  kept _ _ := rfl
  roles := .refl d ρ
  frame := .refl d n ρ h
  pages m h1 h2 := by omega

/-- Where no page loses its role, a frame holds from any lower page number on. -/
theorem Frame.lower {lo' : Nat} (hf : Frame d lo' s ρ s' ρ') (hle : lo ≤ lo')
    (hkept : ∀ x, ρ x ≠ .free → ρ' x = ρ x) : Frame d lo s ρ s' ρ' where
  mem x hx := hf.mem x fun ha => hx (ha.mono hle)
  alters x hx := by
    -- a page that is subject to change has its old role or was free
    have hold : ∀ a, InPage a x → Alters ρ d lo x ∨ ρ' a = ρ a := by
      intro a hin
      by_cases ha : ρ a = .free
      · exact .inl (.inl (.inl ⟨a, ha, hin⟩))
      · exact .inr (hkept a ha)
    rcases hx with (⟨a, ha, hin⟩ | hin) | ⟨v, m, hv, hm, hin⟩ | ⟨a, m, ha, hm, hlt, h1, h2⟩
    · rcases hold a hin with hdone | he
      · exact hdone
      · exact .inl (.inl ⟨a, he ▸ ha, hin⟩)
    · exact .inl (.inr hin)
    · rcases hold v hin with hdone | he
      · exact hdone
      · exact .inr (.inl ⟨v, m, he ▸ hv, hm, hin⟩)
    · rcases hold a ⟨by omega, by omega⟩ with hdone | he
      · exact hdone
      · exact .inr (.inr ⟨a, m, he ▸ ha, hm, hlt, h1, h2⟩)
  kern := hf.kern

/-- A copy that is made later is a copy of the page as it was before. -/
theorem CopyAt.earlier (hkept : ∀ x, ρ x ≠ .free → ρ2 x = ρ x)
    (hback : ∀ x, Loose p (ρ2 x) → ρ2 x ≠ .free → ρ2 x = ρ x)
    (hsame : ∀ x, Loose p (ρ x) → ρ x ≠ .free → SamePage s.mem s2.mem x)
    (hc : CopyAt s2 ρ2 p d s' ρ' m) : CopyAt s ρ p d s' ρ' m := by
  obtain ⟨v, u, e, hv, ⟨a, ha, he⟩, hu, hu', he', hbytes⟩ := hc
  have hv1 : ρ v = .user p m := by
    rw [← hback v (.inr (.inr ⟨m, hv⟩)) (by simp [hv]), hv]
  have ha1 : ρ a = .table p (m / 1024) := by
    rw [← hback a (.inr (.inl ⟨_, ha⟩)) (by simp [ha]), ha]
  have hu1 : ρ u = .free := by
    by_contra hne
    exact hne (hkept u hne ▸ hu)
  refine ⟨v, u, e, hv1, ⟨a, ha1, ?_⟩, hu1, hu', he', fun x hx => ?_⟩
  · have hload := (hsame a (.inr (.inl ⟨_, ha1⟩)) (by simp [ha1])).load
      (Nat.mod_lt m (by decide : 0 < 1024))
    rw [← hload, he]
  · rw [hbytes x hx]
    exact hsame v (.inr (.inr ⟨m, hv1⟩)) (by simp [hv1]) _ (by omega) (by omega)

/-- A copy stays when later page numbers are worked on. -/
theorem CopyAt.later (h₂ : Inv L s2 ρ2 fl2 q) (hd2 : ρ2 d = .dir t) (hm : m < lo)
    (hf : Frame d lo s2 ρ2 s' ρ') (hkept : ∀ x, ρ2 x ≠ .free → ρ' x = ρ2 x)
    (hc : CopyAt s ρ p d s2 ρ2 m) : CopyAt s ρ p d s' ρ' m := by
  obtain ⟨v, u, e, hv, he, hu, hu2, ⟨a, ha, he2⟩, hbytes⟩ := hc
  refine ⟨v, u, e, hv, he, hu, ?_, ⟨a, ?_, ?_⟩, fun x hx => ?_⟩
  · rw [hkept u (by simp [hu2]), hu2]
  · rw [hkept a (by simp [ha]), ha]
  · rw [← he2]
    exact load_congr fun x h1 h2 => hf.mem x (h₂.not_alters_entry hd2 ha hm h1 h2)
  · rw [← hbytes x hx]
    exact hf.mem _ (h₂.not_alters hd2 (by simp [hu2]) (by simp [hu2]) (ne_of_role hu2 hd2 (by simp))
      (fun j hj => by rw [hu2]; simp; omega) (fun i _ => by rw [hu2]; simp) ⟨by omega, by omega⟩)

/-- The pages of two directories are different pages. -/
theorem Loose.unique {r : Role τ} (hp : Loose p r) (hd : Loose d r) (hr : r ≠ .free) : p = d := by
  rcases hp with hp | ⟨i, hp⟩ | ⟨m, hp⟩
  · exact absurd hp hr
  · by_contra hne
    rw [hp] at hd
    exact not_loose_table hne hd
  · by_contra hne
    rw [hp] at hd
    exact not_loose_user hne hd

theorem Copied.cons (h : Inv L s ρ fl q) (hd : ρ d = .dir t) (hpd : p ≠ d) (h2 : Inv L s2 ρ2 fl2 q)
    (h1 : Copied s ρ p d n 1 s2 ρ2)
    (hk : Copied s2 ρ2 p d (n + 1) k s' ρ') : Copied s ρ p d n (k + 1) s' ρ' := by
  have hd2 : ρ2 d = .dir t := by rw [h1.kept d (by simp [hd]), hd]
  refine ⟨fun x hx => ?_, h1.roles.trans hk.roles,
    h1.frame.trans (hk.frame.lower (Nat.le_succ n) hk.kept), fun m hge hlt => ?_⟩
  · have hx2 := h1.kept x hx
    rw [hk.kept x (by rw [hx2]; exact hx), hx2]
  · by_cases hm : m = n
    · subst hm
      exact (h1.pages m le_rfl (by omega)).later h2 hd2 (Nat.lt_succ_self m) hk.frame hk.kept
    · refine (hk.pages m (by omega) (by omega)).earlier h1.kept (fun x hl hx => ?_)
        (fun x hl hx => ?_)
      · exact h1.roles.role_back fun hl' => hpd (hl.unique hl' hx)
      · have hc : Confined d s ρ s2 ρ2 := .of_frame h1.roles h1.frame
        have hxd : x ≠ d := by
          rintro rfl
          rw [hd] at hl
          exact not_loose_dir hl
        exact hc.samePage h (by simp [hd]) hl.ne_other hxd fun hl' => hpd (hl.unique hl' hx)

/-! ## The loop -/

theorem PTE_FLAGS_or_one {e : Nat} (he : e % 2 = 1) : PTE_FLAGS e ||| 1 = PTE_FLAGS e := by
  refine Nat.eq_of_testBit_eq fun i => ?_
  cases i with
  | zero =>
    have : (PTE_FLAGS e).testBit 0 = true := by
      rw [Nat.testBit_zero, decide_eq_true_eq]
      simp only [PTE_FLAGS, PGSIZE]
      omega
    rw [Nat.testBit_or, this, Bool.true_or]
  | succ i =>
    rw [Nat.testBit_or, Nat.testBit_succ 1, show 1 / 2 = 0 from rfl,
      Nat.zero_testBit, Bool.or_false]

section Rounds

variable {p sz i u pte : Nat} {s1 s2 : Phys} (fuel : Nat) {ok : Bool} {t : τ}

theorem copy_round_end (h : sz ≤ i) : Ends (copyFrom p d sz (fuel + 1) i) s true s := by
  unfold Ends
  rw [copyFrom, if_neg (by omega)]
  rfl

/-- A round that gets past the checks of the parent's entry. -/
theorem copy_round (h : i < sz) (hw : Ends (walkpgdir p i false) s (some pte) s)
    (hp : present (load s.mem pte 4) = true) (hk : Ends kalloc s u s1) :
    (copyFrom p d sz (fuel + 1) i).run s =
      (if u = 0 then return false
        else do
          let m ← get
          memmove u m.mem (P2V (PTE_ADDR (load s.mem pte 4))) PGSIZE
          let ok ← mappages d i PGSIZE (V2P u) (PTE_FLAGS (load s.mem pte 4))
          if ok then copyFrom p d sz fuel (u32 (i + PGSIZE)) else return false :
        VM Bool).run s1 := by
  rw [copyFrom, if_pos h, run_bind_of_ends hw]
  dsimp only
  rw [run_bind_of_ends (ends_load32.mpr ⟨rfl, rfl⟩), hp, if_neg (by simp), run_bind_of_ends hk]

theorem copy_round_oom (h : i < sz) (hw : Ends (walkpgdir p i false) s (some pte) s)
    (hp : present (load s.mem pte 4) = true) (hk : Ends kalloc s 0 s1) :
    Ends (copyFrom p d sz (fuel + 1) i) s false s1 := by
  unfold Ends
  rw [copy_round fuel h hw hp hk, if_pos rfl]
  rfl

theorem copy_round_mapped (h : i < sz) (hw : Ends (walkpgdir p i false) s (some pte) s)
    (hp : present (load s.mem pte 4) = true) (hk : Ends kalloc s u s1) (hu : u ≠ 0)
    (hm : Ends (mappages d i PGSIZE (V2P u) (PTE_FLAGS (load s.mem pte 4)))
      { s1 with mem := copy s1.mem u s1.mem (P2V (PTE_ADDR (load s.mem pte 4))) PGSIZE } ok s2) :
    (copyFrom p d sz (fuel + 1) i).run s =
      (if ok then copyFrom p d sz fuel (u32 (i + PGSIZE)) else return false : VM Bool).run s2 := by
  rw [copy_round fuel h hw hp hk, if_neg hu, run_bind_of_ends (ends_get.mpr ⟨rfl, rfl⟩),
    run_bind_of_ends ((ends_memmove (r := ())).mpr rfl), run_bind_of_ends hm]

theorem copy_round_missing (h : i < sz) (hw : Ends (walkpgdir p i false) s (some pte) s)
    (hp : present (load s.mem pte 4) = false) :
    (copyFrom p d sz (fuel + 1) i).run s = .error (.panic "copyuvm: page not present") := by
  rw [copyFrom, if_pos h, run_bind_of_ends hw]
  dsimp only
  rw [run_bind_of_ends (ends_load32.mpr ⟨rfl, rfl⟩), hp, if_pos (by simp)]
  rfl

/-- A run that ends found the page in the parent. -/
theorem copy_round_present (h : Inv L s ρ fl q) (hp : ρ p = .dir t) (hn : n < 524288)
    (hlt : 4096 * n < sz) (he : Ends (copyFrom p d sz (fuel + 1) (4096 * n)) s ok s') :
    Maps ρ p n := by
  unfold Ends at he
  rw [copyFrom, if_pos hlt] at he
  by_cases htab : HasTab ρ p (n / 1024)
  · obtain ⟨a, ha⟩ := htab
    rw [run_bind_of_ends (h.ends_walk (by omega) ha false)] at he
    dsimp only at he
    rw [run_bind_of_ends (ends_load32.mpr ⟨rfl, rfl⟩)] at he
    cases hpres : present (load s.mem (a + 4 * (n % 1024)) 4) with
    | false =>
      rw [hpres, if_pos (by simp)] at he
      exact absurd he not_ends_panic
    | true =>
      have hptr : ptr s.mem a (n % 1024) =
          some (P2V (PTE_ADDR (load s.mem (a + 4 * (n % 1024)) 4))) := by simp [ptr, hpres]
      have hu := h.trees.user a p _ ha (by omega) _ (Nat.mod_lt _ (by decide)) _ hptr
      rw [show 1024 * (n / 1024) + n % 1024 = n by omega] at hu
      exact ⟨_, hu⟩
  · rw [run_bind_of_ends (h.ends_walk_none hp (by omega) htab)] at he
    exact absurd he not_ends_panic

/-- One round, for a page that the parent has: there is no page for the copy,
    or none for the table it needs, and then the page for the copy stays with
    nobody; or the page is copied and the loop goes on. -/
theorem copy_round_spec {v : Nat} (leak : τ) (h : Inv L s ρ fl 0) (hd : ρ d = .dir t)
    (hn : n < 524288) (hlt : 4096 * n < sz) (hfresh : ¬ Maps ρ d n) (hv : ρ v = .user p n) :
    (∃ s', Ends (copyFrom p d sz (fuel + 1) (4096 * n)) s false s' ∧ Inv L s' ρ fl 0 ∧
      ¬ Grants s fl 1) ∨
    (∃ u s' fl', Ends (copyFrom p d sz (fuel + 1) (4096 * n)) s false s' ∧
      Inv L s' (update ρ u (.held leak)) fl' 0 ∧ ρ u = .free ∧ Grants s fl 1 ∧
      ¬ Grants s fl (1 + newTab ρ d (n / 1024))) ∨
    ∃ s2 ρ2 fl2, (copyFrom p d sz (fuel + 1) (4096 * n)).run s =
        (copyFrom p d sz fuel (4096 * (n + 1))).run s2 ∧ Inv L s2 ρ2 fl2 0 ∧
      Copied s ρ p d n 1 s2 ρ2 ∧ Took s fl s2 fl2 (1 + newTab ρ d (n / 1024)) ∧
      (∀ i, HasTab ρ2 d i ↔ HasTab ρ d i ∨ i = n / 1024) ∧
      ∀ m, Maps ρ2 d m ↔ Maps ρ d m ∨ m = n := by
  obtain ⟨-, a, ha, hptr⟩ := h.trees.userOf v p n hv
  have hw := h.ends_walk (by omega) ha false
  have hpres : present (load s.mem (a + 4 * (n % 1024)) 4) = true := by
    by_contra hne
    simp [ptr, hne] at hptr
  have hva : P2V (PTE_ADDR (load s.mem (a + 4 * (n % 1024)) 4)) = v := by
    simpa [ptr, hpres] using hptr
  have hodd := (present_iff _).mp hpres
  generalize hent : load s.mem (a + 4 * (n % 1024)) 4 = e at hpres hva hodd
  obtain ⟨u, s1, hkal⟩ := ends_kalloc s
  rcases kalloc_spec leak h hkal with ⟨rfl, rfl, hg⟩ | ⟨fl1, rfl, hpu, hmem, htook, hinv⟩
  · exact .inl ⟨_, copy_round_oom fuel hlt hw (hent ▸ hpres) hkal,
      h.congr rfl fun _ _ _ _ _ => rfl, hg⟩
  have hu0 : u ≠ 0 := by have := hpu.gt; omega
  have hfree : ρ u = .free := (h.free u).mp (by simp)
  have hheld : update ρ u (.held leak) u = .held leak := update_self ..
  have hd1 : update ρ u (.held leak) d = .dir t := update_role hd hfree (by simp)
  -- the copy is written to the new page only
  have hout : ∀ x, ¬ InPage u x → copy s1.mem u s1.mem v PGSIZE x = s.mem x := by
    intro x hx
    unfold InPage at hx
    rw [← hmem]
    exact if_neg (by simp only [PGSIZE]; omega)
  have hcopy : Inv L { s1 with mem := copy s1.mem u s1.mem v PGSIZE }
      (update ρ u (.held leak)) fl1 0 :=
    hinv.write rfl (by rw [hheld]; simp) (by rw [hheld]; simp [Role.Structural])
      fun x hx => if_neg (by simp only [PGSIZE]; omega)
  have hnew1 : newTab (update ρ u (.held leak)) d (n / 1024) = newTab ρ d (n / 1024) := by
    unfold newTab
    rw [hasTab_update_held hfree]
  obtain ⟨ok, s2, ρ2, fl2, hmap, hinv2, hx, -, hres⟩ := mapUser_spec (PTE_FLAGS e) hcopy hd1 hn
    hheld (Nat.mod_lt _ (by decide)) (by rw [maps_update_held hfree]; exact hfresh)
  rw [hnew1] at hres
  have htook1 := htook.mem (m := copy s1.mem u s1.mem v PGSIZE)
  have hrun := copy_round_mapped fuel hlt hw (hent ▸ hpres) hkal hu0 (hent ▸ hva ▸ hmap)
  rcases hres with ⟨rfl, rfl, rfl, hg⟩ | ⟨rfl, hadd, htook2, -, hentry, -⟩
  · exact .inr (.inl ⟨u, s2, _, hrun, hinv2, hfree, htook.grants, fun hg' =>
      hg ((grants_add htook1).mp hg')⟩)
  rw [next_page hn] at hrun
  have hframe : Frame d n s ρ s2 ρ2 :=
    hadd.frame hfree le_rfl hn (.takePage hfree hout) hx
  have hkept : ∀ x, ρ x ≠ .free → ρ2 x = ρ x := by
    intro x hx
    have hxu : x ≠ u := fun he => hx (he ▸ hfree)
    have hr := hadd.roles x hxu
    rw [update_of_ne hxu] at hr
    exact hr.resolve_right fun hc => hx hc.1
  refine .inr (.inr ⟨s2, ρ2, fl2, hrun, hinv2, ⟨hkept, hadd.local hfree, hframe, fun m h1 h2 => ?_⟩,
    htook1.trans htook2, fun i => ?_, fun m => ?_⟩)
  · obtain rfl : m = n := by omega
    rw [PTE_FLAGS_or_one hodd] at hentry
    refine ⟨v, u, e, hv, ⟨a, ha, hent⟩, hfree, hadd.page, hentry, fun x hx4 => ?_⟩
    -- the page is mapped after it was written
    rw [hx (u + x) (hcopy.not_alters hd1 (by simp) (by simp) (ne_of_role hheld hd1 (by simp))
      (fun j _ => by rw [hheld]; simp) (fun i _ => by rw [hheld]; simp) ⟨by omega, by omega⟩)]
    show copy s1.mem u s1.mem v PGSIZE (u + x) = s.mem (v + x)
    unfold copy
    rw [if_pos (by simp only [PGSIZE]; omega), hmem, Nat.add_sub_cancel_left]
  · rw [hadd.tabs, hasTab_update_held hfree]
  · rw [hadd.maps hheld, maps_update_held hfree]

end Rounds

/-- A page is granted, but not the table that it needs as well. -/
def Torn (T : Nat → Prop) (s : Phys) (fl : List Nat) (n k : Nat) : Prop :=
  ∃ i < k, Grants s fl (userNeed T n i + 1) ∧ ¬ Grants s fl (userNeed T n (i + 1))

/-- What the loop of `copyuvm` does with the child's directory `d`. When a table is refused, the
    page it was for stays with nobody: it is `leak`'s. -/
theorem copyFrom_spec (leak : τ) (hsz : sz ≤ 0x80000000) (k : Nat) :
    ∀ (fuel : Nat) {n : Nat} {s : Phys} {ρ : Nat → Role τ} {fl : List Nat}, Inv L s ρ fl 0 →
    ρ p = .dir tp → ρ d = .dir t → p ≠ d → k = pages sz - n → k < fuel →
    (∀ m, n ≤ m → ¬ Maps ρ d m) →
    ((∀ m, n ≤ m → m < n + k → Maps ρ p m) ∨
      ∃ ok s', Ends (copyFrom p d sz fuel (4096 * n)) s ok s') →
    ∃ ok s' ρ' fl', Ends (copyFrom p d sz fuel (4096 * n)) s ok s' ∧ Inv L s' ρ' fl' 0 ∧
      ((ok = true ∧ Copied s ρ p d n k s' ρ' ∧ Took s fl s' fl' (userNeed (HasTab ρ d) n k) ∧
          ∀ m, Maps ρ' d m ↔ Maps ρ d m ∨ (n ≤ m ∧ m < n + k)) ∨
        (ok = false ∧ ¬ Grants s fl (userNeed (HasTab ρ d) n k) ∧
          (Local d ρ ρ' ∨ Torn (HasTab ρ d) s fl n k ∧
            ∃ u, ρ' u = .held leak ∧ Local d ρ (update ρ' u .free)))) := by
  induction k with
  | zero =>
    intro fuel n s ρ fl h hp hd hpd hk hfuel hfresh hpar
    obtain ⟨fuel, rfl⟩ : ∃ f, fuel = f + 1 := ⟨fuel - 1, by omega⟩
    have hend : sz ≤ 4096 * n := by
      by_contra hlt
      have := (lt_pages n sz).mp (by omega)
      omega
    refine ⟨true, s, ρ, fl, copy_round_end fuel hend, h,
      .inl ⟨rfl, .zero rfl, .zero rfl, fun m => ?_⟩⟩
    constructor
    · exact .inl
    · rintro (hm | hm)
      · exact hm
      · omega
  | succ k ih =>
    intro fuel n s ρ fl h hp hd hpd hk hfuel hfresh hpar
    obtain ⟨fuel, rfl⟩ : ∃ f, fuel = f + 1 := ⟨fuel - 1, by omega⟩
    have hlt : 4096 * n < sz := (lt_pages n sz).mpr (by omega)
    have hn : n < 524288 := by omega
    -- the parent's page
    have hmap : Maps ρ p n := by
      rcases hpar with hpar | ⟨ok, s', he⟩
      · exact hpar n (by omega) (by omega)
      · exact copy_round_present fuel h hp hn hlt he
    obtain ⟨v, hv⟩ := hmap
    have hneed1 : 1 + newTab ρ d (n / 1024) ≤ userNeed (HasTab ρ d) n (k + 1) :=
      Nat.le_add_right _ _
    rcases copy_round_spec fuel leak h hd hn hlt (hfresh n le_rfl) hv with
      ⟨s', he, hinv, hg⟩ | ⟨u, s', fl', he, hinv, hfree, hg1, hg⟩ |
      ⟨s2, ρ2, fl2, hrun, hinv2, hc, htook, htabs, hmaps⟩
    · exact ⟨false, s', ρ, fl, he, hinv,
        .inr ⟨rfl, fun hg' => hg (hg'.mono (by omega)), .inl (.refl d ρ)⟩⟩
    · refine ⟨false, s', _, _, he, hinv, .inr ⟨rfl, fun hg' => hg (hg'.mono hneed1),
        .inr ⟨⟨0, by omega, hg1, hg⟩, u, update_self .., ?_⟩⟩⟩
      intro x
      rw [update_idem]
      by_cases hx : x = u
      · subst hx
        exact .inl (by rw [update_self, hfree])
      · exact .inl (update_of_ne hx _ _)
    · have hd2 : ρ2 d = .dir t := by rw [hc.kept d (by simp [hd]), hd]
      have hp2 : ρ2 p = .dir tp := by rw [hc.kept p (by simp [hp]), hp]
      have hneed := fun j => userNeed_succ j htabs
      obtain ⟨ok, s', ρ', fl', he, hinv', hres⟩ := ih fuel (n := n + 1) hinv2 hp2 hd2 hpd
        (by omega) (by omega)
        (fun m h1 hm => by
          rcases (hmaps m).mp hm with hm | hm
          · exact hfresh m (by omega) hm
          · omega)
        (hpar.imp
          (fun hall m h1 h2 => (hc.roles.maps hpd m).mpr (hall m (by omega) (by omega)))
          (fun hend => hend.imp fun ok => Exists.imp fun s' he => hrun.symm.trans he))
      rw [hneed]
      refine ⟨ok, s', ρ', fl', hrun.trans he, hinv', ?_⟩
      rcases hres with ⟨rfl, hc', htook', hm'⟩ | ⟨rfl, hg, hleak⟩
      · refine .inl ⟨rfl, .cons h hd hpd hinv2 hc hc', htook.trans htook', fun m => ?_⟩
        rw [hm', hmaps]
        constructor
        · rintro ((hm | rfl) | hm)
          · exact .inl hm
          · exact .inr (by omega)
          · exact .inr (by omega)
        · rintro (hm | hm)
          · exact .inl (.inl hm)
          · by_cases hmn : m = n
            · exact .inl (.inr hmn)
            · exact .inr (by omega)
      · refine .inr ⟨rfl, fun hg' => hg ((grants_add htook).mp hg'), ?_⟩
        rcases hleak with hloc' | ⟨⟨i, hi, hgi, hgi'⟩, w, hw, hloc'⟩
        · exact .inl (hc.roles.trans hloc')
        · refine .inr ⟨⟨i + 1, by omega, ?_, ?_⟩, w, hw, hc.roles.trans hloc'⟩
          · rw [hneed, add_assoc, grants_add htook]
            exact hgi
          · rw [hneed, grants_add htook]
            exact hgi'

/-! ## Counting pages -/

/-- The pages it takes to map the page numbers `1`, .., `k` in a directory without user tables. -/
def copyNeed (k : Nat) : Nat := k + if k = 0 then 0 else k / 1024 + 1

open Classical in
theorem userNeed_eq (k : Nat) : ∀ {T : Nat → Prop} {n : Nat}, 1 ≤ n →
    n + k ≤ 524288 → (∀ i < 512, T i ↔ 1 < n ∧ i ≤ (n - 1) / 1024) →
    copyNeed (n - 1) + userNeed T n k = copyNeed (n - 1 + k) := by
  induction k with
  | zero => intro T n _ _ _; rfl
  | succ k ih =>
    intro T n hn hk hT
    have hrest := ih (T := fun i => T i ∨ i = n / 1024) (n := n + 1) (by omega) (by omega) (by
      intro i hi
      rw [hT i hi]
      omega)
    have hcount : copyNeed (n - 1) + (1 + if T (n / 1024) then 0 else 1) = copyNeed n := by
      have := hT (n / 1024) (by omega)
      unfold copyNeed
      by_cases ht : T (n / 1024)
      · rw [if_pos ht]
        have := this.mp ht
        rw [if_neg (by omega), if_neg (by omega)]
        omega
      · rw [if_neg ht]
        have hno : ¬ (1 < n ∧ n / 1024 ≤ (n - 1) / 1024) := fun hc => ht (this.mpr hc)
        rw [if_neg (by omega : ¬ n = 0)]
        split
        · omega
        · omega
    show copyNeed (n - 1) + ((1 + if T (n / 1024) then 0 else 1) + _) = _
    rw [← add_assoc, hcount, show n - 1 + (k + 1) = n + 1 - 1 + k by omega, ← hrest]
    rfl

/-- The pages it takes to map pages from number 1 on in a new directory. -/
theorem userNeed_new (htabs : ∀ i, HasTab ρ d i ↔ KernTab i) {k : Nat} (hk : k < 524288) :
    userNeed (HasTab ρ d) 1 k = copyNeed k := by
  have heq := userNeed_eq k (T := HasTab ρ d) (n := 1) (by omega) (by omega) fun i hi => by
    rw [htabs i]
    unfold KernTab
    omega
  rwa [show copyNeed (1 - 1) = 0 from rfl, zero_add, Nat.sub_self, Nat.zero_add] at heq

/-! ## New address spaces -/

/-- The free page `d` became a directory of `t`, with tables and user pages that were free. -/
structure NewSpace (ρ : Nat → Role τ) (d : Nat) (t : τ) (ρ' : Nat → Role τ) : Prop where
  was   : ρ d = .free
  dir   : ρ' d = .dir t
  roles : ∀ x, x ≠ d → ρ' x = ρ x ∨ (ρ x = .free ∧ Loose d (ρ' x))

/-- Pages that were free belong to nobody: they are `leak`'s. -/
def Lost (leak : τ) (ρ ρ' : Nat → Role τ) : Prop :=
  (∃ d, NewDir ρ d leak (512 ≤ ·) ρ') ∨ ∃ u, ρ u = .free ∧ ρ' = update ρ u (.held leak)

theorem NewDir.newSpace (h : NewDir ρ d t I ρ') : NewSpace ρ d t ρ' where
  was := h.was
  dir := h.dir
  roles x hx := (h.roles x hx).imp_right fun ⟨hf, i, _, hi⟩ => ⟨hf, .inr (.inl ⟨i, hi⟩)⟩

theorem NewSpace.local (h : Inv L s ρ fl q) (hs : NewSpace ρ d t ρ') (hloc : Local d ρ' ρ'') :
    NewSpace ρ d t ρ'' := by
  refine ⟨hs.was, ?_, fun x hx => ?_⟩
  · rw [hloc.role (by rw [hs.dir]; exact not_loose_dir), hs.dir]
  · rcases hloc x with he | ⟨h1, h2⟩
    · rw [he]
      exact hs.roles x hx
    · rcases hs.roles x hx with he' | ⟨hf, -⟩
      · rw [he'] at h1
        rcases h1 with h1 | ⟨i, h1⟩ | ⟨m, h1⟩
        · exact .inr ⟨h1, h2⟩
        · exact absurd h1 ((h.not_inTree hs.was).1 i)
        · exact absurd h1 ((h.not_inTree hs.was).2 m)
      · exact .inr ⟨hf, h2⟩

theorem NewSpace.maps {d' : Nat} (hs : NewSpace ρ d t ρ') (hne : d' ≠ d) (m : Nat) :
    Maps ρ' d' m ↔ Maps ρ d' m := by
  constructor
  · rintro ⟨u, hu⟩
    have hud : u ≠ d := ne_of_role hu hs.dir (by simp)
    rcases hs.roles u hud with he | ⟨-, hl⟩
    · exact ⟨u, he ▸ hu⟩
    · rw [hu] at hl
      exact absurd hl (not_loose_user hne)
  · rintro ⟨u, hu⟩
    have hud : u ≠ d := ne_of_role hu hs.was (by simp)
    rcases hs.roles u hud with he | ⟨hf, -⟩
    · exact ⟨u, he.trans hu⟩
    · rw [hu] at hf
      cases hf

theorem NewSpace.role (hs : NewSpace ρ d t ρ') (hx : ρ x ≠ .free) : ρ' x = ρ x := by
  have hxd : x ≠ d := by
    rintro rfl
    exact hx hs.was
  exact (hs.roles x hxd).resolve_right fun hr => hx hr.1

theorem NewDir.not_maps (h : Inv L s ρ fl q) (hn : NewDir ρ d t I ρ') (m : Nat) :
    ¬ Maps ρ' d m := by
  rintro ⟨u, hu⟩
  have hud : u ≠ d := ne_of_role hu hn.dir (by simp)
  rcases hn.roles u hud with he | ⟨-, i, -, he⟩
  · exact (h.not_inTree hn.was).2 m (he ▸ hu)
  · rw [he] at hu
    cases hu

/-- Freeing a new address space undoes it. -/
theorem NewSpace.drop (h : Inv L s ρ fl q) (hs : NewSpace ρ d t ρ') : dropTree ρ' d = ρ := by
  funext x
  by_cases hx : InTree ρ' d x
  · rw [dropTree_of_inTree hx]
    by_cases hxd : x = d
    · rw [hxd, hs.was]
    · rcases hs.roles x hxd with he | ⟨hf, -⟩
      · rcases hx with hx | ⟨i, hx⟩ | ⟨m, hx⟩
        · exact absurd hx hxd
        · exact absurd (he ▸ hx) ((h.not_inTree hs.was).1 i)
        · exact absurd (he ▸ hx) ((h.not_inTree hs.was).2 m)
      · exact hf.symm
  · rw [dropTree_of_not hx]
    rcases hs.roles x (fun he => hx (.inl he)) with he | ⟨hf, hl⟩
    · exact he
    · rcases hl with hl | hl | hl
      · rw [hl, hf]
      · exact absurd (.inr (.inl hl)) hx
      · exact absurd (.inr (.inr hl)) hx

/-- The pages of a directory that was free are pages that were free. -/
theorem NewSpace.mine (hs : NewSpace ρ d t ρ') (h : Inv L s ρ fl q) (hx : Mine ρ' d x) :
    ∃ b, ρ b = .free ∧ InPage b x := by
  obtain ⟨b, hin, rfl | hl⟩ := hx
  · exact ⟨b, hs.was, hin⟩
  · refine ⟨b, ?_, hin⟩
    by_contra hb
    have hbd : b ≠ d := fun he => hb (he ▸ hs.was)
    rw [hs.role hb] at hl
    rcases hl with hl | ⟨i, hl⟩ | ⟨m, hl⟩
    · exact hb hl
    · exact (h.not_inTree hs.was).1 i hl
    · exact (h.not_inTree hs.was).2 m hl

/-- Work on a new directory is on pages that were free. -/
theorem FreeOnly.confined (hf : FreeOnly s ρ s') (h : Inv L s ρ fl q) (hs : NewSpace ρ d t ρ')
    (hc : Confined d s' ρ' s'' ρ'') : FreeOnly s ρ s'' := by
  intro x hx
  rw [hc.mem x fun hm => ?_, hf x hx]
  obtain ⟨b, hb, hin⟩ := hs.mine h hm
  exact hx b hb hin

theorem pages_mul (k : Nat) : pages (4096 * k) = k := by
  unfold pages
  omega

/-- `setupkvm`, and `allocuvm` of up to 1023 pages in the new directory. -/
theorem setup_alloc (tag : τ) {N : Nat} (hpos : 1 ≤ N) (hN : N ≤ 1023) (h : Inv L s ρ fl 0)
    (hs : s.deny = []) (hlen : 66 + N ≤ fl.length) :
    ∃ d s1 ρ1 s2 ρ2, Ends (setupkvm L) s d s1 ∧ d ≠ 0 ∧ Inv L s1 ρ1 (fl.drop 65) 0 ∧
      s1.deny = [] ∧ NewDir ρ d tag KernTab ρ1 ∧ (∀ i, HasTab ρ1 d i ↔ KernTab i) ∧
      Ends (allocuvm L d 0x1000 (4096 * (N + 1))) s1 (4096 * (N + 1)) s2 ∧ s2.deny = [] ∧
      Inv L s2 ρ2 (fl.drop (66 + N)) 0 ∧ NewSpace ρ d tag ρ2 ∧
      (∀ m, Maps ρ2 d m ↔ 1 ≤ m ∧ m < 1 + N) ∧
      Grown s1 ρ1 (fl.drop 65) d 1 N s2 ρ2 (fl.drop (66 + N)) := by
  obtain ⟨d, s1, ρ1, fl1, hset, h1, ⟨-, -, -, hg⟩ | ⟨-, -, hg, -⟩ | ⟨hd0, htook1, hnew, htabs⟩⟩ :=
    setupkvm_spec tag h
  · exact absurd (grants_of_nil hs (by omega)) hg
  · exact absurd (grants_of_nil hs (by simp only [KVMPAGES]; omega)) hg
  obtain rfl : fl1 = fl.drop 65 := htook1.list
  have hdeny1 := took_nil htook1 hs
  have hneed : userNeed (HasTab ρ1 d) 1 N = N + 1 := by
    rw [userNeed_new htabs (by omega), copyNeed, if_neg (by omega)]
    omega
  obtain ⟨r, s2, ρ2, fl2, halloc, h2, hloc, hres⟩ := allocuvm_spec 0x1000 (4096 * (N + 1)) h1
    hnew.dir (by omega) (by omega) fun m _ _ => hnew.not_maps h m
  rw [pages_mul, show pages 0x1000 = 1 from rfl, Nat.add_sub_cancel, hneed] at hres
  rcases hres with ⟨rfl, hgrown⟩ | ⟨-, hg, -⟩
  swap
  · refine absurd (grants_of_nil hdeny1 ?_) hg
    rw [List.length_drop]
    omega
  have htook2 := hgrown.took
  rw [hneed] at htook2
  obtain rfl : fl2 = fl.drop (66 + N) := by
    rw [htook2.list, List.drop_drop, show 65 + (N + 1) = 66 + N by omega]
  refine ⟨d, s1, ρ1, s2, ρ2, hset, hd0, h1, hdeny1, hnew, htabs, halloc, took_nil htook2 hdeny1, h2,
    hnew.newSpace.local h hloc, fun m => ?_, hgrown⟩
  rw [hgrown.maps]
  exact ⟨fun hm => hm.resolve_left (hnew.not_maps h m), .inr⟩

/-! ## `copyuvm` -/

/-- `copyuvm` is refused a page at a point where it does not give back what it
    took: in `setupkvm`, or for a page table. -/
def CopyTorn (s : Phys) (fl : List Nat) (sz : Nat) : Prop :=
  (Grants s fl 1 ∧ ¬ Grants s fl KVMPAGES) ∨
    ∃ i < pages sz - 1, Grants s fl (KVMPAGES + copyNeed i + 1) ∧
      ¬ Grants s fl (KVMPAGES + copyNeed (i + 1))

theorem copyuvm_spec (t leak : τ) (h : Inv L s ρ fl 0) (hp : ρ p = .dir tp) (hsz : sz ≤ 0x80000000)
    (hpar : (∀ m, 1 ≤ m → m < pages sz → Maps ρ p m) ∨ ∃ r s', Ends (copyuvm L p sz) s r s') :
    ∃ r s' ρ' fl', Ends (copyuvm L p sz) s r s' ∧ Inv L s' ρ' fl' 0 ∧
      ((r ≠ 0 ∧ NewSpace ρ r t ρ' ∧
          Took s fl s' fl' (KVMPAGES + copyNeed (pages sz - 1)) ∧
          (∀ m, Maps ρ' r m ↔ 1 ≤ m ∧ m < pages sz) ∧
          ∀ m, 1 ≤ m → m < pages sz → Maps ρ p m) ∨
        (r = 0 ∧ ¬ Grants s fl (KVMPAGES + copyNeed (pages sz - 1)) ∧
          (ρ' = ρ ∨ CopyTorn s fl sz ∧ Lost leak ρ ρ'))) := by
  by_cases hg65 : Grants s fl KVMPAGES
  swap
  · -- no directory
    have hno : ¬ Grants s fl (KVMPAGES + copyNeed (pages sz - 1)) := fun hg =>
      hg65 (hg.mono (Nat.le_add_right _ _))
    have hrun : ∀ {s'}, Ends (setupkvm L) s 0 s' → Ends (copyuvm L p sz) s 0 s' := by
      intro s' he
      unfold Ends copyuvm
      rw [run_bind_of_ends he, if_pos rfl]
      rfl
    obtain ⟨d, s', ρ', fl', he, hinv, ⟨rfl, rfl, rfl, -⟩ | ⟨rfl, hg1, hg, d', hnew⟩ |
      ⟨-, htook, -⟩⟩ := setupkvm_spec leak h
    · exact ⟨0, s', _, _, hrun he, hinv, .inr ⟨rfl, hno, .inl rfl⟩⟩
    · exact ⟨0, s', ρ', fl', hrun he, hinv, .inr ⟨rfl, hno, .inr ⟨.inl ⟨hg1, hg⟩, .inl ⟨d', hnew⟩⟩⟩⟩
    · exact absurd htook.grants hg65
  obtain ⟨d, s1, ρ1, fl1, he1, hinv1, ⟨-, -, -, hg⟩ | ⟨-, -, hg, -⟩ |
    ⟨hd0, htook1, hnew, htabs⟩⟩ := setupkvm_spec t h
  · exact absurd (hg65.mono (by decide)) hg
  · exact absurd hg65 hg
  have hspace := hnew.newSpace
  have hpd : p ≠ d := ne_of_role hp hnew.was (by simp)
  have hp1 : ρ1 p = .dir tp := by rw [hspace.role (by simp [hp]), hp]
  -- the user tables are counted from none
  have hneed : ∀ i, i ≤ pages sz - 1 → userNeed (HasTab ρ1 d) 1 i = copyNeed i := by
    intro i hi
    apply userNeed_new htabs
    unfold pages at hi
    omega
  have hrun : (copyuvm L p sz).run s = (do
      let ok ← copyFrom p d sz MAXPAGES (4096 * 1)
      if ok then return d
      else do
        freevm L d
        return 0 : VM Nat).run s1 := by
    unfold copyuvm
    rw [run_bind_of_ends he1, if_neg hd0]
  obtain ⟨ok, s2, ρ2, fl2, he2, hinv2, hres⟩ := copyFrom_spec (n := 1) leak hsz (pages sz - 1)
    MAXPAGES hinv1 hp1 hnew.dir hpd rfl
    (by unfold pages; simp only [MAXPAGES]; omega)
    (fun m _ => hnew.not_maps h m)
    (by
      rcases hpar with hpar | ⟨r, s', he⟩
      · exact .inl fun m h1 h2 => (hspace.maps hpd m).mpr (hpar m h1 (by omega))
      · unfold Ends at he
        rw [hrun] at he
        obtain ⟨ok, s2, he2, -⟩ := ends_bind.mp he
        exact .inr ⟨ok, s2, he2⟩)
  rw [hneed _ le_rfl] at hres
  rw [run_bind_of_ends he2] at hrun
  rcases hres with ⟨rfl, hc, htook2, hmaps⟩ | ⟨rfl, hg, hleak⟩
  · refine ⟨d, s2, ρ2, fl2, hrun, hinv2,
      .inl ⟨hd0, hspace.local h hc.roles, htook1.trans htook2, fun m => ?_, fun m h1 h2 => ?_⟩⟩
    · rw [hmaps]
      have := hnew.not_maps h m
      constructor
      · rintro (hm | hm)
        · exact absurd hm this
        · omega
      · exact fun hm => .inr (by omega)
    · obtain ⟨v, -, -, hv, -⟩ := hc.pages m h1 (by omega)
      exact (hspace.maps hpd m).mp ⟨v, hv⟩
  · have hno : ¬ Grants s fl (KVMPAGES + copyNeed (pages sz - 1)) := fun hg' =>
      hg ((grants_add htook1).mp hg')
    have hd2 : ρ2 d = .dir t := by
      rcases hleak with hloc | ⟨-, u, hu, hloc⟩
      · rw [hloc.role (by rw [hnew.dir]; exact not_loose_dir), hnew.dir]
      · have hrole := hloc.role (by rw [hnew.dir]; exact not_loose_dir)
        exact (role_of_update (hrole.trans hnew.dir) (by simp)).2
    obtain ⟨s3, ns, us, he3, hinv3, -⟩ := freevm_spec hinv2 hd2
    rw [if_neg (by simp), run_bind_of_ends he3] at hrun
    refine ⟨0, s3, dropTree ρ2 d, _, hrun, hinv3, .inr ⟨rfl, hno, ?_⟩⟩
    rcases hleak with hloc | ⟨⟨i, hi, hgi, hgi'⟩, u, hu, hloc⟩
    · exact .inl ((hspace.local h hloc).drop h)
    · -- all pages but `u` are back
      rw [hneed _ (by omega), ← grants_add htook1, ← add_assoc] at hgi
      rw [hneed _ (by omega), ← grants_add htook1] at hgi'
      refine .inr ⟨.inr ⟨i, hi, hgi, hgi'⟩, .inr ⟨u, ?_, ?_⟩⟩
      · have hud : u ≠ d := ne_of_role hu hd2 (by simp)
        have hback := congrFun ((hspace.local h hloc).drop h) u
        rw [← hback]
        simp [dropTree, hud]
      · funext x
        by_cases hx : x = u
        · subst hx
          rw [update_self, dropTree_of_not, hu]
          rintro (rfl | ⟨j, hj⟩ | ⟨j, hj⟩)
          · rw [hu] at hd2
            cases hd2
          · rw [hu] at hj
            cases hj
          · rw [hu] at hj
            cases hj
        · have hback := congrFun ((hspace.local h hloc).drop h) x
          rw [update_of_ne hx, ← hback]
          simp [dropTree, hx]

/-- The first page of the parent is missing, but there is a table for it. -/
theorem copyuvm_missing (t : τ) (h : Inv L s ρ fl 0) (hp : ρ p = .dir tp)
    (hg : Grants s fl KVMPAGES) (htab : HasTab ρ p 0) (hno : ¬ Maps ρ p 1) (hsz : PGSIZE < sz) :
    (copyuvm L p sz).run s = .error (.panic "copyuvm: page not present") := by
  obtain ⟨d, s1, ρ1, fl1, hset, h1, ⟨-, -, -, hg'⟩ | ⟨-, -, hg', -⟩ | ⟨hd0, -, hnew, -⟩⟩ :=
    setupkvm_spec t h
  · exact absurd (hg.mono (by decide)) hg'
  · exact absurd hg hg'
  have hspace := hnew.newSpace
  have hp1 : ρ1 p = .dir tp := by rw [hspace.role (by simp [hp]), hp]
  have hne : p ≠ d := by
    rintro rfl
    rw [hspace.was] at hp
    cases hp
  have hno1 : ¬ Maps ρ1 p 1 := by
    rw [hspace.maps hne]
    exact hno
  obtain ⟨a, ha⟩ := htab
  have ha1 : ρ1 a = .table p 0 := by rw [hspace.role (by simp [ha]), ha]
  have hptr := (h1.trees.tabOf a p 0 ha1).2.2
  have hpres : present (load s1.mem (a + 4 * 1) 4) = false := by
    by_contra hpres
    rw [Bool.not_eq_false] at hpres
    refine hno1 ⟨P2V (PTE_ADDR (load s1.mem (a + 4 * 1) 4)), ?_⟩
    refine h1.trees.user a p 0 ha1 (by decide) 1 (by decide) _ ?_
    exact if_pos hpres
  have hcopy : (copyFrom p d sz MAXPAGES PGSIZE).run s1 =
      .error (.panic "copyuvm: page not present") :=
    copy_round_missing 1048575 hsz (ends_walk_some (a := a) hptr) hpres
  unfold copyuvm
  rw [run_bind_of_ends hset, if_neg hd0, run_bind_of_error hcopy]

end Xv6.Mem
