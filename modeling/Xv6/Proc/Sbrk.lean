import Xv6.Mem.UserView
import Xv6.Proc.Shape

/-! # The arithmetic of `growproc`

    The size is unsigned and the argument signed, and the helpers return the old size for a request
    in the wrong direction. A request that would take more than all of the memory wraps around to a
    size above the old one, and `deallocuvm` returns the old size for it: `growproc` reports success
    and has done nothing.
-/

namespace Xv6.Kernel

open Program Mem

variable {L : Layout} {k k' : State} {fl : List Nat} {ρ : Nat → Role Tag} {p : Slot} {n : Int}
  {tag : Tag}

/-! ## What the call should do -/

/-- The memory below the smaller of the two sizes is unchanged, and the pages
    that are new are zero. -/
structure SameBelow (m m' : ByteMem.Mem) (d sz sz' : Nat) : Prop where
  same : ∀ va < min sz sz', userByte m' d va = userByte m d va
  zero : ∀ i < 2 ^ 20, userPage m d i = none → ∀ u, userPage m' d i = some u →
    ∀ x, InPage u x → m' x = 0

/-- `growproc(n)` returns 0 only with the size that `n` asks for, and -1 if
    there is no such size. -/
structure ExactGrow (L : Layout) (k : State) (p : Slot) (n : Int) : Prop where
  done  : ∀ k', Ends (growproc L p n) k 0 k' →
    ((k'.proc p).sz : Int) = (k.proc p).sz + n ∧
      (0 ≤ (k.proc p).sz + n ∧ (k.proc p).sz + n < KERNBASE) ∧
      SameBelow k.phys.mem k'.phys.mem (k.proc p).pgdir (k.proc p).sz (k'.proc p).sz
  fails : ((k.proc p).sz + n < 0 ∨ KERNBASE ≤ (k.proc p).sz + n) →
    ∃ k', Ends (growproc L p n) k (-1) k'

theorem SameBelow.refl (m : ByteMem.Mem) (d sz sz' : Nat) : SameBelow m m d sz sz' where
  same _ _ := rfl
  zero i _ hno u hu := by
    rw [hno] at hu
    cases hu

/-! ## The two helpers -/

section Helpers

variable {s s' : Phys} {d sz newsz : Nat}

theorem allocuvm_sameBelow (h : Mem.Inv L s ρ fl 0) (hd : ρ d = .dir tag) (hle : sz ≤ newsz)
    {r : Nat} (hr : r ≠ 0) (he : Ends (allocuvm L d sz newsz) s r s') :
    r = newsz ∧ newsz < KERNBASE ∧ SameBelow s.mem s'.mem d sz newsz := by
  obtain ⟨hnew, hfresh⟩ := allocuvm_fresh h hd he hr hle
  obtain ⟨r', s1, ρ', fl', he', h', hloc, hres⟩ := allocuvm_spec sz newsz h hd hnew hle hfresh
  obtain ⟨rfl, rfl⟩ := he.unique he'
  rcases hres with ⟨rfl, hgrown⟩ | ⟨rfl, -⟩
  swap
  · exact absurd rfl hr
  have hd' : ρ' d = .dir tag := by rw [hloc.role (by rw [hd]; exact not_loose_dir), hd]
  have hframe := hgrown.frame (pages sz) le_rfl
  have htab : ∀ {i} a, ρ a = .table d i → ρ' a = .table d i := by
    intro i a ha
    rw [hgrown.kept a (by simp [ha]), ha]
  refine ⟨rfl, hnew, fun va hva => ?_, fun i hi hno u hu x hx => ?_⟩
  · have hlt : va / 4096 < pages sz := by
      unfold pages
      omega
    refine hframe.userByte h h' hd hd' hlt (by omega) ?_ fun a => htab a
    rw [hgrown.maps]
    exact ⟨fun hm => hm.resolve_right (by omega), .inl⟩
  · by_cases hge : 524288 ≤ i
    · rw [hframe.userPage_kern h h' hd hd' hge hi, hno] at hu
      cases hu
    have hrole := h'.role_of_userPage hd' (by omega) hu
    by_cases hin : pages sz ≤ i ∧ i < pages r
    · -- a page of the new part
      obtain ⟨v, hv, hzero⟩ := hgrown.clear (i - pages sz) (by omega)
      rw [show pages sz + (i - pages sz) = i by omega] at hv
      obtain rfl := h'.trees.user_unique hrole hv
      exact hzero x hx
    · -- a page that was mapped before is shown as before
      have hm : Maps ρ d i := by
        rcases (hgrown.maps i).mp ⟨u, hrole⟩ with hm | hm
        · exact hm
        · omega
      obtain ⟨v, hv⟩ := hm
      obtain ⟨-, a, ha, hp⟩ := h.trees.userOf v d i hv
      rw [h.userPage_congr h' ha (htab a ha) (hgrown.keeps a d _ ha _ (Nat.mod_lt _ (by decide))
        (by simp [hp])), hno] at hu
      cases hu

theorem deallocuvm_sameBelow (h : Mem.Inv L s ρ fl 0) (hd : ρ d = .dir tag) (hsz : sz < KERNBASE)
    (hlt : newsz < sz) :
    ∃ s', Ends (deallocuvm L d sz newsz) s newsz s' ∧ SameBelow s.mem s'.mem d sz newsz := by
  simp only [KERNBASE] at hsz
  obtain ⟨s', ns, us, he, h', -, hx, hfreed, -⟩ := deallocuvm_spec sz newsz h hd (by omega) hlt
  have hframe := hfreed.frame h hx
  have hkeep : ∀ {a r}, ρ a = r → (∀ m, pages newsz ≤ m → r ≠ .user d m) →
      freeAll ρ us a = r := by
    intro a r ha hr
    have hno : a ∉ us := by
      intro hin
      obtain ⟨m, hm, hrole⟩ := hfreed.mem hin
      exact hr m (hfreed.bounds m hm).1 (ha.symm.trans hrole)
    simpa [freeAll, hno] using ha
  have hd' : freeAll ρ us d = .dir tag := hkeep hd fun _ _ => by simp
  have htab : ∀ {i} a, ρ a = .table d i → freeAll ρ us a = .table d i :=
    fun a ha => hkeep ha fun _ _ => by simp
  have hmaps : ∀ i, i < pages newsz → (Maps (freeAll ρ us) d i ↔ Maps ρ d i) := by
    intro i hi
    rw [hfreed.maps h.trees]
    refine ⟨fun hm => hm.1, fun hm => ⟨hm, fun hin => ?_⟩⟩
    have := (hfreed.bounds i hin).1
    omega
  refine ⟨s', he, fun va hva => ?_, fun i hi hno u hu => ?_⟩
  · have hpage : va / 4096 < pages newsz := by
      unfold pages
      omega
    exact hframe.userByte h h' hd hd' hpage (by omega) (hmaps _ hpage) fun a => htab a
  · exfalso
    by_cases hge : 524288 ≤ i
    · rw [hframe.userPage_kern h h' hd hd' hge hi, hno] at hu
      cases hu
    have hrole := h'.role_of_userPage hd' (by omega) hu
    -- the page was mapped before, and its entry is not one that was cleared
    obtain ⟨⟨v, hv⟩, hin⟩ := (hfreed.maps h.trees i).mp ⟨u, hrole⟩
    obtain ⟨-, a, ha, -⟩ := h.trees.userOf v d i hv
    have hpa := h.isPage ha (by simp)
    rw [h.userPage_congr h' ha (htab a ha) (ByteMem.load_congr fun x h1 h2 => hx x ?_), hno] at hu
    · cases hu
    rintro (⟨w, hw, h3, h4⟩ | ⟨m, hm, b, hb, h3, h4⟩)
    · obtain ⟨m, -, hwm⟩ := hfreed.mem hw
      have := (h.isPage hwm (by simp)).disjoint hpa (ne_of_role hwm ha (by simp))
      omega
    · have hmi : m ≠ i := by
        rintro rfl
        exact hin hm
      by_cases hba : b = a
      · subst hba
        obtain ⟨-, hi'⟩ : d = d ∧ i / 1024 = m / 1024 := by simpa using ha.symm.trans hb
        omega
      · have := (h.isPage hb (by simp)).disjoint hpa hba
        omega

end Helpers

/-! ## `growproc` -/

/-- `deallocuvm` to a size that is not below the old one does nothing. -/
theorem deallocuvm_noop {d sz newsz : Nat} {s : Phys} (h : sz ≤ newsz) :
    Ends (deallocuvm L d sz newsz) s sz s := by
  unfold Ends deallocuvm
  rw [if_pos h]
  rfl

section Exact

variable (h : Mem.Inv L k.phys ρ fl 0) (hd : ρ (k.proc p).pgdir = .dir tag)
  (hsz : (k.proc p).sz < KERNBASE)

include h hd

include hsz

theorem exactGrow_pos (hn : 0 < n) (hn' : n < 2 ^ 31) : ExactGrow L k p n := by
  have hd0 := h.dir_ne_zero hd
  have hnew : (u32 ((k.proc p).sz + toU32 n) : Int) = (k.proc p).sz + n := by
    simp only [KERNBASE] at hsz
    unfold u32 toU32
    omega
  refine ⟨fun k' he => ?_, fun hout => ?_⟩
  · obtain ⟨rfl, -⟩ | ⟨sz, s', ⟨-, ha⟩ | ⟨hlt, -⟩, ⟨-, hr, -⟩ | ⟨hne, -, rfl⟩⟩ :=
      (ends_growproc_iff hd0).mp he
    any_goals omega
    obtain ⟨rfl, hlt, hsame⟩ := allocuvm_sameBelow h hd (by omega) hne ha
    rw [setProc_proc_self]
    simp only [KERNBASE] at hlt ⊢
    exact ⟨hnew, by omega, hsame⟩
  · -- the size is not below `KERNBASE`, and `allocuvm` returns 0
    refine ⟨{ k with phys := k.phys }, ?_⟩
    refine (ends_growproc_iff hd0).mpr (.inr ⟨0, k.phys, .inl ⟨hn, ?_⟩, .inl ⟨rfl, rfl, rfl⟩⟩)
    exact allocuvm_refuses (by simp only [KERNBASE] at hout ⊢; omega)

theorem exactGrow_neg (hn : n < 0) (hn' : -2 ^ 31 ≤ n)
    (hok : (k.proc p).sz = 0 ∨ 0 ≤ (k.proc p).sz + n) : ExactGrow L k p n := by
  have hd0 := h.dir_ne_zero hd
  simp only [KERNBASE] at hsz
  by_cases hz : (k.proc p).sz = 0
  · -- the old size, which is returned, is zero
    have he : Ends (growproc L p n) k (-1) k :=
      (ends_growproc_iff hd0).mpr (.inr ⟨0, k.phys,
        .inr ⟨hn, by rw [hz]; exact deallocuvm_noop (Nat.zero_le _)⟩, .inl ⟨rfl, rfl, rfl⟩⟩)
    refine ⟨fun k' he' => ?_, fun _ => ⟨k, he⟩⟩
    cases (he.unique he').1
  have hge := hok.resolve_left hz
  have hnew : (u32 ((k.proc p).sz + toU32 n) : Int) = (k.proc p).sz + n := by
    unfold u32 toU32
    omega
  refine ⟨fun k' he => ?_, fun hout => ?_⟩
  · obtain ⟨rfl, -⟩ | ⟨sz, s', ⟨hlt, -⟩ | ⟨-, ha⟩, ⟨-, hr, -⟩ | ⟨-, -, rfl⟩⟩ :=
      (ends_growproc_iff hd0).mp he
    any_goals omega
    obtain ⟨s1, ha', hsame⟩ := deallocuvm_sameBelow h hd (by simp only [KERNBASE]; omega) (show u32
      ((k.proc p).sz + toU32 n) < (k.proc p).sz by omega)
    obtain ⟨rfl, rfl⟩ := ha.unique ha'
    rw [setProc_proc_self]
    simp only [KERNBASE]
    exact ⟨hnew, by omega, hsame⟩
  · simp only [KERNBASE] at hout
    omega

/-- `growproc` is exact unless it is asked for a negative size, by a process that has memory. -/
theorem growproc_exact_iff (hlo : -2 ^ 31 ≤ n) (hhi : n < 2 ^ 31) :
    ExactGrow L k p n ↔ (k.proc p).sz = 0 ∨ 0 ≤ (k.proc p).sz + n := by
  have hd0 := h.dir_ne_zero hd
  constructor
  · intro hex
    by_contra hno
    obtain ⟨hz, hneg⟩ := not_or.mp hno
    obtain ⟨k', he⟩ := hex.fails (.inl (by omega))
    -- the new size wraps around, and the old one is kept
    have he' : Ends (growproc L p n) k 0 (k.setProc p fun y => { y with sz := (k.proc p).sz }) := by
      refine (ends_growproc_iff hd0).mpr (.inr ⟨(k.proc p).sz, k.phys,
        .inr ⟨by omega, deallocuvm_noop ?_⟩, .inr ⟨hz, rfl, rfl⟩⟩)
      simp only [KERNBASE] at hsz
      unfold u32 toU32
      omega
    cases (he.unique he').1
  · intro hok
    rcases Int.lt_trichotomy n 0 with hn | rfl | hn
    · exact exactGrow_neg h hd hsz hn hlo hok
    · have he := (ends_growproc_iff (L := L) hd0).mpr (.inl ⟨rfl, rfl, rfl⟩)
      simp only [KERNBASE] at hsz
      refine ⟨fun k' he' => ?_, fun hout => ?_⟩
      · obtain ⟨-, rfl⟩ := he.unique he'
        simp only [KERNBASE]
        exact ⟨by omega, by omega, .refl _ _ _ _⟩
      · simp only [KERNBASE] at hout
        omega
    · exact exactGrow_pos h hd hsz hn hhi

end Exact

/-- The small program runs: a process of four pages. -/
theorem exists_fourPages : ∃ k p, ∃ ρ : Nat → Role Tag, ∃ fl, (system smallLayout).Reachable k ∧
    (k.proc p).sz = 0x4000 ∧ Mem.Inv smallLayout k.phys ρ fl 0 ∧
    ρ (k.proc p).pgdir = .dir (.space p) := by
  obtain ⟨k0, p, k, ρ, fl, ⟨k1, ls, hinit, hrun⟩, hstep, -, h⟩ := exists_smallRuns smallLayout
  have hd := (h.inv.procs p).running h.running
  exact ⟨k, p, ρ, fl, .step ⟨k1, ls, hinit, hrun.of_restrict⟩ hstep, h.sz, h.inv.mem,
    h.inv.space (live_of_running h.running) hd⟩

theorem growproc_exact_small : ∃ k p, (system smallLayout).Reachable k ∧
    (k.proc p).sz = 0x4000 ∧ ExactGrow smallLayout k p 0x2000 := by
  obtain ⟨k, p, ρ, fl, hreach, hsz, h, hd⟩ := exists_fourPages
  refine ⟨k, p, hreach, hsz, (growproc_exact_iff h hd ?_ (by decide) (by decide)).mpr ?_⟩
  · rw [hsz]
    decide
  · rw [hsz]
    exact .inr (by decide)

/-- The process gives back five pages: `growproc` returns 0 and the size is still four pages. -/
theorem growproc_wraps : ∃ k p k', (system smallLayout).Reachable k ∧
    (k.proc p).sz = 0x4000 ∧ Ends (growproc smallLayout p (-0x5000)) k 0 k' ∧
    (k'.proc p).sz = 0x4000 := by
  obtain ⟨k, p, ρ, fl, hreach, hsz, h, hd⟩ := exists_fourPages
  refine ⟨k, p, k.setProc p fun y => { y with sz := 0x4000 }, hreach, hsz, ?_, ?_⟩
  · refine (ends_growproc_iff (h.dir_ne_zero hd)).mpr (.inr ⟨0x4000, k.phys,
      .inr ⟨by decide, ?_⟩, .inr ⟨by decide, rfl, rfl⟩⟩)
    rw [hsz]
    exact deallocuvm_noop (by decide)
  · rw [setProc_proc_self]

end Xv6.Kernel
