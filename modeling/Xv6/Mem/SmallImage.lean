import Xv6.Mem.BuildImage

/-! # A small program

    `exec` of a file with one segment of one page, followed call by call: which page of the free
    list ends up where.
-/

namespace Xv6.Mem

open ByteMem Program List

variable {τ : Type} {L : Layout} {s s' : Phys} {ρ ρ' : Nat → Role τ} {fl : List Nat} {q d : Nat}

/-- An ELF file with one segment: a page of zeros at `0x1000`. -/
def smallFile : Content where
  size := 84
  data
    | 0 => 0x7F
    | 1 => 0x45
    | 2 => 0x4C
    | 3 => 0x46
    | 28 => 52
    | 44 => 1
    | 52 => 1
    | 61 => 0x10
    | 73 => 0x10
    | _ => 0
  size_le := by decide

/-- New tables are among the pages that were taken. -/
theorem hasTab_of_taken {fl' : List Nat} (taken : List Nat) (h : Inv L s ρ (taken ++ fl') q)
    (h' : Inv L s' ρ' fl' q) (hkept : ∀ x, ρ x ≠ .free → ρ' x = ρ x) (i : Nat) :
    HasTab ρ' d i ↔ HasTab ρ d i ∨ ∃ a ∈ taken, ρ' a = .table d i := by
  constructor
  · intro ⟨a, ha⟩
    by_cases hfree : ρ a = .free
    · have hout : a ∉ fl' := by
        rw [h'.free a, ha]
        simp
      have hin := (h.free a).mpr hfree
      exact .inr ⟨a, (mem_append.mp hin).resolve_right hout, ha⟩
    · rw [hkept a hfree] at ha
      exact .inl ⟨a, ha⟩
  · rintro (⟨a, ha⟩ | ⟨a, -, ha⟩)
    · exact ⟨a, by rw [hkept a (by simp [ha]), ha]⟩
    · exact ⟨a, ha⟩

/-- The address space of the small program before the arguments are pushed: page `t` at `0x1000`,
    the guard page `g` and the stack page `u`, with the table `a`. -/
structure SmallImage (L : Layout) (s : Phys) (ρ : Nat → Role τ) (fl : List Nat)
    (d t a g u : Nat) : Prop where
  inv   : Inv L s ρ fl 0
  deny  : s.deny = []
  dir   : ∃ tag, ρ d = .dir tag
  text  : ρ t = .user d 1
  textE : EntryIs s ρ d 1 (V2P t + 7)
  table : ρ a = .table d 0
  guard : ρ g = .user d 2
  guardE : ∃ e, EntryIs s ρ d 2 e ∧ e &&& PTE_U = 0
  stack : ρ u = .user d 3
  stackE : EntryIs s ρ d 3 (V2P u + 7)
  tabs  : ∀ i, HasTab ρ d i ↔ KernTab i ∨ i = 0
  maps  : ∀ m, Maps ρ d m ↔ 1 ≤ m ∧ m < 1 + 3

theorem small_image (tag : τ) {X rest : List Nat} {t a g u : Nat}
    (hX : X.length = 65) (h : Inv L s ρ (X ++ (t :: a :: g :: u :: rest)) 0) (hs : s.deny = []) :
    ∃ d s1 s4 ρ4, Ends (setupkvm L) s d s1 ∧ d ≠ 0 ∧ NewSpace ρ d tag ρ4 ∧
      (∀ argv, (fillImage L d smallFile argv).run s1 = (pushUstack d argv 0x4000).run s4) ∧
      SmallImage L s4 ρ4 rest d t a g u := by
  obtain ⟨d, s1, ρ1, s2, ρ2, hset, hd0, h₁, hdeny1, -, htabs, halloc, hdeny2, h₂, hspace, hmaps2,
    hgrown⟩ := setup_alloc (N := 1) tag (by decide) (by decide) h hs (by simp [hX]; omega)
  have hdrop : (X ++ (t :: a :: g :: u :: rest)).drop 65 = t :: a :: g :: u :: rest :=
    drop_left' hX
  have hdrop2 : (X ++ (t :: a :: g :: u :: rest)).drop (66 + 1) = g :: u :: rest := by
    rw [show 66 + 1 = 65 + 2 from rfl, ← drop_drop, hdrop]
    rfl
  rw [hdrop] at h₁ hgrown
  rw [hdrop2] at h₂ hgrown
  -- the segment
  have n0 : userNeed (HasTab ρ1 d) 1 0 = 0 := rfl
  have n1 : userNeed (HasTab ρ1 d) 1 1 = 2 := userNeed_new htabs (by decide)
  obtain ⟨t', ht', pt, ent⟩ := hgrown.page 0 (by decide)
  obtain ⟨a', ha', pa⟩ := hgrown.table 0 (by decide) (by rw [n0, n1])
  rw [n0] at ht' ha'
  obtain rfl : t = t' := by simpa using ht'
  obtain rfl : a = a' := by simpa using ha'
  have hload : Ends (loadSegments L d smallFile 1 52 PGSIZE) s1 (some 0x2000) s2 := by
    unfold Ends
    rw [loadSegments, if_neg (by decide), if_neg (by decide), if_neg (by decide),
      if_neg (by decide),
      show u32 ((proghdr smallFile 52).vaddr + (proghdr smallFile 52).memsz) = 0x2000 by decide,
      run_bind_of_ends halloc, if_neg (by decide), if_neg (by decide)]
    rfl
  -- guard page and stack page
  have htab2 : HasTab ρ2 d 0 := ⟨a, pa⟩
  have m1 : userNeed (HasTab ρ2 d) 2 1 = 1 := by simp [userNeed, htab2]
  have m2 : userNeed (HasTab ρ2 d) 2 2 = 2 := by simp [userNeed, htab2]
  have hd2 : ρ2 d = .dir tag := hspace.dir
  obtain ⟨sz, s3, ρ3, fl3, halloc3, h₃, hloc3, hres⟩ := allocuvm_spec 0x2000 0x4000 h₂ hd2
    (by decide) (by decide) fun m h1 _ hm => by
      rw [hmaps2] at hm
      rw [show pages 0x2000 = 2 from rfl] at h1
      omega
  rw [show pages 0x2000 = 2 from rfl, show pages 0x4000 - 2 = 2 from rfl] at hres
  rcases hres with ⟨rfl, hgrown3⟩ | ⟨-, hg, -⟩
  swap
  · refine absurd (grants_of_nil hdeny2 ?_) hg
    rw [m2]
    simp
  have htook3 := hgrown3.took
  rw [m2] at htook3
  obtain ⟨g', hg', pg, -⟩ := hgrown3.page 0 (by decide)
  obtain ⟨u', hu', pu, entu⟩ := hgrown3.page 1 (by decide)
  rw [show userNeed (HasTab ρ2 d) 2 0 = 0 from rfl] at hg'
  rw [m1] at hu'
  obtain rfl : g = g' := by simpa using hg'
  obtain rfl : u = u' := by simpa using hu'
  obtain rfl : fl3 = rest := by
    rw [htook3.list]
    rfl
  have pt3 : ρ3 t = .user d 1 := by rw [hgrown3.kept t (by simp [pt]), pt]
  have hpt : L.IsPage t := h₃.isPage pt3 (by simp)
  have ent3 : EntryIs s3 ρ3 d 1 (V2P t + 7) := by
    refine EntryIs.keep ent ?_ hgrown3.keeps fun b d' i hb => ?_
    · have := hpt.mod
      have := hpt.gt
      rw [hpt.V2P]
      omega
    · rw [hgrown3.kept b (by simp [hb]), hb]
  obtain ⟨s4, hclear, h4, hdeny4, hguard, hkeep4⟩ := clearpteu_spec (n := 2) h₃ pg
  refine ⟨d, s1, s4, ρ3, hset, hd0, hspace.local h hloc3, fun argv => ?_, h4, ?_, ⟨tag, ?_⟩, pt3,
    hkeep4 1 _ (by decide) ent3, ?_, pg, hguard, pu, hkeep4 3 _ (by decide) entu, ?_, ?_⟩
  · unfold fillImage
    rw [show (elfhdr smallFile).phnum = 1 by decide,
      show (elfhdr smallFile).phoff = 52 by decide, run_bind_of_ends hload]
    dsimp only [pushStack]
    rw [show PGROUNDUP 0x2000 = 0x2000 from rfl, show u32 (0x2000 + 2 * PGSIZE) = 0x4000 from rfl,
      run_bind_of_ends halloc3, if_neg (by decide),
      show 0x4000 - 2 * PGSIZE = 4096 * 2 from rfl, run_bind_of_ends hclear]
  · rw [hdeny4]
    exact took_nil htook3 hdeny2
  · rw [hgrown3.kept d (by simp [hd2]), hd2]
  · rw [hgrown3.kept a (by simp [pa]), pa]
  · intro i
    have h2 := hasTab_of_taken [t, a] h₁ h₂ hgrown.kept (d := d) i
    have h3 := hasTab_of_taken [g, u] h₂ h₃ hgrown3.kept (d := d) i
    rw [h3, h2, htabs i]
    simp [pt, pa, pg, pu, eq_comm]
  · intro m
    rw [hgrown3.maps, hmaps2]
    omega

/-- `exec` of the small program without arguments. -/
theorem exec_small (tag : τ) (h : Inv L s ρ fl 0) (hs : s.deny = []) (hlen : 69 ≤ fl.length) :
    ∃ d s' ρ', Ends (buildImage L smallFile []) s
        (some { pgdir := d, sz := 0x4000, entry := 0, sp := 0x3FF0 }) s' ∧
      Inv L s' ρ' (fl.drop 69) 0 ∧ NewSpace ρ d tag ρ' := by
  have hdrop : fl.drop 69 = (fl.drop 65).drop 4 := by rw [drop_drop]
  rw [hdrop]
  obtain ⟨X, t, a, g, u, rest, rfl, hX⟩ : ∃ X t a g u rest,
      fl = X ++ (t :: a :: g :: u :: rest) ∧ X.length = 65 := by
    refine ⟨fl.take 65, fl[65], fl[66], fl[67], fl[68], fl.drop 69, ?_, by simp; omega⟩
    rw [← drop_eq_getElem_cons, ← drop_eq_getElem_cons, ← drop_eq_getElem_cons,
      ← drop_eq_getElem_cons, take_append_drop]
  rw [drop_left' hX]
  obtain ⟨d, s1, s4, ρ4, hset, hd0, hspace, hfill, hsm⟩ := small_image tag hX h hs
  obtain ⟨s5, hcopy, h5⟩ : ∃ s5,
      Ends (copyout d 0x3FF0 (wordBytes (ustack 0x4000 [])) 16) s4 true s5 ∧
        Inv L s5 ρ4 rest 0 := by
    refine ⟨_, copyout_page hsm.inv hsm.stack hsm.stackE (by decide) (by decide), ?_⟩
    refine hsm.inv.writeUser hsm.stack rfl fun x hx => ?_
    exact if_neg (by omega)
  have hpush : Ends (pushArgs d [] 0x4000 []) s4 (some (0x4000, [])) s4 := rfl
  have hsome : Ends (fillImage L d smallFile []) s1 (some (0x4000, 0x3FF0)) s5 := by
    unfold Ends
    rw [hfill, pushUstack, run_bind_of_ends hpush]
    exact run_bind_of_ends hcopy
  refine ⟨d, s5, ρ4, ?_, h5, hspace⟩
  unfold Ends buildImage
  rw [if_neg (by decide), if_neg (by decide), run_bind_of_ends hset, if_neg hd0,
    run_bind_of_ends hsome]
  rfl

end Xv6.Mem
