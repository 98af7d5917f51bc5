import Xv6.Mem.AllocUvm
import Xv6.Mem.CopyOut

/-! # `copyuvm` gives the child an equal, independent memory

    `copyuvm` makes a directory with `setupkvm` and then, page by page from the second one on, takes
    a free page, copies the parent's page into it and maps it with the flags of the parent's entry.

    - `EqualPage`: the same page in two directories
    - `copyuvm_copies`: the new address space beside the old one
-/

namespace Xv6.Mem

open ByteMem Program Function

variable {τ : Type} {L : Layout} {s s' s2 : Phys} {ρ ρ' ρ2 : Nat → Role τ} {fl fl' fl2 : List Nat}
  {q p d n k : Nat} {t tp : τ}

/-! ## Equal pages -/

/-- Page number `n` of directory `r` in `m'` is an equal page of its own: the flags and the bytes
    are those of the page of `d` in `m`, and the page is none that `d` maps. -/
def EqualPage (m : ByteMem.Mem) (d : Nat) (m' : ByteMem.Mem) (r n : Nat) : Prop :=
  ∃ v u e e', pageOf m d n = some v ∧ pageOf m' r n = some u ∧ entryOf m d n = some e ∧
    entryOf m' r n = some e' ∧ PTE_FLAGS e' = PTE_FLAGS e ∧
    (∀ x < PGSIZE, m' (u + x) = m (v + x)) ∧
    ∀ k < 524288, pageOf m d k ≠ some u

theorem EntryIs.entryOf {e : Nat} (h : Inv L s ρ fl q) (he : EntryIs s ρ d n e) :
    entryOf s.mem d n = some e := by
  obtain ⟨a, ha, hl⟩ := he
  unfold Mem.entryOf
  rw [(h.trees.tabOf a d _ ha).2.2, Option.map_some, hl]

theorem CopyAt.equalPage (h : Inv L s ρ fl q) (h' : Inv L s' ρ' fl' q) (hp : ρ p = .dir tp)
    (hd' : ρ' d = .dir t) (hn : n < 524288) (hc : CopyAt s ρ p d s' ρ' n) :
    EqualPage s.mem p s'.mem d n := by
  obtain ⟨v, u, e, hv, he, hu, hu', he', hbytes⟩ := hc
  have hpu := h'.isPage hu' (by simp)
  refine ⟨v, u, e, _, (h.pageOf_iff hp hn).mpr hv, (h'.pageOf_iff hd' hn).mpr hu', he.entryOf h,
    he'.entryOf h', ?_, hbytes, fun k hk hc => ?_⟩
  · have h1 := hpu.mod
    have h2 := hpu.gt
    rw [hpu.V2P]
    simp only [PTE_FLAGS, PGSIZE]
    omega
  · have := (h.pageOf_iff hp hk).mp hc
    rw [hu] at this
    cases this

/-! ## Main theorem -/

/-- **`copyuvm` copies the address space**: on a parent whose user pages are those from the second
    one to the size, with any calls of `kalloc` failing, it returns; and the directory it returns,
    if any, maps the same user pages as the parent, with equal flags and contents and in pages of
    its own. Its kernel half is what `setupkvm` made, and no page that was in use is written. -/
theorem copyuvm_copies (sz : Nat) (h : Inv L s ρ fl 0) (hp : ρ p = .dir tp)
    (hsz : sz ≤ KERNBASE)
    (hshape : ∀ n < 524288, pageOf s.mem p n ≠ none ↔ PGSIZE ≤ PGSIZE * n ∧ PGSIZE * n < sz) :
    ∃ r s', Ends (copyuvm L p sz) s r s' ∧ (r ≠ 0 →
      (∀ n < 524288, pageOf s'.mem r n ≠ none ↔ pageOf s.mem p n ≠ none) ∧
      (∀ n < 524288, pageOf s.mem p n ≠ none → EqualPage s.mem p s'.mem r n) ∧
      (∃ s₁, Ends (setupkvm L) s r s₁ ∧
        ∀ n, 524288 ≤ n → n < 2 ^ 20 → entryOf s'.mem r n = entryOf s₁.mem r n) ∧
      ∀ b, ρ b ≠ .other → ρ b ≠ .free → SamePage s.mem s'.mem b) := by
  have hsz' : sz ≤ 0x80000000 := hsz
  have hpages : pages sz ≤ 524288 := by
    unfold pages
    omega
  have hmaps : ∀ n < 524288, (pageOf s.mem p n ≠ none ↔ 1 ≤ n ∧ n < 1 + (pages sz - 1)) := by
    intro n hn
    rw [hshape n hn]
    have := lt_pages n sz
    simp only [PGSIZE]
    omega
  have hpar : ∀ m, 1 ≤ m → m < pages sz → Maps ρ p m := by
    intro m h1 h2
    obtain ⟨u, hu⟩ := Option.ne_none_iff_exists'.mp ((hmaps m (by omega)).mpr (by omega))
    exact ⟨u, (h.pageOf_iff hp (by omega)).mp hu⟩
  obtain ⟨r, s', -, -, he, -⟩ := copyuvm_spec tp tp h hp hsz' (.inl hpar)
  refine ⟨r, s', he, fun hr => ?_⟩
  -- a directory is returned: both parts of the work succeeded
  unfold copyuvm at he
  obtain ⟨d, s₁, hset, he⟩ := ends_bind.mp he
  obtain ⟨d', s1', ρ1, fl1, hset', h₁, hres⟩ := setupkvm_spec tp h
  obtain ⟨rfl, rfl⟩ := hset.unique hset'
  rcases hres with ⟨rfl, -⟩ | ⟨rfl, -⟩ | ⟨hd0, -, hnew, -⟩
  · obtain ⟨rfl, -⟩ := ends_pure.mp he
    exact absurd rfl hr
  · obtain ⟨rfl, -⟩ := ends_pure.mp he
    exact absurd rfl hr
  rw [if_neg hd0] at he
  obtain ⟨ok, s2, hcopy, he⟩ := ends_bind.mp he
  cases ok with
  | false =>
    obtain ⟨-, s3, -, he⟩ := ends_bind.mp he
    exact absurd (ends_pure.mp he).1.symm hr
  | true =>
    obtain ⟨rfl, rfl⟩ := ends_pure.mp he
    have hspace := hnew.newSpace
    have hpd : p ≠ d := ne_of_role hp hnew.was (by simp)
    have hp1 : ρ1 p = .dir tp := by rw [hspace.role (by rw [hp]; simp), hp]
    obtain ⟨ok, s3, ρ2, fl2, hcopy', h₂, hres⟩ := copyFrom_spec (n := 1) tp hsz' (pages sz - 1)
      MAXPAGES h₁ hp1 hnew.dir hpd rfl (by simp only [MAXPAGES]; omega)
      (fun m _ => hnew.not_maps h m) (.inr ⟨true, _, hcopy⟩)
    obtain ⟨rfl, rfl⟩ := hcopy.unique hcopy'
    rcases hres with ⟨-, hc, -, hmaps2⟩ | ⟨hfail, -⟩
    swap
    · cases hfail
    have hd2 : ρ2 d = .dir tp := by rw [hc.kept d (by rw [hnew.dir]; simp), hnew.dir]
    have hfree1 := setupkvm_freeOnly h tp hset
    have hfree := hfree1.confined h hspace (.of_frame hc.roles hc.frame)
    refine ⟨fun n hn => ?_, fun n hn hsome => ?_, ⟨s₁, hset, fun n h1 h2 => ?_⟩,
      fun b hb hbf => hfree.samePage h hb hbf⟩
    · rw [hmaps n hn, Option.ne_none_iff_exists']
      have hno := hnew.not_maps h n
      constructor
      · rintro ⟨u, hu⟩
        exact ((hmaps2 n).mp ⟨u, (h₂.pageOf_iff hd2 hn).mp hu⟩).resolve_left hno
      · intro hlt
        obtain ⟨u, hu⟩ := (hmaps2 n).mpr (.inr hlt)
        exact ⟨u, (h₂.pageOf_iff hd2 hn).mpr hu⟩
    · have hlt := (hmaps n hn).mp hsome
      refine CopyAt.equalPage h h₂ hp hd2 hn ((hc.pages n hlt.1 hlt.2).earlier
        (fun x hx => hspace.role hx) (fun x hl hx => ?_) (fun x hl hx => ?_))
      · have hxd : x ≠ d := by
          rintro rfl
          rw [hnew.dir] at hl
          exact not_loose_dir hl
        exact (hspace.roles x hxd).resolve_right fun hr => hpd (hl.unique hr.2 hx)
      · exact hfree1.samePage h hl.ne_other hx
    · exact hc.frame.entryOf_kern h₁ h₂ hnew.dir hd2 h1 h2

/-- A parent with one page, and enough free pages for the child. -/
theorem copyuvm_copies_onePage : ∃ (s : Phys) (d r : Nat) (s' : Phys), r ≠ 0 ∧
    Ends (copyuvm builtLayout d 0x2000) s r s' ∧ EqualPage s.mem d s'.mem r 1 := by
  obtain ⟨s, d, ρ, fl, -, hinv, hd, hmaps, hdeny, hlen, -⟩ := exists_onePage
  have hshape : ∀ n < 524288, pageOf s.mem d n ≠ none ↔ PGSIZE ≤ PGSIZE * n ∧
      PGSIZE * n < 0x2000 := by
    intro n hn
    have hm : pageOf s.mem d n ≠ none ↔ Maps ρ d n := by
      rw [Option.ne_none_iff_exists']
      exact exists_congr fun u => hinv.pageOf_iff hd hn
    rw [hm, hmaps]
    simp only [PGSIZE]
    omega
  obtain ⟨r, s', he, hres⟩ := copyuvm_copies 0x2000 hinv hd (by decide) hshape
  have hr : r ≠ 0 := by
    obtain ⟨r', s'', ρ', fl', he', -, ⟨hr, -⟩ | ⟨-, hg, -⟩⟩ := copyuvm_spec () () hinv hd
      (by decide : 0x2000 ≤ 0x80000000) (.inl fun m h1 h2 => (hmaps m).mpr (by
        have : pages 0x2000 = 2 := by decide
        omega))
    · rwa [(he.unique he').1]
    · exact absurd (grants_of_nil hdeny (Nat.le_trans (by decide) hlen)) hg
  exact ⟨s, d, r, s', hr, he, (hres hr).2.1 1 (by decide) ((hshape 1 (by decide)).mpr (by decide))⟩

end Xv6.Mem
