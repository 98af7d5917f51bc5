import Xv6.Mem.Image

/-! # Specification of `exec` on pages

    `exec` builds a new address space out of free pages, or fails and gives back what it took, if
    the argument strings fit. The address space maps the page numbers from 1 up to its size.
-/

namespace Xv6.Mem

open ByteMem Program

variable {τ : Type} {L : Layout} {s s' : Phys} {ρ ρ' : Nat → Role τ} {fl : List Nat}
  {q d n u oldsz newsz r : Nat} {t : τ} {ip : Content} {argv : List CStr}

/-! ## Sizes -/

/-- Directory `d` maps the page numbers from 1 up to `sz` bytes. -/
def Shape (ρ : Nat → Role τ) (d sz : Nat) : Prop := ∀ m, Maps ρ d m ↔ 1 ≤ m ∧ m < pages sz

/-- `allocuvm` on an address space of size `oldsz`. -/
theorem Shape.allocuvm_total (h : Inv L s ρ fl 0) (hd : ρ d = .dir t)
    (hold : 0 < oldsz ∧ oldsz < 0x80000000) (hs : Shape ρ d oldsz) (newsz : Nat) :
    ∃ r s' ρ' fl', Ends (allocuvm L d oldsz newsz) s r s' ∧ Inv L s' ρ' fl' 0 ∧
      Spares d s ρ s' ρ' ∧ ((r = 0 ∧ Shape ρ' d oldsz) ∨
        (r ≠ 0 ∧ r = max oldsz newsz ∧ r < 0x80000000 ∧ Shape ρ' d r)) := by
  by_cases hnew : newsz ≥ KERNBASE
  · exact ⟨0, s, ρ, fl, allocuvm_refuses hnew, h, .refl rfl, .inl ⟨rfl, hs⟩⟩
  by_cases hlt : newsz < oldsz
  · exact ⟨oldsz, s, ρ, fl, allocuvm_keeps hnew hlt, h, .refl rfl,
      .inr ⟨by omega, by omega, hold.2, hs⟩⟩
  simp only [KERNBASE] at hnew
  have hfresh : ∀ m, pages oldsz ≤ m → m < pages newsz → ¬ Maps ρ d m := by
    intro m h1 h2 hm
    have := (hs m).mp hm
    omega
  obtain ⟨r, s', ρ', fl', he, hinv, hloc, hframe, -, hres⟩ :=
    allocuvm_grows h hd (by omega) (by omega) (.inl hfresh)
  have hsp : Spares d s ρ s' ρ' := (Confined.of_frame hloc hframe).spares h (by simp [hd])
  refine ⟨r, s', ρ', fl', he, hinv, hsp, ?_⟩
  rcases hres with ⟨rfl, -, hgrown⟩ | ⟨rfl, -, hmaps⟩
  · refine .inr ⟨by omega, by omega, by omega, fun m => ?_⟩
    have := pages_bounds hold.1 (show oldsz ≤ r by omega) (by omega)
    rw [hgrown.maps, hs m]
    omega
  · refine .inl ⟨rfl, fun m => ?_⟩
    rw [hmaps hfresh, hs m]

theorem Shape.allocuvm (h : Inv L s ρ fl 0) (hd : ρ d = .dir t)
    (hold : 0 < oldsz ∧ oldsz < 0x80000000) (hs : Shape ρ d oldsz)
    (he : Ends (allocuvm L d oldsz newsz) s r s') :
    ∃ ρ' fl', Inv L s' ρ' fl' 0 ∧ Spares d s ρ s' ρ' ∧
      ((r = 0 ∧ Shape ρ' d oldsz) ∨
        (r ≠ 0 ∧ r = max oldsz newsz ∧ r < 0x80000000 ∧ Shape ρ' d r)) := by
  obtain ⟨r', s1, ρ', fl', he', hres⟩ := hs.allocuvm_total h hd hold newsz
  obtain ⟨rfl, rfl⟩ := he.unique he'
  exact ⟨ρ', fl', hres⟩

/-- `deallocuvm` on an address space of size `oldsz`, when something is left. -/
theorem Shape.deallocuvm (h : Inv L s ρ fl q) (hd : ρ d = .dir t) (hold : oldsz < 0x80000000)
    (hs : Shape ρ d oldsz) (hnew : 0 < newsz) (he : Ends (deallocuvm L d oldsz newsz) s r s') :
    ∃ ρ' fl', Inv L s' ρ' fl' q ∧ Local d ρ ρ' ∧ r = min oldsz newsz ∧ Shape ρ' d r := by
  by_cases hlt : newsz < oldsz
  · obtain ⟨s1, ns, us, he', hinv, -, -, hfreed, hall⟩ :=
      deallocuvm_spec oldsz newsz h hd (by omega) hlt
    obtain ⟨rfl, rfl⟩ := he.unique he'
    refine ⟨_, _, hinv, local_freeAll hfreed, by omega, fun m => ?_⟩
    obtain ⟨hpages, hle, -⟩ := pages_bounds hnew hlt.le (by omega)
    rw [hfreed.maps h.trees, hs m]
    constructor
    · rintro ⟨hm, hns⟩
      refine ⟨hm.1, ?_⟩
      by_contra hge
      -- the first page to go is mapped, so it has a table
      have hfirst : Maps ρ d (pages r) := (hs _).mpr ⟨hpages, by omega⟩
      obtain ⟨u, hu⟩ := hfirst
      obtain ⟨-, a, ha, -⟩ := h.trees.userOf u d _ hu
      exact hns ((hall m (by omega) ((lt_pages m oldsz).mpr hm.2) ((hs m).mpr hm)).mpr
        (not_skipped (.inr ⟨a, ha⟩)))
    · intro hm
      refine ⟨⟨hm.1, by omega⟩, fun hin => ?_⟩
      have := (hfreed.bounds m hin).1
      omega
  · unfold Ends Mem.deallocuvm at he
    rw [if_pos (by omega)] at he
    obtain ⟨rfl, rfl⟩ := ends_pure.mp he
    exact ⟨ρ, fl, h, .refl d ρ, by omega, hs⟩

/-! ## The segments -/

/-- A segment that passes the tests ends below `KERNBASE`. -/
theorem segment_end {off : Nat}
    (hwrap : ¬ u32 ((proghdr ip off).vaddr + (proghdr ip off).memsz) < (proghdr ip off).vaddr)
    (hfile : ¬ (proghdr ip off).memsz < (proghdr ip off).filesz)
    (hmax : u32 ((proghdr ip off).vaddr + (proghdr ip off).memsz) < 0x80000000) :
    (proghdr ip off).vaddr + (proghdr ip off).filesz ≤ 0x80000000 := by
  have hv : (proghdr ip off).vaddr < 2 ^ 32 := by
    have := load_lt ip.data (off + 8) 4
    exact Nat.lt_of_lt_of_eq this (by norm_num)
  have hm : (proghdr ip off).memsz < 2 ^ 32 := by
    have := load_lt ip.data (off + 20) 4
    exact Nat.lt_of_lt_of_eq this (by norm_num)
  unfold u32 at hwrap hmax
  omega

theorem loadSegments_spec (k : Nat) :
    ∀ {off sz : Nat} {s : Phys} {ρ : Nat → Role τ} {fl : List Nat} {r : Option Nat},
    Inv L s ρ fl 0 → ρ d = .dir t → 4096 ≤ sz ∧ sz < 0x80000000 → Shape ρ d sz →
    Ends (loadSegments L d ip k off sz) s r s' →
    ∃ ρ' fl', Inv L s' ρ' fl' 0 ∧ Spares d s ρ s' ρ' ∧
      ∀ sz', r = some sz' → 4096 ≤ sz' ∧ sz' < 0x80000000 ∧ Shape ρ' d sz' := by
  induction k with
  | zero =>
    intro off sz s ρ fl r h hd hsz hs he
    obtain ⟨rfl, rfl⟩ := ends_pure.mp he
    refine ⟨ρ, fl, h, .refl rfl, fun sz' hr => ?_⟩
    cases hr
    exact ⟨hsz.1, hsz.2, hs⟩
  | succ k ih =>
    intro off sz s ρ fl r h hd hsz hs he
    -- every `goto bad` leaves the state as it is at that point
    have hbad : ∀ {s1 ρ1 fl1}, Inv L s1 ρ1 fl1 0 → Spares d s ρ s1 ρ1 →
        Ends (pure none : VM (Option Nat)) s1 r s' →
        ∃ ρ' fl', Inv L s' ρ' fl' 0 ∧ Spares d s ρ s' ρ' ∧
          ∀ sz', r = some sz' → 4096 ≤ sz' ∧ sz' < 0x80000000 ∧ Shape ρ' d sz' := by
      intro s1 ρ1 fl1 h1 hsp he1
      obtain ⟨rfl, rfl⟩ := ends_pure.mp he1
      exact ⟨ρ1, fl1, h1, hsp, by simp⟩
    unfold Ends at he
    rw [loadSegments] at he
    split at he
    · exact hbad h (.refl rfl) he
    split at he
    · exact ih h hd hsz hs he
    split at he
    · exact hbad h (.refl rfl) he
    split at he
    · exact hbad h (.refl rfl) he
    next hfile hwrap =>
    obtain ⟨r1, s1, he1, he2⟩ := ends_bind.mp he
    obtain ⟨ρ1, fl1, h1, hsp1, hres⟩ := hs.allocuvm h hd ⟨by omega, hsz.2⟩ he1
    rcases hres with ⟨rfl, -⟩ | ⟨hne, hmax, hlt, hs1⟩
    · rw [if_pos rfl] at he2
      exact hbad h1 hsp1 he2
    rw [if_neg hne] at he2
    split at he2
    · exact hbad h1 hsp1 he2
    obtain ⟨ok, s2, he3, he4⟩ := ends_bind.mp he2
    have hd1 : ρ1 d = .dir t := by rw [hsp1.roles.role (by rw [hd]; exact not_loose_dir), hd]
    obtain ⟨h2, hsp2⟩ := loaduvm_spec (segment_end hwrap hfile (by omega)) h1 hd1 he3
    cases ok with
    | false => exact hbad h2 (hsp1.trans hsp2) he4
    | true =>
      obtain ⟨ρ', fl', hinv, hsp, hres⟩ := ih h2 hd1 (by omega) hs1 he4
      exact ⟨ρ', fl', hinv, (hsp1.trans hsp2).trans hsp, hres⟩

/-! ## The arguments -/

/-- Bytes of the stack that are used after a string of length `len`. -/
def pushed (used len : Nat) : Nat := (used + (len + 1) + 3) / 4 * 4

/-- The strings fit the stack page one after the other, up to one that starts in the guard page. -/
def FitsStack (used : Nat) : List CStr → Prop
  | [] => True
  | arg :: argv => pushed used arg.strlen ≤ 2 * PGSIZE ∧
      (pushed used arg.strlen ≤ PGSIZE → FitsStack (pushed used arg.strlen) argv)

instance (used : Nat) (argv : List CStr) : Decidable (FitsStack used argv) := by
  induction argv generalizing used with
  | nil => exact isTrue trivial
  | cons arg argv ih =>
    have := ih (pushed used arg.strlen)
    unfold FitsStack
    infer_instance

/-- A stack: page number `n` is mapped to `u`, and the page below it is not for the user. -/
structure Stack (s : Phys) (ρ : Nat → Role τ) (d n u : Nat) : Prop where
  page  : ρ u = .user d n
  guard : ∃ e, EntryIs s ρ d (n - 1) e ∧ e &&& PTE_U = 0

theorem Stack.copyout (buf : ByteMem.Mem) (used len : Nat) (h : Inv L s ρ fl q)
    (hst : Stack s ρ d n u) (hn : 2 ≤ n) (hlen : 0 < len) (hle : len ≤ used) (hused : used ≤ 8192) :
    ∃ ok s', Ends (copyout d (4096 * (n + 1) - used) buf len) s ok s' ∧ Inv L s' ρ fl q ∧
      s'.deny = s.deny ∧ Stack s' ρ d n u ∧ Spares d s ρ s' ρ ∧ (ok = true → used ≤ 4096) := by
  have hlt := (h.trees.userOf u d n hst.page).1
  obtain ⟨e, hent, hU⟩ := hst.guard
  by_cases hin : used ≤ 4096
  · have hdiv : (4096 * (n + 1) - used) / 4096 = n ∨ used = 0 := by omega
    have hpage : ρ u = .user d ((4096 * (n + 1) - used) / 4096) := by
      rw [hdiv.resolve_right (by omega)]
      exact hst.page
    obtain ⟨ok, s', he, hfl, hdeny, hsame⟩ := copyout_within buf len h hpage (by omega)
    exact ⟨ok, s', he, h.writeUser hst.page hfl hsame, hdeny,
      ⟨hst.page, e, hent.write h hst.page hsame, hU⟩, h.spares_user hst.page hsame, fun _ => hin⟩
  · -- in the guard page
    have hdiv : (4096 * (n + 1) - used) / 4096 = n - 1 := by omega
    exact ⟨false, s, copyout_guard h (by omega) (by rw [hdiv]; exact hent) hU hlen, h, rfl, hst,
      .refl rfl, by simp⟩

theorem pushArgs_spec (argv : List CStr) :
    ∀ (used : Nat) (ptrs : List Nat) {s : Phys},
    Inv L s ρ fl q → Stack s ρ d n u → 2 ≤ n → used ≤ 4096 → used % 4 = 0 →
    FitsStack used argv → ptrs.length ≤ MAXARG →
    ∃ r s', Ends (pushArgs d argv (4096 * (n + 1) - used) ptrs) s r s' ∧
      Inv L s' ρ fl q ∧ s'.deny = s.deny ∧ Stack s' ρ d n u ∧ Spares d s ρ s' ρ ∧
      ∀ sp ptrs', r = some (sp, ptrs') → ptrs'.length ≤ MAXARG ∧
        ∃ used' ≤ 4096, sp = 4096 * (n + 1) - used' := by
  induction argv with
  | nil =>
    intro used ptrs s h hst hn hused hmod hfits hlen
    refine ⟨_, s, rfl, h, rfl, hst, .refl rfl, fun sp ptrs' hr => ?_⟩
    obtain ⟨rfl, rfl⟩ : _ = sp ∧ ptrs = ptrs' := by simpa using hr
    exact ⟨hlen, used, hused, rfl⟩
  | cons arg argv ih =>
    intro used ptrs s h hst hn hused hmod hfits hlen
    have hlt := (h.trees.userOf u d n hst.page).1
    unfold Ends
    rw [pushArgs]
    split
    · exact ⟨none, s, rfl, h, rfl, hst, .refl rfl, by simp⟩
    next hargc =>
    obtain ⟨hfit, hrest⟩ := hfits
    have hsp : u32 (4096 * (n + 1) - used + 2 ^ 32 - (arg.strlen + 1)) / 4 * 4 =
        4096 * (n + 1) - pushed used arg.strlen := by
      unfold pushed at hfit ⊢
      unfold u32
      simp only [PGSIZE] at hfit
      omega
    obtain ⟨ok, s1, he1, h1, hdeny1, hst1, hsp1, hok⟩ :=
      hst.copyout arg.bytes _ (arg.strlen + 1) h hn
      (Nat.succ_pos _) (by unfold pushed; omega) hfit
    rw [hsp, run_bind_of_ends he1]
    cases ok with
    | false => exact ⟨none, s1, rfl, h1, hdeny1, hst1, hsp1, by simp⟩
    | true =>
      have hin := hok rfl
      obtain ⟨r, s2, he2, h2, hdeny2, hst2, hsp2, hres⟩ := ih _
        (ptrs ++ [4096 * (n + 1) - pushed used arg.strlen]) h1 hst1 hn hin
        (by unfold pushed; omega) (hrest hin)
        (by simp only [List.length_append, List.length_singleton]; omega)
      exact ⟨r, s2, he2, h2, hdeny2.trans hdeny1, hst2, hsp1.trans hsp2, hres⟩

/-! ## The image -/

/-- The part of `exec` after the program headers, on an image of size `sz`:
    the stack and the arguments. -/
theorem pushStack_spec {sz : Nat} (h : Inv L s ρ fl 0) (hd : ρ d = .dir t)
    (hsz : 4096 ≤ sz ∧ sz < 0x80000000) (hs : Shape ρ d sz) (hfits : FitsStack 0 argv) :
    ∃ r s' ρ' fl', Ends (pushStack L d argv sz) s r s' ∧ Inv L s' ρ' fl' 0 ∧ Spares d s ρ s' ρ' ∧
      ∀ sz' sp, r = some (sz', sp) → 4096 ≤ sz' ∧ sz' < 0x80000000 ∧ Shape ρ' d sz' := by
  unfold Ends pushStack
  rw [PGROUNDUP_eq (by omega)]
  dsimp only
  have hpg := pages_bounds (show 0 < sz by omega) le_rfl (by omega)
  by_cases htop : pages sz = 524288
  · -- no room for the stack
    have hno : Ends (allocuvm L d (4096 * pages sz) (u32 (4096 * pages sz + 2 * PGSIZE)))
        s 0 s := by
      rw [htop]
      exact allocuvm_refuses (by decide)
    rw [run_bind_of_ends hno]
    exact ⟨none, s, ρ, fl, rfl, h, .refl rfl, by simp⟩
  have hs' : Shape ρ d (4096 * pages sz) := by
    intro m
    rw [hs m, pages_mul]
  rw [u32_of_lt (by simp only [PGSIZE]; omega)]
  obtain ⟨sz2, s2, ρ2, fl2, he2, h2, hsp2, hres2⟩ := hs'.allocuvm_total h hd (by omega)
    (4096 * pages sz + 2 * PGSIZE)
  rw [run_bind_of_ends he2]
  rcases hres2 with ⟨rfl, -⟩ | ⟨hne, hmax, hlt, hs2⟩
  · exact ⟨none, s2, ρ2, fl2, rfl, h2, hsp2, by simp⟩
  rw [if_neg hne]
  -- the stack page is `n`, the guard page `n - 1`
  obtain ⟨n, hn, rfl⟩ : ∃ n, 2 ≤ n ∧ sz2 = 4096 * (n + 1) :=
    ⟨pages sz + 1, by omega, by simp only [PGSIZE] at hmax; omega⟩
  obtain ⟨g, hg⟩ := (hs2 (n - 1)).mpr (by rw [pages_mul]; omega)
  obtain ⟨u, hu⟩ := (hs2 n).mpr (by rw [pages_mul]; omega)
  obtain ⟨s3, he3, h3, -, hguard, -⟩ := clearpteu_spec h2 hg
  have hst : Stack s3 ρ2 d n u := ⟨hu, hguard⟩
  have hsp3 := hsp2.trans (clearpteu_spares h2 hg he3)
  rw [show 4096 * (n + 1) - 2 * PGSIZE = 4096 * (n - 1) by simp only [PGSIZE]; omega,
    run_bind_of_ends he3]
  unfold pushUstack
  obtain ⟨r4, s4, he4, h4, -, hst4, hsp4, hres4⟩ := pushArgs_spec argv 0 [] h3 hst hn
    (by omega) rfl hfits (by simp)
  rw [Nat.sub_zero] at he4
  rw [run_bind_of_ends he4]
  cases r4 with
  | none => exact ⟨none, s4, ρ2, fl2, rfl, h4, hsp3.trans hsp4, by simp⟩
  | some p =>
  obtain ⟨sp, ptrs⟩ := p
  obtain ⟨hargc, used, hused, rfl⟩ := hres4 sp ptrs rfl
  dsimp only
  have hptrs : ptrs.length ≤ 32 := hargc
  have hsp : u32 (4096 * (n + 1) - used + 2 ^ 32 - (3 + ptrs.length + 1) * 4) =
      4096 * (n + 1) - (used + (3 + ptrs.length + 1) * 4) := by
    have := (h2.trees.userOf u d n hu).1
    unfold u32
    omega
  obtain ⟨ok, s5, he5, h5, -, -, hsp5, -⟩ := hst4.copyout
    (wordBytes (ustack (4096 * (n + 1) - used) ptrs)) (used + (3 + ptrs.length + 1) * 4)
    ((3 + ptrs.length + 1) * 4) h4 hn (by omega) (by omega) (by omega)
  rw [hsp, run_bind_of_ends he5]
  refine ⟨_, s5, ρ2, fl2, rfl, h5, (hsp3.trans hsp4).trans hsp5, fun sz' sp' hr => ?_⟩
  split at hr
  · obtain ⟨rfl, -⟩ : 4096 * (n + 1) = sz' ∧ _ = sp' := by simpa using hr
    exact ⟨by omega, hlt, hs2⟩
  · cases hr

theorem fillImage_spec {r : Option (Nat × Nat)} (h : Inv L s ρ fl 0) (hd : ρ d = .dir t)
    (hs : Shape ρ d PGSIZE) (hfits : FitsStack 0 argv) (he : Ends (fillImage L d ip argv) s r s') :
    ∃ ρ' fl', Inv L s' ρ' fl' 0 ∧ Spares d s ρ s' ρ' ∧
      ∀ sz sp, r = some (sz, sp) → 4096 ≤ sz ∧ sz < 0x80000000 ∧ Shape ρ' d sz := by
  unfold Ends fillImage at he
  obtain ⟨r1, s1, he1, he⟩ := ends_bind.mp he
  obtain ⟨ρ1, fl1, h1, hsp1, hres1⟩ :=
    loadSegments_spec _ h hd ⟨le_rfl, by decide⟩ hs he1
  cases r1 with
  | none =>
    obtain ⟨rfl, rfl⟩ := ends_pure.mp he
    exact ⟨ρ1, fl1, h1, hsp1, by simp⟩
  | some sz =>
    obtain ⟨hsz, hsz', hs1⟩ := hres1 sz rfl
    have hd1 : ρ1 d = .dir t := by rw [hsp1.roles.role (by rw [hd]; exact not_loose_dir), hd]
    obtain ⟨r2, s2, ρ2, fl2, he2, h2, hsp2, hres2⟩ :=
      pushStack_spec h1 hd1 ⟨hsz, hsz'⟩ hs1 hfits
    obtain ⟨rfl, rfl⟩ := he.unique he2
    exact ⟨ρ2, fl2, h2, hsp1.trans hsp2, hres2⟩

/-- `setupkvm` is refused a page after its first. -/
def SetupTorn (s : Phys) (fl : List Nat) : Prop := Grants s fl 1 ∧ ¬ Grants s fl KVMPAGES

/-- The file passes the tests that `exec` makes before it asks for a page. -/
def IsElf (ip : Content) : Prop :=
  ¬ toU32 (ip.readi 0 ELFHDR) < ELFHDR ∧ (elfhdr ip).magic = ELF_MAGIC

theorem NewDir.shape {K : Nat → Prop} (h : Inv L s ρ fl q) (hnew : NewDir ρ d t K ρ') :
    Shape ρ' d PGSIZE := by
  intro m
  have := hnew.not_maps h m
  have hp : pages PGSIZE = 1 := rfl
  constructor
  · exact fun hm => absurd hm this
  · rw [hp]
    omega

theorem buildImage_spec {r : Option Image} (t leak : τ) (h : Inv L s ρ fl 0)
    (hfits : FitsStack 0 argv) (he : Ends (buildImage L ip argv) s r s') :
    ∃ ρ' fl', Inv L s' ρ' fl' 0 ∧
      ((r = none ∧ (ρ' = ρ ∨ (IsElf ip ∧ SetupTorn s fl) ∧ Lost leak ρ ρ')) ∨
        ∃ img, r = some img ∧ NewSpace ρ img.pgdir t ρ' ∧ 4096 ≤ img.sz ∧
          img.sz < 0x80000000 ∧ Shape ρ' img.pgdir img.sz) := by
  unfold Ends buildImage at he
  split at he
  · obtain ⟨rfl, rfl⟩ := ends_pure.mp he
    exact ⟨ρ, fl, h, .inl ⟨rfl, .inl rfl⟩⟩
  next hhdr =>
  split at he
  · obtain ⟨rfl, rfl⟩ := ends_pure.mp he
    exact ⟨ρ, fl, h, .inl ⟨rfl, .inl rfl⟩⟩
  next hmagic =>
  obtain ⟨d, s1, he1, he⟩ := ends_bind.mp he
  by_cases hg65 : Grants s fl KVMPAGES
  swap
  · -- no directory
    obtain ⟨d', s1', ρ1, fl1, he1', hinv, hres⟩ := setupkvm_spec leak h
    obtain ⟨rfl, rfl⟩ := he1.unique he1'
    rcases hres with ⟨rfl, rfl, rfl, -⟩ | ⟨rfl, hg1, hg, d', hnew⟩ | ⟨-, htook, -⟩
    · obtain ⟨rfl, rfl⟩ := ends_pure.mp he
      exact ⟨_, _, hinv, .inl ⟨rfl, .inl rfl⟩⟩
    · obtain ⟨rfl, rfl⟩ := ends_pure.mp he
      exact ⟨_, _, hinv, .inl ⟨rfl, .inr ⟨⟨⟨hhdr, not_not.mp hmagic⟩, hg1, hg⟩,
        .inl ⟨d', hnew⟩⟩⟩⟩
    · exact absurd htook.grants hg65
  obtain ⟨d', s1', ρ1, fl1, he1', hinv1, hres⟩ := setupkvm_spec t h
  obtain ⟨rfl, rfl⟩ := he1.unique he1'
  rcases hres with ⟨-, -, -, hg⟩ | ⟨-, -, hg, -⟩ | ⟨hd0, -, hnew, -⟩
  · exact absurd (hg65.mono (by decide)) hg
  · exact absurd hg65 hg
  rw [if_neg hd0] at he
  have hs := hnew.shape h
  obtain ⟨r2, s2, he2, he⟩ := ends_bind.mp he
  obtain ⟨ρ2, fl2, hinv2, hsp, hres2⟩ := fillImage_spec hinv1 hnew.dir hs hfits he2
  have hspace := hnew.newSpace.local h hsp.roles
  cases r2 with
  | some p =>
    obtain ⟨sz, sp⟩ := p
    obtain ⟨rfl, rfl⟩ := ends_pure.mp he
    obtain ⟨h1, h2, h3⟩ := hres2 sz sp rfl
    exact ⟨ρ2, fl2, hinv2, .inr ⟨_, rfl, hspace, h1, h2, h3⟩⟩
  | none =>
    obtain ⟨s3, ns, us, he3, hinv3, -⟩ := freevm_spec hinv2 hspace.dir
    dsimp only at he
    unfold Ends at he
    rw [run_bind_of_ends he3] at he
    obtain ⟨rfl, rfl⟩ := ends_pure.mp he
    exact ⟨_, _, hinv3, .inl ⟨rfl, .inl (hspace.drop h)⟩⟩

end Xv6.Mem
