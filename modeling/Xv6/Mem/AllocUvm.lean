import Xv6.Mem.Dealloc
import Xv6.Mem.UserView

/-! # `allocuvm` is all or nothing

    `allocuvm` grows an address space by pages from the free list. When a page or a page table
    cannot be had it calls `deallocuvm` for the whole range, part of which is mapped. The directory
    entries, the mappings below the old size and every page that is in use stay as they are.
-/

namespace Xv6.Mem

open ByteMem Program Function

variable {τ : Type} {L : Layout} {s s' s'' : Phys} {ρ ρ' : Nat → Role τ} {fl fl' : List Nat}
  {q d n lo u : Nat} {t : τ}

/-! ## Mappings -/

/-- The entry of directory `d` for page number `n`, if there is a table for it. -/
def entryOf (m : ByteMem.Mem) (d n : Nat) : Option Nat :=
  (ptr m d (n / 1024)).map fun a => load m (a + 4 * (n % 1024)) 4

/-- Page number `n` is mapped as before: to the same page, with the same entry and
    the same contents, or not at all. -/
structure SameAt (m m' : ByteMem.Mem) (d n : Nat) : Prop where
  page  : pageOf m' d n = pageOf m d n
  entry : pageOf m d n ≠ none → entryOf m' d n = entryOf m d n
  bytes : ∀ u, pageOf m d n = some u → SamePage m m' u

theorem Frame.sameAt (hf : Frame d lo s ρ s' ρ') (h : Inv L s ρ fl q) (hd : ρ d = .dir t)
    (hdir : DirKept d s s') (hn : n < lo) (hu : ρ u = .user d n) : SameAt s.mem s'.mem d n := by
  obtain ⟨hlt, a, ha, hp⟩ := h.trees.userOf u d n hu
  have hptr := (h.trees.tabOf a d _ ha).2.2
  have hptr' := hdir.ptr (by omega) hptr
  have hload : load s'.mem (a + 4 * (n % 1024)) 4 = load s.mem (a + 4 * (n % 1024)) 4 :=
    load_congr fun x h1 h2 => hf.mem x (h.not_alters_entry hd ha hn h1 h2)
  refine ⟨?_, fun _ => ?_, fun v hv => ?_⟩
  · unfold pageOf
    rw [hptr, hptr', Option.bind_some, Option.bind_some]
    unfold ptr
    rw [hload]
  · unfold entryOf
    rw [hptr, hptr', Option.map_some, Option.map_some, hload]
  · have hv' := (h.pageOf_iff hd hlt).mp hv
    intro x h1 h2
    exact hf.mem x (h.not_alters hd (by simp [hv']) (by simp [hv']) (ne_of_role hv' hd (by simp))
      (fun m hm => by rw [hv']; simp; omega) (fun _ _ => by rw [hv']; simp) ⟨h1, h2⟩)

theorem Inv.pageOf_none (h : Inv L s ρ fl q) (hd : ρ d = .dir t) (hn : n < 524288)
    (hno : ¬ Maps ρ d n) : pageOf s.mem d n = none := by
  by_contra hne
  obtain ⟨u, hu⟩ := Option.ne_none_iff_exists'.mp hne
  exact hno ⟨u, (h.pageOf_iff hd hn).mp hu⟩

theorem Frame.entryOf_kern (hf : Frame d lo s ρ s' ρ') (h : Inv L s ρ fl q) (h' : Inv L s' ρ' fl' q)
    (hd : ρ d = .dir t) (hd' : ρ' d = .dir t) (hge : 524288 ≤ n) (hn : n < 2 ^ 20) :
    entryOf s'.mem d n = entryOf s.mem d n := by
  unfold entryOf
  rw [hf.ptr_kern h h' hd hd' hge hn]
  cases ha : ptr s.mem d (n / 1024) with
  | none => rfl
  | some a =>
    have htab := h.trees.tab d t hd _ (by omega) a ha
    rw [Option.map_some, Option.map_some,
      (hf.samePage_kern h hd htab (by omega)).load (Nat.mod_lt _ (by decide))]

/-! ## Main theorem -/

/-- The pages of the range are mapped, each to a page of the free list that is
    cleared; the other page numbers are mapped as before. -/
structure GrewTo (s : Phys) (fl : List Nat) (d oldsz newsz : Nat) (s' : Phys) (fl' : List Nat) :
    Prop where
  fresh    : ∀ n, InSpan newsz oldsz n → ∃ u ∈ fl, u ∉ fl' ∧ pageOf s'.mem d n = some u ∧
    entryOf s'.mem d n = some (V2P u ||| PTE_P ||| PTE_W ||| PTE_U) ∧
    ∀ x, InPage u x → s'.mem x = 0
  distinct : ∀ n n', InSpan newsz oldsz n → InSpan newsz oldsz n' →
    pageOf s'.mem d n = pageOf s'.mem d n' → n = n'
  others   : ∀ n < 524288, ¬ InSpan newsz oldsz n → SameAt s.mem s'.mem d n

/-- All page numbers are mapped as before, and what was free is free or a page
    table of the directory. -/
structure GaveBack (s : Phys) (fl : List Nat) (d : Nat) (s' : Phys) (fl' : List Nat) : Prop where
  same : ∀ n < 524288, SameAt s.mem s'.mem d n
  back : ∀ x ∈ fl, x ∈ fl' ∨ ∃ i < 512, ptr s'.mem d i = some x

section Main

variable {oldsz newsz : Nat}

theorem Inv.shape_maps (h : Inv L s ρ fl q) (hd : ρ d = .dir t) (hold : oldsz < 0x80000000)
    (hshape : ∀ n < 524288, pageOf s.mem d n ≠ none ↔
      PGSIZE ≤ PGSIZE * n ∧ PGSIZE * n < PGROUNDUP oldsz) (n : Nat) :
    Maps ρ d n ↔ 1 ≤ n ∧ n < pages oldsz := by
  have hup : PGROUNDUP oldsz = 4096 * pages oldsz := PGROUNDUP_eq (by omega)
  have hle : pages oldsz ≤ 524288 := by
    unfold pages
    omega
  have hiff : n < 524288 → (Maps ρ d n ↔ 1 ≤ n ∧ n < pages oldsz) := by
    intro hn
    have hs := hshape n hn
    rw [hup] at hs
    simp only [PGSIZE] at hs
    have hm : Maps ρ d n ↔ pageOf s.mem d n ≠ none := by
      rw [Option.ne_none_iff_exists']
      exact exists_congr fun u => (h.pageOf_iff hd hn).symm
    rw [hm, hs]
    omega
  constructor
  · rintro ⟨u, hu⟩
    exact (hiff (h.trees.userOf u d n hu).1).mp ⟨u, hu⟩
  · rintro ⟨h1, h2⟩
    exact (hiff (by omega)).mpr ⟨h1, h2⟩

theorem user_entry (hu : V2P u % 4096 = 0) :
    V2P u + 7 = V2P u ||| PTE_P ||| PTE_W ||| PTE_U := (table_flags u hu).symm

/-- Where the page numbers of the range are the only ones that may have changed. -/
theorem Frame.sameAt_of_maps {ρ1 : Nat → Role τ} (hf : Frame d (pages oldsz) s ρ s' ρ1)
    (h : Inv L s ρ fl q) (h' : Inv L s' ρ' fl' q) (hd : ρ d = .dir t) (hd' : ρ' d = .dir t)
    (hdir : DirKept d s s')
    (hbelow : ∀ m, Maps ρ d m → m < pages oldsz) (hn : n < 524288)
    (hmaps : Maps ρ' d n → Maps ρ d n) : SameAt s.mem s'.mem d n := by
  by_cases hm : Maps ρ d n
  · obtain ⟨u, hu⟩ := hm
    exact hf.sameAt h hd hdir (hbelow n ⟨u, hu⟩) hu
  · have hnone := h.pageOf_none hd hn hm
    have hnone' := h'.pageOf_none hd' hn fun hm' => hm (hmaps hm')
    exact ⟨hnone'.trans hnone.symm, fun hc => absurd hnone hc, fun u hu => by
      rw [hnone] at hu
      cases hu⟩

/-- A page in use keeps its role if its page number is mapped as before. -/
theorem Local.kept (hloc : Local d ρ ρ') (h : Inv L s ρ fl q) (h' : Inv L s' ρ' fl' q)
    (hd : ρ d = .dir t) (hd' : ρ' d = .dir t) (hdir : DirKept d s s')
    (hsame : ∀ n, Maps ρ d n → SameAt s.mem s'.mem d n) {x : Nat} (hx : ρ x ≠ .free) :
    ρ' x = ρ x := by
  rcases hloc x with he | ⟨hl, -⟩
  · exact he
  rcases hl with hfree | ⟨i, hi⟩ | ⟨n, hn⟩
  · exact absurd hfree hx
  · obtain ⟨-, hlt, hp⟩ := h.trees.tabOf x d i hi
    rw [hi]
    exact h'.trees.tab d t hd' i hlt x (hdir.ptr hlt hp)
  · have hlt := (h.trees.userOf x d n hn).1
    have hpage := (hsame n ⟨x, hn⟩).page
    rw [(h.pageOf_iff hd hlt).mpr hn] at hpage
    rw [hn]
    exact (h'.pageOf_iff hd' hlt).mp hpage

theorem Inv.hasTab_eq (h : Inv L s ρ fl q) (hd : ρ d = .dir t) :
    HasTab ρ d = fun i => i < 1024 ∧ ptr s.mem d i ≠ none := by
  funext i
  refine propext ⟨fun ⟨a, ha⟩ => ?_, fun ⟨hlt, hp⟩ => ?_⟩
  · obtain ⟨-, hlt, hp⟩ := h.trees.tabOf a d i ha
    exact ⟨hlt, by rw [hp]; simp⟩
  · obtain ⟨a, ha⟩ := Option.ne_none_iff_exists'.mp hp
    exact ⟨a, h.trees.tab d t hd i hlt a ha⟩

/-- **`allocuvm` is all or nothing**: on an address space that maps the pages from the first one to
    the old size, with any calls of `kalloc` failing, it maps the new range to cleared pages and
    returns the new size, if the calls for its pages and page tables succeed, or it returns 0 and
    maps what it did before. The directory entries, the kernel half and the pages of everyone else
    keep their contents. -/
theorem allocuvm_all_or_nothing (oldsz newsz : Nat) (h : Inv L s ρ fl 0) (hd : ρ d = .dir t)
    (hle : oldsz ≤ newsz) (hnew : newsz < KERNBASE)
    (hshape : ∀ n < 524288, pageOf s.mem d n ≠ none ↔
      PGSIZE ≤ PGSIZE * n ∧ PGSIZE * n < PGROUNDUP oldsz) :
    ∃ r s' ρ' fl', Ends (allocuvm L d oldsz newsz) s r s' ∧ Inv L s' ρ' fl' 0 ∧
      (∀ x, ρ x ≠ .free → ρ' x = ρ x) ∧ DirKept d s s' ∧
      (∀ n, 524288 ≤ n → n < 2 ^ 20 → entryOf s'.mem d n = entryOf s.mem d n) ∧
      (∀ b, ρ b ≠ .other → ρ b ≠ .free → b ≠ d → (∀ i, ρ b ≠ .table d i) →
        SamePage s.mem s'.mem b) ∧
      (r = newsz ↔ Grants s fl (userNeed (fun i => i < 1024 ∧ ptr s.mem d i ≠ none) (pages oldsz)
        (pages newsz - pages oldsz))) ∧
      ((r = newsz ∧ GrewTo s fl d oldsz newsz s' fl') ∨ (r = 0 ∧ GaveBack s fl d s' fl')) := by
  have hnew' : newsz < 0x80000000 := hnew
  have hmaps := h.shape_maps hd (by omega) hshape
  have hspan : ∀ n, InSpan newsz oldsz n ↔ pages oldsz ≤ n ∧ n < pages newsz := by
    intro n
    rw [inSpan_iff (by omega), lt_pages]
  have hpages : pages newsz ≤ 524288 := by
    unfold pages
    omega
  have hbelow : ∀ m, Maps ρ d m → m < pages oldsz := fun m hm => ((hmaps m).mp hm).2
  have hfresh : ∀ m, pages oldsz ≤ m → m < pages newsz → ¬ Maps ρ d m :=
    fun m h1 _ hm => Nat.lt_irrefl _ (Nat.lt_of_lt_of_le (hbelow m hm) h1)
  obtain ⟨r, s', ρ', fl', he, hinv', hloc, hf, hdir, hres⟩ :=
    allocuvm_grows h hd hnew' hle (.inl hfresh)
  have hd' : ρ' d = .dir t := by rw [hloc.role (by rw [hd]; exact not_loose_dir), hd]
  have hsame : ∀ n, Maps ρ d n → SameAt s.mem s'.mem d n := by
    rintro n ⟨u, hu⟩
    exact hf.sameAt h hd hdir (hbelow n ⟨u, hu⟩) hu
  refine ⟨r, s', ρ', fl', he, hinv', fun x => hloc.kept h hinv' hd hd' hdir hsame, hdir,
    fun n h1 h2 => hf.entryOf_kern h hinv' hd hd' h1 h2, fun b hb hbf hbd htab x h1 h2 => ?_,
    ?_, ?_⟩
  · by_cases hu : ∃ m, ρ b = .user d m
    · obtain ⟨m, hm⟩ := hu
      have hlt := (h.trees.userOf b d m hm).1
      exact (hsame m ⟨b, hm⟩).bytes b ((h.pageOf_iff hd hlt).mpr hm) x h1 h2
    · exact hf.mem x (h.not_alters hd hb hbf hbd (fun m _ hm => hu ⟨m, hm⟩) (fun i _ => htab i)
        ⟨h1, h2⟩)
  · rw [← h.hasTab_eq hd]
    rcases hres with ⟨hr, -, hgrown⟩ | ⟨hr, hno, -⟩
    · exact iff_of_true hr hgrown.took.grants
    · refine iff_of_false (fun hc => hno ?_) hno
      -- of size 0 there is nothing to map
      obtain rfl : newsz = 0 := hc.symm.trans hr
      rw [Nat.le_zero.mp hle, Nat.sub_self]
      exact ⟨Nat.zero_le _, by simp [userNeed]⟩
  rcases hres with ⟨hr, -, hgrown⟩ | ⟨hr, -, hmaps'⟩
  · refine .inl ⟨hr, fun n hn => ?_, fun n n' hn hn' heq => ?_, fun n hn hout => ?_⟩
    · obtain ⟨h1, h2⟩ := (hspan n).mp hn
      obtain ⟨u, hu, hrole, a, ha, hload⟩ := hgrown.page (n - pages oldsz) (by omega)
      obtain ⟨v, hv, hzero⟩ := hgrown.clear (n - pages oldsz) (by omega)
      rw [Nat.add_sub_cancel' h1] at hrole ha hload hv
      obtain rfl := hinv'.trees.user_unique hrole hv
      have hpu := hinv'.isPage hrole (by simp)
      refine ⟨u, List.mem_of_getElem? hu, fun hc => ?_, (hinv'.pageOf_iff hd' (by omega)).mpr hrole,
        ?_, hzero⟩
      · rw [(hinv'.free u).mp hc] at hrole
        cases hrole
      · have h3 := hpu.mod
        have h4 := hpu.gt
        unfold entryOf
        rw [(hinv'.trees.tabOf a d _ ha).2.2, Option.map_some, hload,
          user_entry (by rw [hpu.V2P]; omega)]
    · obtain ⟨h1, h2⟩ := (hspan n).mp hn
      obtain ⟨h3, h4⟩ := (hspan n').mp hn'
      obtain ⟨u, -, hrole, -⟩ := hgrown.page (n - pages oldsz) (by omega)
      rw [Nat.add_sub_cancel' h1] at hrole
      have hu := (hinv'.pageOf_iff hd' (by omega)).mpr hrole
      rw [hu] at heq
      have hrole' := (hinv'.pageOf_iff hd' (by omega)).mp heq.symm
      rw [hrole] at hrole'
      simpa using hrole'
    · refine hf.sameAt_of_maps h hinv' hd hd' hdir hbelow hn fun hm => ?_
      rcases (hgrown.maps n).mp hm with hm | hm
      · exact hm
      · exact absurd ((hspan n).mpr (by omega)) hout
  · refine .inr ⟨hr, fun n hn => ?_, fun x hx => ?_⟩
    · exact hf.sameAt_of_maps h hinv' hd hd' hdir hbelow hn (hmaps' hfresh n).mp
    · have hfree := (h.free x).mp hx
      have hloose : Loose d (ρ' x) := by
        rcases hloc x with heq | ⟨-, hl⟩
        · exact .inl (heq.trans hfree)
        · exact hl
      rcases hloose with hl | ⟨i, hi⟩ | ⟨m, hm⟩
      · exact .inl ((hinv'.free x).mpr hl)
      · obtain ⟨-, hlt, hp⟩ := hinv'.trees.tabOf x d i hi
        refine .inr ⟨i, ?_, hp⟩
        -- tables of the kernel half are not new
        by_contra hge
        have htab := (hf.kern x i (by omega)).mp (hinv'.trees.tab d t hd' i hlt x hp)
        rw [hfree] at htab
        cases htab
      · have hlt := (hinv'.trees.userOf x d m hm).1
        have hpage := (hsame m ((hmaps' hfresh m).mp ⟨x, hm⟩)).page
        rw [(hinv'.pageOf_iff hd' hlt).mpr hm] at hpage
        have hrole := (h.pageOf_iff hd hlt).mp hpage.symm
        rw [hfree] at hrole
        cases hrole

/-- An empty directory at `0x80200000` and two free pages. -/
def twoPageState : Phys where
  mem := store (fill (store (fill (fun _ => 0) 0x80203000 4096 1) 0x80203000 4 0) 0x80204000 4096 1)
    0x80204000 4 0x80203000
  freelist := 0x80204000
  deny := []

theorem twoPage_inv : ∃ ρ : Nat → Role Unit,
    Inv spanLayout twoPageState ρ [0x80204000, 0x80203000] 0 ∧ ρ 0x80200000 = .dir () := by
  have h0 : Inv spanLayout ⟨fun _ => 0, 0, []⟩ (allHeld spanLayout ()) [] 0 := Inv.start () rfl
  have h1 := h0.addDir () (allHeld_page (a := 0x80200000) ⟨by decide, by decide, by decide⟩)
    fun i _ => ptr_of_load_zero rfl
  have h2 := h1.give (a := 0x80203000) (t := ()) ((update_of_ne (by decide) _ _).trans
    (allHeld_page ⟨by decide, by decide, by decide⟩)) (by decide)
  have h3 := h2.give (a := 0x80204000) (t := ()) ((update_of_ne (by decide) _ _).trans
    ((update_of_ne (by decide) _ _).trans
      (allHeld_page ⟨by decide, by decide, by decide⟩))) (by decide)
  exact ⟨_, h3, by rw [update_of_ne (by decide), update_of_ne (by decide), update_self]⟩

/-- One more page for the empty directory takes both: one is its page table. -/
theorem allocuvm_twoPages :
    ∃ s' u, Ends (allocuvm spanLayout 0x80200000 0x1000 0x2000) twoPageState 0x2000 s' ∧
      pageOf s'.mem 0x80200000 1 = some u := by
  obtain ⟨ρ, hinv, hd⟩ := twoPage_inv
  have hptr : ∀ i < 1024, ptr twoPageState.mem 0x80200000 i = none := by
    intro i hi
    refine ptr_of_load_zero ?_
    show load (store (fill (store (fill _ 0x80203000 4096 1) 0x80203000 4 0) 0x80204000 4096 1)
      0x80204000 4 0x80203000) _ 4 = 0
    rw [(samePage_store (by decide)).load hi, (samePage_fill (by decide)).load hi,
      (samePage_store (by decide)).load hi, (samePage_fill (by decide)).load hi]
    rfl
  have hnone : ∀ n < 524288, pageOf twoPageState.mem 0x80200000 n = none := by
    intro n hn
    unfold pageOf
    rw [hptr _ (by omega)]
    rfl
  obtain ⟨r, s', ρ', fl', he, -, -, -, -, -, hiff, hres⟩ := allocuvm_all_or_nothing 0x1000 0x2000
    hinv hd (by decide) (by decide) fun n hn => by
      rw [hnone n hn, show PGROUNDUP 0x1000 = 4096 by decide]
      simp only [PGSIZE, ne_eq, not_true_eq_false, false_iff]
      omega
  have hneed : userNeed (fun i => i < 1024 ∧ ptr twoPageState.mem 0x80200000 i ≠ none)
      (pages 0x1000) (pages 0x2000 - pages 0x1000) ≤ 2 := by
    rw [show pages 0x2000 - pages 0x1000 = 0 + 1 by decide, userNeed, userNeed]
    split_ifs <;> omega
  obtain rfl : r = 0x2000 := hiff.mpr ⟨hneed, fun b hb => by simp [twoPageState] at hb⟩
  rcases hres with ⟨-, hgrew⟩ | ⟨hr, -⟩
  · obtain ⟨u, -, -, hu, -⟩ := hgrew.fresh 1 ⟨by decide, by decide⟩
    exact ⟨s', u, he, hu⟩
  · exact absurd hr (by decide)

end Main

end Xv6.Mem
