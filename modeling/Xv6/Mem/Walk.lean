import Xv6.Mem.Alloc

/-! # Specification of `walkpgdir`, `mappages` and `setupkvm`

    Page numbers stand for page-aligned virtual addresses: page `n` is the page at `4096 * n`. A
    directory has a table at index `n / 1024` for it and an entry in this table at index `n % 1024`.
-/

namespace Xv6.Mem

open ByteMem Program Function

variable {τ : Type} {L : Layout} {s s' : Phys} {ρ : Nat → Role τ} {fl : List Nat}
  {q d n i x b a va v pa perm k : Nat} {t : τ} {m m' : ByteMem.Mem} {E : Nat → Nat} {r : Kmap}

/-! ## Tables and mappings of a directory -/

/-- Directory `d` has a table at index `i`. -/
def HasTab (ρ : Nat → Role τ) (d i : Nat) : Prop := ∃ a, ρ a = .table d i

/-- Directory `d` maps the page number `n`. -/
def Present (m : ByteMem.Mem) (d n : Nat) : Prop :=
  ∃ a, ptr m d (n / 1024) = some a ∧ (ptr m a (n % 1024)).isSome

/-- `x` lies in the page at `a`. -/
def InPage (a x : Nat) : Prop := a ≤ x ∧ x < a + 4096

/-- Tables for directory `d` are taken from free pages: these and the page of
    the directory are what `walkpgdir` may write to. -/
def TableSpace (ρ : Nat → Role τ) (d x : Nat) : Prop :=
  (∃ a, ρ a = .free ∧ InPage a x) ∨ InPage d x

/-- No entry of a kernel table of directory `d` has `PTE_U`. -/
def Private (m : ByteMem.Mem) (d : Nat) : Prop :=
  ∀ n, 524288 ≤ n → n < 2 ^ 20 → ∀ a, ptr m d (n / 1024) = some a →
    load m (a + 4 * (n % 1024)) 4 / 4 % 2 = 0

theorem PDX_page (h : n < 2 ^ 20) : PDX (4096 * n) = n / 1024 := by
  unfold PDX
  omega

theorem PTX_page (n : Nat) : PTX (4096 * n) = n % 1024 := by
  unfold PTX
  omega

theorem Inv.hasTab_iff (h : Inv L s ρ fl q) (hd : ρ d = .dir t) (hi : i < 1024) :
    HasTab ρ d i ↔ ptr s.mem d i ≠ none := by
  constructor
  · rintro ⟨a, ha⟩ hnone
    have := (h.trees.tabOf a d i ha).2.2
    rw [hnone] at this
    cases this
  · intro hne
    obtain ⟨a, ha⟩ := Option.ne_none_iff_exists'.mp hne
    exact ⟨a, h.trees.tab d t hd i hi a ha⟩

/-- Below `KERNBASE` a page number is mapped exactly if some page has the role. -/
theorem Inv.present_iff (h : Inv L s ρ fl q) (hd : ρ d = .dir t) (hn : n < 524288) :
    Present s.mem d n ↔ ∃ u, ρ u = .user d n := by
  constructor
  · rintro ⟨a, ha, hsome⟩
    obtain ⟨u, hu⟩ := Option.isSome_iff_exists.mp hsome
    have htab := h.trees.tab d t hd (n / 1024) (by omega) a ha
    refine ⟨u, ?_⟩
    have := h.trees.user a d (n / 1024) htab (by omega) (n % 1024) (by omega) u hu
    rwa [show 1024 * (n / 1024) + n % 1024 = n by omega] at this
  · rintro ⟨u, hu⟩
    obtain ⟨-, a, ha, hp⟩ := h.trees.userOf u d n hu
    exact ⟨a, (h.trees.tabOf a d _ ha).2.2, by rw [hp]; rfl⟩

/-! ## Work on one directory -/

section Confined

variable {s'' : Phys} {ρ' ρ'' : Nat → Role τ} {x b : Nat}

/-- Free, or part of directory `d` below its directory page. -/
def Loose (d : Nat) (r : Role τ) : Prop :=
  r = .free ∨ (∃ i, r = .table d i) ∨ ∃ n, r = .user d n

/-- Pages moved only between the free list and directory `d`. -/
def Local (d : Nat) (ρ ρ' : Nat → Role τ) : Prop :=
  ∀ x, ρ' x = ρ x ∨ (Loose d (ρ x) ∧ Loose d (ρ' x))

theorem Local.refl (d : Nat) (ρ : Nat → Role τ) : Local d ρ ρ := fun _ => .inl rfl

theorem Local.trans (h : Local d ρ ρ') (h' : Local d ρ' ρ'') : Local d ρ ρ'' := by
  intro x
  rcases h x with he | ⟨h1, h2⟩
  · rcases h' x with he' | ⟨h1', h2'⟩
    · exact .inl (he'.trans he)
    · exact .inr ⟨he ▸ h1', h2'⟩
  · rcases h' x with he' | ⟨h1', h2'⟩
    · exact .inr ⟨h1, he' ▸ h2⟩
    · exact .inr ⟨h1, h2'⟩

/-- A page outside the free list and the directory keeps its role. -/
theorem Local.role (h : Local d ρ ρ') (hx : ¬ Loose d (ρ x)) : ρ' x = ρ x :=
  (h x).resolve_right fun hl => hx hl.1

theorem Local.role_back (h : Local d ρ ρ') (hx : ¬ Loose d (ρ' x)) : ρ' x = ρ x :=
  (h x).resolve_right fun hl => hx hl.2

theorem not_loose_dir : ¬ Loose d (.dir t : Role τ) := by
  rintro (h | ⟨i, h⟩ | ⟨m, h⟩) <;> cases h

/-- `x` lies in a page of directory `d` or in one that is free. -/
def Mine (ρ : Nat → Role τ) (d x : Nat) : Prop := ∃ b, InPage b x ∧ (b = d ∨ Loose d (ρ b))

/-- Pages move between the free list and directory `d` only, and no other byte changes. -/
structure Confined (d : Nat) (s : Phys) (ρ : Nat → Role τ) (s' : Phys) (ρ' : Nat → Role τ) :
    Prop where
  roles : Local d ρ ρ'
  mem   : ∀ x, ¬ Mine ρ d x → s'.mem x = s.mem x

theorem Local.mine (h : Local d ρ ρ') (hx : Mine ρ' d x) : Mine ρ d x := by
  obtain ⟨b, hin, hb | hb⟩ := hx
  · exact ⟨b, hin, .inl hb⟩
  · refine ⟨b, hin, .inr ?_⟩
    rcases h b with he | ⟨hl, -⟩
    · rwa [he] at hb
    · exact hl

theorem Confined.refl (h : s'.mem = s.mem) : Confined d s ρ s' ρ :=
  ⟨.refl d ρ, fun x _ => by rw [h]⟩

theorem Confined.trans (h : Confined d s ρ s' ρ') (h' : Confined d s' ρ' s'' ρ'') :
    Confined d s ρ s'' ρ'' where
  roles := h.roles.trans h'.roles
  mem x hx := by rw [h'.mem x fun hx' => hx (h.roles.mine hx'), h.mem x hx]

/-- A change inside a page of the directory or a free page. -/
theorem Confined.write (hb : b = d ∨ Loose d (ρ b)) (hmem : ∀ x, ¬ InPage b x → s'.mem x = s.mem x)
    : Confined d s ρ s' ρ :=
  ⟨.refl d ρ, fun x hx => hmem x fun hin => hx ⟨b, hin, hb⟩⟩

theorem TableSpace.mine (h : TableSpace ρ d x) : Mine ρ d x := by
  rcases h with ⟨a, ha, hin⟩ | hin
  · exact ⟨a, hin, .inr (.inl ha)⟩
  · exact ⟨d, hin, .inl rfl⟩

/-- Only pages that were free are written. -/
def FreeOnly (s : Phys) (ρ : Nat → Role τ) (s' : Phys) : Prop :=
  ∀ x, (∀ b, ρ b = .free → ¬ InPage b x) → s'.mem x = s.mem x

theorem FreeOnly.samePage (hf : FreeOnly s ρ s') (h : Inv L s ρ fl q) (hb : ρ b ≠ .other)
    (hbf : ρ b ≠ .free) : SamePage s.mem s'.mem b := by
  intro x h1 h2
  refine hf x fun a ha hin => ?_
  have := (h.isPage ha (by simp)).disjoint (h.page b hb) fun he => hbf (he ▸ ha)
  have := hin.1
  have := hin.2
  omega

end Confined

/-- The entries of directory `d` that point to a table keep their value. -/
def DirKept (d : Nat) (s s' : Phys) : Prop :=
  ∀ i < 1024, ptr s.mem d i ≠ none → load s'.mem (d + 4 * i) 4 = load s.mem (d + 4 * i) 4

theorem DirKept.refl (h : s'.mem = s.mem) : DirKept d s s' := by
  intro i _ _
  rw [h]

theorem DirKept.ptr (h : DirKept d s s') (hi : i < 1024) (ha : ptr s.mem d i = some a) :
    ptr s'.mem d i = some a := by
  have hload := h i hi (by simp [ha])
  unfold Mem.ptr at ha ⊢
  rwa [hload]

theorem DirKept.trans {s'' : Phys} (h : DirKept d s s') (h' : DirKept d s' s'') :
    DirKept d s s'' := by
  intro i hi hp
  obtain ⟨a, ha⟩ := Option.ne_none_iff_exists'.mp hp
  rw [h' i hi (by simp [h.ptr hi ha]), h i hi hp]

theorem DirKept.of_same (h : SamePage s.mem s'.mem d) : DirKept d s s' := fun _ hi _ => h.load hi

theorem Inv.dirKept (h : Inv L s ρ fl q) (hd : ρ d = .dir t) (hb : ρ b ≠ .other) (hbd : b ≠ d)
    (hx : ∀ x, ¬ InPage b x → s'.mem x = s.mem x) : DirKept d s s' := by
  refine .of_same fun x h1 h2 => hx x fun hin => ?_
  have := (h.page b hb).disjoint (h.isPage hd (by simp)) hbd
  have := hin.1
  have := hin.2
  omega

/-- The entry of directory `d` for page number `n`. -/
def EntryAt (m : ByteMem.Mem) (d n e : Nat) : Prop :=
  ∃ a, ptr m d (n / 1024) = some a ∧ load m (a + 4 * (n % 1024)) 4 = e

theorem present_iff_entryAt : Present m d n ↔ ∃ e, EntryAt m d n e ∧ e % 2 = 1 := by
  have hptr : ∀ a, (ptr m a (n % 1024)).isSome ↔ load m (a + 4 * (n % 1024)) 4 % 2 = 1 := by
    intro a
    rw [← Mem.present_iff]
    simp [ptr]
  constructor
  · rintro ⟨a, ha, hsome⟩
    exact ⟨_, ⟨a, ha, rfl⟩, (hptr a).mp hsome⟩
  · rintro ⟨e, ⟨a, ha, rfl⟩, hodd⟩
    exact ⟨a, ha, (hptr a).mpr hodd⟩

theorem private_iff_entryAt : Private m d ↔
    ∀ n, 524288 ≤ n → n < 2 ^ 20 → ∀ e, EntryAt m d n e → e / 4 % 2 = 0 := by
  constructor
  · rintro h n h1 h2 e ⟨a, ha, rfl⟩
    exact h n h1 h2 a ha
  · intro h n h1 h2 a ha
    exact h n h1 h2 _ ⟨a, ha, rfl⟩

/-- The entries of the page numbers in `N` are those of `E`, and a present entry
    of another page number is what it was. -/
structure Enters (d : Nat) (m : ByteMem.Mem) (N : Nat → Prop) (E : Nat → Nat)
    (m' : ByteMem.Mem) : Prop where
  new : ∀ n < 2 ^ 20, N n → EntryAt m' d n (E n)
  old : ∀ n < 2 ^ 20, ¬ N n → ∀ e, e % 2 = 1 → EntryAt m d n e → EntryAt m' d n e

theorem Enters.trans {m1 : ByteMem.Mem} {N N' : Nat → Prop} (h : Enters d m N E m1)
    (h' : Enters d m1 N' E m') (hodd : ∀ n, N n → E n % 2 = 1) :
    Enters d m (fun n => N n ∨ N' n) E m' where
  new n hn hN := by
    by_cases hN' : N' n
    · exact h'.new n hn hN'
    · have hN := hN.resolve_right hN'
      exact h'.old n hn hN' _ (hodd n hN) (h.new n hn hN)
  old n hn hN e he hent := by
    rw [not_or] at hN
    exact h'.old n hn hN.2 e he (h.old n hn hN.1 e he hent)

/-! ## `walkpgdir` -/

theorem ends_walk_some {alloc : Bool} (h : ptr s.mem d (PDX va) = some a) :
    Ends (walkpgdir d va alloc) s (some (a + 4 * PTX va)) s := by
  unfold ptr at h
  dsimp only at h
  split at h
  · next hp =>
    obtain rfl := Option.some.inj h
    unfold Ends walkpgdir
    rw [run_bind_of_ends (ends_load32.mpr ⟨rfl, rfl⟩), if_pos hp]
    rfl
  · cases h

theorem ends_walk_none (h : ptr s.mem d (PDX va) = none) :
    Ends (walkpgdir d va false) s none s := by
  unfold ptr at h
  dsimp only at h
  split at h
  · cases h
  · next hp =>
    unfold Ends walkpgdir
    rw [run_bind_of_ends (ends_load32.mpr ⟨rfl, rfl⟩), if_neg hp]
    rfl

theorem Inv.ends_walk (h : Inv L s ρ fl q) (hn : n < 2 ^ 20) (ha : ρ a = .table d (n / 1024))
    (alloc : Bool) : Ends (walkpgdir d (4096 * n) alloc) s (some (a + 4 * (n % 1024))) s := by
  have hp := (h.trees.tabOf a d _ ha).2.2
  rw [← PDX_page hn] at hp
  rw [← PTX_page]
  exact ends_walk_some hp

theorem Inv.ends_walk_none (h : Inv L s ρ fl q) (hd : ρ d = .dir t) (hn : n < 2 ^ 20)
    (htab : ¬ HasTab ρ d (n / 1024)) : Ends (walkpgdir d (4096 * n) false) s none s := by
  refine Mem.ends_walk_none ?_
  rw [PDX_page hn]
  by_contra hne
  exact htab ((h.hasTab_iff hd (by omega)).mpr hne)

theorem Inv.zero (h : Inv L s ρ fl q) (ha : ρ a = .held t) (c : UInt8) :
    Inv L { s with mem := fill s.mem a 4096 c } ρ fl q :=
  h.write rfl (by rw [ha]; simp) (by rw [ha]; simp [Role.Structural])
    fun _ hx => if_neg (by omega)

/-- What `walkpgdir` with `alloc` does where there is no table. -/
theorem walk_alloc_run (h : ptr s.mem d (PDX va) = none) :
    (walkpgdir d va true).run s = (do
      let pgtab ← kalloc
      if pgtab = 0 then return none
      else do
        memset pgtab 0 PGSIZE
        store32 (d + 4 * PDX va) (V2P pgtab ||| PTE_P ||| PTE_W ||| PTE_U)
        return some (pgtab + 4 * PTX va) : VM (Option Nat)).run s := by
  unfold ptr at h
  dsimp only at h
  split at h
  · cases h
  · next hp =>
    unfold walkpgdir
    rw [run_bind_of_ends (ends_load32.mpr ⟨rfl, rfl⟩), if_neg hp]
    rfl

theorem table_flags (a : Nat) (ha : V2P a % 4096 = 0) :
    V2P a ||| PTE_P ||| PTE_W ||| PTE_U = V2P a + 7 := by
  rw [Nat.or_assoc, Nat.or_assoc]
  exact or_flags ha (by decide)

/-- Directory `d` gained tables, at indices in `I`, and nothing else changed its role. -/
structure Grows (L : Layout) (ρ : Nat → Role τ) (d : Nat) (I : Nat → Prop) (s' : Phys)
    (ρ' : Nat → Role τ) (fl' : List Nat) : Prop where
  inv   : Inv L s' ρ' fl' 0
  roles : ∀ x, ρ' x = ρ x ∨ (ρ x = .free ∧ ∃ i, I i ∧ ρ' x = .table d i)

/-- Directory `d` now has tables at all indices in `I` and maps all page numbers in `N`. -/
structure Adds (L : Layout) (s : Phys) (ρ : Nat → Role τ) (d : Nat) (I N : Nat → Prop)
    (s' : Phys) (ρ' : Nat → Role τ) (fl' : List Nat) : Prop extends
    Grows L ρ d I s' ρ' fl' where
  tabs : ∀ i, HasTab ρ' d i ↔ HasTab ρ d i ∨ I i
  maps : ∀ n < 2 ^ 20, Present s'.mem d n ↔ Present s.mem d n ∨ N n
  priv : Private s.mem d → Private s'.mem d

variable {s'' : Phys} {ρ' ρ'' : Nat → Role τ} {fl' fl'' : List Nat} {I I' N N' : Nat → Prop}

theorem Grows.role (h : Grows L ρ d I s' ρ' fl') (hx : ρ x ≠ .free) : ρ' x = ρ x :=
  (h.roles x).resolve_right fun hr => hx hr.1

theorem Grows.local (h : Grows L ρ d I s' ρ' fl') : Local d ρ ρ' := by
  intro x
  rcases h.roles x with he | ⟨hf, i, -, ht⟩
  · exact .inl he
  · exact .inr ⟨.inl hf, .inr (.inl ⟨i, ht⟩)⟩

theorem Grows.mono (h : Grows L ρ d I s' ρ' fl') (hI : ∀ i, I i → I' i) :
    Grows L ρ d I' s' ρ' fl' where
  inv := h.inv
  roles x := (h.roles x).imp_right fun ⟨hf, i, hi, ht⟩ => ⟨hf, i, hI i hi, ht⟩

theorem Grows.trans (h : Grows L ρ d I s' ρ' fl') (h' : Grows L ρ' d I' s'' ρ'' fl'') :
    Grows L ρ d (fun i => I i ∨ I' i) s'' ρ'' fl'' where
  inv := h'.inv
  roles x := by
    rcases h.roles x with he | ⟨hf, i, hi, ht⟩
    · rcases h'.roles x with he' | ⟨hf', i, hi, ht⟩
      · exact .inl (he'.trans he)
      · exact .inr ⟨he ▸ hf', i, .inr hi, ht⟩
    · refine .inr ⟨hf, i, .inl hi, ?_⟩
      rw [h'.role (by simp [ht]), ht]

theorem Adds.trans (h : Adds L s ρ d I N s' ρ' fl') (h' : Adds L s' ρ' d I' N' s'' ρ'' fl'') :
    Adds L s ρ d (fun i => I i ∨ I' i) (fun n => N n ∨ N' n) s'' ρ'' fl'' where
  toGrows := h.toGrows.trans h'.toGrows
  tabs i := by rw [h'.tabs, h.tabs, or_assoc]
  maps n hn := by rw [h'.maps n hn, h.maps n hn, or_assoc]
  priv hp := h'.priv (h.priv hp)

theorem Adds.refl (h : Inv L s ρ fl 0) (hi : HasTab ρ d i) :
    Adds L s ρ d (· = i) (fun _ => False) s ρ fl where
  inv := h
  roles _ := .inl rfl
  tabs j := by
    constructor
    · exact .inl
    · rintro (hj | rfl)
      · exact hj
      · exact hi
  maps n _ := by simp
  priv := id

/-- The page that `kalloc` returned is cleared and entered at index `i`. -/
theorem addTable_adds (h : Inv L s ρ fl q) (hd : ρ d = .dir t) (hi : i < 1024) (ha : ρ a = .free)
    (hnone : ptr s.mem d i = none) (hmem : s'.mem = s.mem)
    (hinv : Inv L s' (update ρ a (.held t)) fl' 0) :
    Adds L s ρ d (· = i) (fun _ => False)
      { s' with mem := store (fill s'.mem a 4096 0) (d + 4 * i) 4 (V2P a + 7) }
      (update ρ a (.table d i)) fl' := by
  have hpd : L.IsPage d := h.isPage hd (by simp)
  have hpa : L.IsPage a := h.isPage ha (by simp)
  have had : a ≠ d := ne_of_role ha hd (by simp)
  have hheld : update ρ a (.held t) a = .held t := update_self ..
  -- clearing the page changes no other page
  have hsame : ∀ b, ρ b ≠ .other → b ≠ a → SamePage s.mem (fill s'.mem a 4096 0) b := by
    intro b hb hba
    rw [hmem]
    have := hpa.disjoint (h.page b hb) (Ne.symm hba)
    exact samePage_fill (by omega)
  have hdsame := hsame d (by simp [hd]) (Ne.symm had)
  have hadd := (hinv.zero hheld 0).addTable (update_role hd ha (by simp)) hheld
    (fun j hj => load_fill_zero hj) hi (by show ptr (fill s'.mem a 4096 0) d i = none; rw
    [hdsame.ptr hi, hnone]) (f := 7) (by decide) (by decide)
  rw [update_idem] at hadd
  have hself : ptr (store (fill s'.mem a 4096 0) (d + 4 * i) 4 (V2P a + 7)) d i = some a :=
    ptr_store_self hpa (by decide) (by decide)
  -- the entries of the other tables
  have hkeep : ∀ n < 2 ^ 20, n / 1024 ≠ i → ∀ b, ptr s.mem d (n / 1024) = some b →
      SamePage s.mem (store (fill s'.mem a 4096 0) (d + 4 * i) 4 (V2P a + 7)) b := by
    intro n hn hni b hb
    have htab := h.trees.tab d t hd _ (by omega) b hb
    have hbo : ρ b ≠ .other := by rw [htab]; simp
    exact (hsame b hbo (ne_of_role htab ha (by simp))).trans
      (samePage_store_entry hpd (h.page b hbo) (ne_of_role htab hd (by simp)) hi)
  have hent : ∀ n < 2 ^ 20, ∀ e,
      EntryAt (store (fill s'.mem a 4096 0) (d + 4 * i) 4 (V2P a + 7)) d n e ↔
      if n / 1024 = i then e = 0 else EntryAt s.mem d n e := by
    intro n hn e
    have hj : n % 1024 < 1024 := Nat.mod_lt _ (by decide)
    unfold EntryAt
    by_cases hni : n / 1024 = i
    · -- the new table is empty
      rw [if_pos hni, hni, hself]
      simp [(samePage_store_entry hpd hpa had hi).load hj, load_fill_zero hj, eq_comm]
    · rw [if_neg hni, ptr_store_of_ne hni, hdsame.ptr (by omega)]
      exact exists_congr fun b => and_congr_right fun hb => by rw [(hkeep n hn hni b hb).load hj]
  refine ⟨⟨hadd, fun x => ?_⟩, fun j => ?_, fun n hn => ?_, fun hpriv => ?_⟩
  · by_cases hx : x = a
    · subst hx
      exact .inr ⟨ha, i, rfl, update_self ..⟩
    · exact .inl (update_of_ne hx _ _)
  · constructor
    · rintro ⟨b, hb⟩
      by_cases hba : b = a
      · subst hba
        rw [update_self] at hb
        exact .inr (by simpa using hb.symm)
      · rw [update_of_ne hba] at hb
        exact .inl ⟨b, hb⟩
    · rintro (⟨b, hb⟩ | rfl)
      · exact ⟨b, update_role hb ha (by simp)⟩
      · exact ⟨a, update_self ..⟩
  · rw [or_false, present_iff_entryAt, present_iff_entryAt]
    refine exists_congr fun e => and_congr_left fun hodd => ?_
    rw [hent n hn]
    by_cases hni : n / 1024 = i
    · have hno : ¬ EntryAt s.mem d n e := by
        rintro ⟨b, hb, -⟩
        rw [hni, hnone] at hb
        cases hb
      simp only [hni, if_true, hno, iff_false]
      omega
    · rw [if_neg hni]
  · rw [private_iff_entryAt] at hpriv ⊢
    intro n h1 h2 e he
    rw [hent n h2] at he
    split_ifs at he with hni
    · rw [he]
    · exact hpriv n h1 h2 e he

theorem Inv.samePage_of_tableSpace (h : Inv L s ρ fl q) (hd : ρ d = .dir t) (hb : ρ b ≠ .other)
    (hbf : ρ b ≠ .free) (hbd : b ≠ d) (hx : ∀ x, ¬ TableSpace ρ d x → s'.mem x = s.mem x) :
    SamePage s.mem s'.mem b := by
  intro x h1 h2
  refine hx x ?_
  rintro (⟨a, ha, h3, h4⟩ | ⟨h3, h4⟩)
  · have := (h.isPage ha (by simp)).disjoint (h.page b hb) fun he => hbf (he ▸ ha)
    omega
  · have := (h.isPage hd (by simp)).disjoint (h.page b hb) (Ne.symm hbd)
    omega

theorem addTable_tableSpace (hi : i < 1024) (ha : ρ a = .free) (hmem : s'.mem = s.mem)
    (hx : ¬ TableSpace ρ d x) : store (fill s'.mem a 4096 0) (d + 4 * i) 4 v x = s.mem x := by
  have h1 : ¬ InPage a x := fun hin => hx (.inl ⟨a, ha, hin⟩)
  have h2 : ¬ InPage d x := fun hin => hx (.inr hin)
  unfold InPage at h1 h2
  rw [store_outside (by omega), hmem]
  exact if_neg (by omega)

/-- The entry that is written pointed nowhere. -/
theorem addTable_dirKept (h : Inv L s ρ fl q) (hd : ρ d = .dir t) (ha : ρ a = .free)
    (hnone : ptr s.mem d i = none) (hmem : s'.mem = s.mem) :
    DirKept d s { s' with mem := store (fill s'.mem a 4096 0) (d + 4 * i) 4 v } := by
  intro j hj hp
  have hne : j ≠ i := by
    rintro rfl
    exact hp hnone
  have hdis := (h.isPage ha (by simp)).disjoint (h.isPage hd (by simp)) (ne_of_role ha hd (by simp))
  dsimp only
  rw [load_store_of_disjoint (by omega), (samePage_fill (by omega)).load hj, hmem]

open Classical in
/-- The number of pages `walkpgdir` has to allocate. -/
noncomputable def newTab (ρ : Nat → Role τ) (d i : Nat) : Nat := if HasTab ρ d i then 0 else 1

/-- `walkpgdir` with `alloc` finds the table, adds it, or fails. -/
theorem walk_alloc_spec (h : Inv L s ρ fl 0) (hd : ρ d = .dir t) (hn : n < 2 ^ 20) :
    ∃ r s', Ends (walkpgdir d (4096 * n) true) s r s' ∧
      (∀ x, ¬ TableSpace ρ d x → s'.mem x = s.mem x) ∧ DirKept d s s' ∧
      ((r = none ∧ ¬ Grants s fl (newTab ρ d (n / 1024)) ∧ Inv L s' ρ fl 0) ∨
      ∃ a ρ' fl', r = some (a + 4 * (n % 1024)) ∧ ρ' a = .table d (n / 1024) ∧
        Adds L s ρ d (· = n / 1024) (fun _ => False) s' ρ' fl' ∧
        Took s fl s' fl' (newTab ρ d (n / 1024)) ∧
        (¬ HasTab ρ d (n / 1024) → fl.head? = some a)) := by
  have hi : n / 1024 < 1024 := by omega
  by_cases htab : HasTab ρ d (n / 1024)
  · obtain ⟨a, ha⟩ := htab
    refine ⟨_, _, h.ends_walk hn ha true, fun _ _ => rfl, .refl rfl, .inr ⟨a, ρ, fl, rfl, ha,
      .refl h ⟨a, ha⟩, ?_, fun hno => absurd ⟨a, ha⟩ hno⟩⟩
    rw [newTab, if_pos ⟨a, ha⟩]
    exact .zero rfl
  · have hnone : ptr s.mem d (n / 1024) = none := by
      by_contra hne
      exact htab ((h.hasTab_iff hd hi).mpr hne)
    have hptr : ptr s.mem d (PDX (4096 * n)) = none := by
      rw [PDX_page hn]
      exact hnone
    have hrun := walk_alloc_run hptr
    rw [PDX_page hn, PTX_page] at hrun
    rw [newTab, if_neg htab]
    obtain ⟨a, s1, hk⟩ := ends_kalloc s
    rw [run_bind_of_ends hk] at hrun
    rcases kalloc_spec t h hk with ⟨rfl, rfl, hg⟩ | ⟨fl', rfl, hpa, hmem, htook, hinv⟩
    · rw [if_pos rfl] at hrun
      exact ⟨none, _, hrun, fun _ _ => rfl, .refl rfl,
        .inl ⟨rfl, hg, h.congr rfl fun _ _ _ _ _ => rfl⟩⟩
    · have hgt := hpa.gt
      rw [if_neg (by omega), run_bind_of_ends ((ends_memset (r := ())).mpr rfl),
        run_bind_of_ends ((ends_store32 (r := ())).mpr rfl)] at hrun
      rw [table_flags a (by rw [hpa.V2P]; have := hpa.mod; omega)] at hrun
      have hfree : ρ a = .free := (h.free a).mp (by simp)
      exact ⟨_, _, hrun, fun _ hx => addTable_tableSpace hi hfree hmem hx,
        addTable_dirKept h hd hfree hnone hmem,
        .inr ⟨a, _, fl', rfl, update_self ..,
          addTable_adds h hd hi hfree hnone hmem hinv, htook.mem, fun _ => rfl⟩⟩

/-! ## Kernel mappings -/

theorem entryAt_store (h : Inv L s ρ fl q) (hd : ρ d = .dir t) (hn : n < 2 ^ 20)
    (ha : ρ a = .table d (n / 1024)) (hv : v < 2 ^ 32) {m : Nat} (hm : m < 2 ^ 20) (e : Nat) :
    EntryAt (store s.mem (a + 4 * (n % 1024)) 4 v) d m e ↔
      if m = n then e = v else EntryAt s.mem d m e := by
  have hj : n % 1024 < 1024 := Nat.mod_lt _ (by decide)
  have hpa : L.IsPage a := h.isPage ha (by simp)
  have hdsame : SamePage s.mem (store s.mem (a + 4 * (n % 1024)) 4 v) d :=
    samePage_store_entry hpa (h.isPage hd (by simp)) (ne_of_role hd ha (by simp)) hj
  have hpd := (h.trees.tabOf a d _ ha).2.2
  unfold EntryAt
  rw [hdsame.ptr (by omega)]
  by_cases hmn : m = n
  · subst hmn
    rw [if_pos rfl, hpd]
    constructor
    · rintro ⟨b, hb, rfl⟩
      cases hb
      rw [load_store_self]
      exact Nat.mod_eq_of_lt hv
    · rintro rfl
      refine ⟨a, rfl, ?_⟩
      rw [load_store_self]
      exact Nat.mod_eq_of_lt hv
  · rw [if_neg hmn]
    refine exists_congr fun b => and_congr_right fun hb => ?_
    have htab := h.trees.tab d t hd _ (by omega) b hb
    by_cases hmi : m / 1024 = n / 1024
    · -- another entry of the same table
      obtain rfl : a = b := by
        rw [hmi, hpd] at hb
        exact Option.some.inj hb
      have hmj : m % 1024 ≠ n % 1024 := by omega
      rw [load_store_of_disjoint (by omega)]
    · rw [(samePage_store_entry hpa (h.isPage htab (by simp))
        (ne_of_role htab ha (by simpa using hmi)) hj).load (Nat.mod_lt _ (by decide))]

/-- An entry in the kernel part of a directory. -/
theorem kernelEntry_adds (h : Inv L s ρ fl 0) (hd : ρ d = .dir t) (hn : 524288 ≤ n)
    (hn' : n < 2 ^ 20) (ha : ρ a = .table d (n / 1024)) (hv : v % 2 = 1) (hU : v / 4 % 2 = 0)
    (hlt : v < 2 ^ 32) :
    Adds L s ρ d (· = n / 1024) (· = n)
      { s with mem := store s.mem (a + 4 * (n % 1024)) 4 v } ρ fl := by
  refine ⟨⟨h.kernelEntry ha (by omega) (Nat.mod_lt _ (by decide)), fun _ => .inl rfl⟩,
    (Adds.refl h ⟨a, ha⟩).tabs, fun m hm => ?_, fun hpriv => ?_⟩
  · rw [present_iff_entryAt, present_iff_entryAt]
    by_cases hmn : m = n
    · refine iff_of_true ⟨v, ?_, hv⟩ (.inr hmn)
      rw [entryAt_store h hd hn' ha hlt hm, if_pos hmn]
    · simp only [entryAt_store h hd hn' ha hlt hm, hmn, if_false, or_false]
  · rw [private_iff_entryAt] at hpriv ⊢
    intro m h1 h2 e he
    rw [entryAt_store h hd hn' ha hlt h2] at he
    split_ifs at he with hmn
    · rw [he, hU]
    · exact hpriv m h1 h2 e he

/-- A table that was there keeps its place and its entries. -/
theorem EntryAt.walk {e : Nat} (h : Inv L s ρ fl q) (hd : ρ d = .dir t) (hn : n < 2 ^ 20)
    (hent : EntryAt s.mem d n e) (hadd : Grows L ρ d I s' ρ' fl')
    (hx : ∀ x, ¬ TableSpace ρ d x → s'.mem x = s.mem x) : EntryAt s'.mem d n e := by
  obtain ⟨a, ha, hl⟩ := hent
  have htab := h.trees.tab d t hd _ (by omega) a ha
  have htab' := (hadd.role (by simp [htab])).trans htab
  refine ⟨a, (hadd.inv.trees.tabOf a d _ htab').2.2, ?_⟩
  rw [← hl]
  exact (h.samePage_of_tableSpace hd (by simp [htab]) (by simp [htab])
    (ne_of_role htab hd (by simp)) hx).load (Nat.mod_lt _ (by decide))

/-- One round of `mappages` in the kernel part. -/
theorem mapKernel_page (h : Inv L s ρ fl 0) (hd : ρ d = .dir t) (hn : 524288 ≤ n) (hn' : n < 2 ^ 20)
    (hfresh : ¬ Present s.mem d n) (hE : E n % 2 = 1 ∧ E n / 4 % 2 = 0 ∧ E n < 2 ^ 32) :
    (∃ s', Ends (walkpgdir d (4096 * n) true) s none s' ∧
      ¬ Grants s fl (newTab ρ d (n / 1024)) ∧ Inv L s' ρ fl 0 ∧ Confined d s ρ s' ρ) ∨
    ∃ pte s1 ρ' fl', Ends (walkpgdir d (4096 * n) true) s (some pte) s1 ∧
      present (load s1.mem pte 4) = false ∧
      Adds L s ρ d (· = n / 1024) (· = n)
        { s1 with mem := store s1.mem pte 4 (E n) } ρ' fl' ∧
      Took s fl { s1 with mem := store s1.mem pte 4 (E n) } fl' (newTab ρ d (n / 1024)) ∧
      Confined d s ρ { s1 with mem := store s1.mem pte 4 (E n) } ρ' ∧
      Enters d s.mem (· = n) E (store s1.mem pte 4 (E n)) := by
  obtain ⟨r, s1, hw, hmem, -, ⟨rfl, hg, hinv⟩ | ⟨a, ρ', fl', rfl, ha, hadd, htook, -⟩⟩ :=
    walk_alloc_spec h hd hn'
  · exact .inl ⟨s1, hw, hg, hinv, .refl d ρ, fun x hx => hmem x fun ht => hx ht.mine⟩
  · right
    have hd' : ρ' d = .dir t := by rw [hadd.role (by simp [hd]), hd]
    have hent := kernelEntry_adds hadd.inv hd' hn hn' ha hE.1 hE.2.1 hE.2.2
    have hwalk : Confined d s ρ s1 ρ' :=
      ⟨hadd.toGrows.local, fun x hx => hmem x fun ht => hx ht.mine⟩
    refine ⟨_, s1, ρ', fl', hw, ?_, ?_, htook.mem,
      hwalk.trans (.write (.inr (.inr (.inl ⟨_, ha⟩))) fun x hx => ?_), ⟨?_, ?_⟩⟩
    · -- a present entry would have been a mapping before
      by_contra hp
      rw [Bool.not_eq_false, Mem.present_iff] at hp
      refine hfresh (((hadd.maps n hn').mp
        (present_iff_entryAt.mpr ⟨_, ⟨a, ?_, rfl⟩, hp⟩)).resolve_right
        id)
      exact (hadd.inv.trees.tabOf a d _ ha).2.2
    · have := hadd.trans hent
      simpa using this
    · unfold InPage at hx
      exact store_outside (by omega)
    · rintro m - rfl
      rw [entryAt_store hadd.inv hd' hn' ha hE.2.2 hn', if_pos rfl]
    · intro m hm hmn e _ he
      rw [entryAt_store hadd.inv hd' hn' ha hE.2.2 hm, if_neg hmn]
      exact he.walk h hd hm hadd.toGrows hmem

theorem or_PTE_P_odd (x : Nat) : (x ||| PTE_P) % 2 = 1 := or_one_odd x

/-- The permissions of the kernel's pages do not have `PTE_U`. -/
theorem kernel_flags (hpa : pa % 4096 = 0) (hperm : perm / 4 % 2 = 0) :
    (pa ||| perm ||| PTE_P) / 4 % 2 = 0 := by
  have hbit : ∀ x : Nat, x / 4 % 2 = 0 ↔ x.testBit 2 = false := by
    intro x
    rw [Nat.testBit_eq_decide_div_mod_eq, decide_eq_false_iff_not]
    simp only [show (2 : Nat) ^ 2 = 4 from rfl]
    omega
  have h1 : pa.testBit 2 = false := (hbit pa).mp (by omega)
  rw [hbit, Nat.testBit_or, Nat.testBit_or, h1, (hbit perm).mp hperm]
  rfl

section Rounds

variable {last perm fuel a pa pte : Nat} {s1 : Phys}

theorem map_round_none (hw : Ends (walkpgdir d a true) s none s') :
    Ends (mappagesFrom d last perm (fuel + 1) a pa) s false s' := by
  unfold Ends
  rw [mappagesFrom, run_bind_of_ends hw]
  rfl

theorem map_round_some (hw : Ends (walkpgdir d a true) s (some pte) s1)
    (hp : present (load s1.mem pte 4) = false) :
    (mappagesFrom d last perm (fuel + 1) a pa).run s =
      (if a = last then return true
        else mappagesFrom d last perm fuel (u32 (a + PGSIZE)) (u32 (pa + PGSIZE)) :
          VM Bool).run { s1 with mem := store s1.mem pte 4 (pa ||| perm ||| PTE_P) } := by
  rw [mappagesFrom, run_bind_of_ends hw]
  dsimp only
  rw [run_bind_of_ends (ends_load32.mpr ⟨rfl, rfl⟩), hp, if_neg (by simp),
    run_bind_of_ends ((ends_store32 (r := ())).mpr rfl)]

end Rounds

/-- The pages that mapping `n`, .., `n + k` takes if the later tables are new. -/
noncomputable def kernelNeed (ρ : Nat → Role τ) (d n k : Nat) : Nat :=
  newTab ρ d (n / 1024) + ((n + k) / 1024 - n / 1024)

/-- What `mappages` enters for page number `m` if it starts at page number `n`. -/
def rowEntry (pa perm n m : Nat) : Nat := u32 (pa + 4096 * (m - n)) ||| perm ||| PTE_P

theorem rowEntry_self (hpa : pa < 2 ^ 32) (perm n : Nat) :
    rowEntry pa perm n n = pa ||| perm ||| PTE_P := by
  rw [rowEntry, Nat.sub_self, Nat.mul_zero, Nat.add_zero, u32_of_lt hpa]

theorem rowEntry_next {m : Nat} (hm : n + 1 ≤ m) :
    rowEntry (u32 (pa + PGSIZE)) perm (n + 1) m = rowEntry pa perm n m := by
  have hu : u32 (u32 (pa + PGSIZE) + 4096 * (m - (n + 1))) = u32 (pa + 4096 * (m - n)) := by
    simp only [u32, PGSIZE]
    omega
  rw [rowEntry, hu, rowEntry]

theorem rowEntry_ok (hperm : perm / 4 % 2 = 0 ∧ perm < 2 ^ 32) (hpa : pa % 4096 = 0) (n m : Nat) :
    rowEntry pa perm n m % 2 = 1 ∧ rowEntry pa perm n m / 4 % 2 = 0 ∧
      rowEntry pa perm n m < 2 ^ 32 := by
  have hu : u32 (pa + 4096 * (m - n)) % 4096 = 0 := by
    simp only [u32]
    omega
  exact ⟨or_PTE_P_odd _, kernel_flags hu hperm.1, Nat.or_lt_two_pow
    (Nat.or_lt_two_pow (Nat.mod_lt _ (by decide)) hperm.2) (by decide)⟩

theorem Enters.congr {E' : Nat → Nat} (h : Enters d m N E m') (hN : ∀ n, N n ↔ N' n)
    (hE : ∀ n, N n → E n = E' n) : Enters d m N' E' m' where
  new n hn hN' := hE n ((hN n).mpr hN') ▸ h.new n hn ((hN n).mpr hN')
  old n hn hN' := h.old n hn fun hc => hN' ((hN n).mp hc)

/-- The loop of `mappages` over the pages `n`, .., `n + k` of the kernel part. -/
theorem mapKernel_loop (hperm : perm / 4 % 2 = 0 ∧ perm < 2 ^ 32) (k : Nat) :
    ∀ (fuel pa : Nat) {n : Nat} {s : Phys} {ρ : Nat → Role τ} {fl : List Nat},
    pa % 4096 = 0 ∧ pa < 2 ^ 32 → k < fuel →
    Inv L s ρ fl 0 → ρ d = .dir t → 524288 ≤ n → n + k < 2 ^ 20 →
    (∀ m, n ≤ m → m ≤ n + k → ¬ Present s.mem d m) →
    (∀ i, n / 1024 < i → i ≤ (n + k) / 1024 → ¬ HasTab ρ d i) →
    ∃ r s' ρ' fl', Ends (mappagesFrom d (4096 * (n + k)) perm fuel (4096 * n) pa) s r s' ∧
      Confined d s ρ s' ρ' ∧
      ((r = false ∧ Grows L ρ d (512 ≤ ·) s' ρ' fl' ∧ ¬ Grants s fl (kernelNeed ρ d n k)) ∨
        (r = true ∧
          Adds L s ρ d (fun i => n / 1024 ≤ i ∧ i ≤ (n + k) / 1024)
            (fun m => n ≤ m ∧ m ≤ n + k) s' ρ' fl' ∧
          Took s fl s' fl' (kernelNeed ρ d n k) ∧
          Enters d s.mem (fun m => n ≤ m ∧ m ≤ n + k) (rowEntry pa perm n) s'.mem)) := by
  induction k with
  | zero =>
    intro fuel pa n s ρ fl hpa hfuel h hd hn hl hfresh hnew
    obtain ⟨fuel, rfl⟩ : ∃ f, fuel = f + 1 := ⟨fuel - 1, by omega⟩
    have hneed : kernelNeed ρ d n 0 = newTab ρ d (n / 1024) := by simp [kernelNeed]
    have hok := rowEntry_ok hperm hpa.1 n n
    rw [hneed]
    rcases mapKernel_page h hd hn (by omega) (hfresh n (by omega) (by omega)) hok with
      ⟨s', hw, hg, hinv, hc⟩ | ⟨pte, s1, ρ', fl', hw, hpres, hadd, htook, hc, hent⟩
    · exact ⟨false, s', ρ, fl, map_round_none hw, hc, .inl ⟨rfl, ⟨hinv, fun _ => .inl rfl⟩, hg⟩⟩
    · refine ⟨true, _, ρ', fl', ?_, hc, .inr ⟨rfl, ?_, htook, hent.congr ?_ fun _ _ => rfl⟩⟩
      · unfold Ends
        rw [map_round_some hw hpres, if_pos (by simp), rowEntry_self hpa.2]
        rfl
      · have h1 : (fun i => n / 1024 ≤ i ∧ i ≤ (n + 0) / 1024) = (· = n / 1024) := by
          funext i
          exact propext (by omega)
        have h2 : (fun m => n ≤ m ∧ m ≤ n + 0) = (· = n) := by
          funext m
          exact propext (by omega)
        rw [h1, h2]
        exact hadd
      · intro m
        omega
  | succ k ih =>
    intro fuel pa n s ρ fl hpa hfuel h hd hn hl hfresh hnew
    obtain ⟨fuel, rfl⟩ : ∃ f, fuel = f + 1 := ⟨fuel - 1, by omega⟩
    have hok := rowEntry_ok hperm hpa.1 n n
    rcases mapKernel_page h hd hn (by omega) (hfresh n (by omega) (by omega)) hok with
      ⟨s', hw, hg, hinv, hc⟩ | ⟨pte, s1, ρ1, fl1, hw, hpres, hadd, htook, hc, hent⟩
    · refine ⟨false, s', ρ, fl, map_round_none hw, hc, .inl ⟨rfl, ⟨hinv, fun _ => .inl rfl⟩, ?_⟩⟩
      intro hg'
      exact hg (hg'.mono (by unfold kernelNeed; omega))
    · -- the next round starts at page `n + 1`, and its tables are still new
      have hnext : (mappagesFrom d (4096 * (n + (k + 1))) perm (fuel + 1) (4096 * n) pa).run s =
          (mappagesFrom d (4096 * (n + 1 + k)) perm fuel (4096 * (n + 1))
            (u32 (pa + PGSIZE))).run
            { s1 with mem := store s1.mem pte 4 (rowEntry pa perm n n) } := by
        have hu : u32 (4096 * n + PGSIZE) = 4096 * (n + 1) := by
          rw [u32_of_lt (by simp only [PGSIZE]; omega)]
          simp only [PGSIZE]
          omega
        rw [map_round_some hw hpres, if_neg (by omega), hu, rowEntry_self hpa.2,
          show n + (k + 1) = n + 1 + k by omega]
      have hd1 : ρ1 d = .dir t := by rw [hadd.role (by simp [hd]), hd]
      have hneed : kernelNeed ρ d n (k + 1) =
          newTab ρ d (n / 1024) + kernelNeed ρ1 d (n + 1) k := by
        have htab := hadd.tabs ((n + 1) / 1024)
        unfold kernelNeed
        by_cases hdiv : (n + 1) / 1024 = n / 1024
        · have : newTab ρ1 d ((n + 1) / 1024) = 0 := if_pos (htab.mpr (.inr hdiv))
          rw [this]
          omega
        · have : newTab ρ1 d ((n + 1) / 1024) = 1 := by
            refine if_neg fun ht => ?_
            rcases htab.mp ht with ht | ht
            · exact hnew _ (by omega) (by omega) ht
            · exact hdiv ht
          rw [this]
          omega
      have hfresh1 : ∀ m, n + 1 ≤ m → m ≤ n + 1 + k →
          ¬ Present (store s1.mem pte 4 (rowEntry pa perm n n)) d m := by
        intro m h1 h2 hp
        rcases (hadd.maps m (by omega)).mp hp with hp | hp
        · exact hfresh m (by omega) (by omega) hp
        · omega
      have hnew1 : ∀ i, (n + 1) / 1024 < i → i ≤ (n + 1 + k) / 1024 → ¬ HasTab ρ1 d i := by
        intro i h1 h2 ht
        rcases (hadd.tabs i).mp ht with ht | ht
        · exact hnew i (by omega) (by omega) ht
        · omega
      have hpa1 : u32 (pa + PGSIZE) % 4096 = 0 ∧ u32 (pa + PGSIZE) < 2 ^ 32 := by
        simp only [u32, PGSIZE]
        omega
      obtain ⟨r, s', ρ', fl', he, hc', hres⟩ := ih fuel (u32 (pa + PGSIZE)) hpa1 (by omega)
        hadd.inv hd1 (by omega) (by omega) hfresh1 hnew1
      refine ⟨r, s', ρ', fl', hnext.trans he, hc.trans hc', ?_⟩
      rcases hres with ⟨rfl, hgrows, hg⟩ | ⟨rfl, hadd', htook', hent'⟩
      · refine .inl ⟨rfl, (hadd.toGrows.trans hgrows).mono ?_, ?_⟩
        · rintro i (rfl | hi)
          · omega
          · exact hi
        · rw [hneed, grants_add htook]
          exact hg
      · have hrest : Enters d _ _ (rowEntry pa perm n) _ :=
          hent'.congr (fun _ => Iff.rfl) fun m hm => rowEntry_next hm.1
        refine .inr ⟨rfl, ?_, hneed ▸ htook.trans htook',
          (hent.trans hrest fun m _ => (rowEntry_ok hperm hpa.1 n m).1).congr ?_ fun _ _ => rfl⟩
        · have h1 : (fun i => n / 1024 ≤ i ∧ i ≤ (n + (k + 1)) / 1024) =
              fun i => i = n / 1024 ∨ ((n + 1) / 1024 ≤ i ∧ i ≤ (n + 1 + k) / 1024) := by
            funext i
            exact propext (by omega)
          have h2 : (fun m => n ≤ m ∧ m ≤ n + (k + 1)) =
              fun m => m = n ∨ (n + 1 ≤ m ∧ m ≤ n + 1 + k) := by
            funext m
            exact propext (by omega)
          rw [h1, h2]
          exact hadd.trans hadd'
        · intro m
          omega

/-- `mappages` on whole pages. -/
theorem mappages_pages {size : Nat} (hl : n + k < 2 ^ 20) (hs : size = 4096 * (k + 1))
    (pa perm : Nat) : mappages d (4096 * n) size pa perm =
      mappagesFrom d (4096 * (n + k)) perm MAXPAGES (4096 * n) pa := by
  have hlast : u32 (4096 * n + size + 2 ^ 32 - 1) = 4096 * (n + k) + 4095 := by
    unfold u32
    omega
  have hdown : ∀ x r, r < 4096 → PGROUNDDOWN (4096 * x + r) = 4096 * x := by
    intro x r hr
    simp only [PGROUNDDOWN, PGSIZE]
    omega
  have hva := hdown n 0 (by decide)
  rw [add_zero] at hva
  unfold mappages
  rw [hlast, hdown _ _ (by decide), hva]

/-- The row is about the pages `n`, .., `n + k` of the kernel part. -/
structure Kmap.Spans (r : Kmap) (n k : Nat) : Prop where
  perm : r.perm / 4 % 2 = 0 ∧ r.perm < 2 ^ 32
  phys : r.phys_start % 4096 = 0 ∧ r.phys_start < 2 ^ 32
  virt : r.virt = 4096 * n
  size : u32 (r.phys_end + 2 ^ 32 - r.phys_start) = 4096 * (k + 1)
  ge   : 524288 ≤ n
  lt   : n + k < 2 ^ 20

/-- The row maps page number `n`. -/
def Kmap.Covers (r : Kmap) (n : Nat) : Prop :=
  r.virt ≤ 4096 * n ∧ 4096 * n < r.virt + u32 (r.phys_end + 2 ^ 32 - r.phys_start)

/-- What it enters there. -/
def Kmap.entry (r : Kmap) (n : Nat) : Nat :=
  u32 (r.phys_start + (4096 * n - r.virt)) ||| r.perm ||| PTE_P

theorem Kmap.Spans.covers {m : Nat} (h : r.Spans n k) : n ≤ m ∧ m ≤ n + k ↔ r.Covers m := by
  unfold Kmap.Covers
  rw [h.virt, h.size]
  omega

theorem Kmap.Spans.entry_eq (h : r.Spans n k) (m : Nat) :
    rowEntry r.phys_start r.perm n m = r.entry m := by
  rw [rowEntry, Kmap.entry, h.virt, Nat.mul_sub]

/-- One row of the table of `setupkvm`. -/
theorem mapKernel_cons (r : Kmap) (rs : List Kmap) (hr : r.Spans n k) (h : Inv L s ρ fl 0)
    (hd : ρ d = .dir t) (hfresh : ∀ m, n ≤ m → m ≤ n + k → ¬ Present s.mem d m)
    (hnew : ∀ i, n / 1024 < i → i ≤ (n + k) / 1024 → ¬ HasTab ρ d i) :
    (∃ s' ρ' fl', Ends (mapKernel d (r :: rs)) s false s' ∧ Confined d s ρ s' ρ' ∧
      Grows L ρ d (512 ≤ ·) s' ρ' fl' ∧ ¬ Grants s fl (kernelNeed ρ d n k)) ∨
    ∃ s' ρ' fl', (mapKernel d (r :: rs)).run s = (mapKernel d rs).run s' ∧
      Confined d s ρ s' ρ' ∧
      Adds L s ρ d (fun i => n / 1024 ≤ i ∧ i ≤ (n + k) / 1024)
        (fun m => n ≤ m ∧ m ≤ n + k) s' ρ' fl' ∧
      Took s fl s' fl' (kernelNeed ρ d n k) ∧ Enters d s.mem r.Covers r.entry s'.mem := by
  obtain ⟨ok, s', ρ', fl', he, hc, hres⟩ := mapKernel_loop hr.perm k MAXPAGES r.phys_start
    hr.phys (by have := hr.lt; simp only [MAXPAGES]; omega) h hd hr.ge hr.lt hfresh hnew
  rw [← mappages_pages hr.lt hr.size, ← hr.virt] at he
  rcases hres with ⟨rfl, hgrows, hg⟩ | ⟨rfl, hadd, htook, hent⟩
  · refine .inl ⟨s', ρ', fl', ?_, hc, hgrows, hg⟩
    unfold Ends
    rw [mapKernel, run_bind_of_ends he]
    rfl
  · refine .inr ⟨s', ρ', fl', ?_, hc, hadd, htook,
      hent.congr (fun _ => hr.covers) fun m _ => hr.entry_eq m⟩
    rw [mapKernel, run_bind_of_ends he]
    rfl

/-- The indices of the kernel's tables. -/
def KernTab (i : Nat) : Prop := (512 ≤ i ∧ i ≤ 567) ∨ (1016 ≤ i ∧ i ≤ 1023)

theorem Layout.data_page (L : Layout) : ∃ c, L.data = 4096 * (524288 + c) ∧ 257 ≤ c ∧ c ≤ 512 := by
  have h1 := L.data_aligned
  have h2 := L.text_lt
  have h3 := L.data_le
  have h4 := L.end_le
  simp only [PGSIZE, KERNLINK, KERNBASE, EXTMEM] at h1 h2 h3 h4
  exact ⟨L.data / 4096 - 524288, by omega, by omega, by omega⟩

/-- How far the loop of `setupkvm` has come: the tables are those at `I`, all
    mappings are below page number `b`, and `c` pages were taken. -/
structure Mapped (L : Layout) (s : Phys) (ρ : Nat → Role τ) (fl : List Nat) (d : Nat)
    (I : Nat → Prop) (b c : Nat) (s' : Phys) (ρ' : Nat → Role τ) (fl' : List Nat) : Prop
    extends Grows L ρ d I s' ρ' fl' where
  tabs  : ∀ i, HasTab ρ' d i ↔ I i
  kern  : ∀ i, I i → 512 ≤ i ∧ 1024 * i < b
  below : ∀ m < 2 ^ 20, Present s'.mem d m → m < b
  took  : Took s fl s' fl' c
  priv  : Private s'.mem d

/-- The mappings of directory `d` are those of the rows. -/
structure Laid (rows : List Kmap) (m : ByteMem.Mem) (d : Nat) : Prop where
  entry : ∀ r ∈ rows, ∀ n < 2 ^ 20, r.Covers n → EntryAt m d n (r.entry n)
  only  : ∀ n < 2 ^ 20, Present m d n → ∃ r ∈ rows, r.Covers n

/-- The rows up to here. -/
structure Progress (L : Layout) (s : Phys) (ρ : Nat → Role τ) (fl : List Nat) (d : Nat)
    (I : Nat → Prop) (b c : Nat) (rows : List Kmap) (s' : Phys) (ρ' : Nat → Role τ)
    (fl' : List Nat) : Prop extends Mapped L s ρ fl d I b c s' ρ' fl' where
  confined : Confined d s ρ s' ρ'
  laid     : Laid rows s'.mem d

theorem Progress.row {s1 : Phys} {ρ1 : Nat → Role τ} {fl1 : List Nat} {c : Nat} {rows : List Kmap}
    (h : Progress L s ρ fl d I b c rows s1 ρ1 fl1) (hd : ρ d = .dir t) (r : Kmap) (rs : List Kmap)
    (w : Nat) (hr : r.Spans n k) (hb : b ≤ n)
    (hw : (I (n / 1024) ∧ w = (n + k) / 1024 - n / 1024) ∨
      (¬ I (n / 1024) ∧ w = (n + k) / 1024 - n / 1024 + 1)) :
    (∃ s' ρ' fl', Ends (mapKernel d (r :: rs)) s1 false s' ∧ Confined d s ρ s' ρ' ∧
      Grows L ρ d (512 ≤ ·) s' ρ' fl' ∧ ¬ Grants s fl (c + w)) ∨
    ∃ s' ρ' fl', (mapKernel d (r :: rs)).run s1 = (mapKernel d rs).run s' ∧
      Progress L s ρ fl d (fun i => I i ∨ (n / 1024 ≤ i ∧ i ≤ (n + k) / 1024)) (n + k + 1)
        (c + w) (rows ++ [r]) s' ρ' fl' := by
  have hd1 : ρ1 d = .dir t := by rw [h.role (by simp [hd]), hd]
  have hn := hr.ge
  have hl := hr.lt
  have hneed : kernelNeed ρ1 d n k = w := by
    unfold kernelNeed newTab
    rcases hw with ⟨hi, hw⟩ | ⟨hi, hw⟩
    · rw [if_pos ((h.tabs _).mpr hi)]
      omega
    · rw [if_neg fun ht => hi ((h.tabs _).mp ht)]
      omega
  have hfresh : ∀ m, n ≤ m → m ≤ n + k → ¬ Present s1.mem d m := by
    intro m h1 h2 hp
    have := h.below m (by omega) hp
    omega
  have hnew : ∀ i, n / 1024 < i → i ≤ (n + k) / 1024 → ¬ HasTab ρ1 d i := by
    intro i h1 h2 ht
    have := (h.kern i ((h.tabs i).mp ht)).2
    omega
  have hstep := mapKernel_cons r rs hr h.inv hd1 hfresh hnew
  rw [hneed] at hstep
  rcases hstep with ⟨s', ρ', fl', he, hc, hgrows, hg⟩ | ⟨s', ρ', fl', he, hc, hadd, htook, hent⟩
  · refine .inl ⟨s', ρ', fl', he, h.confined.trans hc, (h.toGrows.trans hgrows).mono ?_, ?_⟩
    · rintro i (hi | hi)
      · exact (h.kern i hi).1
      · exact hi
    · rw [grants_add h.took]
      exact hg
  · refine .inr ⟨s', ρ', fl', he, ⟨h.toGrows.trans hadd.toGrows, fun i => ?_, ?_, ?_,
      h.took.trans htook, hadd.priv h.priv⟩, h.confined.trans hc, fun r' hr' m hm hcov => ?_, ?_⟩
    · rw [hadd.tabs, h.tabs]
    · rintro i (hi | hi)
      · have := h.kern i hi
        omega
      · omega
    · intro m hm hp
      rcases (hadd.maps m hm).mp hp with hp | hp
      · have := h.below m hm hp
        omega
      · omega
    · rcases List.mem_append.mp hr' with hr' | hr'
      · -- an older row is below this one
        have hold := h.laid.entry r' hr' m hm hcov
        have hodd : r'.entry m % 2 = 1 := or_PTE_P_odd _
        refine hent.old m hm (fun hcov' => ?_) _ hodd hold
        obtain ⟨h1, h2⟩ := hr.covers.mpr hcov'
        exact hfresh m h1 h2 (present_iff_entryAt.mpr ⟨_, hold, hodd⟩)
      · obtain rfl := List.mem_singleton.mp hr'
        exact hent.new m hm hcov
    · intro m hm hp
      rcases (hadd.maps m hm).mp hp with hp | hp
      · obtain ⟨r', hr', hcov⟩ := h.laid.only m hm hp
        exact ⟨r', List.mem_append_left _ hr', hcov⟩
      · exact ⟨r, by simp, hr.covers.mp hp⟩

/-- The loop of `setupkvm` on an empty directory. -/
theorem mapKernel_spec (h : Inv L s ρ fl 0) (hd : ρ d = .dir t) (hempty : ∀ i, ¬ HasTab ρ d i) :
    ∃ ok s' ρ' fl', Ends (mapKernel d (kmap L)) s ok s' ∧ Confined d s ρ s' ρ' ∧
      ((ok = false ∧ Grows L ρ d (512 ≤ ·) s' ρ' fl' ∧ ¬ Grants s fl 64) ∨
        (ok = true ∧ Grows L ρ d KernTab s' ρ' fl' ∧ (∀ i, HasTab ρ' d i ↔ KernTab i) ∧
          Took s fl s' fl' 64 ∧ Private s'.mem d ∧ Laid (kmap L) s'.mem d)) := by
  obtain ⟨c, hdata, hc, hc'⟩ := L.data_page
  have hVd : V2P L.data = 4096 * c := by
    unfold V2P u32
    simp only [KERNBASE]
    omega
  have hstart : Progress L s ρ fl d (fun _ => False) 524288 0 [] s ρ fl := by
    have hnone : ∀ m < 2 ^ 20, ∀ a, ptr s.mem d (m / 1024) ≠ some a := by
      intro m hm a ha
      refine absurd ((h.hasTab_iff hd (by omega)).mpr ?_) (hempty (m / 1024))
      rw [ha]
      simp
    exact ⟨⟨⟨h, fun _ => .inl rfl⟩, fun i => ⟨hempty i, False.elim⟩, fun _ => False.elim,
      fun m hm ⟨a, ha, _⟩ => absurd ha (hnone m hm a), .zero rfl,
      fun n _ hn a ha => absurd ha (hnone n hn a)⟩, .refl rfl, fun r hr =>
        absurd hr List.not_mem_nil,
      fun m hm ⟨a, ha, _⟩ => absurd ha (hnone m hm a)⟩
  -- a failure in any row is a failure to take 64 pages
  have hfail : ∀ {s1 rs}, (mapKernel d (kmap L)).run s = (mapKernel d rs).run s1 →
      ∀ {w}, w ≤ 64 → (∃ s' ρ' fl', Ends (mapKernel d rs) s1 false s' ∧ Confined d s ρ s' ρ' ∧
        Grows L ρ d (512 ≤ ·) s' ρ' fl' ∧ ¬ Grants s fl w) →
      ∃ s' ρ' fl', Ends (mapKernel d (kmap L)) s false s' ∧ Confined d s ρ s' ρ' ∧
        Grows L ρ d (512 ≤ ·) s' ρ' fl' ∧ ¬ Grants s fl 64 := by
    rintro s1 rs hrun w hw ⟨s', ρ', fl', he, hcon, hg, hgr⟩
    exact ⟨s', ρ', fl', hrun.trans he, hcon, hg, fun h' => hgr (h'.mono hw)⟩
  suffices hgoal : (∃ s' ρ' fl', Ends (mapKernel d (kmap L)) s false s' ∧ Confined d s ρ s' ρ' ∧
      Grows L ρ d (512 ≤ ·) s' ρ' fl' ∧ ¬ Grants s fl 64) ∨ ∃ I s' ρ' fl',
      (mapKernel d (kmap L)).run s = (mapKernel d []).run s' ∧ (∀ i, I i ↔ KernTab i) ∧
        Progress L s ρ fl d I 1048576 64 (kmap L) s' ρ' fl' by
    rcases hgoal with ⟨s', ρ', fl', he, hcon, hg, hgr⟩ | ⟨I, s', ρ', fl', he, hI, hp⟩
    · exact ⟨false, s', ρ', fl', he, hcon, .inl ⟨rfl, hg, hgr⟩⟩
    · exact ⟨true, s', ρ', fl', he, hp.confined, .inr ⟨rfl, hp.toGrows.mono fun i => (hI i).mp,
        fun i => (hp.tabs i).trans (hI i), hp.took, hp.priv, hp.laid⟩⟩
  rcases hstart.row hd ⟨KERNBASE, 0, EXTMEM, PTE_W⟩ _ (n := 524288) (k := 255) 1
      ⟨by decide, by decide, rfl, rfl, by omega, by omega⟩ (by omega) (.inr ⟨id, rfl⟩) with
    hf | ⟨s1, ρ1, fl1, e1, h1⟩
  · exact .inl (hfail rfl (by omega) hf)
  rcases h1.row hd ⟨KERNLINK, V2P KERNLINK, V2P L.data, 0⟩ _ (n := 524544) (k := c - 257) 0
      ⟨by simp, show V2P KERNLINK % 4096 = 0 ∧ V2P KERNLINK < 2 ^ 32 by decide, rfl,
        by rw [hVd, show V2P KERNLINK = 4096 * 256 from rfl]; dsimp only [u32]; omega,
        by omega, by omega⟩
      (by omega) (.inl ⟨by right; omega, by omega⟩) with hf | ⟨s2, ρ2, fl2, e2, h2⟩
  · exact .inl (hfail e1 (by omega) hf)
  rcases h2.row hd ⟨L.data, V2P L.data, PHYSTOP, PTE_W⟩ _ (n := 524288 + c) (k := 57343 - c) 55
      ⟨show PTE_W / 4 % 2 = 0 ∧ PTE_W < 2 ^ 32 by decide, by dsimp only; omega, hdata, by
        rw [hVd]; dsimp only [PHYSTOP, u32]; omega,
        by omega, by omega⟩
      (by omega) (.inl ⟨by left; right; omega, by omega⟩) with hf | ⟨s3, ρ3, fl3, e3, h3⟩
  · exact .inl (hfail (e1.trans e2) (by omega) hf)
  rcases h3.row hd ⟨DEVSPACE, DEVSPACE, 0, PTE_W⟩ _ (n := 1040384) (k := 8191) 8
      ⟨by decide, by decide, rfl, rfl, by omega, by omega⟩ (by omega)
      (.inr ⟨by simp only [false_or]; omega, by omega⟩) with hf | ⟨s4, ρ4, fl4, e4, h4⟩
  · exact .inl (hfail (e1.trans (e2.trans e3)) (by omega) hf)
  refine .inr ⟨_, s4, ρ4, fl4, e1.trans (e2.trans (e3.trans e4)), fun i => ?_, h4⟩
  simp only [KernTab, false_or]
  omega

/-! ## `setupkvm` -/

/-- The free page `d` became a directory of `t`, with tables at indices in
    `I`; nothing else changed its role. -/
structure NewDir (ρ : Nat → Role τ) (d : Nat) (t : τ) (I : Nat → Prop)
    (ρ' : Nat → Role τ) : Prop where
  was   : ρ d = .free
  dir   : ρ' d = .dir t
  roles : ∀ x, x ≠ d → ρ' x = ρ x ∨ (ρ x = .free ∧ ∃ i, I i ∧ ρ' x = .table d i)

/-- A directory that was free before the change has no loose page before it. -/
theorem Inv.not_inTree (h : Inv L s ρ fl q) (hfree : ρ d = .free) :
    (∀ i, ρ x ≠ .table d i) ∧ ∀ m, ρ x ≠ .user d m := by
  have htab : ∀ y i, ρ y ≠ .table d i := by
    intro y i hy
    obtain ⟨⟨t', hd⟩, -⟩ := h.trees.tabOf y d i hy
    rw [hfree] at hd
    cases hd
  refine ⟨htab x, fun m hm => ?_⟩
  obtain ⟨-, a, ha, -⟩ := h.trees.userOf x d m hm
  exact htab a _ ha

/-- The number of pages `setupkvm` takes. -/
abbrev KVMPAGES : Nat := 65

/-- `setupkvm` fails at once, fails later and keeps what it took, or makes a
    directory whose kernel part the user cannot see. -/
theorem setupkvm_private (t : τ) (h : Inv L s ρ fl 0) :
    ∃ d s' ρ' fl', Ends (setupkvm L) s d s' ∧ Inv L s' ρ' fl' 0 ∧ FreeOnly s ρ s' ∧
      ((d = 0 ∧ ρ' = ρ ∧ fl' = fl ∧ ¬ Grants s fl 1) ∨
        (d = 0 ∧ Grants s fl 1 ∧ ¬ Grants s fl KVMPAGES ∧
          ∃ d', NewDir ρ d' t (512 ≤ ·) ρ') ∨
        (d ≠ 0 ∧ Took s fl s' fl' KVMPAGES ∧ NewDir ρ d t KernTab ρ' ∧
          (∀ i, HasTab ρ' d i ↔ KernTab i) ∧ Private s'.mem d ∧ Laid (kmap L) s'.mem d)) := by
  obtain ⟨d, s1, hk⟩ := ends_kalloc s
  rcases kalloc_spec t h hk with ⟨rfl, rfl, hg⟩ | ⟨fl1, rfl, hpd, hmem, htook, hinv⟩
  · refine ⟨0, { s with deny := s.deny.tail }, ρ, fl, ?_, h.congr rfl fun _ _ _ _ _ => rfl,
      fun _ _ => rfl, .inl ⟨rfl, rfl, rfl, hg⟩⟩
    unfold Ends setupkvm
    rw [run_bind_of_ends hk, if_pos rfl]
    rfl
  · have hgt := hpd.gt
    have hfree : ρ d = .free := (h.free d).mp (by simp)
    have hheld : update ρ d (.held t) d = .held t := update_self ..
    have hdir := (hinv.zero hheld 0).addDir t hheld fun i hi => ptr_fill_zero hi
    rw [update_idem] at hdir
    have hempty : ∀ i, ¬ HasTab (update ρ d (.dir t)) d i := by
      rintro i ⟨b, hb⟩
      obtain ⟨⟨t', hd⟩, -⟩ := h.trees.tabOf b d i (role_of_update hb (by simp)).2
      rw [hfree] at hd
      cases hd
    obtain ⟨ok, s2, ρ2, fl2, he, hcon, hres⟩ :=
      mapKernel_spec hdir (update_self ..) hempty
    have honly : FreeOnly s ρ s2 := by
      intro x hx
      have hout := hx d hfree
      unfold InPage at hout
      rw [hcon.mem x fun hm => ?_]
      · show fill s1.mem d PGSIZE 0 x = s.mem x
        rw [← hmem]
        exact if_neg (by simp only [PGSIZE]; omega)
      · obtain ⟨b, hin, rfl | hl⟩ := hm
        · exact hx b hfree hin
        · -- a new directory has no tables and no pages
          have hbd : b ≠ d := by
            rintro rfl
            rw [update_self] at hl
            exact not_loose_dir hl
          rw [update_of_ne hbd] at hl
          rcases hl with hl | ⟨i, hl⟩ | ⟨m, hl⟩
          · exact hx b hl hin
          · exact absurd hl ((h.not_inTree hfree).1 i)
          · exact absurd hl ((h.not_inTree hfree).2 m)
    have hrun : (setupkvm L).run s = (if ok then return d else return 0 : VM Nat).run s2 := by
      unfold setupkvm
      rw [run_bind_of_ends hk, if_neg (by omega),
        run_bind_of_ends ((ends_memset (r := ())).mpr rfl), run_bind_of_ends he]
    -- the page of the directory was free before
    have hnew : ∀ {I s' fl'}, Grows L (update ρ d (.dir t)) d I s' ρ2 fl' →
        NewDir ρ d t I ρ2 := by
      intro I s' fl' hgr
      refine ⟨hfree, ?_, fun x hx => ?_⟩
      · rw [hgr.role (by simp [update_self]), update_self]
      · have := hgr.roles x
        rwa [update_of_ne hx] at this
    rcases hres with ⟨rfl, hgr, hg⟩ | ⟨rfl, hgr, htabs, htook', hkern⟩
    · refine ⟨0, s2, ρ2, fl2, hrun, hgr.inv, honly,
        .inr (.inl ⟨rfl, htook.grants, ?_, d, hnew hgr⟩)⟩
      intro hg'
      exact hg ((grants_add (htook.mem (m := fill s1.mem d 4096 0))).mp hg')
    · exact ⟨d, s2, ρ2, fl2, hrun, hgr.inv, honly, .inr (.inr ⟨by omega,
        (htook.mem (m := fill s1.mem d 4096 0)).trans htook', hnew hgr, htabs, hkern⟩)⟩

theorem setupkvm_spec (t : τ) (h : Inv L s ρ fl 0) :
    ∃ d s' ρ' fl', Ends (setupkvm L) s d s' ∧ Inv L s' ρ' fl' 0 ∧
      ((d = 0 ∧ ρ' = ρ ∧ fl' = fl ∧ ¬ Grants s fl 1) ∨
        (d = 0 ∧ Grants s fl 1 ∧ ¬ Grants s fl KVMPAGES ∧
          ∃ d', NewDir ρ d' t (512 ≤ ·) ρ') ∨
        (d ≠ 0 ∧ Took s fl s' fl' KVMPAGES ∧ NewDir ρ d t KernTab ρ' ∧
          ∀ i, HasTab ρ' d i ↔ KernTab i)) := by
  obtain ⟨d, s', ρ', fl', he, hinv, -, hres⟩ := setupkvm_private t h
  refine ⟨d, s', ρ', fl', he, hinv, ?_⟩
  rcases hres with hnone | hlost | ⟨hd, htook, hnew, htabs, -⟩
  · exact .inl hnone
  · exact .inr (.inl hlost)
  · exact .inr (.inr ⟨hd, htook, hnew, htabs⟩)

/-- `setupkvm` writes to pages that were free, and to no other. -/
theorem setupkvm_freeOnly (h : Inv L s ρ fl 0) (t : τ) (he : Ends (setupkvm L) s d s') :
    FreeOnly s ρ s' := by
  obtain ⟨d', s1, -, -, he', -, honly, -⟩ := setupkvm_private t h
  obtain ⟨-, rfl⟩ := he.unique he'
  exact honly

end Xv6.Mem
