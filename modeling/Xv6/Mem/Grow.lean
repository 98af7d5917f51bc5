import Xv6.Mem.Free

/-! # Specification of `allocuvm`

    It takes pages and maps them one page number after the other. On a range without mappings it
    maps all pages or gives all of them back.
-/

namespace Xv6.Mem

open ByteMem Program Function

variable {τ : Type} {L : Layout} {s s' s'' s2 : Phys} {ρ ρ' ρ'' : Nat → Role τ}
  {fl ns us : List Nat} {q d n oldsz d' lo x u perm newsz r : Nat} {t : τ} {ok : Bool}

/-! ## What stays within one directory -/

theorem local_freeAll (h : Freed ρ d n oldsz ns us) : Local d ρ (freeAll ρ us) := by
  intro x
  by_cases hx : x ∈ us
  · obtain ⟨m, -, hm⟩ := h.mem hx
    exact .inr ⟨.inr (.inr ⟨m, hm⟩), .inl (by simp [freeAll, hx])⟩
  · exact .inl (by simp [freeAll, hx])

theorem not_loose_held : ¬ Loose d (.held t : Role τ) := by
  rintro (h | ⟨i, h⟩ | ⟨m, h⟩) <;> cases h

theorem not_loose_user {m : Nat} (hne : d' ≠ d) : ¬ Loose d (.user d' m : Role τ) := by
  rintro (h | ⟨i, h⟩ | ⟨m', h⟩)
  · cases h
  · cases h
  · obtain ⟨rfl, -⟩ : d' = d ∧ m = m' := by simpa using h
    exact hne rfl

theorem not_loose_table {i : Nat} (hne : d' ≠ d) : ¬ Loose d (.table d' i : Role τ) := by
  rintro (h | ⟨i', h⟩ | ⟨m', h⟩)
  · cases h
  · obtain ⟨rfl, -⟩ : d' = d ∧ i = i' := by simpa using h
    exact hne rfl
  · cases h

theorem Local.maps (h : Local d ρ ρ') (hne : d' ≠ d) (m : Nat) : Maps ρ' d' m ↔ Maps ρ d' m := by
  constructor
  · rintro ⟨u, hu⟩
    exact ⟨u, by rw [← h.role_back (by rw [hu]; exact not_loose_user hne), hu]⟩
  · rintro ⟨u, hu⟩
    exact ⟨u, by rw [h.role (by rw [hu]; exact not_loose_user hne), hu]⟩

/-- The bytes that work on directory `d` from page number `lo` on may change. -/
def Alters (ρ : Nat → Role τ) (d lo x : Nat) : Prop := TableSpace ρ d x ∨ Touches ρ d lo x

theorem Alters.mono {lo' : Nat} (h : Alters ρ d lo' x) (hle : lo ≤ lo') : Alters ρ d lo x := by
  rcases h with h | ⟨u, m, hu, hm, hin⟩ | ⟨a, m, ha, hm, hrest⟩
  · exact .inl h
  · exact .inr (.inl ⟨u, m, hu, by omega, hin⟩)
  · exact .inr (.inr ⟨a, m, ha, by omega, hrest⟩)

/-- Nothing else changes, and nothing else comes to be subject to change. -/
structure Frame (d lo : Nat) (s : Phys) (ρ : Nat → Role τ) (s' : Phys) (ρ' : Nat → Role τ) :
    Prop where
  mem    : ∀ x, ¬ Alters ρ d lo x → s'.mem x = s.mem x
  alters : ∀ x, Alters ρ' d lo x → Alters ρ d lo x
  kern   : ∀ a i, 512 ≤ i → (ρ' a = .table d i ↔ ρ a = .table d i)

theorem Frame.refl (d lo : Nat) (ρ : Nat → Role τ) (h : s'.mem = s.mem) : Frame d lo s ρ s' ρ where
  mem _ _ := by rw [h]
  alters _ := id
  kern _ _ _ := Iff.rfl

theorem Frame.trans (h : Frame d lo s ρ s' ρ') (h' : Frame d lo s' ρ' s'' ρ'') :
    Frame d lo s ρ s'' ρ'' where
  mem x hx := by rw [h'.mem x fun hx' => hx (h.alters x hx'), h.mem x hx]
  alters x hx := h.alters x (h'.alters x hx)
  kern a i hi := by rw [h'.kern a i hi, h.kern a i hi]

theorem Freed.frame (hf : Freed ρ d n oldsz ns us) (h : Inv L s ρ fl q)
    (hx : ∀ x, ¬ Clears ρ d ns us x → s'.mem x = s.mem x) : Frame d n s ρ s' (freeAll ρ us) where
  mem x hno := hx x fun hc => hno (.inr (hf.touches h hc))
  alters x hx := by
    -- what is free now was free or was mapped at `n` or above
    have hback : ∀ {b r}, freeAll ρ us b = r → r ≠ .free → ρ b = r := by
      intro b r hb hr
      by_cases hmem : b ∈ us
      · exact absurd (by simpa [freeAll, hmem] using hb.symm) hr
      · simpa [freeAll, hmem] using hb
    rcases hx with (⟨a, ha, hin⟩ | hin) | ⟨u, m, hu, hrest⟩ | ⟨a, m, ha, hrest⟩
    · by_cases hmem : a ∈ us
      · obtain ⟨m, hm, hrole⟩ := hf.mem hmem
        exact .inr (.inl ⟨a, m, hrole, (hf.bounds m hm).1, hin⟩)
      · exact .inl (.inl ⟨a, by simpa [freeAll, hmem] using ha, hin⟩)
    · exact .inl (.inr hin)
    · exact .inr (.inl ⟨u, m, hback hu (by simp), hrest⟩)
    · exact .inr (.inr ⟨a, m, hback ha (by simp), hrest⟩)
  kern a i _ := by
    by_cases hmem : a ∈ us
    · obtain ⟨m, -, hrole⟩ := hf.mem hmem
      simp [freeAll, hmem, hrole]
    · simp [freeAll, hmem]

theorem Inv.not_alters (h : Inv L s ρ fl q) (hd : ρ d = .dir t) {b : Nat} (hb : ρ b ≠ .other)
    (hbf : ρ b ≠ .free) (hbd : b ≠ d) (hu : ∀ m, lo ≤ m → ρ b ≠ .user d m)
    (ht : ∀ i < 512, ρ b ≠ .table d i) (hx : InPage b x) : ¬ Alters ρ d lo x := by
  rintro ((⟨a, ha, h3, h4⟩ | ⟨h3, h4⟩) | htouch)
  · have := (h.isPage ha (by simp)).disjoint (h.page b hb) fun he => hbf (he ▸ ha)
    have := hx.1
    have := hx.2
    omega
  · have := (h.isPage hd (by simp)).disjoint (h.page b hb) (Ne.symm hbd)
    have := hx.1
    have := hx.2
    omega
  · exact h.not_touches hb hu ht hx htouch

theorem Inv.not_alters_entry (h : Inv L s ρ fl q) (hd : ρ d = .dir t) {a : Nat}
    (ha : ρ a = .table d (n / 1024)) (hlo : n < lo) (h1 : a + 4 * (n % 1024) ≤ x)
    (h2 : x < a + 4 * (n % 1024) + 4) : ¬ Alters ρ d lo x := by
  have hpa := h.isPage ha (by simp)
  rintro ((⟨b, hb, h3, h4⟩ | ⟨h3, h4⟩) | ⟨v, k, hv, -, h3, h4⟩ | ⟨b, k, hb, hk, -, h3, h4⟩)
  · have := (h.isPage hb (by simp)).disjoint hpa (ne_of_role hb ha (by simp))
    omega
  · have := (h.isPage hd (by simp)).disjoint hpa (ne_of_role hd ha (by simp))
    omega
  · have := (h.isPage hv (by simp)).disjoint hpa (ne_of_role hv ha (by simp))
    omega
  · -- another entry, in this table or in another one
    by_cases hba : b = a
    · subst hba
      obtain ⟨-, hi⟩ : d = d ∧ n / 1024 = k / 1024 := by simpa using ha.symm.trans hb
      omega
    · have := (h.isPage hb (by simp)).disjoint hpa hba
      omega

theorem Frame.takePage (hfree : ρ u = .free) (hmem : ∀ x, ¬ InPage u x → s'.mem x = s.mem x) :
    Frame d lo s ρ s' (update ρ u (.held t)) where
  mem x hx := hmem x fun hin => hx (.inl (.inl ⟨u, hfree, hin⟩))
  alters x hx := by
    rcases hx with (⟨a, ha, hin⟩ | hin) | ⟨v, m, hv, hrest⟩ | ⟨a, m, ha, hrest⟩
    · exact .inl (.inl ⟨a, (role_of_update ha (by simp)).2, hin⟩)
    · exact .inl (.inr hin)
    · exact .inr (.inl ⟨v, m, (role_of_update hv (by simp)).2, hrest⟩)
    · exact .inr (.inr ⟨a, m, (role_of_update ha (by simp)).2, hrest⟩)
  kern a i _ := by
    by_cases hau : a = u
    · rw [hau, update_self, hfree]
      simp
    · rw [update_of_ne hau]

theorem Frame.take {c : UInt8} (hfree : ρ u = .free)
    (hmem : ∀ x, s'.mem x = fill s.mem u 4096 c x) :
    Frame d lo s ρ s' (update ρ u (.held t)) := by
  refine .takePage hfree fun x hx => ?_
  unfold InPage at hx
  rw [hmem]
  exact if_neg (by omega)

theorem Frame.give (h : Frame d lo s ρ s' ρ') (hfree : ρ u = .free)
    (hmem : ∀ x, ¬ InPage u x → s''.mem x = s'.mem x) : Frame d lo s ρ s'' (update ρ' u .free) where
  mem x hx := by
    rw [hmem x fun hin => hx (.inl (.inl ⟨u, hfree, hin⟩)), h.mem x hx]
  alters x hx := by
    rcases hx with (⟨a, ha, hin⟩ | hin) | ⟨v, m, hv, hrest⟩ | ⟨a, m, ha, hrest⟩
    · by_cases hau : a = u
      · exact .inl (.inl ⟨a, hau ▸ hfree, hin⟩)
      · rw [update_of_ne hau] at ha
        exact h.alters x (.inl (.inl ⟨a, ha, hin⟩))
    · exact .inl (.inr hin)
    · exact h.alters x (.inr (.inl ⟨v, m, (role_of_update hv (by simp)).2, hrest⟩))
    · exact h.alters x (.inr (.inr ⟨a, m, (role_of_update ha (by simp)).2, hrest⟩))
  kern a i hi := by
    by_cases hau : a = u
    · rw [hau, update_self, hfree]
    · rw [update_of_ne hau]
      exact h.kern a i hi

/-! ## Mapping one page -/

theorem mappages_one (hn : n < 524288) (pa perm : Nat) :
    mappages d (4096 * n) PGSIZE pa perm =
      mappagesFrom d (4096 * n) perm (1048575 + 1) (4096 * n) pa :=
  mappages_pages (k := 0) (by omega) rfl pa perm

theorem user_flags (hpu : L.IsPage u) (hperm : perm < 4096) :
    V2P u ||| perm ||| PTE_P = V2P u + (perm ||| 1) := by
  have h1 := hpu.mod
  have h2 := hpu.gt
  rw [Nat.or_assoc]
  exact or_flags (by rw [hpu.V2P]; omega) (or_lt_4096 hperm (by decide))

/-- The held page `u` is mapped at page number `n`, with a new table if need be. -/
structure UserAdded (ρ : Nat → Role τ) (d n u : Nat) (ρ' : Nat → Role τ) : Prop where
  page  : ρ' u = .user d n
  roles : ∀ x, x ≠ u → ρ' x = ρ x ∨ (ρ x = .free ∧ ρ' x = .table d (n / 1024))
  tabs  : ∀ i, HasTab ρ' d i ↔ HasTab ρ d i ∨ i = n / 1024

theorem UserAdded.maps (h : UserAdded ρ d n u ρ') (hu : ρ u = .held t) (m : Nat) :
    Maps ρ' d m ↔ Maps ρ d m ∨ m = n := by
  constructor
  · rintro ⟨v, hv⟩
    by_cases hvu : v = u
    · subst hvu
      rw [h.page] at hv
      exact .inr (by simpa using hv.symm)
    · rcases h.roles v hvu with he | ⟨-, he⟩
      · exact .inl ⟨v, he ▸ hv⟩
      · rw [he] at hv
        cases hv
  · rintro (⟨v, hv⟩ | rfl)
    · have hvu : v ≠ u := ne_of_role hv hu (by simp)
      rcases h.roles v hvu with he | ⟨hf, -⟩
      · exact ⟨v, he.trans hv⟩
      · rw [hv] at hf
        cases hf
    · exact ⟨u, h.page⟩

/-- Entries that are present keep their value. -/
def Keeps (s : Phys) (ρ : Nat → Role τ) (s' : Phys) : Prop :=
  ∀ a d i, ρ a = .table d i → ∀ j < 1024, ptr s.mem a j ≠ none →
    load s'.mem (a + 4 * j) 4 = load s.mem (a + 4 * j) 4

theorem Keeps.trans (h : Keeps s ρ s') (h' : Keeps s' ρ' s'')
    (hrole : ∀ a d i, ρ a = .table d i → ρ' a = .table d i) : Keeps s ρ s'' := by
  intro a d i ha j hj hp
  have h1 := h a d i ha j hj hp
  have hp' : ptr s'.mem a j ≠ none := by
    unfold ptr at hp ⊢
    rwa [h1]
  rw [h' a d i (hrole a d i ha) j hj hp', h1]

theorem Keeps.of_same (h : ∀ a d i, ρ a = .table d i → SamePage s.mem s'.mem a) :
    Keeps s ρ s' := fun a d i ha _ hj _ => (h a d i ha).load hj

/-- The entry for page number `n` of directory `d` holds `e`. -/
def EntryIs (s : Phys) (ρ : Nat → Role τ) (d n e : Nat) : Prop :=
  ∃ a, ρ a = .table d (n / 1024) ∧ load s.mem (a + 4 * (n % 1024)) 4 = e

theorem mapUser_spec {t' : τ} (perm : Nat) (h : Inv L s ρ fl 0) (hd : ρ d = .dir t)
    (hn : n < 524288) (hu : ρ u = .held t') (hperm : perm < 4096) (hfree : ¬ Maps ρ d n) :
    ∃ ok s' ρ' fl', Ends (mappages d (4096 * n) PGSIZE (V2P u) perm) s ok s' ∧
      Inv L s' ρ' fl' 0 ∧ (∀ x, ¬ Alters ρ d n x → s'.mem x = s.mem x) ∧ DirKept d s s' ∧
      ((ok = false ∧ ρ' = ρ ∧ fl' = fl ∧ ¬ Grants s fl (newTab ρ d (n / 1024))) ∨
        (ok = true ∧ UserAdded ρ d n u ρ' ∧ Took s fl s' fl' (newTab ρ d (n / 1024)) ∧
          Keeps s ρ s' ∧ EntryIs s' ρ' d n (V2P u + (perm ||| 1)) ∧
          (¬ HasTab ρ d (n / 1024) →
            ∃ a, fl.head? = some a ∧ ρ' a = .table d (n / 1024)))) := by
  rw [mappages_one hn]
  obtain ⟨r, s1, hw, hsame, hdir, ⟨rfl, hg, hinv⟩ | ⟨a, ρ1, fl1, rfl, ha, hadd, htook, hhead⟩⟩ :=
    walk_alloc_spec h hd (by omega : n < 2 ^ 20)
  · exact ⟨false, s1, ρ, fl, map_round_none hw, hinv, fun x hx => hsame x fun ht => hx (.inl ht),
      hdir, .inl ⟨rfl, rfl, rfl, hg⟩⟩
  · have hu1 : ρ1 u = .held t' := by rw [hadd.role (by simp [hu]), hu]
    have hd1 : ρ1 d = .dir t := by rw [hadd.role (by simp [hd]), hd]
    have hpu : L.IsPage u := h.isPage hu (by simp)
    -- the entry is empty, or the page number was mapped
    have hnone : ptr s1.mem a (n % 1024) = none := by
      by_contra hne
      obtain ⟨v, hv⟩ := Option.ne_none_iff_exists'.mp hne
      have hv' := hadd.inv.trees.user a d _ ha (by omega) _ (Nat.mod_lt _ (by decide)) v hv
      rw [show 1024 * (n / 1024) + n % 1024 = n by omega] at hv'
      rcases hadd.roles v with he | ⟨-, i, -, he⟩
      · exact hfree ⟨v, he ▸ hv'⟩
      · rw [he] at hv'
        cases hv'
    have hpres : present (load s1.mem (a + 4 * (n % 1024)) 4) = false := by
      by_contra hne
      simp only [Bool.not_eq_false] at hne
      simp [ptr, hne] at hnone
    have hadd' := hadd.inv.addUser ha (by omega) (Nat.mod_lt _ (by decide)) hu1 hnone
      (or_lt_4096 hperm (by decide : (1 : Nat) < 4096)) (or_one_odd perm)
    rw [show 1024 * (n / 1024) + n % 1024 = n by omega, ← user_flags hpu hperm] at hadd'
    have ha' : update ρ1 u (.user d n) a = .table d (n / 1024) :=
      update_role ha hu1 (by simp)
    -- the entry that is written was empty
    have hkeep : Keeps s1 ρ1
        { s1 with mem := store s1.mem (a + 4 * (n % 1024)) 4 (V2P u ||| perm ||| PTE_P) } := by
      intro b d' i hb j hj hp
      refine load_store_frame hadd.inv.page (by simp [ha]) (by simp [hb])
        (Nat.mod_lt _ (by decide)) hj ?_
      rintro rfl rfl
      exact hp hnone
    have hkeep1 : Keeps s ρ s1 := .of_same fun b d' i hb =>
      h.samePage_of_tableSpace hd (by simp [hb]) (by simp [hb])
        (ne_of_role hb hd (by simp)) hsame
    have hdir' : DirKept d s1
        { s1 with mem := store s1.mem (a + 4 * (n % 1024)) 4 (V2P u ||| perm ||| PTE_P) } :=
      hadd.inv.dirKept hd1 (by simp [ha]) (ne_of_role ha hd1 (by simp)) fun x hx =>
        store_outside (by unfold InPage at hx; omega)
    refine ⟨true, _, _, fl1, ?_, hadd', fun x hx => ?_, hdir.trans hdir', .inr ⟨rfl,
      ⟨update_self .., ?_, ?_⟩, htook.mem, hkeep1.trans hkeep (fun b d' i hb => ?_),
      ⟨a, ha', ?_⟩, fun hno => ⟨a, hhead hno, ha'⟩⟩⟩
    · unfold Ends
      rw [map_round_some hw hpres, if_pos rfl]
      rfl
    · -- the entry is in a table of the directory, old or new
      have hout : ¬ (a + 4 * (n % 1024) ≤ x ∧ x < a + 4 * (n % 1024) + 4) := by
        rintro ⟨h1, h2⟩
        rcases hadd.roles a with he | ⟨hf, -⟩
        · exact hx (.inr (.inr ⟨a, n, he ▸ ha, le_rfl, hn, h1, h2⟩))
        · exact hx (.inl (.inl ⟨a, hf, by omega, by omega⟩))
      dsimp only
      rw [store_outside (by omega)]
      exact hsame x fun ht => hx (.inl ht)
    · intro x hx
      rw [update_of_ne hx]
      rcases hadd.roles x with he | ⟨hf, i, rfl, he⟩
      · exact .inl he
      · exact .inr ⟨hf, he⟩
    · intro i
      rw [← hadd.tabs i]
      exact exists_update_iff hu1 (by simp) (by simp)
    · rw [hadd.role (by simp [hb]), hb]
    · have h1 := hpu.lt
      have hf : perm ||| 1 < 4096 := or_lt_4096 hperm (by decide)
      dsimp only
      rw [load_store_self, user_flags hpu hperm, hpu.V2P]
      exact Nat.mod_eq_of_lt (by omega)

theorem UserAdded.frame (hfree : ρ u = .free) (hlo : lo ≤ n) (hn : n < 524288)
    (h : UserAdded (update ρ u (.held t)) d n u ρ')
    (htake : Frame d lo s ρ s' (update ρ u (.held t)))
    (hx : ∀ x, ¬ Alters (update ρ u (.held t)) d n x → s2.mem x = s'.mem x) :
    Frame d lo s ρ s2 ρ' := by
  have hrole : ∀ a, a ≠ u → ρ' a = ρ a ∨ (ρ a = .free ∧ ρ' a = .table d (n / 1024)) := by
    intro a ha
    have := h.roles a ha
    rwa [update_of_ne ha] at this
  refine ⟨fun x hno => ?_, fun x ha => ?_, fun a i hi => ?_⟩
  · rw [hx x fun ha => hno (htake.alters x (ha.mono hlo)), htake.mem x hno]
  · -- a byte in a page that was free
    have hback : ∀ a, (a = u ∨ ρ a = .free) → InPage a x → Alters ρ d lo x := by
      rintro a (rfl | ha) hin
      · exact .inl (.inl ⟨a, hfree, hin⟩)
      · exact .inl (.inl ⟨a, ha, hin⟩)
    -- a page with a new role was free
    have hold : ∀ a, InPage a x → Alters ρ d lo x ∨ ρ' a = ρ a := by
      intro a hin
      by_cases hau : a = u
      · exact .inl (hback a (.inl hau) hin)
      · rcases hrole a hau with he | ⟨hf, -⟩
        · exact .inr he
        · exact .inl (hback a (.inr hf) hin)
    rcases ha with (⟨a, ha, hin⟩ | hin) | ⟨v, m, hv, hrest⟩ | ⟨a, m, ha, hm, hlt, h1, h2⟩
    · rcases hold a hin with hdone | he
      · exact hdone
      · exact hback a (.inr (he ▸ ha)) hin
    · exact .inl (.inr hin)
    · rcases hold v hrest.2 with hdone | he
      · exact hdone
      · exact .inr (.inl ⟨v, m, he ▸ hv, hrest⟩)
    · rcases hold a ⟨by omega, by omega⟩ with hdone | he
      · exact hdone
      · exact .inr (.inr ⟨a, m, he ▸ ha, hm, hlt, h1, h2⟩)
  · by_cases hau : a = u
    · rw [hau, h.page, hfree]
      simp
    · rcases hrole a hau with he | ⟨hf, he⟩
      · rw [he]
      · have hlt : n / 1024 ≠ i := by omega
        rw [he, hf]
        simp [hlt]

/-- A page number that is mapped already: the code panics. -/
theorem mapUser_remap {pa : Nat} (h : Inv L s ρ fl q) (hn : n < 524288) (hm : Maps ρ d n) :
    ¬ Ends (mappages d (4096 * n) PGSIZE pa perm) s ok s' := by
  obtain ⟨u, hu⟩ := hm
  obtain ⟨-, a, ha, hp⟩ := h.trees.userOf u d n hu
  have hpres : present (load s.mem (a + 4 * (n % 1024)) 4) = true := by
    by_contra hne
    simp [ptr, hne] at hp
  rw [mappages_one hn]
  intro he
  unfold Ends at he
  rw [mappagesFrom, run_bind_of_ends (h.ends_walk (by omega) ha true)] at he
  dsimp only at he
  rw [run_bind_of_ends (ends_load32.mpr ⟨rfl, rfl⟩), hpres, if_pos rfl] at he
  exact not_ends_panic he

/-! ## `allocuvm` -/

section Rounds

variable {newsz a u r : Nat} {s1 s2 s3 s4 : Phys} (oldsz fuel : Nat)

theorem alloc_round_end (h : newsz ≤ a) :
    Ends (allocFrom L d oldsz newsz (fuel + 1) a) s true s := by
  unfold Ends
  rw [allocFrom, if_neg (by omega)]
  rfl

theorem alloc_round_oom (h : a < newsz) (hk : Ends kalloc s 0 s1)
    (hf : Ends (deallocuvm L d newsz oldsz) s1 r s2) :
    Ends (allocFrom L d oldsz newsz (fuel + 1) a) s false s2 := by
  unfold Ends
  rw [allocFrom, if_pos h, run_bind_of_ends hk, if_pos rfl, run_bind_of_ends hf]
  rfl

theorem alloc_round_fail (h : a < newsz) (hk : Ends kalloc s u s1) (hu : u ≠ 0)
    (hm : Ends (mappages d a PGSIZE (V2P u) (PTE_W ||| PTE_U))
      { s1 with mem := fill s1.mem u PGSIZE 0 } false s2)
    (hf : Ends (deallocuvm L d newsz oldsz) s2 r s3) (hkf : Ends (kfree L u) s3 () s4) :
    Ends (allocFrom L d oldsz newsz (fuel + 1) a) s false s4 := by
  unfold Ends
  rw [allocFrom, if_pos h, run_bind_of_ends hk, if_neg hu,
    run_bind_of_ends ((ends_memset (r := ())).mpr rfl), run_bind_of_ends hm,
    if_neg (by simp), run_bind_of_ends hf, run_bind_of_ends hkf]
  rfl

theorem alloc_round_next (h : a < newsz) (hk : Ends kalloc s u s1) (hu : u ≠ 0)
    (hm : Ends (mappages d a PGSIZE (V2P u) (PTE_W ||| PTE_U))
      { s1 with mem := fill s1.mem u PGSIZE 0 } true s2) :
    (allocFrom L d oldsz newsz (fuel + 1) a).run s =
      (allocFrom L d oldsz newsz fuel (u32 (a + PGSIZE))).run s2 := by
  rw [allocFrom, if_pos h, run_bind_of_ends hk, if_neg hu,
    run_bind_of_ends ((ends_memset (r := ())).mpr rfl), run_bind_of_ends hm, if_pos rfl]

/-- A run that ends passed `mappages`. -/
theorem alloc_round_mapped (h : a < newsz) (hk : Ends kalloc s u s1) (hu : u ≠ 0)
    (he : Ends (allocFrom L d oldsz newsz (fuel + 1) a) s ok s2) :
    ∃ ok' s', Ends (mappages d a PGSIZE (V2P u) (PTE_W ||| PTE_U))
      { s1 with mem := fill s1.mem u PGSIZE 0 } ok' s' := by
  unfold Ends at he
  rw [allocFrom, if_pos h, run_bind_of_ends hk, if_neg hu,
    run_bind_of_ends ((ends_memset (r := ())).mpr rfl)] at he
  obtain ⟨ok', s', hm, -⟩ := ends_bind.mp he
  exact ⟨ok', s', hm⟩

end Rounds

/-- `deallocuvm` moves pages of its directory to the free list. -/
theorem deallocuvm_local (oldsz newsz : Nat) (h : Inv L s ρ fl q) (hd : ρ d = .dir t)
    (hold : oldsz ≤ 0x80000000) :
    ∃ r s' ρ' fl', Ends (deallocuvm L d oldsz newsz) s r s' ∧ Inv L s' ρ' fl' q ∧
      Local d ρ ρ' := by
  by_cases hlt : newsz < oldsz
  · obtain ⟨s', ns, us, he, hinv, -, -, hfreed, -⟩ := deallocuvm_spec oldsz newsz h hd hold hlt
    exact ⟨newsz, s', _, _, he, hinv, local_freeAll hfreed⟩
  · refine ⟨oldsz, s, ρ, fl, ?_, h, .refl d ρ⟩
    unfold Ends deallocuvm
    rw [if_pos (by omega)]
    rfl

theorem UserAdded.local (hfree : ρ u = .free) (h : UserAdded (update ρ u (.held t)) d n u ρ') :
    Local d ρ ρ' := by
  intro x
  by_cases hx : x = u
  · subst hx
    exact .inr ⟨.inl hfree, .inr (.inr ⟨n, h.page⟩)⟩
  · have hr := h.roles x hx
    rw [update_of_ne hx] at hr
    rcases hr with he | ⟨hf, he⟩
    · exact .inl he
    · exact .inr ⟨.inl hf, .inr (.inl ⟨_, he⟩)⟩

theorem Local.giveBack (hfree : ρ u = .free) (h : Local d (update ρ u (.held t)) ρ') :
    Local d ρ (update ρ' u .free) := by
  intro x
  by_cases hx : x = u
  · subst hx
    exact .inl (by rw [update_self, hfree])
  · have := h x
    rwa [update_of_ne hx] at this ⊢

theorem maps_update_plain {r : Role τ} (hu : (ρ u).Plain) (hr : r.Plain) (m : Nat) :
    Maps (update ρ u r) d m ↔ Maps ρ d m := by
  have hne : ∀ r' : Role τ, r'.Plain → .user d m ≠ r' := by
    intro r' hr' he
    rw [← he] at hr'
    exact hr'
  exact exists_update_iff rfl (hne r hr) (hne _ hu)

theorem maps_update_held (hfree : ρ u = .free) (m : Nat) :
    Maps (update ρ u (.held t)) d m ↔ Maps ρ d m :=
  maps_update_plain (r := .held t) (by rw [hfree]; trivial) trivial m

theorem hasTab_update_held (hfree : ρ u = .free) (i : Nat) :
    HasTab (update ρ u (.held t)) d i ↔ HasTab ρ d i :=
  exists_update_iff hfree (by simp) (by simp)

open Classical in
/-- The pages it takes to map `k` pages from page number `n` on, where `T` says
    which tables are there. -/
noncomputable def userNeed (T : Nat → Prop) (n : Nat) : Nat → Nat
  | 0 => 0
  | k + 1 => (1 + if T (n / 1024) then 0 else 1) +
      userNeed (fun i => T i ∨ i = n / 1024) (n + 1) k

theorem userNeed_succ {ρ1 : Nat → Role τ} (k : Nat)
    (htabs : ∀ i, HasTab ρ1 d i ↔ HasTab ρ d i ∨ i = n / 1024) :
    userNeed (HasTab ρ d) n (k + 1) =
      (1 + newTab ρ d (n / 1024)) + userNeed (HasTab ρ1 d) (n + 1) k := by
  have : HasTab ρ1 d = fun i => HasTab ρ d i ∨ i = n / 1024 := by
    funext i
    exact propext (htabs i)
  rw [this]
  rfl

theorem lt_pages (m sz : Nat) : 4096 * m < sz ↔ m < pages sz := by
  unfold pages
  omega

theorem Freed.maps {n0 : Nat} (hf : Freed ρ d n0 oldsz ns us) (h : Trees s.mem ρ) (m : Nat) :
    Maps (freeAll ρ us) d m ↔ Maps ρ d m ∧ m ∉ ns := by
  constructor
  · rintro ⟨u, hu⟩
    by_cases hmem : u ∈ us
    · simp [freeAll, hmem] at hu
    · simp only [freeAll, hmem, if_false] at hu
      refine ⟨⟨u, hu⟩, fun hm => ?_⟩
      obtain ⟨v, hv, hvm⟩ := hf.page hm
      rw [h.user_unique hu hvm] at hmem
      exact hmem hv
  · rintro ⟨⟨u, hu⟩, hm⟩
    refine ⟨u, ?_⟩
    have hmem : u ∉ us := by
      intro hin
      obtain ⟨m', hm', hu'⟩ := hf.mem hin
      obtain rfl : m = m' := by simpa using hu.symm.trans hu'
      exact hm hm'
    simp [freeAll, hmem, hu]

/-- The cleanup of `allocuvm`, when the pages up to `n` are mapped. -/
theorem alloc_rollback (hnew : newsz < 0x80000000) (hlt : oldsz < newsz) (h : Inv L s ρ fl q)
    (hd : ρ d = .dir t) (hn : n ≤ pages newsz)
    (hhist : n = pages oldsz ∨ HasTab ρ d (pages oldsz / 1024)) :
    ∃ s' ρ' fl', Ends (deallocuvm L d newsz oldsz) s oldsz s' ∧ Inv L s' ρ' fl' q ∧
      Local d ρ ρ' ∧ Frame d (pages oldsz) s ρ s' ρ' ∧ DirKept d s s' ∧
      ((∀ m, n ≤ m → m < pages newsz → ¬ Maps ρ d m) →
        ∀ m, Maps ρ' d m ↔ Maps ρ d m ∧ ¬ (pages oldsz ≤ m ∧ m < n)) := by
  obtain ⟨s', ns, us, he, hinv, -, hx, hfreed, hall⟩ :=
    deallocuvm_spec newsz oldsz h hd (by omega) hlt
  refine ⟨s', _, _, he, hinv, local_freeAll hfreed, hfreed.frame h hx,
    .of_same fun x h1 h2 => hx x (h.not_clears_dir hd hfreed ⟨h1, h2⟩), fun hfresh m => ?_⟩
  rw [hfreed.maps h.trees]
  refine and_congr_right fun hm => not_congr ?_
  constructor
  · intro hin
    have hb := hfreed.bounds m hin
    refine ⟨hb.1, ?_⟩
    by_contra hge
    exact hfresh m (by omega) ((lt_pages m newsz).mp hb.2) hm
  · rintro ⟨h1, h2⟩
    have htab : HasTab ρ d (pages oldsz / 1024) := by
      rcases hhist with rfl | htab
      · omega
      · exact htab
    exact (hall m h1 ((lt_pages m newsz).mpr (by omega)) hm).mpr (not_skipped (.inr htab))

/-- The pages `n`, .., `n + k - 1` of directory `d` are mapped. The pages come off the free list in
    order, each table right after the page that needs it. -/
structure Grown (s : Phys) (ρ : Nat → Role τ) (fl : List Nat) (d n k : Nat) (s' : Phys)
    (ρ' : Nat → Role τ) (fl' : List Nat) : Prop where
  took  : Took s fl s' fl' (userNeed (HasTab ρ d) n k)
  maps  : ∀ m, Maps ρ' d m ↔ Maps ρ d m ∨ (n ≤ m ∧ m < n + k)
  kept  : ∀ x, ρ x ≠ .free → ρ' x = ρ x
  keeps : Keeps s ρ s'
  page  : ∀ j < k, ∃ u, fl[userNeed (HasTab ρ d) n j]? = some u ∧ ρ' u = .user d (n + j) ∧
    EntryIs s' ρ' d (n + j) (V2P u + 7)
  table : ∀ j < k, userNeed (HasTab ρ d) n (j + 1) = userNeed (HasTab ρ d) n j + 2 →
    ∃ a, fl[userNeed (HasTab ρ d) n j + 1]? = some a ∧ ρ' a = .table d ((n + j) / 1024)
  frame : ∀ lo ≤ n, Frame d lo s ρ s' ρ'
  clear : ∀ j < k, ∃ u, ρ' u = .user d (n + j) ∧ ∀ x, InPage u x → s'.mem x = 0

theorem Grown.zero (h : s'.deny = s.deny) (hmem : s'.mem = s.mem) : Grown s ρ fl d n 0 s' ρ fl where
  took := .zero h
  maps m := by
    constructor
    · exact .inl
    · rintro (hm | hm)
      · exact hm
      · omega
  kept _ _ := rfl
  keeps := .of_same fun _ _ _ _ _ _ _ => by rw [hmem]
  page j hj := by omega
  table j hj := by omega
  frame lo _ := .refl d lo ρ hmem
  clear j hj := by omega

theorem EntryIs.keep {e : Nat} (h : EntryIs s ρ d n e) (hodd : e % 2 = 1) (hk : Keeps s ρ s')
    (hrole : ∀ a d i, ρ a = .table d i → ρ' a = .table d i) : EntryIs s' ρ' d n e := by
  obtain ⟨a, ha, he⟩ := h
  refine ⟨a, hrole _ _ _ ha, ?_⟩
  rw [hk a d _ ha _ (Nat.mod_lt _ (by decide)) ?_, he]
  unfold ptr
  dsimp only
  rw [he, if_pos ((present_iff e).mpr hodd)]
  simp

theorem Grown.cons {ρ2 : Nat → Role τ} {fl2 fl' : List Nat} {k : Nat} (hpu : L.IsPage u)
    (hfree : ρ u = .free) (hadd : UserAdded (update ρ u (.held t)) d n u ρ2)
    (htook : Took s (u :: fl) s2 fl2 (1 + newTab ρ d (n / 1024))) (hkeep : Keeps s ρ s2)
    (hent : EntryIs s2 ρ2 d n (V2P u + 7))
    (hhead : ¬ HasTab ρ d (n / 1024) → ∃ a, fl.head? = some a ∧ ρ2 a = .table d (n / 1024))
    (hinv : Inv L s2 ρ2 fl2 q) (hd : ρ2 d = .dir t) (hframe : ∀ lo ≤ n, Frame d lo s ρ s2 ρ2)
    (hclear : ∀ x, InPage u x → s2.mem x = 0) (h : Grown s2 ρ2 fl2 d (n + 1) k s' ρ' fl') :
    Grown s ρ (u :: fl) d n (k + 1) s' ρ' fl' := by
  have htabs : ∀ i, HasTab ρ2 d i ↔ HasTab ρ d i ∨ i = n / 1024 := by
    intro i
    rw [hadd.tabs, hasTab_update_held hfree]
  have hneed := fun j => userNeed_succ j htabs
  have hkept : ∀ x, ρ x ≠ .free → ρ2 x = ρ x := by
    intro x hx
    have hxu : x ≠ u := by
      rintro rfl
      exact hx hfree
    have hr := hadd.roles x hxu
    rw [update_of_ne hxu] at hr
    exact hr.resolve_right fun hc => hx hc.1
  have htable : ∀ a d' i, ρ a = .table d' i → ρ2 a = .table d' i := by
    intro a d' i ha
    rw [hkept a (by simp [ha]), ha]
  have htable2 : ∀ a d' i, ρ2 a = .table d' i → ρ' a = .table d' i := by
    intro a d' i ha
    rw [h.kept a (by simp [ha]), ha]
  have hdrop : ∀ x : Nat, fl2[x]? = (u :: fl)[1 + newTab ρ d (n / 1024) + x]? := by
    intro x
    rw [htook.list, List.getElem?_drop]
  refine ⟨hneed k ▸ htook.trans h.took, fun m => ?_, fun x hx => ?_, hkeep.trans h.keeps htable, ?_,
    ?_, fun lo hlo => (hframe lo hlo).trans (h.frame lo (by omega)), ?_⟩
  · rw [h.maps, hadd.maps (update_self ..), maps_update_held hfree]
    constructor
    · rintro ((hm | rfl) | hm)
      · exact .inl hm
      · exact .inr (by omega)
      · exact .inr (by omega)
    · rintro (hm | hm)
      · exact .inl (.inl hm)
      · by_cases hmn : m = n
        · exact .inl (.inr hmn)
        · exact .inr (by omega)
  · have hx2 := hkept x hx
    rw [h.kept x (by rw [hx2]; exact hx), hx2]
  · intro j hj
    cases j with
    | zero =>
      refine ⟨u, rfl, ?_, hent.keep ?_ h.keeps htable2⟩
      · rw [h.kept u (by simp [hadd.page]), hadd.page]
        rfl
      · have h1 := hpu.mod
        have h2 := hpu.gt
        rw [hpu.V2P]
        omega
    | succ j =>
      obtain ⟨v, hv, hrole, hent'⟩ := h.page j (by omega)
      rw [show n + (j + 1) = n + 1 + j by omega, hneed, ← hdrop]
      exact ⟨v, hv, hrole, hent'⟩
  · intro j hj h2
    cases j with
    | zero =>
      have hno : ¬ HasTab ρ d (n / 1024) := by
        intro ht
        have h0 : newTab ρ d (n / 1024) = 0 := if_pos ht
        have h3 : userNeed (HasTab ρ2 d) (n + 1) 0 = 0 := rfl
        have h4 : userNeed (HasTab ρ d) n 0 = 0 := rfl
        rw [hneed, h0] at h2
        omega
      obtain ⟨a, ha, hrole⟩ := hhead hno
      refine ⟨a, ?_, htable2 _ _ _ hrole⟩
      show fl[0]? = some a
      rw [← List.head?_eq_getElem?]
      exact ha
    | succ j =>
      rw [hneed, hneed (j)] at h2
      obtain ⟨a, ha, hrole⟩ := h.table j (by omega) (by omega)
      rw [show n + (j + 1) = n + 1 + j by omega, hneed, add_assoc, ← hdrop]
      exact ⟨a, ha, hrole⟩
  · intro j hj
    cases j with
    | zero =>
      -- the later rounds work above page number `n`
      refine ⟨u, by rw [h.kept u (by simp [hadd.page]), hadd.page]; rfl, fun x hx => ?_⟩
      rw [(h.frame (n + 1) le_rfl).mem x, hclear x hx]
      exact hinv.not_alters hd (by simp [hadd.page]) (by simp [hadd.page])
        (ne_of_role hadd.page hd (by simp))
        (fun m hm => by rw [hadd.page]; simp; omega) (fun i _ => by rw [hadd.page]; simp) hx
    | succ j =>
      rw [show n + (j + 1) = n + 1 + j by omega]
      exact h.clear j (by omega)

/-- The loop of `allocuvm`, on a range with no mapping or in a run that ends: it
    maps all pages of the range, which had no mapping; or it gives back what it
    took, and with it what it finds mapped further on. -/
theorem allocFrom_spec (hnew : newsz < 0x80000000) (k : Nat) :
    ∀ (fuel : Nat) {n : Nat} {s : Phys} {ρ : Nat → Role τ} {fl : List Nat}, Inv L s ρ fl 0 →
    ρ d = .dir t → n + k = pages newsz → pages oldsz ≤ n → k < fuel →
    (n = pages oldsz ∨ HasTab ρ d (pages oldsz / 1024)) →
    ((∀ m, n ≤ m → m < pages newsz → ¬ Maps ρ d m) ∨
      ∃ ok s', Ends (allocFrom L d oldsz newsz fuel (4096 * n)) s ok s') →
    ∃ ok s' ρ' fl', Ends (allocFrom L d oldsz newsz fuel (4096 * n)) s ok s' ∧
      Inv L s' ρ' fl' 0 ∧ Local d ρ ρ' ∧ Frame d (pages oldsz) s ρ s' ρ' ∧ DirKept d s s' ∧
      ((ok = true ∧ (∀ m, n ≤ m → m < pages newsz → ¬ Maps ρ d m) ∧
          Grown s ρ fl d n k s' ρ' fl') ∨
        (ok = false ∧ ¬ Grants s fl (userNeed (HasTab ρ d) n k) ∧
          ((∀ m, n ≤ m → m < pages newsz → ¬ Maps ρ d m) →
            ∀ m, Maps ρ' d m ↔ Maps ρ d m ∧ ¬ (pages oldsz ≤ m ∧ m < n)))) := by
  induction k with
  | zero =>
    intro fuel n s ρ fl h hd hnk hold hfuel hhist hrun
    obtain ⟨fuel, rfl⟩ : ∃ f, fuel = f + 1 := ⟨fuel - 1, by omega⟩
    have hend : newsz ≤ 4096 * n := by
      by_contra hlt
      have := (lt_pages n newsz).mp (by omega)
      omega
    exact ⟨true, s, ρ, fl, alloc_round_end oldsz fuel hend, h, .refl d ρ, .refl d _ ρ rfl,
      .refl rfl, .inl ⟨rfl, fun m h1 h2 => by omega, .zero rfl rfl⟩⟩
  | succ k ih =>
    intro fuel n s ρ fl h hd hnk hold hfuel hhist hends
    obtain ⟨fuel, rfl⟩ : ∃ f, fuel = f + 1 := ⟨fuel - 1, by omega⟩
    have hlt : 4096 * n < newsz := (lt_pages n newsz).mpr (by omega)
    have hle : oldsz < newsz := by
      by_contra hge
      have : pages newsz ≤ pages oldsz := by
        unfold pages
        omega
      omega
    have hneed1 : 1 + newTab ρ d (n / 1024) ≤ userNeed (HasTab ρ d) n (k + 1) :=
      Nat.le_add_right _ _
    obtain ⟨u, s1, hk⟩ := ends_kalloc s
    rcases kalloc_spec t h hk with ⟨rfl, rfl, hg⟩ | ⟨fl1, rfl, hpu, hmem, htook, hinv⟩
    · have h' : Inv L { s with deny := s.deny.tail } ρ fl 0 := h.congr rfl fun _ _ _ _ _ => rfl
      have hkal : Frame d (pages oldsz) s ρ { s with deny := s.deny.tail } ρ := .refl d _ ρ rfl
      obtain ⟨s2, ρ2, fl2, hf, hinv2, hloc, hframe, hdir, hmaps⟩ :=
        alloc_rollback (n := n) hnew hle h' hd (by omega) hhist
      exact ⟨false, s2, ρ2, fl2, alloc_round_oom oldsz fuel hlt hk hf, hinv2, hloc,
        hkal.trans hframe, hdir, .inr ⟨rfl, fun hg' => hg (hg'.mono (by omega)), hmaps⟩⟩
    have hu0 : u ≠ 0 := by have := hpu.gt; omega
    have hfree : ρ u = .free := (h.free u).mp (by simp)
    have hud : u ≠ d := ne_of_role hfree hd (by simp)
    have hz := hinv.zero (update_self ..) 0
    have hd1 : update ρ u (.held t) d = .dir t := update_role hd hfree (by simp)
    have hnew1 : newTab (update ρ u (.held t)) d (n / 1024) = newTab ρ d (n / 1024) := by
      unfold newTab
      rw [hasTab_update_held hfree]
    have hnm : ¬ Maps (update ρ u (.held t)) d n := by
      rcases hends with hfresh | ⟨ok, s', he⟩
      · rw [maps_update_held hfree]
        exact hfresh n le_rfl (by omega)
      · intro hm
        obtain ⟨ok', s'', hmap⟩ := alloc_round_mapped oldsz fuel hlt hk hu0 he
        exact mapUser_remap hz (by omega) hm hmap
    -- taking and clearing the page
    have htake : ∀ lo, Frame d lo s ρ { s1 with mem := fill s1.mem u 4096 0 }
        (update ρ u (.held t)) := fun lo => .take hfree fun x => by rw [hmem]
    have hset : DirKept d s { s1 with mem := fill s1.mem u 4096 0 } := by
      refine h.dirKept hd (by simp [hfree]) hud fun x hx => ?_
      unfold InPage at hx
      show fill s1.mem u 4096 0 x = s.mem x
      rw [hmem]
      exact if_neg (by omega)
    obtain ⟨ok', s2, ρ2, fl2, hmap, hinv2, hx, hdirm, hres⟩ :=
      mapUser_spec (PTE_W ||| PTE_U) hz hd1 (by omega) (update_self ..) (by decide) hnm
    rw [hnew1] at hres
    have htook1 := htook.mem (m := fill s1.mem u 4096 0)
    rcases hres with ⟨rfl, rfl, rfl, hg⟩ | ⟨rfl, hadd, htook2, hkeep, hent, hhead⟩
    · -- no page for the table: undo, then give the page back
      obtain ⟨s3, ρ3, fl3, hf, hinv3, hloc, hframe, hdirf, hmaps⟩ :=
        alloc_rollback (n := n) hnew hle hinv2 hd1 (by omega)
          (hhist.imp_right (hasTab_update_held hfree _).mpr)
      have hu3 : ρ3 u = .held t := by
        rw [hloc.role (by rw [update_self]; exact not_loose_held), update_self]
      have hd3 : ρ3 d = .dir t := by rw [hloc.role (by rw [hd1]; exact not_loose_dir), hd1]
      have hkf := ends_kfree (s := s3) hpu
      have hmap' : Frame d (pages oldsz) { s1 with mem := fill s1.mem u 4096 0 }
          (update ρ u (.held t)) s2 (update ρ u (.held t)) :=
        ⟨fun x hno => hx x fun ha => hno (ha.mono hold), fun _ => id, fun _ _ _ => Iff.rfl⟩
      have hgive : ∀ x, ¬ InPage u x → store (fill s3.mem u 4096 1) u 4 s3.freelist
          x = s3.mem x := by
        intro x hin
        unfold InPage at hin
        rw [store_outside (by omega)]
        exact if_neg (by omega)
      refine ⟨false, _, _, _, alloc_round_fail oldsz fuel hlt hk hu0 hmap hf hkf, (kfree_spec hinv3
        hu3 hkf).1, hloc.giveBack hfree, ((htake _).trans (hmap'.trans hframe)).give hfree hgive,
        ((hset.trans hdirm).trans hdirf).trans (hinv3.dirKept hd3 (by simp [hu3]) hud hgive), .inr
        ⟨rfl, ?_, fun hfresh m => ?_⟩⟩
      · intro hg'
        exact hg ((grants_add htook1).mp (hg'.mono hneed1))
      · rw [← maps_update_held (t := t) hfree, ← hmaps fun m h1 h2 => by
          rw [maps_update_held hfree]
          exact hfresh m h1 h2]
        exact exists_update_iff hu3 (by simp) (by simp)
    · have hrun := alloc_round_next (L := L) oldsz fuel hlt hk hu0 hmap
      rw [next_page (by omega)] at hrun
      have hloc := hadd.local hfree
      have hd2 : ρ2 d = .dir t := by rw [hloc.role (by rw [hd]; exact not_loose_dir), hd]
      have htabs : ∀ i, HasTab ρ2 d i ↔ HasTab ρ d i ∨ i = n / 1024 := by
        intro i
        rw [hadd.tabs, hasTab_update_held hfree]
      have hmaps : ∀ m, Maps ρ2 d m ↔ Maps ρ d m ∨ m = n := by
        intro m
        rw [hadd.maps (update_self ..), maps_update_held hfree]
      have hnext : (∀ m, n ≤ m → m < pages newsz → ¬ Maps ρ d m) →
          ∀ m, n + 1 ≤ m → m < pages newsz → ¬ Maps ρ2 d m := by
        intro hfresh m h1 h2 hm
        rcases (hmaps m).mp hm with hm | hm
        · exact hfresh m (by omega) h2 hm
        · omega
      obtain ⟨ok, s', ρ', fl', he, hinv', hloc', hframe', hdir', hres⟩ := ih fuel (n := n + 1) hinv2
        hd2 (by omega) (by omega) (by omega)
        (.inr ((htabs _).mpr (by
          rcases hhist with rfl | ht
          · exact .inr rfl
          · exact .inl ht)))
        (hends.imp hnext
          fun hend => hend.imp fun ok => Exists.imp fun s' he => hrun.symm.trans he)
      have hframe : ∀ lo ≤ n, Frame d lo s ρ s2 ρ2 := fun lo hlo =>
        hadd.frame hfree hlo (by omega) (htake lo) hx
      refine ⟨ok, s', ρ', fl', hrun.trans he, hinv', hloc.trans hloc',
        (hframe _ hold).trans hframe',
        (hset.trans hdirm).trans hdir', ?_⟩
      rcases hres with ⟨rfl, hfresh, hgrown⟩ | ⟨rfl, hg, hm'⟩
      · -- clearing the new page changes no table
        have hclear : Keeps s ρ { s1 with mem := fill s1.mem u 4096 0 } := by
          refine .of_same fun b d' i hb => ?_
          have := hpu.disjoint (h.isPage hb (by simp)) (ne_of_role hfree hb (by simp))
          dsimp only
          rw [hmem]
          exact samePage_fill (by omega)
        -- the page itself is not where `mappages` writes
        have hzero : ∀ x, InPage u x → s2.mem x = 0 := by
          intro x hin
          have hrole : update ρ u (.held t) u = .held t := update_self ..
          rw [hx x (hz.not_alters hd1 (by simp) (by simp) (ne_of_role hrole hd1 (by simp))
            (fun _ _ => by rw [hrole]; simp) (fun _ _ => by rw [hrole]; simp) hin)]
          exact if_pos hin
        refine .inl ⟨rfl, fun m h1 h2 hm => ?_, .cons hpu hfree hadd (htook1.trans htook2)
          (hclear.trans hkeep fun b d' i hb => update_role hb hfree (by simp)) hent
          (fun hno => hhead fun ht => hno ((hasTab_update_held hfree _).mp ht)) hinv2 hd2
          hframe hzero hgrown⟩
        by_cases hmn : m = n
        · exact hnm ((maps_update_held hfree n).mpr (hmn ▸ hm))
        · exact hfresh m (by omega) h2 ((hmaps m).mpr (.inl hm))
      · refine .inr ⟨rfl, ?_, fun hfresh m => ?_⟩
        · rw [userNeed_succ k htabs, grants_add (htook1.trans htook2)]
          exact hg
        · rw [hm' (hnext hfresh), hmaps]
          constructor
          · rintro ⟨hm | rfl, hno⟩
            · exact ⟨hm, by omega⟩
            · exact absurd ⟨hold, Nat.lt_succ_self _⟩ hno
          · rintro ⟨hm, hno⟩
            refine ⟨.inl hm, fun hin => ?_⟩
            by_cases hmn : m = n
            · exact hfresh m (by omega) (by omega) hm
            · exact hno (by omega)

/-- `allocuvm` that grows, on a range with no mapping or in a run that ends. -/
theorem allocuvm_grows (h : Inv L s ρ fl 0) (hd : ρ d = .dir t) (hnew : newsz < 0x80000000)
    (hle : oldsz ≤ newsz)
    (hends : (∀ m, pages oldsz ≤ m → m < pages newsz → ¬ Maps ρ d m) ∨
      ∃ r s', Ends (allocuvm L d oldsz newsz) s r s') :
    ∃ r s' ρ' fl', Ends (allocuvm L d oldsz newsz) s r s' ∧ Inv L s' ρ' fl' 0 ∧ Local d ρ ρ' ∧
      Frame d (pages oldsz) s ρ s' ρ' ∧ DirKept d s s' ∧
      ((r = newsz ∧ (∀ m, pages oldsz ≤ m → m < pages newsz → ¬ Maps ρ d m) ∧
          Grown s ρ fl d (pages oldsz) (pages newsz - pages oldsz) s' ρ' fl') ∨
        (r = 0 ∧
          ¬ Grants s fl (userNeed (HasTab ρ d) (pages oldsz) (pages newsz - pages oldsz)) ∧
          ((∀ m, pages oldsz ≤ m → m < pages newsz → ¬ Maps ρ d m) →
            ∀ m, Maps ρ' d m ↔ Maps ρ d m))) := by
  have hpages : pages oldsz ≤ pages newsz ∧ pages newsz ≤ 524288 := by
    unfold pages
    omega
  have hrun : (allocuvm L d oldsz newsz).run s = (do
      let ok ← allocFrom L d oldsz newsz MAXPAGES (4096 * pages oldsz)
      return if ok then newsz else 0 : VM Nat).run s := by
    unfold allocuvm
    rw [if_neg (by simp only [KERNBASE]; omega), if_neg (by omega), PGROUNDUP_eq (by omega)]
  obtain ⟨ok, s', ρ', fl', he, hinv, hloc, hframe, hdir, hres⟩ := allocFrom_spec hnew
    (pages newsz - pages oldsz) MAXPAGES (n := pages oldsz) h hd (by omega) le_rfl
    (by simp only [MAXPAGES]; omega) (.inl rfl) (hends.imp_right fun ⟨r, s', he⟩ => by
      unfold Ends at he
      rw [hrun] at he
      obtain ⟨ok, s1, he1, -⟩ := ends_bind.mp he
      exact ⟨ok, s1, he1⟩)
  rw [run_bind_of_ends he] at hrun
  refine ⟨_, s', ρ', fl', hrun, hinv, hloc, hframe, hdir, ?_⟩
  rcases hres with ⟨rfl, hres⟩ | ⟨rfl, hg, hmaps⟩
  · exact .inl ⟨rfl, hres⟩
  · refine .inr ⟨rfl, hg, fun hfresh m => ?_⟩
    rw [hmaps hfresh]
    exact ⟨fun hm => hm.1, fun hm => ⟨hm, by omega⟩⟩

theorem allocuvm_refuses (h : KERNBASE ≤ newsz) : Ends (allocuvm L d oldsz newsz) s 0 s := by
  unfold Ends allocuvm
  rw [if_pos h]
  rfl

theorem allocuvm_keeps (h : ¬ KERNBASE ≤ newsz) (hlt : newsz < oldsz) :
    Ends (allocuvm L d oldsz newsz) s oldsz s := by
  unfold Ends allocuvm
  rw [if_neg h, if_pos hlt]
  rfl

/-- Whatever `allocuvm` finds mapped, it stays within its directory. -/
theorem allocuvm_framed (h : Inv L s ρ fl 0) (hd : ρ d = .dir t)
    (he : Ends (allocuvm L d oldsz newsz) s r s') :
    ∃ ρ' fl', Inv L s' ρ' fl' 0 ∧ Local d ρ ρ' ∧ Frame d (pages oldsz) s ρ s' ρ' ∧
      DirKept d s s' := by
  by_cases hgrow : newsz < 0x80000000 ∧ oldsz ≤ newsz
  · obtain ⟨r', s1, ρ', fl', he', hinv, hloc, hframe, hdir, -⟩ :=
      allocuvm_grows h hd hgrow.1 hgrow.2 (.inr ⟨r, s', he⟩)
    obtain ⟨-, rfl⟩ := he.unique he'
    exact ⟨ρ', fl', hinv, hloc, hframe, hdir⟩
  · obtain rfl : s' = s := by
      by_cases hnew : KERNBASE ≤ newsz
      · exact (he.unique (allocuvm_refuses hnew)).2
      · refine (he.unique (allocuvm_keeps hnew ?_)).2
        simp only [KERNBASE] at hnew
        omega
    exact ⟨ρ, fl, h, .refl d ρ, .refl d _ ρ rfl, .refl rfl⟩

/-- An `allocuvm` that succeeds found nothing mapped. -/
theorem allocuvm_fresh (h : Inv L s ρ fl 0) (hd : ρ d = .dir t)
    (he : Ends (allocuvm L d oldsz newsz) s r s') (hr : r ≠ 0) (hle : oldsz ≤ newsz) :
    newsz < 0x80000000 ∧ ∀ m, pages oldsz ≤ m → m < pages newsz → ¬ Maps ρ d m := by
  have hnew : newsz < 0x80000000 := by
    by_contra hge
    exact hr (he.unique (allocuvm_refuses (by simp only [KERNBASE]; omega))).1
  obtain ⟨r', s1, ρ', fl', he', -, -, -, -, hres⟩ := allocuvm_grows h hd hnew hle (.inr ⟨r, s', he⟩)
  obtain ⟨rfl, -⟩ := he.unique he'
  rcases hres with ⟨-, hfresh, -⟩ | ⟨h0, -⟩
  · exact ⟨hnew, hfresh⟩
  · exact absurd h0 hr

theorem allocuvm_local (h : Inv L s ρ fl 0) (hd : ρ d = .dir t)
    (he : Ends (allocuvm L d oldsz newsz) s r s') : ∃ ρ' fl', Inv L s' ρ' fl' 0 ∧ Local d ρ ρ' := by
  obtain ⟨ρ', fl', hinv, hloc, -⟩ := allocuvm_framed h hd he
  exact ⟨ρ', fl', hinv, hloc⟩

theorem allocuvm_spec (oldsz newsz : Nat) (h : Inv L s ρ fl 0) (hd : ρ d = .dir t)
    (hnew : newsz < 0x80000000) (hle : oldsz ≤ newsz)
    (hfresh : ∀ m, pages oldsz ≤ m → m < pages newsz → ¬ Maps ρ d m) :
    ∃ r s' ρ' fl', Ends (allocuvm L d oldsz newsz) s r s' ∧ Inv L s' ρ' fl' 0 ∧ Local d ρ ρ' ∧
      ((r = newsz ∧ Grown s ρ fl d (pages oldsz) (pages newsz - pages oldsz) s' ρ' fl') ∨
        (r = 0 ∧
          ¬ Grants s fl (userNeed (HasTab ρ d) (pages oldsz) (pages newsz - pages oldsz)) ∧
          ∀ m, Maps ρ' d m ↔ Maps ρ d m)) := by
  obtain ⟨r, s', ρ', fl', he, hinv, hloc, -, -, hres⟩ := allocuvm_grows h hd hnew hle (.inl hfresh)
  refine ⟨r, s', ρ', fl', he, hinv, hloc, hres.imp ?_ ?_⟩
  · rintro ⟨hr, -, hgrown⟩
    exact ⟨hr, hgrown⟩
  · rintro ⟨hr, hg, hmaps⟩
    exact ⟨hr, hg, hmaps hfresh⟩

end Xv6.Mem
