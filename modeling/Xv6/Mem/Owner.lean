import Xv6.Mem.Entry

/-! # Page ownership

    The role each physical page plays: free, held by some owner, a page directory, a page-table page
    of a directory, or a user page mapped at a page number of a directory. A role map assigns every
    page one role, so what the invariant `Inv` says is that memory agrees with a role map: two
    places that hold pages hold different pages.

    The owners are named by tags of an arbitrary type `τ`.
-/

namespace Xv6.Mem

open ByteMem Program Function

variable {τ : Type} {p a b i k v d f j u n x : Nat} {t t' t0 : τ}

/-! ## Roles -/

inductive Role (τ : Type) where
  /-- Not a page of the allocator. -/
  | other
  /-- On the free list. -/
  | free
  /-- Held by `t`. -/
  | held (t : τ)
  /-- A page directory that `t` holds. -/
  | dir (t : τ)
  /-- The page table at index `i` of directory `d`. -/
  | table (d i : Nat)
  /-- Mapped at page number `n` below `KERNBASE` of directory `d`. -/
  | user (d n : Nat)

/-- Pages whose contents the allocator and the page tables depend on. -/
def Role.Structural : Role τ → Prop
  | .free | .dir _ | .table _ _ => True
  | _ => False

/-- Pages that no page table points to. -/
def Role.Plain : Role τ → Prop
  | .free | .held _ => True
  | _ => False

/-- The directories and tables in `m` are those of the role map. -/
structure Trees (m : ByteMem.Mem) (ρ : Nat → Role τ) : Prop where
  tab    : ∀ d t, ρ d = .dir t → ∀ i < 1024, ∀ a, ptr m d i = some a → ρ a = .table d i
  tabOf  : ∀ a d i, ρ a = .table d i → (∃ t, ρ d = .dir t) ∧ i < 1024 ∧ ptr m d i = some a
  user   : ∀ a d i, ρ a = .table d i → i < 512 → ∀ j < 1024, ∀ u, ptr m a j = some u →
    ρ u = .user d (1024 * i + j)
  userOf : ∀ u d n, ρ u = .user d n → n < 524288 ∧
    ∃ a, ρ a = .table d (n / 1024) ∧ ptr m a (n % 1024) = some u
  zero   : ∀ a d i, ρ a = .table d i → i < 512 → ∀ j < 1024, ptr m a j = none →
    load m (a + 4 * j) 4 = 0

/-- The list `fl` leads from `p` to `q`. -/
def Seg (m : ByteMem.Mem) (p : Nat) : List Nat → Nat → Prop
  | [], q => p = q
  | a :: fl, q => p = a ∧ Seg m (load m a 4) fl q

/-- Memory agrees with the role map `ρ`; the free pages are `fl`, in this
    order, and the last one points to `q`. -/
structure Inv (L : Layout) (s : Phys) (ρ : Nat → Role τ) (fl : List Nat) (q : Nat) : Prop where
  page  : ∀ a, ρ a ≠ .other → L.IsPage a
  seg   : Seg s.mem s.freelist fl q
  free  : ∀ a, a ∈ fl ↔ ρ a = .free
  nodup : fl.Nodup
  tail  : q < 2 ^ 32
  trees : Trees s.mem ρ

/-! ## Changing memory -/

variable {L : Layout} {s s' : Phys} {m m' : ByteMem.Mem} {ρ ρ' : Nat → Role τ} {fl : List Nat}
  {q : Nat} {r r' : Role τ}

theorem Inv.isPage (h : Inv L s ρ fl q) (ha : ρ a = r) (hr : r ≠ .other) : L.IsPage a :=
  h.page a (ha ▸ hr)

theorem Inv.dir_ne_zero {d : Nat} {t : τ} (h : Inv L s ρ fl q) (hd : ρ d = .dir t) : d ≠ 0 := by
  have := (h.isPage hd (by simp)).gt
  omega

/-- Trees only depend on where the entries point, and on the value of those that point nowhere. -/
theorem Trees.congr_ptr (h : Trees m ρ)
    (hdir : ∀ d t, ρ d = .dir t → ∀ i < 1024, ptr m' d i = ptr m d i)
    (htab : ∀ a d i, ρ a = .table d i → ∀ j < 1024, ptr m' a j = ptr m a j)
    (hzero : ∀ a d i, ρ a = .table d i → ∀ j < 1024, ptr m a j = none →
      load m' (a + 4 * j) 4 = load m (a + 4 * j) 4) : Trees m' ρ := by
  refine ⟨?_, ?_, ?_, ?_, ?_⟩
  · intro d t hd i hi a hp
    rw [hdir d t hd i hi] at hp
    exact h.tab d t hd i hi a hp
  · intro a d i ha
    obtain ⟨⟨t, hd⟩, hi, hp⟩ := h.tabOf a d i ha
    exact ⟨⟨t, hd⟩, hi, by rw [hdir d t hd i hi, hp]⟩
  · intro a d i ha hi j hj u hp
    rw [htab a d i ha j hj] at hp
    exact h.user a d i ha hi j hj u hp
  · intro u d n hu
    obtain ⟨hn, a, ha, hp⟩ := h.userOf u d n hu
    exact ⟨hn, a, ha, by rw [htab a _ _ ha _ (by omega), hp]⟩
  · intro a d i ha hi j hj hp
    rw [htab a d i ha j hj] at hp
    rw [hzero a d i ha j hj hp]
    exact h.zero a d i ha hi j hj hp

theorem Trees.congr (h : Trees m ρ)
    (heq : ∀ a, (ρ a).Structural → SamePage m m' a) : Trees m' ρ := by
  have htab : ∀ a d i, ρ a = .table d i → SamePage m m' a :=
    fun a d i ha => heq a (by rw [ha]; trivial)
  exact h.congr_ptr (fun d t hd i hi => (heq d (by rw [hd]; trivial)).ptr hi)
    (fun a d i ha j hj => (htab a d i ha).ptr hj) (fun a d i ha j hj _ => (htab a d i ha).load hj)

theorem Seg.congr (h : Seg m p fl q) (heq : ∀ a ∈ fl, load m' a 4 = load m a 4) :
    Seg m' p fl q := by
  induction fl generalizing p with
  | nil => exact h
  | cons a fl ih =>
    obtain ⟨rfl, h⟩ := h
    refine ⟨rfl, ?_⟩
    rw [heq p (by simp)]
    exact ih h fun b hb => heq b (by simp [hb])

/-- Bytes of pages that are held or mapped may change. -/
theorem Inv.congr (h : Inv L s ρ fl q) (hfl : s'.freelist = s.freelist)
    (heq : ∀ a, (ρ a).Structural → SamePage s.mem s'.mem a) : Inv L s' ρ fl q := by
  refine ⟨h.page, ?_, h.free, h.nodup, h.tail, h.trees.congr heq⟩
  rw [hfl]
  refine h.seg.congr fun a ha => ?_
  have hsame := heq a (by rw [(h.free a).mp ha]; trivial)
  exact hsame.load (i := 0) (by omega)

/-- Writing inside one page that is not structural. -/
theorem Inv.write (h : Inv L s ρ fl q) (hfl : s'.freelist = s.freelist) (ha : ρ a ≠ .other)
    (hns : ¬ (ρ a).Structural) (heq : ∀ x, x < a ∨ a + 4096 ≤ x → s'.mem x = s.mem x) :
    Inv L s' ρ fl q := by
  refine h.congr hfl fun b hb x h1 h2 => heq x ?_
  have hbo : ρ b ≠ .other := by
    intro ho
    rw [ho] at hb
    exact hb
  have hne : b ≠ a := by
    rintro rfl
    exact hns hb
  have := (h.page b hbo).disjoint (h.page a ha) hne
  omega

/-! ## Changing roles -/

theorem ne_of_role (hb : ρ b = r) (ha : ρ a = r') (h : r ≠ r') : b ≠ a := by
  rintro rfl
  exact h (hb.symm.trans ha)

/-- A page has its new role only where the role map changed. -/
theorem role_of_update {β : Type*} {ρ : Nat → β} {r r' : β} (h : update ρ a r b = r')
    (hr : r' ≠ r) : b ≠ a ∧ ρ b = r' := by
  by_cases hba : b = a
  · subst hba
    rw [update_self] at h
    exact absurd h.symm hr
  · rw [update_of_ne hba] at h
    exact ⟨hba, h⟩

/-- A page keeps its role if it is not the old role of the page changed. -/
theorem update_role {r0 : Role τ} (hb : ρ b = r') (ha : ρ a = r0) (hr : r' ≠ r0) :
    update ρ a r b = r' := by
  rw [update_of_ne (ne_of_role hb ha hr), hb]

/-- A role that neither the old nor the new one is stays where it is. -/
theorem exists_update_iff {r0 : Role τ} (ha : ρ a = r0) (hr : r' ≠ r) (hr0 : r' ≠ r0) :
    (∃ b, update ρ a r b = r') ↔ ∃ b, ρ b = r' :=
  ⟨fun ⟨b, hb⟩ => ⟨b, (role_of_update hb hr).2⟩, fun ⟨b, hb⟩ => ⟨b, update_role hb ha hr0⟩⟩

/-- Between plain roles: no page table sees the change. -/
theorem Trees.setAside (h : Trees m ρ) (hrole : ∀ a, ρ' a = ρ a ∨ ((ρ a).Plain ∧ (ρ' a).Plain)) :
    Trees m ρ' := by
  have hiff : ∀ {a r}, ¬ r.Plain → (ρ' a = r ↔ ρ a = r) := by
    intro a r hr
    rcases hrole a with he | ⟨hp, hp'⟩
    · rw [he]
    · refine iff_of_false ?_ ?_
      · rintro rfl
        exact hr hp'
      · rintro rfl
        exact hr hp
  refine ⟨?_, ?_, ?_, ?_, ?_⟩
  · intro d t hd i hi a hp
    exact (hiff id).mpr (h.tab d t ((hiff id).mp hd) i hi a hp)
  · intro a d i ha
    obtain ⟨⟨t, hd⟩, hi, hp⟩ := h.tabOf a d i ((hiff id).mp ha)
    exact ⟨⟨t, (hiff id).mpr hd⟩, hi, hp⟩
  · intro a d i ha hi j hj u hp
    exact (hiff id).mpr (h.user a d i ((hiff id).mp ha) hi j hj u hp)
  · intro u d n hu
    obtain ⟨hn, a, ha, hp⟩ := h.userOf u d n ((hiff id).mp hu)
    exact ⟨hn, a, (hiff id).mpr ha, hp⟩
  · intro a d i ha
    exact h.zero a d i ((hiff id).mp ha)

theorem Trees.plain (h : Trees m ρ) (ha : (ρ a).Plain) (hr : r.Plain) : Trees m (update ρ a r) := by
  refine h.setAside fun b => ?_
  by_cases hb : b = a
  · subst hb
    rw [update_self]
    exact .inr ⟨ha, hr⟩
  · exact .inl (update_of_ne hb ..)

theorem Inv.take (h : Inv L s ρ (a :: fl) q) (t : τ) :
    Inv L { s with freelist := load s.mem a 4 } (update ρ a (.held t)) fl q := by
  have hfree : ρ a = .free := (h.free a).mp (by simp)
  have hnd := List.nodup_cons.mp h.nodup
  refine ⟨fun b hb => ?_, h.seg.2, fun b => ?_, hnd.2, h.tail, ?_⟩
  · by_cases hba : b = a
    · subst hba
      exact h.isPage hfree (by simp)
    · exact h.page b (by simpa [hba] using hb)
  · by_cases hba : b = a
    · subst hba
      simpa using hnd.1
    · have := h.free b
      simpa [hba] using this
  · exact h.trees.plain (by rw [hfree]; trivial) trivial

theorem Inv.give (h : Inv L s ρ fl q) (ha : ρ a = .held t) (hlt : s.freelist < 2 ^ 32) :
    Inv L { s with mem := store (fill s.mem a 4096 1) a 4 s.freelist, freelist := a }
      (update ρ a .free) (a :: fl) q := by
  have hpage : L.IsPage a := h.isPage ha (by simp)
  have hnotin : a ∉ fl := by
    intro hin
    have := (h.free a).mp hin
    rw [ha] at this
    cases this
  have hwrite : Inv L { s with mem := store (fill s.mem a 4096 1) a 4 s.freelist } ρ fl q := by
    refine h.write rfl (by rw [ha]; simp) (by rw [ha]; simp [Role.Structural]) fun x hx => ?_
    show store (fill s.mem a 4096 1) a 4 s.freelist x = s.mem x
    rw [store_outside (by omega)]
    exact if_neg (by omega)
  refine ⟨fun b hb => ?_, ⟨rfl, ?_⟩, fun b => ?_, ?_, h.tail, ?_⟩
  · by_cases hba : b = a
    · subst hba
      exact hpage
    · exact h.page b (by simpa [hba] using hb)
  · show Seg _ (load (store (fill s.mem a 4096 1) a 4 s.freelist) a 4) fl q
    rw [load_store_self, Nat.mod_eq_of_lt (by omega)]
    exact hwrite.seg
  · by_cases hba : b = a
    · subst hba
      simp
    · have := h.free b
      simpa [hba] using this
  · exact List.nodup_cons.mpr ⟨hnotin, h.nodup⟩
  · exact hwrite.trees.plain (by rw [ha]; trivial) trivial

theorem Inv.freelist_lt (h : Inv L s ρ fl q) : s.freelist < 2 ^ 32 := by
  cases fl with
  | nil =>
    have := h.seg
    simp only [Seg] at this
    rw [this]
    exact h.tail
  | cons a fl =>
    have ha := h.page a (by simp [(h.free a).mp (by simp)])
    have := ha.lt
    rw [h.seg.1]
    omega

/-! ## Changing page tables -/

/-- A held page with no entries becomes a directory. -/
theorem Trees.addDir (h : Trees m ρ) (ha : ρ a = .held t) (hz : ∀ i < 1024, ptr m a i = none) :
    Trees m (update ρ a (.dir t')) := by
  refine ⟨?_, ?_, ?_, ?_, ?_⟩
  · intro d t0 hd i hi b hp
    by_cases hda : d = a
    · subst hda
      rw [hz i hi] at hp
      cases hp
    · rw [update_of_ne hda] at hd
      exact update_role (h.tab d t0 hd i hi b hp) ha (by simp)
  · intro b d i hb
    obtain ⟨⟨t0, hd⟩, hi, hp⟩ := h.tabOf b d i (role_of_update hb (by simp)).2
    exact ⟨⟨t0, update_role hd ha (by simp)⟩, hi, hp⟩
  · intro b d i hb hi j hj u hp
    have hb' := (role_of_update hb (by simp)).2
    exact update_role (h.user b d i hb' hi j hj u hp) ha (by simp)
  · intro u d n hu
    obtain ⟨hn, b, hb, hp⟩ := h.userOf u d n (role_of_update hu (by simp)).2
    exact ⟨hn, b, update_role hb ha (by simp), hp⟩
  · intro b d i hb
    exact h.zero b d i (role_of_update hb (by simp)).2

/-- A store to one entry leaves the other entries of all pages alone. -/
theorem load_store_frame (hpage : ∀ b, ρ b ≠ .other → L.IsPage b) (hp : ρ p ≠ .other)
    (hb : ρ b ≠ .other) (hi : i < 1024) (hk : k < 1024) (hne : b = p → k ≠ i) :
    load (store m (p + 4 * i) 4 v) (b + 4 * k) 4 = load m (b + 4 * k) 4 := by
  by_cases hbp : b = p
  · subst hbp
    have := hne rfl
    exact load_store_of_disjoint (by omega)
  · exact (samePage_store_entry (hpage p hp) (hpage b hb) hbp hi).load hk

theorem ptr_store_frame (hpage : ∀ b, ρ b ≠ .other → L.IsPage b) (hp : ρ p ≠ .other)
    (hb : ρ b ≠ .other) (hi : i < 1024) (hk : k < 1024) (hne : b = p → k ≠ i) :
    ptr (store m (p + 4 * i) 4 v) b k = ptr m b k := by
  unfold ptr
  rw [load_store_frame hpage hp hb hi hk hne]

/-- A held page with no entries becomes the table at an empty index. -/
theorem Trees.addTable (h : Trees m ρ) (hpage : ∀ b, ρ b ≠ .other → L.IsPage b) (hd : ρ d = .dir t)
    (ha : ρ a = .held t') (hz : ∀ j < 1024, load m (a + 4 * j) 4 = 0) (hi : i < 1024)
    (hnone : ptr m d i = none) (hf : f < 4096) (hodd : f % 2 = 1) :
    Trees (store m (d + 4 * i) 4 (V2P a + f)) (update ρ a (.table d i)) := by
  have hself : ptr (store m (d + 4 * i) 4 (V2P a + f)) d i = some a :=
    ptr_store_self (hpage a (by simp [ha])) hf hodd
  have hframe : ∀ b k, ρ b ≠ .other → k < 1024 → (b = d → k ≠ i) →
      ptr (store m (d + 4 * i) 4 (V2P a + f)) b k = ptr m b k :=
    fun b k hb hk hne => ptr_store_frame hpage (by simp [hd]) hb hi hk hne
  -- a table is not the directory
  have htab : ∀ b d0 i0, ρ b = .table d0 i0 → b ≠ d :=
    fun b d0 i0 hb => ne_of_role hb hd (by simp)
  refine ⟨?_, ?_, ?_, ?_, ?_⟩
  · intro d0 t0 hd0 i0 hi0 b hp
    have hd0' := (role_of_update hd0 (by simp)).2
    by_cases hii : d0 = d ∧ i0 = i
    · obtain ⟨rfl, rfl⟩ := hii
      obtain rfl : a = b := by
        rw [hself] at hp
        exact Option.some.inj hp
      rw [update_self]
    · rw [hframe d0 i0 (by simp [hd0']) hi0 fun h1 h2 => hii ⟨h1, h2⟩] at hp
      exact update_role (h.tab d0 t0 hd0' i0 hi0 b hp) ha (by simp)
  · intro b d0 i0 hb
    by_cases hba : b = a
    · subst hba
      rw [update_self] at hb
      obtain ⟨rfl, rfl⟩ : d = d0 ∧ i = i0 := by simpa using hb
      exact ⟨⟨t, update_role hd ha (by simp)⟩, hi, hself⟩
    · rw [update_of_ne hba] at hb
      obtain ⟨⟨t0, hd0⟩, hi0, hp⟩ := h.tabOf b d0 i0 hb
      refine ⟨⟨t0, update_role hd0 ha (by simp)⟩, hi0, ?_⟩
      rw [hframe d0 i0 (by simp [hd0]) hi0 ?_, hp]
      rintro rfl rfl
      rw [hnone] at hp
      cases hp
  · intro b d0 i0 hb hi0 j hj u hp
    by_cases hba : b = a
    · subst hba
      rw [hframe b j (by simp [ha]) hj fun he => absurd he (ne_of_role ha hd (by simp)),
        ptr_of_load_zero (hz j hj)] at hp
      cases hp
    · rw [update_of_ne hba] at hb
      rw [hframe b j (by simp [hb]) hj fun he => absurd he (htab b _ _ hb)] at hp
      exact update_role (h.user b d0 i0 hb hi0 j hj u hp) ha (by simp)
  · intro u d0 n hu
    obtain ⟨hn, b, hb, hp⟩ := h.userOf u d0 n (role_of_update hu (by simp)).2
    refine ⟨hn, b, update_role hb ha (by simp), ?_⟩
    rw [hframe b _ (by simp [hb]) (by omega) fun he => absurd he (htab b _ _ hb), hp]
  · intro b d0 i0 hb hi0 j hj hp
    by_cases hba : b = a
    · subst hba
      rw [load_store_frame hpage (by simp [hd]) (by simp [ha]) hi hj
        fun he => absurd he (ne_of_role ha hd (by simp))]
      exact hz j hj
    · rw [update_of_ne hba] at hb
      rw [hframe b j (by simp [hb]) hj fun he => absurd he (htab b _ _ hb)] at hp
      rw [load_store_frame hpage (by simp [hd]) (by simp [hb]) hi hj
        fun he => absurd he (htab b _ _ hb)]
      exact h.zero b d0 i0 hb hi0 j hj hp

/-- The entries of a table in the kernel part carry no ownership. -/
theorem Trees.kernelEntry (h : Trees m ρ) (hpage : ∀ b, ρ b ≠ .other → L.IsPage b)
    (ha : ρ a = .table d i) (hi : 512 ≤ i) (hj : j < 1024) : Trees (store m (a + 4 * j) 4 v) ρ := by
  have hframe : ∀ b k, ρ b ≠ .other → k < 1024 → b ≠ a →
      ptr (store m (a + 4 * j) 4 v) b k = ptr m b k :=
    fun b k hb hk hne => ptr_store_frame hpage (by simp [ha]) hb hj hk
      fun he => absurd he hne
  -- a table of the user part is not `a`
  have huser : ∀ b d0 i0, ρ b = .table d0 i0 → i0 < 512 → b ≠ a := by
    intro b d0 i0 hb hi0
    refine ne_of_role hb ha fun he => ?_
    obtain ⟨-, rfl⟩ : d0 = d ∧ i0 = i := by simpa using he
    omega
  refine ⟨?_, ?_, ?_, ?_, ?_⟩
  · intro d0 t0 hd0 i0 hi0 b hp
    rw [hframe d0 i0 (by simp [hd0]) hi0 (ne_of_role hd0 ha (by simp))] at hp
    exact h.tab d0 t0 hd0 i0 hi0 b hp
  · intro b d0 i0 hb
    obtain ⟨⟨t0, hd0⟩, hi0, hp⟩ := h.tabOf b d0 i0 hb
    refine ⟨⟨t0, hd0⟩, hi0, ?_⟩
    rw [hframe d0 i0 (by simp [hd0]) hi0 (ne_of_role hd0 ha (by simp)), hp]
  · intro b d0 i0 hb hi0 k hk u hp
    rw [hframe b k (by simp [hb]) hk (huser b d0 i0 hb hi0)] at hp
    exact h.user b d0 i0 hb hi0 k hk u hp
  · intro u d0 n hu
    obtain ⟨hn, b, hb, hp⟩ := h.userOf u d0 n hu
    refine ⟨hn, b, hb, ?_⟩
    rw [hframe b _ (by simp [hb]) (by omega) (huser b d0 _ hb (by omega)), hp]
  · intro b d0 i0 hb hi0 k hk hp
    have hba := huser b d0 i0 hb hi0
    rw [hframe b k (by simp [hb]) hk hba] at hp
    rw [load_store_frame hpage (by simp [ha]) (by simp [hb]) hj hk fun he => absurd he hba]
    exact h.zero b d0 i0 hb hi0 k hk hp

theorem Trees.table_unique (h : Trees m ρ) (ha : ρ a = .table d i) (hb : ρ b = .table d i) :
    a = b := by
  have h1 := (h.tabOf a d i ha).2.2
  have h2 := (h.tabOf b d i hb).2.2
  rw [h1] at h2
  exact Option.some.inj h2

theorem Trees.user_unique (h : Trees m ρ) (hu : ρ u = .user d n) (hv : ρ v = .user d n) :
    u = v := by
  obtain ⟨-, a, ha, hpa⟩ := h.userOf u d n hu
  obtain ⟨-, b, hb, hpb⟩ := h.userOf v d n hv
  obtain rfl := h.table_unique ha hb
  rw [hpa] at hpb
  exact Option.some.inj hpb

theorem Trees.addUser (h : Trees m ρ) (hpage : ∀ b, ρ b ≠ .other → L.IsPage b)
    (ha : ρ a = .table d i) (hi : i < 512) (hj : j < 1024) (hu : ρ u = .held t)
    (hnone : ptr m a j = none) (hf : f < 4096) (hodd : f % 2 = 1) :
    Trees (store m (a + 4 * j) 4 (V2P u + f))
      (update ρ u (.user d (1024 * i + j))) := by
  have hself : ptr (store m (a + 4 * j) 4 (V2P u + f)) a j = some u :=
    ptr_store_self (hpage u (by simp [hu])) hf hodd
  have hframe : ∀ b k, ρ b ≠ .other → k < 1024 → (b = a → k ≠ j) →
      ptr (store m (a + 4 * j) 4 (V2P u + f)) b k = ptr m b k :=
    fun b k hb hk hne => ptr_store_frame hpage (by simp [ha]) hb hj hk hne
  refine ⟨?_, ?_, ?_, ?_, ?_⟩
  · intro d0 t0 hd0 i0 hi0 b hp
    have hd0' := (role_of_update hd0 (by simp)).2
    rw [hframe d0 i0 (by simp [hd0']) hi0 fun he => absurd he (ne_of_role hd0' ha (by simp))] at hp
    exact update_role (h.tab d0 t0 hd0' i0 hi0 b hp) hu (by simp)
  · intro b d0 i0 hb
    obtain ⟨⟨t0, hd0⟩, hi0, hp⟩ := h.tabOf b d0 i0 (role_of_update hb (by simp)).2
    refine ⟨⟨t0, update_role hd0 hu (by simp)⟩, hi0, ?_⟩
    rw [hframe d0 i0 (by simp [hd0]) hi0 fun he => absurd he (ne_of_role hd0 ha (by simp)), hp]
  · intro b d0 i0 hb hi0 k hk v hp
    have hb' := (role_of_update hb (by simp)).2
    by_cases hbk : b = a ∧ k = j
    · obtain ⟨rfl, rfl⟩ := hbk
      obtain ⟨rfl, rfl⟩ : d = d0 ∧ i = i0 := by simpa using ha.symm.trans hb'
      obtain rfl : u = v := by
        rw [hself] at hp
        exact Option.some.inj hp
      rw [update_self]
    · rw [hframe b k (by simp [hb']) hk fun h1 h2 => hbk ⟨h1, h2⟩] at hp
      exact update_role (h.user b d0 i0 hb' hi0 k hk v hp) hu (by simp)
  · intro v d0 n hv
    by_cases hvu : v = u
    · subst hvu
      rw [update_self] at hv
      obtain ⟨rfl, rfl⟩ : d = d0 ∧ 1024 * i + j = n := by simpa using hv
      refine ⟨by omega, a, ?_, ?_⟩
      · rw [show (1024 * i + j) / 1024 = i by omega]
        exact update_role ha hu (by simp)
      · rw [show (1024 * i + j) % 1024 = j by omega]
        exact hself
    · rw [update_of_ne hvu] at hv
      obtain ⟨hn, b, hb, hp⟩ := h.userOf v d0 n hv
      refine ⟨hn, b, update_role hb hu (by simp), ?_⟩
      rw [hframe b _ (by simp [hb]) (by omega) ?_, hp]
      rintro rfl hk
      rw [hk, hnone] at hp
      cases hp
  · intro b d0 i0 hb hi0 k hk hp
    have hb' := (role_of_update hb (by simp)).2
    have hbk : b = a → k ≠ j := by
      rintro rfl rfl
      rw [hself] at hp
      cases hp
    rw [hframe b k (by simp [hb']) hk hbk] at hp
    rw [load_store_frame hpage (by simp [ha]) (by simp [hb']) hj hk hbk]
    exact h.zero b d0 i0 hb' hi0 k hk hp

theorem Trees.delUser (h : Trees m ρ) (t : τ) (hpage : ∀ b, ρ b ≠ .other → L.IsPage b)
    (ha : ρ a = .table d (n / 1024)) (hu : ρ u = .user d n) :
    Trees (store m (a + 4 * (n % 1024)) 4 0) (update ρ u (.held t)) := by
  have hj : n % 1024 < 1024 := Nat.mod_lt _ (by decide)
  have hframe : ∀ b k, ρ b ≠ .other → k < 1024 → (b = a → k ≠ n % 1024) →
      ptr (store m (a + 4 * (n % 1024)) 4 0) b k = ptr m b k :=
    fun b k hb hk hne => ptr_store_frame hpage (by simp [ha]) hb hj hk hne
  refine ⟨?_, ?_, ?_, ?_, ?_⟩
  · intro d0 t0 hd0 i0 hi0 b hp
    have hd0' := (role_of_update hd0 (by simp)).2
    rw [hframe d0 i0 (by simp [hd0']) hi0 fun he => absurd he (ne_of_role hd0' ha (by simp))] at hp
    exact update_role (h.tab d0 t0 hd0' i0 hi0 b hp) hu (by simp)
  · intro b d0 i0 hb
    obtain ⟨⟨t0, hd0⟩, hi0, hp⟩ := h.tabOf b d0 i0 (role_of_update hb (by simp)).2
    refine ⟨⟨t0, update_role hd0 hu (by simp)⟩, hi0, ?_⟩
    rw [hframe d0 i0 (by simp [hd0]) hi0 fun he => absurd he (ne_of_role hd0 ha (by simp)), hp]
  · intro b d0 i0 hb hi0 k hk v hp
    have hb' := (role_of_update hb (by simp)).2
    have hbk : b = a → k ≠ n % 1024 := by
      rintro rfl rfl
      rw [ptr_store_zero] at hp
      cases hp
    rw [hframe b k (by simp [hb']) hk hbk] at hp
    have hv := h.user b d0 i0 hb' hi0 k hk v hp
    refine update_role hv hu fun he => ?_
    -- the same page number would be the same entry
    obtain ⟨rfl, hn⟩ : d0 = d ∧ 1024 * i0 + k = n := by simpa using he
    have hi : i0 = n / 1024 := by omega
    subst hi
    exact hbk (h.table_unique hb' ha) (by omega)
  · intro v d0 n0 hv
    obtain ⟨hvu, hv'⟩ := role_of_update hv (by simp)
    obtain ⟨hn, b, hb, hp⟩ := h.userOf v d0 n0 hv'
    refine ⟨hn, b, update_role hb hu (by simp), ?_⟩
    rw [hframe b _ (by simp [hb]) (by omega) ?_, hp]
    rintro rfl hk
    obtain ⟨rfl, hi⟩ : d0 = d ∧ n0 / 1024 = n / 1024 := by simpa using hb.symm.trans ha
    obtain rfl : n0 = n := by omega
    exact hvu (h.user_unique hv' hu)
  · intro b d0 i0 hb hi0 k hk hp
    have hb' := (role_of_update hb (by simp)).2
    by_cases hbk : b = a ∧ k = n % 1024
    · obtain ⟨rfl, rfl⟩ := hbk
      rw [load_store_self]
      rfl
    · have hne : b = a → k ≠ n % 1024 := fun h1 h2 => hbk ⟨h1, h2⟩
      rw [hframe b k (by simp [hb']) hk hne] at hp
      rw [load_store_frame hpage (by simp [ha]) (by simp [hb']) hj hk hne]
      exact h.zero b d0 i0 hb' hi0 k hk hp

/-- Directory `d` and its tables become held pages. -/
def retire (ρ : Nat → Role τ) (d : Nat) (t : τ) : Nat → Role τ := fun x =>
  if x = d then .held t
  else match ρ x with
    | .table d' i => if d' = d then .held t else .table d' i
    | r => r

theorem retire_of_ne (hx : x ≠ d) (htab : ∀ i, ρ x ≠ .table d i) : retire ρ d t x = ρ x := by
  unfold retire
  rw [if_neg hx]
  split
  · next d' i h =>
    have hd : d' ≠ d := by
      rintro rfl
      exact htab i h
    rw [if_neg hd, h]
  · rfl

/-- A page is held by `t` after the change, or it is as it was. -/
theorem retire_eq (ρ : Nat → Role τ) (d : Nat) (t : τ) (x : Nat) :
    (retire ρ d t x = .held t ∧ (x = d ∨ ∃ i, ρ x = .table d i)) ∨
      (retire ρ d t x = ρ x ∧ x ≠ d ∧ ∀ i, ρ x ≠ .table d i) := by
  by_cases hx : x = d
  · exact .inl ⟨by simp [retire, hx], .inl hx⟩
  · by_cases htab : ∃ i, ρ x = .table d i
    · obtain ⟨i, hi⟩ := htab
      exact .inl ⟨by simp [retire, hx, hi], .inr ⟨i, hi⟩⟩
    · have htab' : ∀ i, ρ x ≠ .table d i := fun i hi => htab ⟨i, hi⟩
      exact .inr ⟨retire_of_ne hx htab', hx, htab'⟩

/-- A directory that maps no user page may be taken apart. -/
theorem Trees.retire (h : Trees m ρ) (hd : ρ d = .dir t0) (hno : ∀ u n, ρ u ≠ .user d n) :
    Trees m (retire ρ d t) := by
  have hback : ∀ x r, Mem.retire ρ d t x = r → (∀ t', r ≠ .held t') →
      ρ x = r ∧ x ≠ d ∧ ∀ i, ρ x ≠ .table d i := by
    intro x r hx hr
    rcases retire_eq ρ d t x with ⟨he, -⟩ | ⟨he, hxd, htab⟩
    · exact absurd (hx.symm.trans he) (hr t)
    · exact ⟨he.symm.trans hx, hxd, htab⟩
  refine ⟨?_, ?_, ?_, ?_, ?_⟩
  · intro d0 t1 hd0 i hi b hp
    obtain ⟨hd0', hne, -⟩ := hback d0 _ hd0 (by simp)
    have hb := h.tab d0 t1 hd0' i hi b hp
    rw [retire_of_ne (ne_of_role hb hd (by simp)) ?_, hb]
    intro i0 hb'
    obtain ⟨he, -⟩ : d0 = d ∧ i = i0 := by simpa using hb.symm.trans hb'
    exact hne he
  · intro b d0 i hb
    obtain ⟨hb', -, htab⟩ := hback b _ hb (by simp)
    obtain ⟨⟨t1, hd0⟩, hi, hp⟩ := h.tabOf b d0 i hb'
    refine ⟨⟨t1, ?_⟩, hi, hp⟩
    rw [retire_of_ne ?_ (by simp [hd0]), hd0]
    rintro rfl
    exact htab i hb'
  · intro b d0 i hb hi j hj u hp
    obtain ⟨hb', -, htab⟩ := hback b _ hb (by simp)
    have hu := h.user b d0 i hb' hi j hj u hp
    rw [retire_of_ne (ne_of_role hu hd (by simp)) (by simp [hu]), hu]
  · intro u d0 n hu
    obtain ⟨hu', -, -⟩ := hback u _ hu (by simp)
    obtain ⟨hn, b, hb, hp⟩ := h.userOf u d0 n hu'
    refine ⟨hn, b, ?_, hp⟩
    rw [retire_of_ne (ne_of_role hb hd (by simp)) ?_, hb]
    intro i0 hb'
    obtain ⟨rfl, -⟩ : d0 = d ∧ n / 1024 = i0 := by simpa using hb.symm.trans hb'
    exact hno u n hu'
  · intro b d0 i hb
    exact h.zero b d0 i (hback b _ hb (by simp)).1

/-! ## The invariant under each change -/

section

variable (h : Inv L s ρ fl q)
include h

/-- The trees change and the free list does not. -/
theorem Inv.retree (hfl : s'.freelist = s.freelist)
    (hsame : ∀ a, ρ a = .free → SamePage s.mem s'.mem a) (hfree : ∀ a, ρ' a = .free ↔ ρ a = .free)
    (hother : ∀ a, ρ' a ≠ .other → ρ a ≠ .other) (htrees : Trees s'.mem ρ') : Inv L s' ρ' fl q := by
  refine ⟨fun a ha => h.page a (hother a ha), ?_, fun a => ?_, h.nodup, h.tail, htrees⟩
  · rw [hfl]
    refine h.seg.congr fun a ha => ?_
    exact (hsame a ((h.free a).mp ha)).load (i := 0) (by omega)
  · rw [hfree a]
    exact h.free a

omit h in
theorem update_free_iff (ha : ρ a ≠ .free) (hr : r ≠ .free) :
    update ρ a r x = .free ↔ ρ x = .free := by
  by_cases hx : x = a
  · subst hx
    simp [ha, hr]
  · simp [hx]

omit h in
theorem update_other (ha : ρ a ≠ .other) (h : update ρ a r x ≠ .other) : ρ x ≠ .other := by
  by_cases hx : x = a
  · rw [hx]
    exact ha
  · simpa [hx] using h

/-- Stores to a directory or a table do not touch the free list. -/
theorem Inv.samePage_free (hp : ρ p ≠ .other) (hpf : ρ p ≠ .free)
    (hi : i < 1024) (a : Nat) (ha : ρ a = .free) : SamePage s.mem (store s.mem (p + 4 * i) 4 v) a :=
  samePage_store_entry (h.page p hp) (h.isPage ha (by simp))
    (fun he => hpf (he ▸ ha)) hi

theorem Inv.addDir (t' : τ) (ha : ρ a = .held t)
    (hz : ∀ i < 1024, ptr s.mem a i = none) : Inv L s (update ρ a (.dir t')) fl q :=
  h.retree rfl (fun _ _ _ _ _ => rfl)
    (fun _ => update_free_iff (by simp [ha]) (by simp))
    (fun _ => update_other (by simp [ha])) (h.trees.addDir ha hz)

theorem Inv.addTable (hd : ρ d = .dir t) (ha : ρ a = .held t')
    (hz : ∀ j < 1024, load s.mem (a + 4 * j) 4 = 0) (hi : i < 1024) (hnone : ptr s.mem d i = none)
    (hf : f < 4096) (hodd : f % 2 = 1) :
    Inv L { s with mem := store s.mem (d + 4 * i) 4 (V2P a + f) }
      (update ρ a (.table d i)) fl q :=
  h.retree rfl (h.samePage_free (by simp [hd]) (by simp [hd]) hi)
    (fun _ => update_free_iff (by simp [ha]) (by simp))
    (fun _ => update_other (by simp [ha]))
    (h.trees.addTable h.page hd ha hz hi hnone hf hodd)

theorem Inv.kernelEntry (ha : ρ a = .table d i) (hi : 512 ≤ i) (hj : j < 1024) :
    Inv L { s with mem := store s.mem (a + 4 * j) 4 v } ρ fl q :=
  h.retree rfl (h.samePage_free (by simp [ha]) (by simp [ha]) hj)
    (fun _ => Iff.rfl) (fun _ => id) (h.trees.kernelEntry h.page ha hi hj)

theorem Inv.addUser (ha : ρ a = .table d i) (hi : i < 512) (hj : j < 1024)
    (hu : ρ u = .held t) (hnone : ptr s.mem a j = none) (hf : f < 4096) (hodd : f % 2 = 1) :
    Inv L { s with mem := store s.mem (a + 4 * j) 4 (V2P u + f) }
      (update ρ u (.user d (1024 * i + j))) fl q :=
  h.retree rfl (h.samePage_free (by simp [ha]) (by simp [ha]) hj)
    (fun _ => update_free_iff (by simp [hu]) (by simp))
    (fun _ => update_other (by simp [hu]))
    (h.trees.addUser h.page ha hi hj hu hnone hf hodd)

theorem Inv.delUser (t : τ) (ha : ρ a = .table d (n / 1024))
    (hu : ρ u = .user d n) : Inv L { s with mem := store s.mem (a + 4 * (n % 1024)) 4 0 }
      (update ρ u (.held t)) fl q :=
  h.retree rfl (h.samePage_free (by simp [ha]) (by simp [ha])
      (Nat.mod_lt _ (by decide)))
    (fun _ => update_free_iff (by simp [hu]) (by simp))
    (fun _ => update_other (by simp [hu])) (h.trees.delUser t h.page ha hu)

theorem Inv.retire (t : τ) (hd : ρ d = .dir t0) (hno : ∀ u n, ρ u ≠ .user d n)
    : Inv L s (retire ρ d t) fl q := by
  refine h.retree rfl (fun _ _ _ _ _ => rfl) (fun x => ?_) (fun x hx => ?_) (h.trees.retire hd hno)
  · rcases retire_eq ρ d t x with ⟨he, rfl | ⟨i, hi⟩⟩ | ⟨he, -, -⟩
    · simp [he, hd]
    · simp [he, hi]
    · rw [he]
  · rcases retire_eq ρ d t x with ⟨-, rfl | ⟨i, hi⟩⟩ | ⟨he, -, -⟩
    · simp [hd]
    · simp [hi]
    · rwa [he] at hx

end

end Xv6.Mem
