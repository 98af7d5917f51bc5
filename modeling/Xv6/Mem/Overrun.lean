import Xv6.Mem.LoadSafe
import Xv6.Mem.UserView

/-! # A byte too many

    `copyout` copies up to `PGSIZE + 1` bytes of a page. This module follows one run of the
    functions of `vm.c` in which the byte beyond the page falls into a free page, whose first bytes
    are the link of the free list.

    First a directory with four user pages is made and freed, which leaves the free list in an order
    where a page table comes before the page after it. Then `exec` runs with an argument that is
    longer than its stack page.
-/

namespace Xv6.Mem

open ByteMem Program List

variable {τ : Type} {L : Layout} {s s' : Phys} {ρ ρ' : Nat → Role τ} {fl ns us rest : List Nat}
  {q d a n v u r : Nat} {t : τ}

/-! ## The free list with a tail -/

theorem Inv.freeAt_tail (h : Inv L s ρ fl q) (hq : q ≠ 0) :
    (∀ i < fl.length, freeAt i s = fl[i]?) ∧ freeAt fl.length s = some q := by
  have hseg : ∀ {s : Phys} {fl : List Nat}, Seg s.mem s.freelist fl q → (∀ a ∈ fl, a ≠ 0) →
      (∀ i < fl.length, freeAt i s = fl[i]?) ∧ freeAt fl.length s = some q := by
    intro s fl
    induction fl generalizing s with
    | nil =>
      intro hs _
      have hfl : s.freelist = q := hs
      exact ⟨fun i hi => by simp at hi, by simp [freeAt, hfl, hq]⟩
    | cons a fl ih =>
      intro hs hnz
      have hne : a ≠ 0 := hnz a (by simp)
      have hnext : Seg s.taken.mem s.taken.freelist fl q := by
        show Seg s.mem (load s.mem s.freelist 4) fl q
        rw [hs.1]
        exact hs.2
      obtain ⟨h1, h2⟩ := ih hnext fun b hb => hnz b (by simp [hb])
      refine ⟨fun i hi => ?_, ?_⟩
      · cases i with
        | zero => simp [freeAt, hs.1, hne]
        | succ i =>
          rw [freeAt, hs.1, if_neg hne, getElem?_cons_succ]
          exact h1 i (by simpa using hi)
      · rw [length_cons, freeAt, hs.1, if_neg hne]
        exact h2
  exact hseg h.seg fun _ => h.ne_zero

/-! ## Tables in the order of the directory -/

theorem kern_tables (h : Inv L s ρ fl q) (hd : ρ d = .dir t)
    (htabs : ∀ i, 0 < i → (HasTab ρ d i ↔ KernTab i)) :
    ((range' 1 1023).filterMap (ptr s.mem d)).length = 64 := by
  rw [length_filterMap_eq_countP]
  have hcount : (range' 1 1023).countP (fun i => (ptr s.mem d i).isSome) =
      (range' 1 1023).countP fun i =>
        decide ((512 ≤ i ∧ i ≤ 567) ∨ (1016 ≤ i ∧ i ≤ 1023)) := by
    refine countP_congr fun i hi => ?_
    rw [mem_range'_1] at hi
    rw [Option.isSome_iff_ne_none, ← h.hasTab_iff hd (by omega), htabs i (by omega),
      decide_eq_true_iff]
    rfl
  rw [hcount]
  decide +kernel

/-- The tables of a directory with the kernel part and a first user table. -/
theorem tables_eq (h : Inv L s ρ fl q) (hd : ρ d = .dir t) (ha : ρ a = .table d 0)
    (htabs : ∀ i, HasTab ρ d i ↔ KernTab i ∨ i = 0) :
    ∃ ks : List Nat, ks.length = 64 ∧ (range 1024).filterMap (ptr s.mem d) = a :: ks := by
  have h0 : ptr s.mem d 0 = some a := (h.trees.tabOf a d 0 ha).2.2
  refine ⟨(range' 1 1023).filterMap (ptr s.mem d), kern_tables h hd fun i hi => ?_, ?_⟩
  · rw [htabs i]
    exact ⟨fun hk => hk.resolve_right (by omega), .inl⟩
  · rw [range_eq_range', show range' 0 1024 = 0 :: range' 1 1023 from rfl, filterMap_cons, h0]

/-! ## Four pages, made and freed -/

/-- The list of the page numbers that are mapped. -/
theorem eq_of_sorted (hs : ns.Pairwise (· < ·)) (hmem : ∀ m, m ∈ ns ↔ a ≤ m ∧ m < a + n) :
    ns = range' a n := by
  refine List.Perm.eq_of_pairwise (fun _ _ _ _ h1 h2 => by omega) hs (pairwise_lt_range') ?_
  refine (perm_ext_iff_of_nodup (hs.imp ne_of_lt) (nodup_range')).mpr fun m => ?_
  rw [hmem, mem_range'_1]

/-- The user pages of a list of page numbers. -/
theorem Inv.users_eq (h : Inv L s ρ fl q) {vs : List Nat}
    (hus : List.Forall₂ (fun m u => ρ u = .user d m) ns us)
    (hvs : List.Forall₂ (fun m u => ρ u = .user d m) ns vs) : us = vs := by
  induction hus generalizing vs with
  | nil =>
    cases hvs
    rfl
  | cons hu _ ih =>
    cases hvs with
    | cons hv hrest => rw [h.trees.user_unique hu hv, ih hrest]

/-- Directory `d` has the pages `us` at the page numbers from 1 on, all in the table `t`. -/
structure Space (ρ : Nat → Role τ) (d t : Nat) (us : List Nat) : Prop where
  dir   : ∃ tag, ρ d = .dir tag
  table : ρ t = .table d 0
  tabs  : ∀ i, HasTab ρ d i ↔ KernTab i ∨ i = 0
  pages : List.Forall₂ (fun m u => ρ u = .user d m) (List.range' 1 us.length) us
  maps  : ∀ m, Maps ρ d m ↔ 1 ≤ m ∧ m < 1 + us.length

/-- The pages of a free list that `allocuvm` maps in a new directory. -/
def spacePages (fl : List Nat) (N : Nat) : List Nat :=
  (List.range N).map fun j => fl.getD (65 + copyNeed j) 0

@[simp] theorem length_spacePages (fl : List Nat) (N : Nat) : (spacePages fl N).length = N := by
  simp [spacePages]

/-- `setupkvm`, and `allocuvm` of up to 1023 pages. -/
theorem make_space (tag : τ) {N : Nat} (hpos : 1 ≤ N) (hN : N ≤ 1023) (h : Inv L s ρ fl 0)
    (hs : s.deny = []) (hlen : 66 + N ≤ fl.length) :
    ∃ d s1 s2, ∃ ρ2 : Nat → Role τ, Ends (setupkvm L) s d s1 ∧ d ≠ 0 ∧
      Ends (allocuvm L d 0x1000 (4096 * (N + 1))) s1 (4096 * (N + 1)) s2 ∧
      s1.deny = [] ∧ s2.deny = [] ∧ Inv L s2 ρ2 (fl.drop (66 + N)) 0 ∧
      Space ρ2 d (fl.getD 66 0) (spacePages fl N) := by
  obtain ⟨d, s1, ρ1, s2, ρ2, hset, hd0, h1, hdeny1, hnew, htabs, halloc, hdeny2, h2, hspace, hmaps,
    hgrown⟩ := setup_alloc tag hpos hN h hs hlen
  have hneed : ∀ k ≤ 1023, userNeed (HasTab ρ1 d) 1 k = copyNeed k :=
    fun k hk => userNeed_new htabs (by omega)
  -- where the pages come from
  have hat : ∀ {i u}, (fl.drop 65)[i]? = some u → fl.getD (65 + i) 0 = u := by
    intro i u hu
    rw [getElem?_drop] at hu
    rw [getD_eq_getElem?_getD, hu, Option.getD_some]
  obtain ⟨t, et, pt⟩ := hgrown.table 0 (by omega) (by
    rw [hneed 1 (by omega), hneed 0 (by omega)]
    rfl)
  rw [hneed 0 (by omega)] at et
  obtain rfl : fl.getD 66 0 = t := hat et
  refine ⟨d, s1, s2, ρ2, hset, hd0, halloc, hdeny1, hdeny2, h2, ⟨tag, hspace.dir⟩, pt,
    fun i => ?_, ?_, fun m => ?_⟩
  · rw [hgrown.hasTab h1 h2, htabs i]
    constructor
    · rintro (hk | ⟨j, hj, hi⟩)
      · exact .inl hk
      · exact .inr (by omega)
    · rintro (hk | rfl)
      · exact .inl hk
      · exact .inr ⟨0, by omega, rfl⟩
  · rw [length_spacePages, range'_eq_map_range, spacePages, forall₂_map_left_iff,
      forall₂_map_right_iff, forall₂_same]
    intro j hj
    obtain ⟨u, eu, pu, -⟩ := hgrown.page j (mem_range.mp hj)
    rw [hneed j (by have := mem_range.mp hj; omega)] at eu
    rw [hat eu]
    exact pu
  · rw [hmaps, length_spacePages]

/-- `freevm` of such a directory: the last page of it is the first on the free
    list, after the table. -/
theorem free_space {t : Nat} (h : Inv L s ρ fl q) (hsp : Space ρ d t us) :
    ∃ s' X, Ends (freevm L d) s () s' ∧ s'.deny = s.deny ∧ X.length = 65 ∧
      Inv L s' (dropTree ρ d) (X ++ (t :: (us.reverse ++ fl))) q := by
  obtain ⟨tag, hd⟩ := hsp.dir
  obtain ⟨ks, hks, htables⟩ := tables_eq h hd hsp.table hsp.tabs
  obtain ⟨s', ns, us', hfree, h', hdeny, hpages, hsorted, hns, -⟩ := freevm_spec h hd
  obtain rfl : ns = range' 1 us.length := eq_of_sorted hsorted fun m => by
    rw [hns, hsp.maps]
  obtain rfl := h.users_eq hpages hsp.pages
  rw [htables] at h'
  refine ⟨s', d :: ks.reverse, hfree, hdeny, by simp [hks], ?_⟩
  simpa using h'

/-- `setupkvm`, `allocuvm` of four pages and `freevm`, one after the other. -/
theorem recycle [Inhabited τ] (h : Inv L s ρ fl 0) (hs : s.deny = []) (hlen : 71 ≤ fl.length) :
    ∃ d s1 s2 s3 X t u1 u2 u3 u4, Ends (setupkvm L) s d s1 ∧ d ≠ 0 ∧
      Ends (allocuvm L d 0x1000 0x5000) s1 0x5000 s2 ∧ Ends (freevm L d) s2 () s3 ∧
      X.length = 65 ∧ fl[65]? = some u1 ∧ fl[66]? = some t ∧ fl[67]? = some u2 ∧
      fl[68]? = some u3 ∧ fl[69]? = some u4 ∧ s1.deny = [] ∧ s2.deny = [] ∧ s3.deny = [] ∧
      ∃ ρ3 : Nat → Role τ, Inv L s3 ρ3 (X ++ (t :: u4 :: u3 :: u2 :: u1 :: fl.drop 70)) 0 := by
  have hget : ∀ i < 71, fl[i]? = some (fl.getD i 0) := by
    intro i hi
    rw [getD_eq_getElem?_getD, getElem?_eq_getElem (by omega), Option.getD_some]
  obtain ⟨d, s1, s2, ρ2, hset, hd0, halloc, hdeny1, hdeny2, h2, hsp⟩ :=
    make_space (N := 4) default (by decide) (by decide) h hs (by omega)
  obtain ⟨s3, X, hfree, hdeny3, hX, h3⟩ := free_space h2 hsp
  exact ⟨d, s1, s2, s3, X, _, _, _, _, _, hset, hd0, halloc, hfree, hX, hget 65 (by decide),
    hget 66 (by decide), hget 67 (by decide), hget 68 (by decide), hget 69 (by decide), hdeny1,
    hdeny2, hdeny3.trans hdeny2, _, h3⟩

/-! ## The byte beyond the page -/

/-- The first byte of a word changes. -/
theorem load_low {m m' : ByteMem.Mem} {c : UInt8} (hv : load m a 4 = v) (hc : m' a = c)
    (hrest : ∀ x, a < x → x < a + 4 → m' x = m x) : load m' a 4 = v / 256 * 256 + c.toNat := by
  have h3 : load m' (a + 1) 3 = load m (a + 1) 3 :=
    load_congr fun x h1 h2 => hrest x (by omega) (by omega)
  rw [load] at hv ⊢
  have hlt := (m a).toNat_lt
  rw [h3, hc]
  omega

/-- Bytes are copied to a user page and one beyond it, which is the link of the first free page. -/
theorem Inv.overrun (t : τ) (buf : ByteMem.Mem) (off : Nat) (h : Inv L s ρ (v :: r :: rest) 0)
    (hu : ρ u = .user d n) (hv : v = u + 4096) (hoff : off < 4096) :
    ∃ ρ' : Nat → Role τ, (∀ a, ρ a ≠ .free → ρ' a = ρ a) ∧
      (∀ a, ρ' a = ρ a ∨ ρ' a = .held t) ∧
      Inv L { s with mem := copy s.mem (u + off) buf 0 (4097 - off) } ρ' [v]
        (r + (buf (4096 - off)).toNat) := by
  classical
  have hfree : ∀ {a}, a ∈ v :: r :: rest → ρ a = .free := fun ha => (h.free _).mp ha
  have hpage : ∀ {a}, a ∈ v :: r :: rest → L.IsPage a := fun ha =>
    h.page _ (by rw [hfree ha]; simp)
  have hpv := hpage (a := v) (by simp)
  have hpr := hpage (a := r) (by simp)
  have hpu : L.IsPage u := h.isPage hu (by simp)
  have hnd := nodup_cons.mp h.nodup
  have hmod := hpr.mod
  have hlt := hpr.lt
  have hbyte := (buf (4096 - off)).toNat_lt
  -- what the copy does outside the two pages
  have hsame : ∀ b, ρ b ≠ .other → b ≠ u → b ≠ v →
      SamePage s.mem (copy s.mem (u + off) buf 0 (4097 - off)) b := by
    intro b hb hbu hbv
    have h1 := (h.page b hb).disjoint hpu hbu
    have h2 := (h.page b hb).disjoint hpv hbv
    exact samePage_copy (by omega)
  have hlink : load (copy s.mem (u + off) buf 0 (4097 - off)) v 4 =
      r + (buf (4096 - off)).toNat := by
    have hbyte : copy s.mem (u + off) buf 0 (4097 - off) v = buf (4096 - off) := by
      unfold copy
      rw [if_pos (by omega)]
      exact congrArg buf (by omega)
    rw [load_low h.seg.2.1 hbyte fun x h1 h2 => if_neg (by omega)]
    omega
  refine ⟨fun a => if a ∈ r :: rest then .held t else ρ a, ?_, ?_, ?_, ?_, ?_, ?_, ?_, ?_⟩
  · intro a ha
    refine if_neg fun hin => ha (hfree (mem_cons_of_mem _ hin))
  · intro a
    by_cases hin : a ∈ r :: rest
    · exact .inr (if_pos hin)
    · exact .inl (if_neg hin)
  · intro a ha
    by_cases hin : a ∈ r :: rest
    · exact hpage (mem_cons_of_mem _ hin)
    · rw [if_neg hin] at ha
      exact h.page a ha
  · exact ⟨h.seg.1, hlink⟩
  · intro a
    by_cases hin : a ∈ r :: rest
    · rw [if_pos hin]
      constructor
      · intro ha
        exact absurd (mem_singleton.mp ha ▸ hin) hnd.1
      · intro ha
        cases ha
    · rw [if_neg hin, ← h.free a, mem_singleton, mem_cons]
      exact ⟨.inl, fun ha => ha.resolve_right hin⟩
  · simp
  · omega
  · have hside : Trees s.mem fun a => if a ∈ r :: rest then Role.held t else ρ a := by
      refine h.trees.setAside fun a => ?_
      by_cases hin : a ∈ r :: rest
      · refine .inr ⟨?_, ?_⟩
        · rw [hfree (mem_cons_of_mem _ hin)]
          trivial
        · rw [if_pos hin]
          trivial
      · exact .inl (if_neg hin)
    have hstruct : ∀ {a r'}, (if a ∈ r :: rest then Role.held t else ρ a) = r' →
        ¬ r'.Plain → (∀ n, r' ≠ .user d n) → r' ≠ .other →
        SamePage s.mem (copy s.mem (u + off) buf 0 (4097 - off)) a := by
      intro a r' ha hplain huser hother
      by_cases hin : a ∈ r :: rest
      · rw [if_pos hin] at ha
        rw [← ha] at hplain
        exact absurd trivial hplain
      · rw [if_neg hin] at ha
        refine hsame a (by rw [ha]; exact hother) ?_ ?_
        · rintro rfl
          exact huser n (ha.symm.trans hu)
        · rintro rfl
          rw [hfree (by simp)] at ha
          rw [← ha] at hplain
          exact absurd trivial hplain
    refine hside.congr_ptr (fun a t' ha i hi => ?_) (fun a d' i ha j hj => ?_)
      fun a d' i ha j hj _ => ?_
    · exact (hstruct ha id (by simp) (by simp)).ptr hi
    · exact (hstruct ha id (by simp) (by simp)).ptr hj
    · exact (hstruct ha id (by simp) (by simp)).load hj

/-! ## `exec` with a long argument -/

/-- A string of `0x2800` bytes with its zero. -/
def overrunArg : CStr := ⟨List.replicate 0x27FF 97, fun h => by
  have := List.eq_of_mem_replicate h
  cases this⟩

theorem overrunArg_byte {i : Nat} (hi : i < 0x27FF) : overrunArg.bytes i = 97 := by
  unfold CStr.bytes overrunArg
  rw [getD_eq_getElem?_getD, getElem?_replicate, if_pos hi]
  rfl

/-- The argument is copied up to the guard page, and one byte beyond the page before it. -/
theorem SmallImage.overrun {t g : Nat} (hsm : SmallImage L s ρ fl d t a g u)
    (hbeyond : ρ (t + 4096) ≠ .other ∧ (∀ t', ρ (t + 4096) ≠ .dir t') ∧
      ∀ d' i, ρ (t + 4096) ≠ .table d' i) :
    Ends (pushUstack d [overrunArg] 0x4000) s none
      { s with mem := copy s.mem (t + 0x800) overrunArg.bytes 0 (4097 - 0x800) } := by
  obtain ⟨e, hent2, hU⟩ := hsm.guardE
  have hcopy : Ends (copyout d 0x1800 overrunArg.bytes 0x2800) s false
      { s with mem := copy s.mem (t + 0x800) overrunArg.bytes 0 (4097 - 0x800) } :=
    copyout_cross hsm.inv hsm.text hsm.textE hent2 hU hbeyond (by decide)
  generalize ({ s with
    mem := copy s.mem (t + 0x800) overrunArg.bytes 0 (4097 - 0x800) } : Phys) = s' at hcopy ⊢
  have hlen : overrunArg.strlen = 0x27FF := length_replicate
  have hpush : Ends (pushArgs d [overrunArg] 0x4000 []) s none s' := by
    unfold Ends
    rw [pushArgs, if_neg (by decide), hlen,
      show u32 (0x4000 + 2 ^ 32 - (0x27FF + 1)) / 4 * 4 = 0x1800 from rfl, run_bind_of_ends hcopy]
    rfl
  unfold Ends pushUstack
  rw [run_bind_of_ends hpush]
  rfl

/-- `bad`, where the arguments did not fit. -/
theorem ends_buildImage_bad {ip : Content} {argv : List CStr} {s1 s2 s3 : Phys}
    (hsize : ¬ toU32 (ip.readi 0 ELFHDR) < ELFHDR) (hmagic : ¬ (elfhdr ip).magic ≠ ELF_MAGIC)
    (hset : Ends (setupkvm L) s d s1) (hd0 : d ≠ 0)
    (hfill : Ends (fillImage L d ip argv) s1 none s2) (hfree : Ends (freevm L d) s2 () s3) :
    Ends (buildImage L ip argv) s none s3 := by
  unfold Ends buildImage
  rw [if_neg hsize, if_neg hmagic, run_bind_of_ends hset, if_neg hd0, run_bind_of_ends hfill]
  dsimp only
  rw [run_bind_of_ends hfree]
  rfl

/-- The page that `exec` puts the segment in is followed by a free page, which
    is the next on the free list. -/
theorem exec_overrun [Inhabited τ] {X : List Nat} {t u1 u2 u3 u4 : Nat}
    (h : Inv L s ρ (X ++ (t :: u4 :: u3 :: u2 :: u1 :: r :: rest)) 0) (hX : X.length = 65)
    (hs : s.deny = []) (hu : u1 = t + 4096) :
    ∃ s', Ends (buildImage L smallFile [overrunArg]) s none s' ∧
      freeAt 65 s' = some u4 ∧ freeAt 70 s' = some (r + 97) := by
  have tag : τ := default
  obtain ⟨d, s1, s4, ρ4, hset, hd0, -, hfill, hsm⟩ := small_image tag hX h hs
  have h4 := hsm.inv
  have hfree4 : ρ4 (t + 4096) = .free := by
    rw [← hu]
    exact (h4.free u1).mp (by simp)
  have hfinish := hsm.overrun (by rw [hfree4]; simp)
  obtain ⟨ρ5, hkept5, hrole5, h5⟩ := h4.overrun tag overrunArg.bytes 0x800 hsm.text hu (by decide)
  rw [overrunArg_byte (by decide)] at h5
  generalize ({ s4 with
    mem := copy s4.mem (t + 0x800) overrunArg.bytes 0 (4097 - 0x800) } : Phys) = s5 at hfinish h5
  -- `bad`
  obtain ⟨tag', hd4⟩ := hsm.dir
  have hkeep : ∀ {b r'}, ρ4 b = r' → r' ≠ .free → ρ5 b = r' := by
    intro b r' hb hr
    rw [hkept5 b (by rw [hb]; exact hr), hb]
  have hd5 := hkeep hd4 (by simp)
  have pt5 := hkeep hsm.text (by simp)
  have p35 := hkeep hsm.guard (by simp)
  have p25 := hkeep hsm.stack (by simp)
  have pa5 := hkeep hsm.table (by simp)
  have hback : ∀ {b r'}, ρ5 b = r' → (∀ t', r' ≠ .held t') → ρ4 b = r' := by
    intro b r' hb hr
    rcases hrole5 b with he | he
    · rw [← he, hb]
    · exact absurd (hb.symm.trans he) (hr tag)
  have htabs5 : ∀ i, HasTab ρ5 d i ↔ KernTab i ∨ i = 0 := by
    intro i
    rw [← hsm.tabs i]
    constructor
    · intro ⟨b, hb⟩
      exact ⟨b, hback hb (by simp)⟩
    · intro ⟨b, hb⟩
      exact ⟨b, hkeep hb (by simp)⟩
  have hmaps5 : ∀ m, Maps ρ5 d m ↔ 1 ≤ m ∧ m < 1 + 3 := by
    intro m
    rw [← hsm.maps m]
    constructor
    · intro ⟨b, hb⟩
      exact ⟨b, hback hb (by simp)⟩
    · intro ⟨b, hb⟩
      exact ⟨b, hkeep hb (by simp)⟩
  have hspace5 : Space ρ5 d u4 [t, u3, u2] :=
    ⟨⟨tag', hd5⟩, pa5, htabs5, .cons pt5 (.cons p35 (.cons p25 .nil)), hmaps5⟩
  obtain ⟨s6, X', hfree, -, hX', h6⟩ := free_space h5 hspace5
  obtain ⟨hat, htail⟩ := h6.freeAt_tail (by simp)
  refine ⟨s6, ?_, ?_, ?_⟩
  · refine ends_buildImage_bad (by decide) (by decide) hset hd0 ?_ hfree
    unfold Ends
    rw [hfill]
    exact hfinish
  · rw [hat 65 (by simp [hX']), getElem?_append_right (by omega), hX']
    rfl
  · have hlen : (X' ++ (u4 :: ([t, u3, u2].reverse ++ [u1]))).length = 70 := by
      simp [hX']
    rw [hlen] at htail
    exact htail

end Xv6.Mem
