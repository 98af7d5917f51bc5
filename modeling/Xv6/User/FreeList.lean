import Xv6.User.Malloc

/-! # The free list

    `FreeList h fl` says that the pointers of the heap spell the blocks `fl` behind `base`, in the
    order of their addresses and with a gap after each. `free` finds the place of a block from
    wherever `freep` stands, and joins it with its neighbours; `malloc` takes a block or its end.
-/

namespace Xv6.Malloc

open Cycle Tiling Function List

/-! ## The list -/

/-- The blocks behind `base`. -/
structure FreeList (h : Heap) (fl : List (Nat × Nat)) : Prop where
  ring   : Leads h.ptr h.base (h.base :: fl.map Prod.fst) h.base
  freep  : h.freep ∈ h.base :: fl.map Prod.fst
  zero   : h.size h.base = 0
  size   : ∀ b ∈ fl, h.size b.1 = b.2
  sorted : fl.Pairwise fun b c => b.1 + 8 * b.2 < c.1
  pos    : ∀ b ∈ fl, 0 < b.2
  bound  : ∀ b ∈ fl, h.base + 8 ≤ b.1 ∧ b.1 + 8 * b.2 ≤ 2 ^ 32
  base   : 0 < h.base

variable {h h' : Heap} {fl f₁ f₂ g f2' : List (Nat × Nat)} {bp p s base s' nunits prevp n : Nat}

theorem FreeList.lt_of_mem (hf : FreeList h fl) {b : Nat × Nat} (hb : b ∈ fl) :
    h.base < b.1 ∧ b.1 < 2 ^ 32 := by
  have hpos := hf.pos b hb
  have hbound := hf.bound b hb
  omega

theorem FreeList.nodup (hf : FreeList h fl) : (h.base :: fl.map Prod.fst).Nodup := by
  refine nodup_cons.mpr ⟨fun hmem => ?_, ?_⟩
  · obtain ⟨b, hb, heq⟩ := mem_map.mp hmem
    have := (hf.lt_of_mem hb).1
    omega
  · rw [nodup_iff_pairwise_ne, pairwise_map]
    refine hf.sorted.imp fun {b c} hlt heq => ?_
    omega

/-- The blocks have at least 8 bytes each. -/
theorem length_le_of_sorted {lo hi : Nat} (hs : fl.Pairwise fun b c => b.1 + 8 * b.2 < c.1)
    (hpos : ∀ b ∈ fl, 0 < b.2) (hb : ∀ b ∈ fl, lo ≤ b.1 ∧ b.1 + 8 * b.2 ≤ hi) (hlo : lo ≤ hi) :
    lo + 8 * fl.length ≤ hi := by
  induction fl generalizing lo with
  | nil => simpa using hlo
  | cons b fl ih =>
    obtain ⟨hfirst, hs⟩ := pairwise_cons.mp hs
    have hb0 := hb b mem_cons_self
    have hpos0 := hpos b mem_cons_self
    have hlen := ih hs (fun c hc => hpos c (mem_cons_of_mem _ hc))
      (fun c hc => ⟨(hfirst c hc).le, (hb c (mem_cons_of_mem _ hc)).2⟩) hb0.2
    rw [length_cons]
    omega

theorem FreeList.length_lt (hf : FreeList h fl) : fl.length ≤ 2 ^ 29 := by
  have := length_le_of_sorted hf.sorted hf.pos
    (fun b hb => ⟨Nat.zero_le _, (hf.bound b hb).2⟩) (Nat.zero_le (2 ^ 32))
  omega

/-- The list, entered at `freep`. -/
theorem FreeList.rotate (hf : FreeList h fl) : ∃ l, Leads h.ptr h.freep (h.freep :: l) h.freep ∧
    (h.freep :: l).Perm (h.base :: fl.map Prod.fst) := by
  obtain ⟨l1, l2, hl⟩ := append_of_mem hf.freep
  have hring := hf.ring
  rw [hl] at hring
  refine ⟨l2 ++ l1, hring.rotate, ?_⟩
  rw [hl]
  show ((h.freep :: l2) ++ l1).Perm (l1 ++ h.freep :: l2)
  exact perm_append_comm

/-- `p` is the last node of `base` and `f₁`. -/
inductive Ends (base : Nat) (p : Nat) : List (Nat × Nat) → Prop where
  | base : p = base → Ends base p []
  | block (g : List (Nat × Nat)) (r : Nat) : Ends base p (g ++ [(p, r)])

theorem Ends.exists_concat (he : Ends base p f₁) : ∃ l, base :: f₁.map Prod.fst = l ++ [p] := by
  cases he with
  | base heq => exact ⟨[], by rw [heq]; rfl⟩
  | block g r => exact ⟨base :: g.map Prod.fst, by simp⟩

theorem exists_ends (base : Nat) (f₁ : List (Nat × Nat)) : ∃ p, Ends base p f₁ := by
  rcases eq_nil_or_concat' f₁ with rfl | ⟨g, c, rfl⟩
  · exact ⟨base, .base rfl⟩
  · exact ⟨c.1, .block g c.2⟩

/-- Each node of the list ends a first part of it. -/
theorem FreeList.exists_split (hf : FreeList h fl) (hp : p ∈ h.base :: fl.map Prod.fst) :
    ∃ f₁ f₂, fl = f₁ ++ f₂ ∧ Ends h.base p f₁ := by
  rcases mem_cons.mp hp with rfl | hp
  · exact ⟨[], fl, rfl, .base rfl⟩
  · obtain ⟨b, hb, rfl⟩ := mem_map.mp hp
    obtain ⟨f₁, f₂, rfl⟩ := append_of_mem hb
    exact ⟨f₁ ++ [b], f₂, by simp, .block f₁ b.2⟩

theorem FreeList.rest (hf : FreeList h (f₁ ++ f₂)) (he : Ends h.base p f₁) :
    Leads h.ptr (h.ptr p) (f₂.map Prod.fst) h.base := by
  obtain ⟨l, hl⟩ := he.exists_concat
  have hring := hf.ring
  rw [map_append, ← cons_append, hl, append_assoc] at hring
  exact hring.next_eq

theorem Ends.mem (he : Ends base p f₁) : p ∈ base :: f₁.map Prod.fst := by
  obtain ⟨l, hl⟩ := he.exists_concat
  rw [hl]
  simp

/-- The next address: that of the next block, or `base` again. -/
theorem FreeList.ptr_nil (hf : FreeList h (f₁ ++ [])) (he : Ends h.base p f₁) :
    h.ptr p = h.base := hf.rest he

theorem FreeList.ptr_cons {y : Nat × Nat} (hf : FreeList h (f₁ ++ y :: f₂))
    (he : Ends h.base p f₁) : h.ptr p = y.1 := (hf.rest he).1

/-- The blocks before `p`, and `p` itself, in order. -/
theorem FreeList.le_of_ends (hf : FreeList h (f₁ ++ f₂)) (he : Ends h.base p f₁) :
    h.base ≤ p ∧ (∀ b ∈ f₁, b.1 ≤ p) ∧ ∀ c ∈ f₂, p < c.1 := by
  have hsorted := pairwise_append.mp hf.sorted
  cases he with
  | base heq =>
    subst heq
    refine ⟨le_rfl, fun b hb => ?_, fun c hc => (hf.lt_of_mem hc).1⟩
    cases hb
  | block g r =>
    refine ⟨(hf.lt_of_mem (b := (p, r)) (by simp)).1.le, fun b hb => ?_, fun c hc => ?_⟩
    · rcases mem_append.mp hb with hb | hb
      · have := (pairwise_append.mp hsorted.1).2.2 b hb (p, r) (by simp)
        dsimp only at this
        omega
      · rw [mem_singleton.mp hb]
    · have := hsorted.2.2 (p, r) (by simp) c hc
      dsimp only at this
      omega

/-! ## The place of a block -/

/-- The block at `bp` is none of the list and lies above `base`. -/
structure Outside (h : Heap) (fl : List (Nat × Nat)) (bp s : Nat) : Prop where
  size  : h.size bp = s
  pos   : 0 < s
  bound : h.base + 8 ≤ bp ∧ bp + 8 * s ≤ 2 ^ 32
  apart : ∀ b ∈ fl, Apart 8 (bp, s) b

/-- The loop of `free` may stop at `p` exactly if `bp` comes after it. -/
theorem FreeList.stops_iff (hf : FreeList h (f₁ ++ f₂)) (he : Ends h.base p f₁)
    (hbp : h.base < bp) :
    h.stops bp p = true ↔ p < bp ∧ ∀ c ∈ f₂, bp < c.1 := by
  obtain ⟨hbase, -, hgt⟩ := hf.le_of_ends he
  simp only [Heap.stops, Bool.or_eq_true, Bool.and_eq_true, decide_eq_true_eq]
  cases f₂ with
  | nil =>
    rw [hf.ptr_nil he]
    simp only [not_mem_nil, false_implies, implies_true, and_true]
    omega
  | cons y f₂ =>
    rw [hf.ptr_cons he]
    have hpy := hgt y mem_cons_self
    have hrest := (pairwise_cons.mp (pairwise_append.mp hf.sorted).2.1).1
    constructor
    · intro hstop
      refine ⟨by omega, fun c hc => ?_⟩
      rcases mem_cons.mp hc with rfl | hc
      · omega
      · have := hrest c hc
        omega
    · intro ⟨hlt, hall⟩
      exact .inl ⟨hlt, hall y mem_cons_self⟩

/-- An address cuts the sorted list. -/
theorem exists_cut (hs : fl.Pairwise fun b c => b.1 + 8 * b.2 < c.1)
    (hne : ∀ b ∈ fl, b.1 ≠ bp) : ∃ f₁ f₂, fl = f₁ ++ f₂ ∧ (∀ b ∈ f₁, b.1 < bp) ∧
      ∀ c ∈ f₂, bp < c.1 := by
  induction fl with
  | nil => exact ⟨[], [], rfl, by simp, by simp⟩
  | cons b fl ih =>
    obtain ⟨hfirst, hs⟩ := pairwise_cons.mp hs
    by_cases hb : b.1 < bp
    · obtain ⟨f₁, f₂, rfl, h1, h2⟩ := ih hs fun c hc => hne c (mem_cons_of_mem _ hc)
      refine ⟨b :: f₁, f₂, rfl, fun c hc => ?_, h2⟩
      rcases mem_cons.mp hc with rfl | hc
      · exact hb
      · exact h1 c hc
    · refine ⟨[], b :: fl, rfl, by simp, fun c hc => ?_⟩
      have hb' := hne b mem_cons_self
      rcases mem_cons.mp hc with rfl | hc
      · omega
      · have := hfirst c hc
        omega

/-- `p` is the node before `bp`: the blocks `f₁` lie below, and `f₂` above. -/
structure Place (h : Heap) (bp s p : Nat) (f₁ f₂ : List (Nat × Nat)) : Prop where
  ends  : Ends h.base p f₁
  lt    : p < bp
  below : ∀ b ∈ f₁, b.1 + 8 * b.2 ≤ bp
  above : ∀ b ∈ f₂, bp + 8 * s ≤ b.1

/-- The loop of `free` ends, at the node before `bp`. -/
theorem FreeList.scan_place (hf : FreeList h fl) (ho : Outside h fl bp s) :
    ∃ p f₁ f₂, scan h.ptr (h.stops bp) ROUNDS h.freep = some p ∧ fl = f₁ ++ f₂ ∧
      Place h bp s p f₁ f₂ := by
  have hpos := ho.pos
  have hbound := ho.bound
  have hap : ∀ b ∈ fl, bp + 8 * s ≤ b.1 ∨ b.1 + 8 * b.2 ≤ bp := ho.apart
  -- there is a node to stop at
  have hex : ∃ x ∈ h.base :: fl.map Prod.fst, h.stops bp x = true := by
    obtain ⟨f₁, f₂, hsplit, hlt, hgt⟩ := exists_cut hf.sorted fun b hb (heq : b.1 = bp) => by
      have := hap b hb
      have := hf.pos b hb
      omega
    subst hsplit
    obtain ⟨x, he⟩ := exists_ends h.base f₁
    refine ⟨x, ?_, (hf.stops_iff he (by omega)).mpr ⟨?_, hgt⟩⟩
    · rw [map_append, ← cons_append]
      exact mem_append_left _ he.mem
    · cases he with
      | base heq => omega
      | block g r => exact hlt (x, r) (by simp)
  obtain ⟨l, hl, hperm⟩ := hf.rotate
  have hlen : (h.freep :: l).length ≤ ROUNDS := by
    have := hf.length_lt
    rw [hperm.length_eq, length_cons, length_map]
    show fl.length + 1 ≤ 2 ^ 32
    omega
  obtain ⟨p, hp, hscan, hstop⟩ := hl.scan (by
    obtain ⟨x, hx, hq⟩ := hex
    exact ⟨x, hperm.mem_iff.mpr hx, hq⟩) hlen
  -- and each node it may stop at is the one before `bp`
  obtain ⟨f₁, f₂, rfl, he⟩ := hf.exists_split (hperm.mem_iff.mp hp)
  obtain ⟨hlt, hgt⟩ := (hf.stops_iff he (by omega)).mp hstop
  obtain ⟨-, hle, -⟩ := hf.le_of_ends he
  refine ⟨p, f₁, f₂, hscan, rfl, he, hlt, fun b hb => ?_, fun c hc => ?_⟩
  · have := hap b (mem_append_left _ hb)
    have := hle b hb
    omega
  · have := hap c (mem_append_right _ hc)
    have := hgt c hc
    omega

/-! ## Joining -/

/-- Steps that change the headers only. -/
structure SameRest (h h' : Heap) : Prop where
  base    : h'.base = h.base
  brk     : h'.brk = h.brk
  regions : h'.regions = h.regions
  live    : h'.live = h.live

theorem SameRest.joinPrev (hs : SameRest h h') (bp p : Nat) :
    SameRest h { h'.joinPrev bp p with freep := p } := by
  unfold Heap.joinPrev
  split
  · exact ⟨hs.base, hs.brk, hs.regions, hs.live⟩
  · exact ⟨hs.base, hs.brk, hs.regions, hs.live⟩

/-- After the first `if` of `free`: `bp` has `s'` units, and `f₂` is the part of
    the list that comes after it. -/
structure Half (h : Heap) (f₁ : List (Nat × Nat)) (bp s : Nat) (h' : Heap)
    (f₂ : List (Nat × Nat)) (s' : Nat) : Prop where
  same   : SameRest h h'
  ptr    : ∀ x, x ≠ bp → h'.ptr x = h.ptr x
  others : ∀ x, x ≠ bp → h'.size x = h.size x
  size   : h'.size bp = s'
  le     : s ≤ s'
  next   : Leads h'.ptr (h'.ptr bp) (f₂.map Prod.fst) h.base
  above  : ∀ c ∈ f₂, bp + 8 * s' < c.1

/-- What `free` makes of the block at `bp` and the blocks `fl`: the same units
    in blocks that do not meet. -/
structure Joined (bp s : Nat) (fl fl' : List (Nat × Nat)) : Prop where
  tiles : ∀ rest rs, Tiles 8 ((bp, s) :: (fl ++ rest)) rs → Tiles 8 (fl' ++ rest) rs
  bound : ∀ hi, bp + 8 * s ≤ hi → (∀ b ∈ fl, b.1 + 8 * b.2 ≤ hi) →
    ∀ b ∈ fl', b.1 + 8 * b.2 ≤ hi
  large : ∃ b ∈ fl', s ≤ b.2

theorem joinNext_spec (hf : FreeList h (f₁ ++ f₂)) (ho : Outside h (f₁ ++ f₂) bp s)
    (hp : Place h bp s p f₁ f₂) : ∃ s' f2', Half h f₁ bp s (h.joinNext bp p) f2' s' ∧
      f2' <:+ f₂ ∧
      (∀ rest rs, Tiles 8 ((bp, s) :: (f₁ ++ f₂ ++ rest)) rs →
        Tiles 8 ((bp, s') :: (f₁ ++ f2' ++ rest)) rs) ∧
      ∀ hi, bp + 8 * s ≤ hi → (∀ b ∈ f₂, b.1 + 8 * b.2 ≤ hi) → bp + 8 * s' ≤ hi := by
  have hnext := hf.rest hp.ends
  have hbound := ho.bound
  have hpos := ho.pos
  -- `bp` is not in the list
  have hne : ∀ c ∈ f₂, c.1 ≠ bp := by
    intro c hc heq
    have := hp.above c hc
    omega
  have hkeep : ∀ {f : List (Nat × Nat)} {w : Nat} (v : Nat), (∀ c ∈ f, c.1 ≠ bp) →
      Leads h.ptr w (f.map Prod.fst) h.base →
      Leads (update h.ptr bp v) w (f.map Prod.fst) h.base := by
    intro f w v hf hl
    refine hl.congr fun x hx => ?_
    obtain ⟨c, hc, rfl⟩ := mem_map.mp hx
    exact update_of_ne (hf c hc) _ _
  unfold Heap.joinNext
  by_cases hmeet : u32 (bp + 8 * h.size bp) = h.ptr p
  · rw [if_pos hmeet]
    rw [ho.size] at hmeet
    cases f₂ with
    | nil =>
      -- the next node is `base`, which lies below
      rw [hf.ptr_nil hp.ends] at hmeet
      have hbase := hf.base
      simp only [u32] at hmeet
      omega
    | cons y f₂ =>
      have hy : h.ptr p = y.1 := hf.ptr_cons hp.ends
      have hybound := hf.bound y (by simp)
      have hysize := hf.size y (by simp)
      have habove := hp.above y mem_cons_self
      have hmeet : y.1 = bp + 8 * s := by
        have hlt : bp + 8 * s < 2 ^ 32 := by
          have := hf.pos y (by simp)
          omega
        rw [hy, u32, Nat.mod_eq_of_lt hlt] at hmeet
        exact hmeet.symm
      have hgap := (pairwise_cons.mp (pairwise_append.mp hf.sorted).2.1).1
      have hsum : u32 (h.size bp + h.size (h.ptr p)) = s + y.2 := by
        rw [ho.size, hy, hysize, u32]
        exact Nat.mod_eq_of_lt (by omega)
      refine ⟨s + y.2, f₂, ⟨⟨rfl, rfl, rfl, rfl⟩, fun x hx => update_of_ne hx _ _,
        fun x hx => update_of_ne hx _ _, ?_, Nat.le_add_right _ _, ?_, fun c hc => ?_⟩,
        suffix_cons _ _, fun rest rs ht => ?_, fun hi _ hall => ?_⟩
      · show update h.size bp _ bp = _
        rw [update_self, hsum]
      · show Leads (update h.ptr bp _) (update h.ptr bp _ bp) _ _
        rw [update_self, hy]
        exact hkeep _ (fun c hc => hne c (mem_cons_of_mem _ hc)) hnext.2
      · have := hgap c hc
        omega
      · have hperm : ((bp, s) :: (f₁ ++ y :: f₂ ++ rest)).Perm
            ((bp, s) :: (bp + 8 * s, y.2) :: (f₁ ++ f₂ ++ rest)) := by
          refine List.Perm.cons _ ?_
          rw [← hmeet, append_assoc, append_assoc, cons_append]
          exact perm_middle
        exact (ht.perm hperm).join (by decide)
      · have := hall y mem_cons_self
        omega
  · rw [if_neg hmeet]
    refine ⟨s, f₂, ⟨⟨rfl, rfl, rfl, rfl⟩, fun x hx => update_of_ne hx _ _, fun x _ => rfl, ho.size,
      le_rfl, ?_, fun c hc => ?_⟩, suffix_refl _, fun rest rs ht => ht, fun hi hle _ => hle⟩
    · show Leads (update h.ptr bp _) (update h.ptr bp _ bp) _ _
      rw [update_self]
      exact hkeep _ hne hnext
    · -- the next block does not start where `bp` ends
      have hle := hp.above c hc
      cases f₂ with
      | nil => cases hc
      | cons y f₂ =>
        have hy : h.ptr p = y.1 := hf.ptr_cons hp.ends
        have hgap := (pairwise_cons.mp (pairwise_append.mp hf.sorted).2.1).1
        have hylt := (hf.lt_of_mem (b := y) (by simp)).2
        have hyle := hp.above y mem_cons_self
        rw [ho.size, hy, u32, Nat.mod_eq_of_lt (by omega)] at hmeet
        rcases mem_cons.mp hc with rfl | hc
        · omega
        · have := hgap c hc
          omega

/-- The pointers up to the last node of `f₁`, which now leads to `w`. -/
theorem FreeList.first_leads (hf : FreeList h (f₁ ++ f₂)) (he : Ends h.base p f₁) (hlt : p < bp)
    {ptr : Nat → Nat} (hptr : ∀ x, x ≠ bp → ptr x = h.ptr x) (w : Nat) :
    Leads (update ptr p w) h.base (h.base :: f₁.map Prod.fst) w := by
  obtain ⟨hbase, hle, -⟩ := hf.le_of_ends he
  have hring := hf.ring
  rw [map_append, ← cons_append] at hring
  obtain ⟨z, hfirst, -⟩ := leads_append.mp hring
  have hfirst : Leads ptr h.base (h.base :: f₁.map Prod.fst) z := by
    refine hfirst.congr fun x hx => hptr x ?_
    rcases mem_cons.mp hx with rfl | hx
    · omega
    · obtain ⟨b, hb, rfl⟩ := mem_map.mp hx
      have := hle b hb
      omega
  have hnd : (h.base :: f₁.map Prod.fst).Nodup := by
    refine hf.nodup.sublist ?_
    rw [map_append, ← cons_append]
    exact sublist_append_left _ _
  obtain ⟨l, hl⟩ := he.exists_concat
  rw [hl] at hfirst hnd ⊢
  exact hfirst.retarget hnd w

theorem Half.rest_leads (hh : Half h f₁ bp s h' f₂ s') (hlt : p < bp) (w : Nat) :
    Leads (update h'.ptr p w) (h'.ptr bp) (f₂.map Prod.fst) h.base := by
  refine hh.next.congr fun x hx => update_of_ne ?_ _ _
  obtain ⟨c, hc, rfl⟩ := mem_map.mp hx
  have := hh.above c hc
  omega

/-- A list made of an older one: the block at `c` stands between the blocks `g` and `f` of it. -/
theorem FreeList.between {f : List (Nat × Nat)} {c t : Nat} (hf : FreeList h fl)
    (hsub : (g ++ f).Sublist fl) (hb : h'.base = h.base)
    (hring : Leads h'.ptr h.base (h.base :: (g ++ (c, t) :: f).map Prod.fst) h.base)
    (hfreep : h'.freep ∈ h.base :: (g ++ (c, t) :: f).map Prod.fst)
    (hsize : ∀ x, x ≠ c → x < c ∨ c + 8 * t < x → h'.size x = h.size x) (hc : h'.size c = t)
    (hbelow : ∀ b ∈ g, b.1 + 8 * b.2 < c) (habove : ∀ b ∈ f, c + 8 * t < b.1) (hpos : 0 < t)
    (hbound : h.base + 8 ≤ c ∧ c + 8 * t ≤ 2 ^ 32) : FreeList h' (g ++ (c, t) :: f) := by
  have hmem : ∀ {P : Nat × Nat → Prop}, P (c, t) → (∀ b ∈ g ++ f, P b) →
      ∀ b ∈ g ++ (c, t) :: f, P b := by
    intro P hP hall b hb
    rcases mem_cons.mp (perm_middle.mem_iff.mp hb) with rfl | hb
    · exact hP
    · exact hall b hb
  obtain ⟨hs1, hs2, hs12⟩ := pairwise_append.mp (hf.sorted.sublist hsub)
  refine ⟨by rw [hb]; exact hring, by rw [hb]; exact hfreep, ?_, hmem hc fun b hb' => ?_, ?_,
    hmem hpos fun b hb' => hf.pos b (hsub.subset hb'), ?_, by rw [hb]; exact hf.base⟩
  · rw [hb, hsize _ (by omega) (by omega)]
    exact hf.zero
  · rw [← hf.size b (hsub.subset hb')]
    rcases mem_append.mp hb' with hb' | hb'
    · have := hbelow b hb'
      exact hsize _ (by omega) (by omega)
    · have := habove b hb'
      exact hsize _ (by omega) (by omega)
  · refine pairwise_append.mpr ⟨hs1, pairwise_cons.mpr ⟨habove, hs2⟩, fun b hb' d hd => ?_⟩
    rcases mem_cons.mp hd with rfl | hd
    · exact hbelow b hb'
    · exact hs12 b hb' d hd
  · rw [hb]
    exact hmem hbound fun b hb' => hf.bound b (hsub.subset hb')

/-- The second `if` of `free`, when the block before `bp` does not meet it. -/
theorem joinPrev_apart (hf : FreeList h (f₁ ++ f₂)) (ho : Outside h (f₁ ++ f₂) bp s)
    (hp : Place h bp s p f₁ f₂) (hh : Half h f₁ bp s h' f2' s') (hsuf : f2' <:+ f₂)
    (hend : bp + 8 * s' ≤ 2 ^ 32) (hgap : ∀ b ∈ f₁, b.1 + 8 * b.2 < bp) :
    FreeList { h' with ptr := update h'.ptr p bp, freep := p }
      (f₁ ++ (bp, s') :: f2') := by
  obtain ⟨hbase, -, -⟩ := hf.le_of_ends hp.ends
  have hlt := hp.lt
  have hbound := ho.bound
  have hpos := ho.pos
  have hle := hh.le
  refine hf.between ((List.Sublist.refl f₁).append hsuf.sublist) hh.same.base ?_ ?_
    (fun x hx _ => hh.others x hx) hh.size hgap hh.above (by omega) ⟨hbound.1, hend⟩
  · rw [map_append, ← cons_append]
    refine leads_append.mpr ⟨bp, hf.first_leads hp.ends hlt hh.ptr bp, rfl, ?_⟩
    show Leads (update h'.ptr p bp) (update h'.ptr p bp bp) _ _
    rw [update_of_ne (ne_of_gt hlt)]
    exact hh.rest_leads hlt bp
  · rw [map_append, ← cons_append]
    exact mem_append_left _ hp.ends.mem

/-- The second `if` of `free`, when the block before `bp` meets it. -/
theorem joinPrev_meet {r : Nat} (hf : FreeList h (g ++ [(p, r)] ++ f₂))
    (hp : Place h bp s p (g ++ [(p, r)]) f₂) (hh : Half h (g ++ [(p, r)]) bp s h' f2' s')
    (hsuf : f2' <:+ f₂) (hend : bp + 8 * s' ≤ 2 ^ 32) (hmeet : p + 8 * r = bp) :
    FreeList { h' with
      size := update h'.size p (r + s')
      ptr := update h'.ptr p (h'.ptr bp)
      freep := p } (g ++ (p, r + s') :: f2') := by
  have hlt := hp.lt
  have hpb := hf.bound (p, r) (by simp)
  have hpr := hf.pos (p, r) (by simp)
  obtain ⟨-, -, hgp⟩ := pairwise_append.mp (pairwise_append.mp hf.sorted).1
  have hmap : (g ++ (p, r + s') :: f2').map Prod.fst =
      (g ++ [(p, r)]).map Prod.fst ++ f2'.map Prod.fst := by
    simp
  dsimp only at hpb hpr
  refine hf.between ((sublist_append_left g _).append hsuf.sublist) hh.same.base ?_ ?_
    (fun x hx hout => ?_) (update_self _ _ _) (fun b hb => hgp b hb (p, r) (by simp))
    (fun c hc => ?_) (by omega) (by omega)
  · rw [hmap, ← cons_append]
    exact leads_append.mpr ⟨_, hf.first_leads hp.ends hlt hh.ptr _, hh.rest_leads hlt _⟩
  · show p ∈ h.base :: (g ++ (p, r + s') :: f2').map Prod.fst
    simp
  · show update h'.size p (r + s') x = _
    rw [update_of_ne hx]
    exact hh.others x (by omega)
  · have := hh.above c hc
    omega

/-- What `free` does with a block that is not in the list. -/
theorem free_spec (hf : FreeList h fl) (ho : Outside h fl bp s) :
    ∃ h' fl', free h bp = some h' ∧ FreeList h' fl' ∧ SameRest h h' ∧ Joined bp s fl fl' ∧
      ∀ x, x ≠ bp → x ∉ fl.map Prod.fst → h'.size x = h.size x := by
  obtain ⟨p, f₁, f₂, hscan, rfl, hp⟩ := hf.scan_place ho
  obtain ⟨s', f2', hh, hsuf, htiles, hends⟩ := joinNext_spec hf ho hp
  have hend : bp + 8 * s' ≤ 2 ^ 32 := by
    refine hends _ ho.bound.2 fun b hb => ?_
    exact (hf.bound b (mem_append_right _ hb)).2
  have hlt := hp.lt
  have hle := hh.le
  have hpos := ho.pos
  have hbound := ho.bound
  have hmem : ∀ c ∈ f2', c ∈ f₂ := fun c hc => hsuf.subset hc
  have hfree : free h bp = some { (h.joinNext bp p).joinPrev bp p with freep := p } := by
    rw [free, hscan]
    rfl
  -- the last block before `bp`
  have hsizep : (h.joinNext bp p).size p = h.size p := hh.others p (by omega)
  by_cases hmeet : ∃ g r, f₁ = g ++ [(p, r)] ∧ p + 8 * r = bp
  · obtain ⟨g, r, rfl, hmeet⟩ := hmeet
    have hr : h.size p = r := hf.size (p, r) (by simp)
    refine ⟨_, g ++ (p, r + s') :: f2', hfree, ?_, ?_, ?_, fun x hx hnot => ?_⟩
    · rw [Heap.joinPrev, hsizep, hr, if_pos (by rw [hmeet]; exact Nat.mod_eq_of_lt (by omega)),
        hh.size, show u32 (r + s') = r + s' from Nat.mod_eq_of_lt (by omega)]
      exact joinPrev_meet hf hp hh hsuf hend hmeet
    · exact hh.same.joinPrev bp p
    · refine ⟨fun rest rs ht => ?_, fun hi hbi hall b hb => ?_, ⟨(p, r + s'), by simp, ?_⟩⟩
      · have hperm : ((bp, s') :: (g ++ [(p, r)] ++ f2' ++ rest)).Perm
            ((p, r) :: (p + 8 * r, s') :: (g ++ f2' ++ rest)) := by
          rw [hmeet, append_assoc, append_assoc, singleton_append, append_assoc]
          exact (perm_middle.cons _).trans (List.Perm.swap _ _ _)
        have hjoin := ((htiles rest rs ht).perm hperm).join (by decide)
        refine hjoin.perm ?_
        rw [append_assoc, append_assoc, cons_append]
        exact perm_middle.symm
      · have hs' := hends hi hbi fun b hb => hall b (mem_append_right _ hb)
        rcases mem_append.mp hb with hb | hb
        · exact hall b (by simp [hb])
        · rcases mem_cons.mp hb with rfl | hb
          · show p + 8 * (r + s') ≤ hi
            omega
          · exact hall b (mem_append_right _ (hmem b hb))
      · show s ≤ r + s'
        omega
    · have hxp : x ≠ p := by
        rintro rfl
        exact hnot (by simp)
      show (Heap.joinPrev _ bp p).size x = _
      unfold Heap.joinPrev
      split
      · exact (update_of_ne hxp _ _).trans (hh.others x hx)
      · exact hh.others x hx
  · -- no block ends at `bp`
    have hgap : ∀ b ∈ f₁, b.1 + 8 * b.2 < bp := by
      intro b hb
      have hbelow := hp.below b hb
      cases hp.ends with
      | base _ => cases hb
      | block g r =>
        have hne : p + 8 * r ≠ bp := fun heq => hmeet ⟨g, r, rfl, heq⟩
        rcases mem_append.mp hb with hb | hb
        · have hbp : b.1 + 8 * b.2 < p :=
            (pairwise_append.mp (pairwise_append.mp hf.sorted).1).2.2 b hb (p, r)
              (by simp)
          omega
        · rw [mem_singleton.mp hb] at hbelow ⊢
          dsimp only at hbelow ⊢
          omega
    have hno : ¬ u32 (p + 8 * (h.joinNext bp p).size p) = bp := by
      rw [hsizep]
      cases hp.ends with
      | base heq =>
        rw [heq, hf.zero, u32, Nat.mod_eq_of_lt (by omega)]
        omega
      | block g r =>
        have hr : h.size p = r := hf.size (p, r) (by simp)
        have hlt' : p + 8 * r < bp := hgap (p, r) (by simp)
        rw [hr, u32, Nat.mod_eq_of_lt (by omega)]
        omega
    refine ⟨_, f₁ ++ (bp, s') :: f2', hfree, ?_, ?_, ?_, fun x hx hnot => ?_⟩
    · rw [Heap.joinPrev, if_neg hno]
      exact joinPrev_apart hf ho hp hh hsuf hend hgap
    · exact hh.same.joinPrev bp p
    · refine ⟨fun rest rs ht => ?_, fun hi hbi hall b hb => ?_, ⟨(bp, s'), by simp, hle⟩⟩
      · refine (htiles rest rs ht).perm ?_
        rw [append_assoc, append_assoc, cons_append]
        exact perm_middle.symm
      · have hs' := hends hi hbi fun b hb => hall b (mem_append_right _ hb)
        rcases mem_append.mp hb with hb | hb
        · exact hall b (mem_append_left _ hb)
        · rcases mem_cons.mp hb with rfl | hb
          · exact hs'
          · exact hall b (mem_append_right _ (hmem b hb))
    · show (Heap.joinPrev _ bp p).size x = _
      rw [Heap.joinPrev, if_neg hno]
      exact hh.others x hx

/-! ## Taking a block -/

/-- What `malloc` makes of the blocks `fl`: `nunits` of their units are in the block at `q` now. -/
structure Carved (h : Heap) (nunits : Nat) (fl : List (Nat × Nat)) (h' : Heap) (q : Nat)
    (fl' : List (Nat × Nat)) : Prop where
  list   : FreeList h' fl'
  same   : SameRest h h'
  size   : h'.size q = nunits
  inside : ∃ b ∈ fl, b.1 ≤ q ∧ q + 8 * nunits ≤ b.1 + 8 * b.2
  others : ∀ x, x ∉ fl.map Prod.fst → x ≠ q → h'.size x = h.size x
  tiles  : ∀ rest rs, Tiles 8 (fl ++ rest) rs → Tiles 8 (fl' ++ (q, nunits) :: rest) rs
  bound  : ∀ b' ∈ fl', ∃ b ∈ fl, b.1 ≤ b'.1 ∧ b'.1 + 8 * b'.2 ≤ b.1 + 8 * b.2

/-- All of the block is taken. -/
theorem carve_all (hf : FreeList h (f₁ ++ (p, nunits) :: f₂)) (he : Ends h.base prevp f₁) :
    Carved h nunits (f₁ ++ (p, nunits) :: f₂)
      { h with ptr := update h.ptr prevp (h.ptr p), freep := prevp } p (f₁ ++ f₂) := by
  obtain ⟨hbase, hle, hgt⟩ := hf.le_of_ends he
  have hsub : (f₁ ++ f₂).Sublist (f₁ ++ (p, nunits) :: f₂) :=
    (sublist_cons_self _ _).append_left f₁
  have hlt : prevp < p := hgt (p, nunits) mem_cons_self
  have hrest := hf.rest he
  refine ⟨⟨?_, ?_, hf.zero, fun b hb => hf.size b (hsub.subset hb), hf.sorted.sublist hsub,
    fun b hb => hf.pos b (hsub.subset hb), fun b hb => hf.bound b (hsub.subset hb), hf.base⟩,
    ⟨rfl, rfl, rfl, rfl⟩, hf.size (p, nunits) (by simp), ⟨(p, nunits), by simp⟩,
    fun _ _ _ => rfl, fun rest rs ht => ht.perm ?_, fun b hb => ⟨b, hsub.subset hb, by simp⟩⟩
  · show Leads (update h.ptr prevp (h.ptr p)) h.base
      (h.base :: (f₁ ++ f₂).map Prod.fst) h.base
    rw [map_append, ← cons_append]
    refine leads_append.mpr ⟨_, hf.first_leads he hlt (fun _ _ => rfl) _, ?_⟩
    refine hrest.2.congr fun x hx => update_of_ne ?_ _ _
    obtain ⟨c, hc, rfl⟩ := mem_map.mp hx
    have := hgt c (mem_cons_of_mem _ hc)
    omega
  · show prevp ∈ h.base :: (f₁ ++ f₂).map Prod.fst
    rw [map_append, ← cons_append]
    exact mem_append_left _ he.mem
  · rw [append_assoc, append_assoc, cons_append]
    refine List.Perm.append_left f₁ ?_
    exact perm_middle.symm

/-- The end of the block is taken. -/
theorem carve_end (hf : FreeList h (f₁ ++ (p, s) :: f₂)) (he : Ends h.base prevp f₁)
    (hpos : 0 < nunits) (hlt : nunits < s) :
    Carved h nunits (f₁ ++ (p, s) :: f₂)
      { h with
        size := update (update h.size p (s - nunits)) (p + 8 * (s - nunits)) nunits
        freep := prevp } (p + 8 * (s - nunits)) (f₁ ++ (p, s - nunits) :: f₂) := by
  obtain ⟨hbase, hle, hgt⟩ := hf.le_of_ends he
  have hpp : prevp < p := hgt (p, s) mem_cons_self
  obtain ⟨hs1, hs2, hs12⟩ := pairwise_append.mp hf.sorted
  obtain ⟨hps, hs2⟩ := pairwise_cons.mp hs2
  have hmap : (f₁ ++ (p, s - nunits) :: f₂).map Prod.fst = (f₁ ++ (p, s) :: f₂).map Prod.fst := by
    simp
  have hbp := hf.bound (p, s) (by simp)
  dsimp only at hbp
  have hsize : ∀ x, x ≠ p → x ≠ p + 8 * (s - nunits) →
      update (update h.size p (s - nunits)) (p + 8 * (s - nunits)) nunits x =
        h.size x := by
    intro x hx hxq
    rw [update_of_ne hxq, update_of_ne hx]
  constructor
  case list =>
    refine hf.between ((sublist_cons_self _ _).append_left f₁) rfl ?_ ?_
      (fun x hx hout => hsize x hx ?_) ?_ (fun b hb => hs12 b hb (p, s) mem_cons_self)
      (fun c hc => ?_) (by omega) (by omega)
    · rw [hmap]
      exact hf.ring
    · rw [map_append, ← cons_append]
      exact mem_append_left _ he.mem
    · omega
    · show update (update h.size p (s - nunits)) (p + 8 * (s - nunits)) nunits p = _
      rw [update_of_ne (by omega)]
      exact update_self _ _ _
    · have : p + 8 * s < c.1 := hps c hc
      omega
  case same => exact ⟨rfl, rfl, rfl, rfl⟩
  case size => exact update_self _ _ _
  case inside =>
    refine ⟨(p, s), by simp, ?_⟩
    show p ≤ p + 8 * (s - nunits) ∧ p + 8 * (s - nunits) + 8 * nunits ≤ p + 8 * s
    omega
  case others =>
    intro x hx hxq
    refine hsize x ?_ hxq
    rintro rfl
    exact hx (by simp)
  case tiles =>
    intro rest rs ht
    have hperm : (f₁ ++ (p, s) :: f₂ ++ rest).Perm
        ((p, s - nunits + nunits) :: (f₁ ++ f₂ ++ rest)) := by
      rw [Nat.sub_add_cancel hlt.le, append_assoc, append_assoc, cons_append]
      exact perm_middle
    refine ((ht.perm hperm).cut (by omega) hpos).perm ?_
    rw [append_assoc, append_assoc, cons_append]
    refine List.Perm.trans ?_ perm_middle.symm
    refine List.Perm.cons _ ?_
    rw [← append_assoc, ← append_assoc]
    exact perm_middle.symm
  case bound =>
    intro b hb
    rcases mem_append.mp hb with hb | hb
    · exact ⟨b, by simp [hb], by simp⟩
    · rcases mem_cons.mp hb with rfl | hb
      · refine ⟨(p, s), by simp, le_rfl, ?_⟩
        show p + 8 * (s - nunits) ≤ p + 8 * s
        omega
      · exact ⟨b, by simp [hb], by simp⟩

/-- A node of the list that is large enough, with the node before it. -/
theorem carve_spec (hf : FreeList h fl) (hpos : 0 < nunits)
    (hmem : prevp ∈ h.base :: fl.map Prod.fst) (hfits : nunits ≤ h.size (h.ptr prevp)) :
    ∃ h' q fl', h.carve nunits prevp (h.ptr prevp) = (h', q) ∧ Carved h nunits fl h' q fl' := by
  obtain ⟨f₁, f₂, rfl, he⟩ := hf.exists_split hmem
  cases f₂ with
  | nil =>
    -- `base` has no units
    rw [hf.ptr_nil he, hf.zero] at hfits
    omega
  | cons y f₂ =>
    obtain ⟨p, s⟩ := y
    have hp : h.ptr prevp = p := hf.ptr_cons he
    have hs : h.size p = s := hf.size (p, s) (by simp)
    have hbound := hf.bound (p, s) (by simp)
    dsimp only at hbound
    rw [hp, hs] at hfits
    rw [hp, Heap.carve, hs]
    by_cases heq : s = nunits
    · subst heq
      rw [if_pos rfl]
      exact ⟨_, _, _, rfl, carve_all hf he⟩
    · rw [if_neg heq]
      dsimp only
      rw [show u32 (p + 8 * (s - nunits)) = p + 8 * (s - nunits) from Nat.mod_eq_of_lt (by omega)]
      exact ⟨_, _, _, rfl, carve_end hf he hpos (by omega)⟩

/-! ## The search -/

/-- What the loop of `malloc` does at `freep` when no block was large enough. -/
def grow (nunits n : Nat) (answers : List (Option Nat)) (h : Heap) : Option (Heap × Nat) :=
  match morecore h nunits answers.head?.join with
  | none => none
  | some (h', p') =>
      if p' = 0 then some (h', 0)
      else mallocLoop nunits n answers.tail h' p' (h'.ptr p')

/-- The search through the list up to `freep`: `found` is the result at a block
    that is large enough, `again` what follows with the rounds that are left. -/
def walk {β : Type} (h : Heap) (nunits : Nat) (found : Nat → Nat → β) (again : Nat → Option β) :
    Nat → Nat → Nat → Option β
  | 0, _, _ => none
  | n + 1, prevp, p =>
      if nunits ≤ h.size p then some (found prevp p)
      else if p = h.freep then again n
      else walk h nunits found again n p (h.ptr p)

theorem mallocLoop_eq_walk {answers : List (Option Nat)} :
    ∀ {prevp p : Nat}, mallocLoop nunits n answers h prevp p =
      walk h nunits (h.carve nunits) (fun n => grow nunits n answers h) n prevp p := by
  induction n with
  | zero => intros; rfl
  | succ n ih =>
    intro prevp p
    rw [mallocLoop, walk, ih]
    rfl

section Walk

variable {β : Type} {nunits : Nat} {found : Nat → Nat → β} {again : Nat → Option β}

/-- The search from `p` on, when the nodes up to `freep` are `m`. -/
theorem walk_pass {w : Nat} {R : List Nat}
    (m : List Nat) : ∀ {n prevp p : Nat}, Leads h.ptr p (m ++ [h.freep]) w → h.freep ∉ m →
      prevp ∈ R → (∀ x ∈ m, x ∈ R) → h.ptr prevp = p → m.length < n →
      (∃ prev ∈ R, nunits ≤ h.size (h.ptr prev) ∧
        walk h nunits found again n prevp p = some (found prev (h.ptr prev))) ∨
      ((∀ x ∈ m ++ [h.freep], h.size x < nunits) ∧
        walk h nunits found again n prevp p = again (n - m.length - 1)) := by
  induction m with
  | nil =>
    intro n prevp p hl _ hprev _ hp hn
    obtain ⟨n, rfl⟩ := Nat.exists_eq_succ_of_ne_zero (ne_of_gt hn)
    obtain ⟨rfl, -⟩ : p = h.freep ∧ _ := hl
    rw [walk]
    by_cases hfits : nunits ≤ h.size h.freep
    · rw [if_pos hfits]
      refine .inl ⟨prevp, hprev, ?_, ?_⟩
      · rw [hp]
        exact hfits
      · rw [hp]
    · rw [if_neg hfits, if_pos rfl]
      refine .inr ⟨fun x hx => ?_, rfl⟩
      rw [mem_singleton.mp hx]
      omega
  | cons x m ih =>
    intro n prevp p hl hnot hprev hR hp hn
    obtain ⟨n, rfl⟩ := Nat.exists_eq_succ_of_ne_zero (Nat.ne_zero_of_lt hn)
    obtain ⟨rfl, hl⟩ := hl
    obtain ⟨hx, hnot⟩ : h.freep ≠ p ∧ h.freep ∉ m := by simpa using hnot
    rw [walk]
    by_cases hfits : nunits ≤ h.size p
    · rw [if_pos hfits]
      refine .inl ⟨prevp, hprev, ?_, ?_⟩
      · rw [hp]
        exact hfits
      · rw [hp]
    · rw [if_neg hfits, if_neg (Ne.symm hx)]
      have hlen : m.length < n := by
        rw [length_cons] at hn
        omega
      rcases ih hl hnot (hR p mem_cons_self) (fun y hy => hR y (mem_cons_of_mem _ hy))
        rfl hlen with hfound | ⟨hnone, hloop⟩
      · exact .inl hfound
      · refine .inr ⟨fun y hy => ?_, ?_⟩
        · rcases mem_cons.mp hy with rfl | hy
          · omega
          · exact hnone y hy
        · rw [hloop, length_cons]
          congr 1
          omega

/-- One round through the list takes a block, or finds none large enough. -/
theorem walk_round (hf : FreeList h fl) (hpos : 0 < nunits) (hn : fl.length < n) :
    (∃ prev h' q fl', h.carve nunits prev (h.ptr prev) = (h', q) ∧ Carved h nunits fl h' q fl' ∧
      walk h nunits found again n h.freep (h.ptr h.freep) = some (found prev (h.ptr prev))) ∨
    ((∀ b ∈ fl, b.2 < nunits) ∧
      walk h nunits found again n h.freep (h.ptr h.freep) = again (n - fl.length - 1)) := by
  obtain ⟨l, hl, hperm⟩ := hf.rotate
  have hlen : l.length = fl.length := by
    have := hperm.length_eq
    simpa using this
  have hround : Leads h.ptr (h.ptr h.freep) (l ++ [h.freep]) (h.ptr h.freep) :=
    leads_append.mpr ⟨h.freep, hl.2, rfl, rfl⟩
  have hnd := (hperm.nodup_iff.mpr hf.nodup)
  rcases walk_pass (R := h.base :: fl.map Prod.fst) l hround (nodup_cons.mp hnd).1 hf.freep
    (fun x hx => hperm.mem_iff.mp (mem_cons_of_mem _ hx)) rfl (hlen ▸ hn) with
    ⟨prev, hprev, hfits, hloop⟩ | ⟨hnone, hloop⟩
  · obtain ⟨h', q, fl', hcarve, hspec⟩ := carve_spec hf hpos hprev hfits
    exact .inl ⟨prev, h', q, fl', hcarve, hspec, hloop⟩
  · refine .inr ⟨fun b hb => ?_, by rw [hloop, hlen]⟩
    rw [← hf.size b hb]
    refine hnone b.1 ?_
    have hmem : b.1 ∈ h.freep :: l :=
      hperm.mem_iff.mpr (mem_cons_of_mem _ (mem_map_of_mem hb))
    simpa [or_comm] using hmem

end Walk

theorem mallocLoop_round (answers : List (Option Nat)) (hf : FreeList h fl) (hpos : 0 < nunits)
    (hn : fl.length < n) :
    (∃ h' q fl', mallocLoop nunits n answers h h.freep (h.ptr h.freep) = some (h', q) ∧
      Carved h nunits fl h' q fl') ∨
    ((∀ b ∈ fl, b.2 < nunits) ∧
      mallocLoop nunits n answers h h.freep (h.ptr h.freep) =
        grow nunits (n - fl.length - 1) answers h) := by
  rw [mallocLoop_eq_walk]
  rcases walk_round hf hpos hn with ⟨prev, h', q, fl', hcarve, hspec, hloop⟩ | ⟨hnone, hloop⟩
  · exact .inl ⟨h', q, fl', by rw [hloop, hcarve], hspec⟩
  · exact .inr ⟨hnone, hloop⟩

end Xv6.Malloc
