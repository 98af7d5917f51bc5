import Xv6.Mem.Loader
import Xv6.Mem.SmallImage

/-! # When loading breaks no rule

    `exec` starts an image at `PGSIZE` and `allocuvm` maps the pages between the size so far and the
    end of the segment, so the pages from 1 up to the size are mapped and page 0 never is. A segment
    that passes the tests of `exec` ends below the size, hence the only segments that `loaduvm`
    cannot store are those at address 0 with bytes in the file.

    `Source.Breaks` says that `exec` gets to such a segment, or uses a header after `readi` failed;
    `Source.buildImage_ends` that nothing else goes wrong.
-/

namespace Xv6.Mem

open ByteMem Program

variable {τ : Type} {L : Layout} {s s' s₀ : Phys} {ρ ρ' ρ0 : Nat → Role τ} {fl fl' fl₀ : List Nat}
  {d n k sz u filesz i off : Nat} {t : τ} {argv : List CStr}

/-! ## The tables of an image -/

open Classical in
/-- One page more takes a page, or a page and a table. -/
theorem userNeed_step (k : Nat) : ∀ (T : Nat → Prop) (n : Nat),
    userNeed T n (k + 1) = userNeed T n k + 1 ∨ userNeed T n (k + 1) = userNeed T n k + 2 := by
  induction k with
  | zero =>
    intro T n
    unfold userNeed
    split
    · exact .inl rfl
    · exact .inr rfl
  | succ k ih =>
    intro T n
    have := ih (fun i => T i ∨ i = n / 1024) (n + 1)
    have hnext : ∀ k, userNeed T n (k + 1) = (1 + if T (n / 1024) then 0 else 1) +
        userNeed (fun i => T i ∨ i = n / 1024) (n + 1) k := fun _ => rfl
    rw [hnext, hnext]
    omega

/-- Each page that is taken is a page or a table. -/
theorem userNeed_split {T : Nat → Prop} {p : Nat} (k : Nat) (h : p < userNeed T n k) :
    ∃ j < k, p = userNeed T n j ∨
      (p = userNeed T n j + 1 ∧ userNeed T n (j + 1) = userNeed T n j + 2) := by
  induction k with
  | zero => exact absurd h (Nat.not_lt_zero _)
  | succ k ih =>
    by_cases hlt : p < userNeed T n k
    · obtain ⟨j, hj, hp⟩ := ih hlt
      exact ⟨j, by omega, hp⟩
    · refine ⟨k, by omega, ?_⟩
      rcases userNeed_step k T n with hs | hs <;> omega

theorem Grown.hasTab (h : Inv L s ρ fl 0) (h' : Inv L s' ρ' fl' 0)
    (hg : Grown s ρ fl d n k s' ρ' fl') (i : Nat) :
    HasTab ρ' d i ↔ HasTab ρ d i ∨ ∃ j < k, i = (n + j) / 1024 := by
  have hsplit : fl.take (userNeed (HasTab ρ d) n k) ++ fl' = fl := by
    rw [hg.took.list]
    exact List.take_append_drop ..
  rw [hasTab_of_taken (fl.take (userNeed (HasTab ρ d) n k)) (hsplit.symm ▸ h) h' hg.kept i]
  constructor
  · rintro (hold | ⟨a, ha, hrole⟩)
    · exact .inl hold
    obtain ⟨p, hp⟩ := List.mem_iff_getElem?.mp ha
    rw [List.getElem?_take] at hp
    split at hp
    swap
    · cases hp
    next hlt =>
    obtain ⟨j, hj, rfl | ⟨rfl, htwo⟩⟩ := userNeed_split k hlt
    · -- the page itself is not a table
      obtain ⟨u, hu, hur, -⟩ := hg.page j hj
      rw [hp] at hu
      rw [← Option.some.inj hu, hrole] at hur
      cases hur
    · obtain ⟨b, hb, hbr⟩ := hg.table j hj htwo
      rw [hp] at hb
      rw [← Option.some.inj hb, hrole] at hbr
      exact .inr ⟨j, hj, by simpa using hbr⟩
  · rintro (hold | ⟨j, hj, hi⟩)
    · exact .inl hold
    obtain ⟨u, -, hur, -⟩ := hg.page j hj
    obtain ⟨-, a, ha, -⟩ := h'.trees.userOf u d _ hur
    rw [← hi] at ha
    by_cases hfree : ρ a = .free
    · refine .inr ⟨a, ?_, ha⟩
      have hin := (h.free a).mpr hfree
      rw [← hsplit] at hin
      refine (List.mem_append.mp hin).resolve_right fun hout => ?_
      rw [h'.free a, ha] at hout
      cases hout
    · rw [hg.kept a hfree] at ha
      exact .inl ⟨a, ha⟩

/-! ## The image while it is loaded -/

/-- The image has size `sz`. Since `s₀` it took exactly the pages that this size needs, and each
    user page has its entry. -/
structure Loading (L : Layout) (s₀ : Phys) (fl₀ : List Nat) (t : τ) (d sz : Nat) (s : Phys)
    (ρ : Nat → Role τ) (fl : List Nat) : Prop where
  inv   : Inv L s ρ fl 0
  dir   : ρ d = .dir t
  size  : 4096 ≤ sz ∧ sz < 0x80000000
  shape : Shape ρ d sz
  took  : Took s₀ fl₀ s fl (KVMPAGES + copyNeed (pages sz - 1))
  tabs  : ∀ i < 512, HasTab ρ d i ↔ 1 < pages sz ∧ i ≤ (pages sz - 1) / 1024
  user  : ∀ u m, ρ u = .user d m → EntryIs s ρ d m (V2P u + 7)

theorem NewDir.loading (h : Inv L s ρ fl 0) (h' : Inv L s' ρ' fl' 0)
    (hnew : NewDir ρ d t KernTab ρ') (htook : Took s fl s' fl' KVMPAGES)
    (htabs : ∀ i, HasTab ρ' d i ↔ KernTab i) : Loading L s fl t d PGSIZE s' ρ' fl' where
  inv := h'
  dir := hnew.dir
  size := by decide
  shape := hnew.shape h
  took := htook
  tabs i hi := by
    rw [htabs]
    unfold KernTab
    have : pages PGSIZE = 1 := rfl
    omega
  user u m hu := absurd ⟨u, hu⟩ (hnew.not_maps h m)

theorem Loading.write {m : Nat} (h : Loading L s₀ fl₀ t d sz s ρ fl) (hu : ρ u = .user d m)
    (hfl : s'.freelist = s.freelist) (hdeny : s'.deny = s.deny)
    (hsame : ∀ x, x < u ∨ u + 4096 ≤ x → s'.mem x = s.mem x) : Loading L s₀ fl₀ t d sz s' ρ fl where
  inv := h.inv.writeUser hu hfl hsame
  dir := h.dir
  size := h.size
  shape := h.shape
  took := ⟨h.took.grants, h.took.list, hdeny.trans h.took.deny⟩
  tabs := h.tabs
  user v m' hv := (h.user v m' hv).write h.inv hu hsame

/-- Where every user page has its entry, so do the new ones. -/
theorem Grown.user (h' : Inv L s' ρ' fl' 0) (h : Inv L s ρ fl 0)
    (hold : ∀ u m, ρ u = .user d m → EntryIs s ρ d m (V2P u + 7))
    (hg : Grown s ρ fl d n k s' ρ' fl') (u m : Nat) (hu : ρ' u = .user d m) :
    EntryIs s' ρ' d m (V2P u + 7) := by
  -- the page of a number is unique
  rcases (hg.maps m).mp ⟨u, hu⟩ with ⟨v, hv⟩ | ⟨h1, h2⟩
  · have hv' : ρ' v = .user d m := by rw [hg.kept v (by simp [hv]), hv]
    obtain rfl := h'.trees.user_unique hu hv'
    have hpu : L.IsPage u := h.isPage hv (by simp)
    have hodd : (V2P u + 7) % 2 = 1 := by
      have h3 := hpu.mod
      have h1 := hpu.gt
      rw [hpu.V2P]
      omega
    exact (hold u m hv).keep hodd hg.keeps fun a d' i ha => by
      rw [hg.kept a (by simp [ha]), ha]
  · obtain ⟨v, -, hv, hent⟩ := hg.page (m - n) (by omega)
    rw [show n + (m - n) = m by omega] at hv hent
    obtain rfl := h'.trees.user_unique hu hv
    exact hent

theorem Loading.grown {newsz : Nat} (h : Loading L s₀ fl₀ t d sz s ρ fl) (hle : sz ≤ newsz)
    (hlt : newsz < 0x80000000) (h' : Inv L s' ρ' fl' 0)
    (hg : Grown s ρ fl d (pages sz) (pages newsz - pages sz) s' ρ' fl') :
    Loading L s₀ fl₀ t d newsz s' ρ' fl' := by
  have hsz := h.size
  obtain ⟨hp1, hp2, hp3⟩ :=
    pages_bounds (show 0 < sz by omega) (show sz ≤ newsz by omega) (by omega)
  refine ⟨h', by rw [hg.kept d (by simp [h.dir]), h.dir], ⟨by omega, hlt⟩, fun m => ?_, ?_,
    fun i hi => ?_, fun u m hu => ?_⟩
  · rw [hg.maps, h.shape m]
    omega
  · have hneed := userNeed_eq (pages newsz - pages sz) hp1 (by omega) h.tabs
    have htook := h.took.trans hg.took
    rwa [add_assoc, hneed, show pages sz - 1 + (pages newsz - pages sz) = pages newsz - 1 by
      omega] at htook
  · rw [hg.hasTab h.inv h', h.tabs i hi]
    constructor
    · rintro (⟨h1, h2⟩ | ⟨j, hj, hij⟩)
      · exact ⟨by omega, h2.trans (Nat.div_le_div_right (by omega))⟩
      · exact ⟨by omega, by rw [hij]; exact Nat.div_le_div_right (by omega)⟩
    · rintro ⟨h1, h2⟩
      by_cases hold : 1 < pages sz ∧ i ≤ (pages sz - 1) / 1024
      · exact .inl hold
      · -- the first page of the table, or page 1
        refine .inr ⟨max (1024 * i) (pages sz) - pages sz, by omega, by omega⟩
  · exact hg.user h' h.inv h.user u m hu

/-- `allocuvm` succeeds where the new size is a user's and its pages are granted. -/
theorem Loading.allocuvm (h : Loading L s₀ fl₀ t d sz s ρ fl) (newsz : Nat) :
    ∃ r s' ρ' fl', Ends (allocuvm L d sz newsz) s r s' ∧ Local d ρ ρ' ∧
      ((r = max sz newsz ∧ newsz < KERNBASE ∧
          Grants s₀ fl₀ (KVMPAGES + copyNeed (pages (max sz newsz) - 1)) ∧
          Loading L s₀ fl₀ t d r s' ρ' fl') ∨
        (r = 0 ∧ Inv L s' ρ' fl' 0 ∧ ¬ (newsz < KERNBASE ∧
          Grants s₀ fl₀ (KVMPAGES + copyNeed (pages (max sz newsz) - 1))))) := by
  have hsz := h.size
  by_cases hnew : newsz ≥ KERNBASE
  · exact ⟨0, s, ρ, fl, allocuvm_refuses hnew, .refl d ρ,
      .inr ⟨rfl, h.inv, fun hc => absurd hc.1 (by omega)⟩⟩
  by_cases hlt : newsz < sz
  · have hmax : max sz newsz = sz := by omega
    refine ⟨sz, s, ρ, fl, allocuvm_keeps hnew hlt, .refl d ρ, .inl ⟨by omega, by omega, ?_, h⟩⟩
    rw [hmax]
    exact h.took.grants
  have hmax : max sz newsz = newsz := by omega
  rw [hmax]
  simp only [KERNBASE] at hnew ⊢
  obtain ⟨hp1, hp2, hp3⟩ :=
    pages_bounds (show 0 < sz by omega) (show sz ≤ newsz by omega) (by omega)
  obtain ⟨r, s', ρ', fl', he, hinv, hloc, hres⟩ := allocuvm_spec sz newsz h.inv h.dir
    (by omega) (by omega) fun m h1 h2 hm => by
      have := (h.shape m).mp hm
      omega
  refine ⟨r, s', ρ', fl', he, hloc, ?_⟩
  have hneed := userNeed_eq (pages newsz - pages sz) hp1 (by omega) h.tabs
  rw [show pages sz - 1 + (pages newsz - pages sz) = pages newsz - 1 by omega] at hneed
  rcases hres with ⟨rfl, hg⟩ | ⟨rfl, hno, -⟩
  · have hl := h.grown (by omega) (by omega) hinv hg
    exact .inl ⟨rfl, by omega, hl.took.grants, hl⟩
  · refine .inr ⟨rfl, hinv, fun hc => hno ?_⟩
    rw [← grants_add h.took, add_assoc, hneed]
    exact hc.2

/-! ## One segment -/

/-- The bytes that `loaduvm` reads for page `j` of a segment. -/
def pageCount (sz j : Nat) : Nat :=
  if sz - PGSIZE * j < PGSIZE then sz - PGSIZE * j else PGSIZE

/-- `readi` gives all bytes of the first pages of a segment. -/
def Source.Full (src : Source) (seg offset sz : Nat) : Prop :=
  ∀ j < pages sz, toU32 (src.readi (.page seg j) (u32 (offset + PGSIZE * j)) (pageCount sz j)) =
    pageCount sz j

instance (src : Source) (seg offset sz : Nat) : Decidable (src.Full seg offset sz) := by
  unfold Source.Full
  infer_instance

theorem userEntry_page (hpu : L.IsPage u) :
    UserEntry (V2P u + 7) ∧ P2V (PTE_ADDR (V2P u + 7)) = u := by
  have h1 := hpu.gt
  have h2 := hpu.lt
  have h3 := hpu.mod
  refine ⟨⟨(Mem.present_iff _).mpr ?_, (and_PTE_U _).mpr ?_⟩, ?_⟩
  · rw [hpu.V2P]
    omega
  · rw [hpu.V2P]
    omega
  · rw [hpu.V2P]
    simp only [PTE_ADDR, P2V, PGSIZE, KERNBASE, u32]
    omega

variable {src : Source} {seg offset : Nat}

/-- The loop of `loaduvm` on pages that are mapped. -/
theorem Loading.loadFrom (src : Source) (seg offset : Nat) {b : Nat} (hb : 1 ≤ b)
    (hend : 4096 * b + filesz ≤ sz) (fuel : Nat) : ∀ (j : Nat) {s : Phys},
    pages filesz - j < fuel → Loading L s₀ fl₀ t d sz s ρ fl →
    ∃ ok s', Ends (src.loadFrom true d (4096 * b) seg offset filesz fuel (4096 * j)) s ok s' ∧
      Loading L s₀ fl₀ t d sz s' ρ fl ∧
      (ok = true ↔ ∀ i, j ≤ i → i < pages filesz →
        toU32 (src.readi (.page seg i) (u32 (offset + PGSIZE * i)) (pageCount filesz i)) =
          pageCount filesz i) := by
  induction fuel with
  | zero => exact fun j s hf => absurd hf (Nat.not_lt_zero _)
  | succ fuel ih =>
    intro j s hf h
    have hsz := h.size
    unfold Ends
    rw [Source.loadFrom]
    by_cases hlt : 4096 * j < filesz
    swap
    · rw [if_neg hlt]
      refine ⟨true, s, rfl, h, ⟨fun _ i h1 h2 => ?_, fun _ => rfl⟩⟩
      unfold pages at h2
      omega
    rw [if_pos hlt, u32_of_lt (by omega), ← mul_add]
    obtain ⟨u, hu⟩ := (h.shape (b + j)).mpr ⟨by omega, by unfold pages; omega⟩
    obtain ⟨a, ha, hl⟩ := h.user u (b + j) hu
    obtain ⟨huser, hP⟩ := userEntry_page (h.inv.isPage hu (by simp))
    rw [run_bind_of_ends (h.inv.ends_walk (by omega) ha false)]
    dsimp only
    rw [run_bind_of_ends (ends_load32.mpr ⟨rfl, rfl⟩), hl, demand_of huser, pure_bind,
      run_bind_of_ends ((ends_memmove (r := ())).mpr rfl), hP,
      show 4096 * j / PGSIZE = j by simp only [PGSIZE]; omega]
    have hcount : (if filesz - 4096 * j < PGSIZE then filesz - 4096 * j else PGSIZE) =
        pageCount filesz j := rfl
    have hle : pageCount filesz j ≤ 4096 := by
      unfold pageCount
      simp only [PGSIZE]
      split <;> omega
    rw [hcount]
    have hread := src.readi_le (.page seg j) (u32 (offset + 4096 * j)) (pageCount filesz j)
    -- the bytes go to the page itself
    have hw : Loading L s₀ fl₀ t d sz { s with
        mem := copy s.mem u (src.bytes (.page seg j) (u32 (offset + 4096 * j))) 0
          (src.readi (.page seg j) (u32 (offset + 4096 * j)) (pageCount filesz j)).toNat } ρ fl :=
      h.write hu rfl rfl fun x hx => if_neg (by omega)
    split
    · next hne =>
      refine ⟨false, _, rfl, hw, ⟨fun hc => (by cases hc), fun hall => ?_⟩⟩
      exact absurd (hall j le_rfl (by unfold pages; omega)) hne
    · next heq =>
      rw [next_page (by omega)]
      obtain ⟨ok, s', he, hload, hok⟩ := ih (j + 1) (by unfold pages at *; omega) hw
      refine ⟨ok, s', he, hload, hok.trans ⟨fun hall i h1 h2 => ?_, fun hall i h1 h2 => ?_⟩⟩
      · by_cases hij : i = j
        · subst hij
          exact not_not.mp heq
        · exact hall i (by omega) h2
      · exact hall i (by omega) h2

theorem Loading.loaduvm (src : Source) (seg offset : Nat) {vaddr : Nat}
    (h : Loading L s₀ fl₀ t d sz s ρ fl) (hal : vaddr % PGSIZE = 0) (hend : vaddr + filesz ≤ sz)
    (hz : vaddr = 0 → filesz = 0) :
    ∃ ok s', Ends (src.loaduvm true d vaddr seg offset filesz) s ok s' ∧
      Loading L s₀ fl₀ t d sz s' ρ fl ∧ (ok = true ↔ src.Full seg offset filesz) := by
  have hsz := h.size
  unfold Ends Source.loaduvm
  rw [if_neg (by omega)]
  by_cases h0 : vaddr = 0
  · -- nothing to load
    refine ⟨true, s, ?_, h, ⟨fun _ j hj => ?_, fun _ => rfl⟩⟩
    · rw [hz h0]
      rfl
    · rw [hz h0] at hj
      exact absurd hj (Nat.not_lt_zero j)
  simp only [PGSIZE] at hal
  obtain ⟨ok, s', he, hload, hok⟩ := h.loadFrom src seg offset (show 1 ≤ vaddr / 4096 by omega)
    (show _ + filesz ≤ sz by omega) MAXPAGES 0 (by unfold pages; simp only [MAXPAGES]; omega)
  rw [show 4096 * (vaddr / 4096) = vaddr by omega] at he
  exact ⟨ok, s', he, hload, hok.trans ⟨fun hall j hj => hall j (Nat.zero_le j) hj,
    fun hall j _ hj => hall j hj⟩⟩

/-- A segment at address 0 in an image without a table for it. -/
theorem Loading.loaduvm_panics (h : Loading L s₀ fl₀ t d sz s ρ fl) (htab : ¬ HasTab ρ d 0)
    (hpos : 0 < filesz) (strict : Bool) :
    (src.loaduvm strict d 0 seg offset filesz).run s =
      .error (.panic "loaduvm: address should exist") := by
  have hfuel : MAXPAGES = 1048575 + 1 := by decide
  have hwalk : Ends (walkpgdir d (4096 * 0) false) s none s :=
    h.inv.ends_walk_none h.dir (by decide) htab
  unfold Source.loaduvm
  rw [if_neg (by decide), hfuel, Source.loadFrom, if_pos hpos]
  exact run_bind_of_ends hwalk

/-- A segment at address 0: there is no page to store to. -/
theorem Loading.loaduvm_zero {ok : Bool} (h : Loading L s₀ fl₀ t d sz s ρ fl) (hpos : 0 < filesz) :
    ¬ Ends (src.loaduvm true d 0 seg offset filesz) s ok s' := by
  intro he
  have hno : ¬ Maps ρ d 0 := fun hm => absurd ((h.shape 0).mp hm).1 (by omega)
  by_cases htab : HasTab ρ d (0 / 1024)
  swap
  · exact he.ne_error (h.loaduvm_panics htab hpos true)
  obtain ⟨a, ha⟩ := htab
  have hfuel : MAXPAGES = 1048575 + 1 := by decide
  unfold Ends Source.loaduvm at he
  rw [if_neg (by decide), hfuel, Source.loadFrom, if_pos hpos] at he
  change (walkpgdir d (4096 * 0) false >>= _).run s = _ at he
  rw [run_bind_of_ends (h.inv.ends_walk (by decide) ha false)] at he
  dsimp only at he
  rw [run_bind_of_ends (ends_load32.mpr ⟨rfl, rfl⟩), h.inv.entry_zero ha (by decide) hno] at he
  obtain ⟨_, _, hdem, -⟩ := ends_bind.mp he
  unfold demand at hdem
  rw [if_pos ⟨rfl, by decide⟩] at hdem
  exact not_ends_throw hdem

/-! ## All segments -/

/-- A segment passes the tests of `exec`, in an image of size `sz`. -/
def ProgHdr.Passes (ph : ProgHdr) (s : Phys) (sz : Nat) : Prop :=
  ¬ ph.memsz < ph.filesz ∧ ¬ u32 (ph.vaddr + ph.memsz) < ph.vaddr ∧
  u32 (ph.vaddr + ph.memsz) < KERNBASE ∧
  granted (KVMPAGES + copyNeed (pages (max sz (u32 (ph.vaddr + ph.memsz))) - 1)) s = true ∧
  ph.vaddr % PGSIZE = 0

/-- The `n` program headers from number `i` on bring `exec` to a segment at
    address 0 with bytes in the file. -/
def Source.Hits (src : Source) (s : Phys) : Nat → Nat → Nat → Nat → Prop
  | 0, _, _, _ => False
  | n + 1, i, off, sz =>
      let ph := src.proghdr i off
      src.readi (.ph i) off PROGHDR = PROGHDR ∧
        if ph.type ≠ ELF_PROG_LOAD then src.Hits s n (i + 1) (u32 (off + PROGHDR)) sz
        else ph.Passes s sz ∧
          ((ph.vaddr = 0 ∧ 0 < ph.filesz) ∨
            (src.Full i ph.off ph.filesz ∧
              src.Hits s n (i + 1) (u32 (off + PROGHDR)) (max sz (u32 (ph.vaddr + ph.memsz)))))

theorem Source.segment_end (src : Source)
    (hf : ¬ (src.proghdr i off).memsz < (src.proghdr i off).filesz)
    (hw : ¬ u32 ((src.proghdr i off).vaddr + (src.proghdr i off).memsz) < (src.proghdr i off).vaddr)
    (hk : u32 ((src.proghdr i off).vaddr + (src.proghdr i off).memsz) < KERNBASE) :
    (src.proghdr i off).vaddr + (src.proghdr i off).filesz ≤
      max sz (u32 ((src.proghdr i off).vaddr + (src.proghdr i off).memsz)) := by
  have hv : (src.proghdr i off).vaddr < 2 ^ 32 := load_lt _ _ 4
  have hm : (src.proghdr i off).memsz < 2 ^ 32 := load_lt _ _ 4
  unfold u32 at hw hk ⊢
  simp only [KERNBASE] at hk
  omega

/-- `readi` returns the size of a program header only as such. -/
theorem Source.readi_header_iff {c : Call} (hn : n < 2 ^ 31) :
    toU32 (src.readi c off n) = n ↔ src.readi c off n = n := by
  have h1 := src.readi_ge c off n
  have h2 := src.readi_le c off n
  unfold toU32
  omega

/-- One round of the loop, for a segment to load. -/
theorem Source.loadSegments_load (strict : Bool) (hr : src.readi (.ph i) off PROGHDR = PROGHDR)
    (ht : (src.proghdr i off).type = ELF_PROG_LOAD)
    (hf : ¬ (src.proghdr i off).memsz < (src.proghdr i off).filesz)
    (hw : ¬ u32 ((src.proghdr i off).vaddr + (src.proghdr i off).memsz) <
      (src.proghdr i off).vaddr) :
    src.loadSegments L strict d (n + 1) i off sz = (do
      let sz ← Mem.allocuvm L d sz (u32 ((src.proghdr i off).vaddr + (src.proghdr i off).memsz))
      if sz = 0 then return none
      else if (src.proghdr i off).vaddr % PGSIZE ≠ 0 then return none
      else do
        let ok ← src.loaduvm strict d (src.proghdr i off).vaddr i (src.proghdr i off).off
          (src.proghdr i off).filesz
        if ok then src.loadSegments L strict d n (i + 1) (u32 (off + PROGHDR)) sz
        else return none) := by
  have hr' : toU32 (src.readi (.ph i) off PROGHDR) = PROGHDR :=
    (readi_header_iff (by decide)).mpr hr
  rw [loadSegments, if_neg (not_not.mpr hr'), demand_of hr, pure_bind]
  dsimp only
  rw [if_neg (not_not.mpr ht), if_neg hf, if_neg hw]

/-- One round of the loop, for a segment that is skipped. -/
theorem Source.loadSegments_skip (strict : Bool) (hr : src.readi (.ph i) off PROGHDR = PROGHDR)
    (ht : (src.proghdr i off).type ≠ ELF_PROG_LOAD) :
    src.loadSegments L strict d (n + 1) i off sz =
      src.loadSegments L strict d n (i + 1) (u32 (off + PROGHDR)) sz := by
  have hr' : toU32 (src.readi (.ph i) off PROGHDR) = PROGHDR :=
    (readi_header_iff (by decide)).mpr hr
  rw [loadSegments, if_neg (not_not.mpr hr'), demand_of hr, pure_bind]
  dsimp only
  rw [if_pos ht]

theorem Loading.passes_iff (h0 : Inv L s₀ ρ' fl₀ 0) {ph : ProgHdr} : ph.Passes s₀ sz ↔
    ¬ ph.memsz < ph.filesz ∧ ¬ u32 (ph.vaddr + ph.memsz) < ph.vaddr ∧
    (u32 (ph.vaddr + ph.memsz) < KERNBASE ∧
      Grants s₀ fl₀ (KVMPAGES + copyNeed (pages (max sz (u32 (ph.vaddr + ph.memsz))) - 1))) ∧
    ph.vaddr % PGSIZE = 0 := by
  unfold ProgHdr.Passes
  rw [h0.granted_iff, and_assoc]

/-- The loop ends where it does not get to a segment at address 0. -/
theorem Loading.loadSegments (h0 : Inv L s₀ ρ0 fl₀ 0) (n : Nat) :
    ∀ (i off sz : Nat) {s : Phys} {ρ : Nat → Role τ} {fl : List Nat},
    Loading L s₀ fl₀ t d sz s ρ fl → ¬ src.Hits s₀ n i off sz →
    ∃ r s' ρ' fl', Ends (src.loadSegments L true d n i off sz) s r s' ∧ Inv L s' ρ' fl' 0 ∧
      Local d ρ ρ' ∧ ∀ sz', r = some sz' → Loading L s₀ fl₀ t d sz' s' ρ' fl' := by
  induction n with
  | zero =>
    intro i off sz s ρ fl h _
    refine ⟨some sz, s, ρ, fl, rfl, h.inv, .refl d ρ, fun sz' hr => ?_⟩
    cases hr
    exact h
  | succ n ih =>
    intro i off sz s ρ fl h hno
    -- every `goto bad` leaves the state as it is at that point
    have hbad : ∀ {x : VM (Option Nat)}, x = pure none →
        ∃ r s' ρ' fl', Ends x s r s' ∧ Inv L s' ρ' fl' 0 ∧ Local d ρ ρ' ∧
          ∀ sz', r = some sz' → Loading L s₀ fl₀ t d sz' s' ρ' fl' := by
      intro x hx
      exact ⟨none, s, ρ, fl, by rw [hx]; rfl, h.inv, .refl d ρ, by simp⟩
    by_cases hr : src.readi (.ph i) off PROGHDR = PROGHDR
    swap
    · refine hbad ?_
      rw [Source.loadSegments, if_pos fun hc => hr ((Source.readi_header_iff (by decide)).mp hc)]
    have hno' := not_and.mp hno hr
    by_cases ht : (src.proghdr i off).type = ELF_PROG_LOAD
    swap
    · rw [Source.loadSegments_skip true hr ht]
      rw [if_pos ht] at hno'
      exact ih _ _ _ h hno'
    rw [if_neg (not_not.mpr ht), Loading.passes_iff h0] at hno'
    have hr' : toU32 (src.readi (.ph i) off PROGHDR) = PROGHDR :=
      (Source.readi_header_iff (by decide)).mpr hr
    by_cases hf : (src.proghdr i off).memsz < (src.proghdr i off).filesz
    · refine hbad ?_
      rw [Source.loadSegments, if_neg (not_not.mpr hr'), demand_of hr, pure_bind]
      dsimp only
      rw [if_neg (not_not.mpr ht), if_pos hf]
    by_cases hw : u32 ((src.proghdr i off).vaddr + (src.proghdr i off).memsz) <
        (src.proghdr i off).vaddr
    · refine hbad ?_
      rw [Source.loadSegments, if_neg (not_not.mpr hr'), demand_of hr, pure_bind]
      dsimp only
      rw [if_neg (not_not.mpr ht), if_neg hf, if_pos hw]
    rw [Source.loadSegments_load true hr ht hf hw]
    obtain ⟨r1, s1, ρ1, fl1, he1, hloc1, hres⟩ := h.allocuvm
      (u32 ((src.proghdr i off).vaddr + (src.proghdr i off).memsz))
    unfold Ends
    rw [run_bind_of_ends he1]
    rcases hres with ⟨rfl, hk, hg, h1⟩ | ⟨rfl, hinv1, -⟩
    swap
    · exact ⟨none, s1, ρ1, fl1, rfl, hinv1, hloc1, by simp⟩
    rw [if_neg (by have := h.size; omega)]
    by_cases hal : (src.proghdr i off).vaddr % PGSIZE = 0
    swap
    · rw [if_pos hal]
      exact ⟨none, s1, ρ1, fl1, rfl, h1.inv, hloc1, by simp⟩
    rw [if_neg (not_not.mpr hal)]
    rw [not_and] at hno'
    have hno'' := not_or.mp (hno' ⟨hf, hw, ⟨hk, hg⟩, hal⟩)
    -- the segment ends below the new size
    obtain ⟨ok, s2, he2, h2, hok⟩ := h1.loaduvm src i (src.proghdr i off).off hal
      (src.segment_end hf hw hk)
      (fun hz => by
        by_contra hne
        exact hno''.1 ⟨hz, by omega⟩)
    rw [run_bind_of_ends he2]
    cases ok with
    | false => exact ⟨none, s2, ρ1, fl1, rfl, h2.inv, hloc1, by simp⟩
    | true =>
      obtain ⟨r, s', ρ', fl', he, hinv, hloc, hres⟩ :=
        ih _ _ _ h2 fun hh => hno''.2 ⟨hok.mp rfl, hh⟩
      exact ⟨r, s', ρ', fl', he, hinv, hloc1.trans hloc, hres⟩

/-- The loop does not end where it gets to a segment at address 0. -/
theorem Loading.not_loadSegments (h0 : Inv L s₀ ρ0 fl₀ 0) (n : Nat) :
    ∀ (i off sz : Nat) {s : Phys} {ρ : Nat → Role τ} {fl : List Nat} {r : Option Nat},
    Loading L s₀ fl₀ t d sz s ρ fl → src.Hits s₀ n i off sz →
    ¬ Ends (src.loadSegments L true d n i off sz) s r s' := by
  induction n with
  | zero => exact fun _ _ _ _ _ _ _ _ hhit => hhit.elim
  | succ n ih =>
    intro i off sz s ρ fl r h ⟨hr, hhit⟩ he
    by_cases ht : (src.proghdr i off).type = ELF_PROG_LOAD
    swap
    · rw [Source.loadSegments_skip true hr ht] at he
      rw [if_pos ht] at hhit
      exact ih _ _ _ h hhit he
    rw [if_neg (not_not.mpr ht), Loading.passes_iff h0] at hhit
    obtain ⟨⟨hf, hw, hkg, hal⟩, hhit⟩ := hhit
    rw [Source.loadSegments_load true hr ht hf hw] at he
    obtain ⟨r1, s1, ρ1, fl1, he1, -, hres⟩ := h.allocuvm
      (u32 ((src.proghdr i off).vaddr + (src.proghdr i off).memsz))
    unfold Ends at he
    rw [run_bind_of_ends he1] at he
    rcases hres with ⟨rfl, hk, -, h1⟩ | ⟨-, -, hno⟩
    swap
    · exact hno hkg
    rw [if_neg (by have := h.size; omega), if_neg (not_not.mpr hal)] at he
    obtain ⟨ok, s2, he2, he3⟩ := ends_bind.mp he
    by_cases hzero : (src.proghdr i off).vaddr = 0 ∧ 0 < (src.proghdr i off).filesz
    · rw [hzero.1] at he2
      exact h1.loaduvm_zero hzero.2 he2
    obtain ⟨hfull, hrest⟩ := hhit.resolve_left hzero
    obtain ⟨ok', s2', he2', h2, hok⟩ := h1.loaduvm src i (src.proghdr i off).off hal
      (src.segment_end hf hw hk)
      (fun hz => by
        by_contra hne
        exact hzero ⟨hz, by omega⟩)
    obtain ⟨rfl, rfl⟩ := he2.unique he2'
    rw [hok.mpr hfull, if_pos rfl] at he3
    exact ih _ _ _ h2 hrest he3

/-! ## `exec` up to the commit -/

/-- `exec` breaks a rule of loading: it uses a header after `readi` failed, or it
    gets to a segment at address 0 with bytes in the file. -/
def Source.Breaks (src : Source) (s : Phys) : Prop :=
  src.readi .elf 0 ELFHDR = -1 ∨
    (src.readi .elf 0 ELFHDR = ELFHDR ∧ src.elfhdr.magic = ELF_MAGIC ∧
      granted KVMPAGES s = true ∧ src.Hits s src.elfhdr.phnum 0 src.elfhdr.phoff PGSIZE)

/-- Either the header is whole, or too short, or `readi` failed. -/
theorem Source.header_cases (src : Source) :
    src.readi .elf 0 ELFHDR = ELFHDR ∨ toU32 (src.readi .elf 0 ELFHDR) < ELFHDR ∨
      src.readi .elf 0 ELFHDR = -1 := by
  have h1 := src.readi_ge .elf 0 ELFHDR
  have h2 := src.readi_le .elf 0 ELFHDR
  unfold toU32
  simp only [ELFHDR] at h1 h2 ⊢
  omega

/-- `exec` gets a directory and goes to the program headers. -/
theorem Source.buildImage_fill {s1 : Phys} (strict : Bool) (hr : src.readi .elf 0 ELFHDR = ELFHDR)
    (hmagic : src.elfhdr.magic = ELF_MAGIC) (hset : Ends (setupkvm L) s d s1) (hd : d ≠ 0) :
    (src.buildImage L strict argv).run s = (do
      let r ← src.fillImage L strict d argv
      match r with
      | some (sz, sp) => return some { pgdir := d, sz, entry := src.elfhdr.entry, sp }
      | none => do
          freevm L d
          return none : VM (Option Image)).run s1 := by
  have hr' : ¬ toU32 (src.readi .elf 0 ELFHDR) < ELFHDR := by
    rw [hr]
    decide
  unfold buildImage
  rw [if_neg hr', demand_of hr, pure_bind, if_neg (not_not.mpr hmagic), run_bind_of_ends hset]
  exact congrArg (fun x : VM (Option Image) => x.run s1) (if_neg hd)

/-- `exec` ends where it breaks no rule; it builds an address space out of free pages or fails. -/
theorem Source.buildImage_ends (t : τ) (h : Inv L s ρ fl 0) (hfits : FitsStack 0 argv)
    (hno : ¬ src.Breaks s) :
    ∃ r s' ρ' fl', Ends (src.buildImage L true argv) s r s' ∧ Inv L s' ρ' fl' 0 ∧
      ∀ img, r = some img → NewSpace ρ img.pgdir t ρ' := by
  obtain ⟨hne, hhit⟩ := not_or.mp hno
  rcases src.header_cases with hr | hr | hr
  swap
  · refine ⟨none, s, ρ, fl, ?_, h, by simp⟩
    unfold Ends buildImage
    rw [if_pos hr]
    rfl
  swap
  · exact absurd hr hne
  have hr' : ¬ toU32 (src.readi .elf 0 ELFHDR) < ELFHDR := by
    rw [hr]
    decide
  by_cases hmagic : src.elfhdr.magic = ELF_MAGIC
  swap
  · refine ⟨none, s, ρ, fl, ?_, h, by simp⟩
    unfold Ends buildImage
    rw [if_neg hr', demand_of hr, pure_bind, if_pos hmagic]
    rfl
  obtain ⟨d, s1, ρ1, fl1, hset, h1, hres⟩ := setupkvm_spec t h
  -- without a directory
  have hzero : d = 0 → Ends (src.buildImage L true argv) s none s1 := by
    intro hd
    unfold Ends buildImage
    rw [if_neg hr', demand_of hr, pure_bind, if_neg (not_not.mpr hmagic), run_bind_of_ends hset,
      if_pos hd]
    rfl
  rcases hres with ⟨hd, -⟩ | ⟨hd, -⟩ | ⟨hd, htook, hnew, htabs⟩
  · exact ⟨none, s1, ρ1, fl1, hzero hd, h1, by simp⟩
  · exact ⟨none, s1, ρ1, fl1, hzero hd, h1, by simp⟩
  have hload := hnew.loading h h1 htook htabs
  obtain ⟨r2, s2, ρ2, fl2, he2, h2, hloc2, hres2⟩ := Loading.loadSegments h src.elfhdr.phnum 0
    src.elfhdr.phoff PGSIZE hload fun hh => hhit ⟨hr, hmagic, h.granted_iff.mpr htook.grants, hh⟩
  -- the segments, then the stack
  have hfill : ∃ r s' ρ' fl', Ends (src.fillImage L true d argv) s1 r s' ∧ Inv L s' ρ' fl' 0 ∧
      Local d ρ1 ρ' := by
    unfold fillImage
    unfold Ends
    rw [run_bind_of_ends he2]
    cases r2 with
    | none => exact ⟨none, s2, ρ2, fl2, rfl, h2, hloc2⟩
    | some sz =>
      have hl := hres2 sz rfl
      obtain ⟨r3, s3, ρ3, fl3, he3, h3, hsp3, -⟩ :=
        pushStack_spec hl.inv hl.dir hl.size hl.shape hfits
      exact ⟨r3, s3, ρ3, fl3, he3, h3, hloc2.trans hsp3.roles⟩
  obtain ⟨r3, s3, ρ3, fl3, he3, h3, hloc3⟩ := hfill
  have hspace := hnew.newSpace.local h hloc3
  unfold Ends
  rw [buildImage_fill true hr hmagic hset hd, run_bind_of_ends he3]
  cases r3 with
  | some p =>
    refine ⟨_, s3, ρ3, fl3, rfl, h3, fun img himg => ?_⟩
    cases himg
    exact hspace
  | none =>
    obtain ⟨s4, ns, us, he4, h4, -⟩ := freevm_spec h3 hspace.dir
    dsimp only
    rw [run_bind_of_ends he4]
    exact ⟨none, s4, _, _, rfl, h4, by simp⟩

/-- `exec` does not end where it breaks a rule. -/
theorem Source.not_buildImage {r : Option Image} (t : τ) (h : Inv L s ρ fl 0)
    (hbreak : src.Breaks s) : ¬ Ends (src.buildImage L true argv) s r s' := by
  intro he
  rcases hbreak with hr | ⟨hr, hmagic, hg, hhit⟩
  · unfold Ends buildImage at he
    rw [hr, if_neg (by decide)] at he
    obtain ⟨_, _, hdem, -⟩ := ends_bind.mp he
    unfold demand at hdem
    rw [if_pos ⟨rfl, by decide⟩] at hdem
    exact not_ends_throw hdem
  · have hg := h.granted_iff.mp hg
    obtain ⟨d, s1, ρ1, fl1, hset, h1, hres⟩ := setupkvm_spec t h
    rcases hres with ⟨-, -, -, hno⟩ | ⟨-, -, hno, -⟩ | ⟨hd, htook, hnew, htabs⟩
    · exact hno (hg.mono (by decide))
    · exact hno hg
    unfold Ends at he
    rw [buildImage_fill true hr hmagic hset hd] at he
    obtain ⟨r2, s2, he2, -⟩ := ends_bind.mp he
    obtain ⟨r3, s3, he3, -⟩ := ends_bind.mp he2
    exact Loading.not_loadSegments h _ _ _ _ (hnew.loading h h1 htook htabs) hhit he3

end Xv6.Mem
