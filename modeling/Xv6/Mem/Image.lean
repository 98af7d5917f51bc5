import Mathlib.Data.Nat.Bitwise
import Xv6.Mem.Copy
import Xv6.Mem.Exec

/-! # Specification of the user image

    What `loaduvm`, `clearpteu` and `copyout` do to pages, and from it that `exec` builds an address
    space out of free pages or gives back what it took. The results hold for argument strings that
    fit the stack page or start in the guard page below it: `copyout` copies one byte too many when
    it crosses the end of a page.
-/

namespace Xv6.Mem

open ByteMem Program

variable {τ : Type} {L : Layout} {s s' : Phys} {ρ ρ' : Nat → Role τ} {fl : List Nat}
  {q d n u a e addr offset sz : Nat} {t : τ} {ip : Content}

/-! ## Entries -/

theorem and_PTE_U (e : Nat) : e &&& PTE_U ≠ 0 ↔ e / 4 % 2 = 1 := by
  have h := Nat.and_two_pow e 2
  rw [show (2 : Nat) ^ 2 = 4 from rfl] at h
  show e &&& 4 ≠ 0 ↔ _
  rw [h, Nat.testBit_eq_decide_div_mod_eq]
  simp

/-- `e &= ~PTE_U`. -/
def clearU (e : Nat) : Nat := if e &&& PTE_U ≠ 0 then e - PTE_U else e

theorem clearU_spec (e : Nat) : clearU e ≤ e ∧ clearU e / 4096 = e / 4096 ∧
    clearU e % 2 = e % 2 ∧ clearU e &&& PTE_U = 0 := by
  unfold clearU
  split
  · next h =>
    have hb := (and_PTE_U e).mp h
    simp only [PTE_U]
    refine ⟨by omega, by omega, by omega, ?_⟩
    by_contra hc
    have := (and_PTE_U (e - 4)).mp hc
    omega
  · next h => exact ⟨le_rfl, rfl, rfl, by simpa using h⟩

section

variable (h : Inv L s ρ fl q)
include h

theorem Inv.entry (hu : ρ u = .user d n) :
    ∃ e, EntryIs s ρ d n e ∧ e % 2 = 1 ∧ P2V (PTE_ADDR e) = u := by
  obtain ⟨-, a, ha, hp⟩ := h.trees.userOf u d n hu
  refine ⟨load s.mem (a + 4 * (n % 1024)) 4, ⟨a, ha, rfl⟩, ?_⟩
  unfold ptr at hp
  dsimp only at hp
  split at hp
  · next hpres => exact ⟨(Mem.present_iff _).mp hpres, Option.some.inj hp⟩
  · cases hp

/-- The entry of a page number without a page, where there is a table. -/
theorem Inv.entry_zero (ha : ρ a = .table d (n / 1024)) (hn : n < 524288)
    (hno : ¬ Maps ρ d n) : load s.mem (a + 4 * (n % 1024)) 4 = 0 := by
  refine h.trees.zero a d _ ha (by omega) _ (Nat.mod_lt _ (by decide)) ?_
  by_contra hne
  obtain ⟨v, hv⟩ := Option.ne_none_iff_exists'.mp hne
  have := h.trees.user a d _ ha (by omega) _ (Nat.mod_lt _ (by decide)) v hv
  rw [show 1024 * (n / 1024) + n % 1024 = n by omega] at this
  exact hno ⟨v, this⟩

theorem EntryIs.write (he : EntryIs s ρ d n e) {d' m : Nat} (hu : ρ u = .user d' m)
    (hsame : ∀ x, x < u ∨ u + 4096 ≤ x → s'.mem x = s.mem x) : EntryIs s' ρ d n e := by
  obtain ⟨a, ha, hl⟩ := he
  refine ⟨a, ha, ?_⟩
  rw [← hl]
  have hdis := (h.isPage ha (by simp)).disjoint (h.isPage hu (by simp)) (ne_of_role ha hu (by simp))
  have hj : n % 1024 < 1024 := Nat.mod_lt _ (by decide)
  exact load_congr fun x h1 h2 => hsame x (by omega)

theorem Inv.writeUser (hu : ρ u = .user d n) (hfl : s'.freelist = s.freelist)
    (hsame : ∀ x, x < u ∨ u + 4096 ≤ x → s'.mem x = s.mem x) : Inv L s' ρ fl q :=
  h.write hfl (by simp [hu]) (by rw [hu]; simp [Role.Structural]) hsame

/-! ## `clearpteu` -/

/-- The flags of the entry of a user page change, all but `PTE_P`. -/
theorem Inv.setFlags (ha : ρ a = .table d (n / 1024)) (hp : ptr s.mem a (n % 1024) = some u)
    (hfl : s'.freelist = s.freelist) (hl : load s'.mem (a + 4 * (n % 1024)) 4 = e)
    (hsame : ∀ x, x < a + 4 * (n % 1024) ∨ a + 4 * (n % 1024) + 4 ≤ x → s'.mem x = s.mem x)
    (hdiv : e / 4096 = load s.mem (a + 4 * (n % 1024)) 4 / 4096) (hmod : e % 2 = 1) :
    Inv L s' ρ fl q ∧ ∀ m e', m ≠ n → EntryIs s ρ d m e' → EntryIs s' ρ d m e' := by
  have hj : n % 1024 < 1024 := Nat.mod_lt _ (by decide)
  have hpa : L.IsPage a := h.isPage ha (by simp)
  -- every other entry is as it was
  have hload : ∀ {b k}, ρ b ≠ .other → k < 1024 → ¬ (b = a ∧ k = n % 1024) →
      load s'.mem (b + 4 * k) 4 = load s.mem (b + 4 * k) 4 := by
    intro b k hb hk hne
    refine load_congr fun x h1 h2 => hsame x ?_
    by_cases hba : b = a
    · have : k ≠ n % 1024 := fun hc => hne ⟨hba, hc⟩
      omega
    · have := (h.page b hb).disjoint hpa hba
      omega
  -- this one still points to the same page
  have hself : ptr s'.mem a (n % 1024) = ptr s.mem a (n % 1024) := by
    have hold : present (load s.mem (a + 4 * (n % 1024)) 4) = true := by
      by_contra hc
      unfold ptr at hp
      dsimp only at hp
      rw [if_neg hc] at hp
      cases hp
    unfold ptr
    dsimp only
    rw [hl, if_pos ((Mem.present_iff e).mpr hmod), if_pos hold]
    simp only [PTE_ADDR, PGSIZE, hdiv]
  have hptr : ∀ {b k}, ρ b ≠ .other → k < 1024 → ptr s'.mem b k = ptr s.mem b k := by
    intro b k hb hk
    by_cases hbk : b = a ∧ k = n % 1024
    · obtain ⟨rfl, rfl⟩ := hbk
      exact hself
    · unfold ptr
      rw [hload hb hk hbk]
  refine ⟨?_, ?_⟩
  · refine h.retree hfl (fun b hb x h1 h2 => hsame x ?_) (fun _ => Iff.rfl) (fun _ => id)
      (h.trees.congr_ptr (fun b t hb k hk => hptr (by simp [hb]) hk)
        (fun b d' i hb k hk => hptr (by simp [hb]) hk) fun b d' i hb k hk hnone => ?_)
    · have := (h.isPage hb (by simp)).disjoint hpa (ne_of_role hb ha (by simp))
      omega
    · refine hload (by simp [hb]) hk ?_
      rintro ⟨rfl, rfl⟩
      rw [hp] at hnone
      cases hnone
  · rintro m e' hmn ⟨b, hb, hl'⟩
    refine ⟨b, hb, (hload (by simp [hb]) (Nat.mod_lt _ (by decide)) ?_).trans hl'⟩
    rintro ⟨rfl, hk⟩
    -- the same table and the same index would be the same page number
    obtain ⟨-, hdiv'⟩ : d = d ∧ m / 1024 = n / 1024 := by simpa using hb.symm.trans ha
    omega

theorem clearpteu_spec (hu : ρ u = .user d n) :
    ∃ s', Ends (clearpteu d (4096 * n)) s () s' ∧ Inv L s' ρ fl q ∧ s'.deny = s.deny ∧
      (∃ e, EntryIs s' ρ d n e ∧ e &&& PTE_U = 0) ∧
      ∀ m e, m ≠ n → EntryIs s ρ d m e → EntryIs s' ρ d m e := by
  obtain ⟨hn, a, ha, hp⟩ := h.trees.userOf u d n hu
  obtain ⟨e, ⟨a', ha', hedef⟩, hodd, -⟩ := h.entry hu
  obtain rfl : a = a' := h.trees.table_unique ha ha'
  have helt : e < 2 ^ 32 := by
    rw [← hedef]
    have := load_lt s.mem (a + 4 * (n % 1024)) 4
    omega
  obtain ⟨hle, hdiv, hmod, hU⟩ := clearU_spec e
  have hload : load (store s.mem (a + 4 * (n % 1024)) 4 (clearU e)) (a + 4 * (n % 1024)) 4 =
      clearU e := by
    rw [load_store_self]
    exact Nat.mod_eq_of_lt (by omega)
  obtain ⟨hinv, hkeep⟩ := h.setFlags ha hp
    (show ({ s with mem := store s.mem (a + 4 * (n % 1024)) 4 (clearU e) } : Phys).freelist =
      s.freelist from rfl) hload
    (fun x hx => store_outside hx) (by rw [hedef, hdiv]) (by rw [hmod, hodd])
  refine ⟨_, ?_, hinv, rfl, ⟨clearU e, ⟨a, ha, hload⟩, hU⟩, hkeep⟩
  unfold Ends clearpteu
  rw [run_bind_of_ends (h.ends_walk (by omega) ha false)]
  dsimp only
  rw [run_bind_of_ends (ends_load32.mpr ⟨rfl, rfl⟩), hedef]
  rfl

/-- `clearpteu` writes to a table of the directory. -/
theorem clearpteu_spares (hu : ρ u = .user d n)
    (he : Ends (clearpteu d (4096 * n)) s () s') : Spares d s ρ s' ρ := by
  obtain ⟨hn, a, ha, -⟩ := h.trees.userOf u d n hu
  obtain ⟨⟨t, hd⟩, -⟩ := h.trees.tabOf a d _ ha
  unfold Ends clearpteu at he
  rw [run_bind_of_ends (h.ends_walk (by omega) ha false)] at he
  dsimp only at he
  rw [run_bind_of_ends (ends_load32.mpr ⟨rfl, rfl⟩)] at he
  obtain rfl := ends_store32.mp he
  refine Confined.spares (.write (.inr (.inr (.inl ⟨_, ha⟩))) fun x hx => ?_) h (by simp [hd])
  unfold InPage at hx
  exact store_outside (by omega)

/-! ## `loaduvm` -/

theorem Inv.spares_user (hu : ρ u = .user d n)
    (hsame : ∀ x, x < u ∨ u + 4096 ≤ x → s'.mem x = s.mem x) : Spares d s ρ s' ρ := by
  obtain ⟨-, a, ha, -⟩ := h.trees.userOf u d n hu
  obtain ⟨⟨t, hd⟩, -⟩ := h.trees.tabOf a d _ ha
  refine Confined.spares (.write (.inr (.inr (.inr ⟨n, hu⟩))) fun x hx => hsame x ?_) h
    (by simp [hd])
  unfold InPage at hx
  omega

theorem Inv.spares_low (hsame : ∀ x, 0x80100000 ≤ x → s'.mem x = s.mem x) : Spares d s ρ s' ρ := by
  refine ⟨.refl d ρ, fun b hb _ _ x h1 _ => hsame x ?_⟩
  have := (h.page b hb).gt
  omega

/-- Memory below `KERNLINK` holds no page of the allocator. -/
theorem Inv.writeLow (hfl : s'.freelist = s.freelist)
    (hsame : ∀ x, 0x80100000 ≤ x → s'.mem x = s.mem x) : Inv L s' ρ fl q := by
  refine h.congr hfl fun a ha x h1 _ => hsame x ?_
  have hpa : L.IsPage a := by
    refine h.page a fun ho => ?_
    rw [ho] at ha
    exact ha
  have := hpa.gt
  omega

/-- Copying to where the entry of page number `n` leads: to its page, or to the
    first page of memory. -/
theorem Inv.copyEntry (ha : ρ a = .table d (n / 1024)) (hn : n < 524288)
    (f : ByteMem.Mem) (src : Nat) {k : Nat} (hk : k ≤ 4096)
    (hs : s' = { s with
      mem := copy s.mem (P2V (PTE_ADDR (load s.mem (a + 4 * (n % 1024)) 4))) f src k }) :
    Inv L s' ρ fl q ∧ Spares d s ρ s' ρ := by
  subst hs
  by_cases hm : Maps ρ d n
  · obtain ⟨u, hu⟩ := hm
    obtain ⟨e, ⟨a', ha', hl⟩, -, hP⟩ := h.entry hu
    obtain rfl := h.trees.table_unique ha ha'
    rw [hl, hP]
    have hout : ∀ x, x < u ∨ u + 4096 ≤ x → copy s.mem u f src k x = s.mem x := fun x hx =>
      if_neg (by omega)
    exact ⟨h.writeUser hu rfl hout, h.spares_user hu hout⟩
  · rw [h.entry_zero ha hn hm, show P2V (PTE_ADDR 0) = 0x80000000 from rfl]
    have hout : ∀ x, 0x80100000 ≤ x → copy s.mem 0x80000000 f src k x = s.mem x := fun x hx =>
      if_neg (by omega)
    exact ⟨h.writeLow rfl hout, h.spares_low hout⟩

end

/-- The loop of `loaduvm` writes to user pages of `d`. An entry of page number 0 that is empty
    stands for the physical page 0, which is not the allocator's. -/
theorem loadFrom_spec {b : Nat} (haddr : addr = 4096 * b) (hend : addr + sz ≤ 0x80000000)
    (fuel : Nat) :
    ∀ {j : Nat} {s : Phys} {ok : Bool}, Inv L s ρ fl q → ρ d = .dir t →
    Ends (loadFrom d addr ip offset sz fuel (4096 * j)) s ok s' →
    Inv L s' ρ fl q ∧ Spares d s ρ s' ρ := by
  induction fuel with
  | zero => intro j s ok _ _ he; cases he
  | succ fuel ih =>
    intro j s ok h hd he
    unfold Ends at he
    rw [loadFrom] at he
    by_cases hlt : 4096 * j < sz
    swap
    · rw [if_neg hlt] at he
      obtain ⟨-, rfl⟩ := ends_pure.mp he
      exact ⟨h, .refl rfl⟩
    rw [if_pos hlt, u32_of_lt (by omega : addr + 4096 * j < 2 ^ 32), haddr, ← mul_add] at he
    by_cases htab : HasTab ρ d ((b + j) / 1024)
    swap
    · rw [run_bind_of_ends (h.ends_walk_none hd (by omega) htab)] at he
      exact absurd he not_ends_panic
    obtain ⟨a, ha⟩ := htab
    rw [run_bind_of_ends (h.ends_walk (by omega) ha false)] at he
    dsimp only at he
    rw [run_bind_of_ends (ends_load32.mpr ⟨rfl, rfl⟩),
      run_bind_of_ends ((ends_memmove (r := ())).mpr rfl)] at he
    generalize hk : (if sz - 4096 * j < PGSIZE then sz - 4096 * j else PGSIZE) = k at he
    have hk4096 : k ≤ 4096 := by
      rw [← hk]
      simp only [PGSIZE]
      split <;> omega
    have hcount := ip.toNat_readi_le (u32 (offset + 4096 * j)) k
    obtain ⟨hw, hsp⟩ := h.copyEntry ha (by omega) ip.data (u32 (offset + 4096 * j))
      (hcount.trans hk4096) rfl
    split at he
    · obtain ⟨-, rfl⟩ := ends_pure.mp he
      exact ⟨hw, hsp⟩
    · rw [next_page (by omega)] at he
      obtain ⟨hinv, hsp'⟩ := ih hw hd (haddr ▸ he)
      exact ⟨hinv, hsp.trans hsp'⟩

theorem loaduvm_spec {ok : Bool} (hend : addr + sz ≤ 0x80000000) (h : Inv L s ρ fl q)
    (hd : ρ d = .dir t) (he : Ends (loaduvm d addr ip offset sz) s ok s') :
    Inv L s' ρ fl q ∧ Spares d s ρ s' ρ := by
  unfold Ends loaduvm at he
  split at he
  · exact absurd he not_ends_panic
  · next hal =>
    have haddr : addr = 4096 * (addr / 4096) := by
      simp only [PGSIZE] at hal
      omega
    exact loadFrom_spec haddr hend _ (j := 0) h hd he

/-! ## `copyout` -/

theorem PGROUNDDOWN_eq (va : Nat) : PGROUNDDOWN va = 4096 * (va / 4096) := by
  unfold PGROUNDDOWN
  simp only [PGSIZE]
  omega

theorem ends_uva2ka_ptr (hn : n < 2 ^ 20) (hp : ptr s.mem d (n / 1024) = some a)
    (hl : load s.mem (a + 4 * (n % 1024)) 4 = e) :
    Ends (uva2ka d (4096 * n)) s
      (if e % 2 = 1 ∧ e &&& PTE_U ≠ 0 then P2V (PTE_ADDR e) else 0) s := by
  have hw : Ends (walkpgdir d (4096 * n) false) s (some (a + 4 * (n % 1024))) s := by
    rw [← PDX_page hn] at hp
    rw [← PTX_page]
    exact ends_walk_some hp
  unfold Ends uva2ka
  rw [run_bind_of_ends hw]
  dsimp only
  rw [run_bind_of_ends (ends_load32.mpr ⟨rfl, rfl⟩), hl]
  by_cases hp : e % 2 = 1
  · have hp' : present e = true := (Mem.present_iff e).mpr hp
    by_cases hU : e &&& PTE_U = 0
    · simp [hp', hU]
      rfl
    · simp [hp', hU, hp]
      rfl
  · have hp' : present e = false := by
      by_contra hc
      simp only [Bool.not_eq_false] at hc
      exact hp ((Mem.present_iff e).mp hc)
    simp [hp', hp]
    rfl

theorem ends_uva2ka (h : Inv L s ρ fl q) (hn : n < 2 ^ 20) (he : EntryIs s ρ d n e) :
    Ends (uva2ka d (4096 * n)) s
      (if e % 2 = 1 ∧ e &&& PTE_U ≠ 0 then P2V (PTE_ADDR e) else 0) s := by
  obtain ⟨a, ha, hl⟩ := he
  exact ends_uva2ka_ptr hn (h.trees.tabOf a d _ ha).2.2 hl

section Copyout

variable {buf : ByteMem.Mem} {va len : Nat}

section Rounds

variable (fuel off : Nat)

theorem copyout_round_done : Ends (copyoutFrom d buf (fuel + 1) va off 0) s true s := rfl

theorem copyout_round_stop (hlen : 0 < len) (hka : Ends (uva2ka d (4096 * (va / 4096))) s 0 s) :
    Ends (copyoutFrom d buf (fuel + 1) va off len) s false s := by
  unfold Ends
  rw [copyoutFrom, if_pos hlen]
  dsimp only
  rw [PGROUNDDOWN_eq, run_bind_of_ends hka, if_pos rfl]
  rfl

/-- A round copies one byte more than the page has room for, if there is one more. -/
theorem copyout_round_next (hlen : 0 < len) (hka : Ends (uva2ka d (4096 * (va / 4096))) s u s)
    (hu : u ≠ 0) : (copyoutFrom d buf (fuel + 1) va off len).run s =
      (copyoutFrom d buf fuel (u32 (4096 * (va / 4096) + PGSIZE))
        (off + min (4097 - va % 4096) len) (len - min (4097 - va % 4096) len)).run
        { s with mem := copy s.mem (u + va % 4096) buf off (min (4097 - va % 4096) len) } := by
  rw [copyoutFrom, if_pos hlen]
  dsimp only
  rw [PGROUNDDOWN_eq, run_bind_of_ends hka, if_neg hu,
    show va - 4096 * (va / 4096) = va % 4096 by omega,
    show PGSIZE + 1 - va % 4096 = 4097 - va % 4096 from rfl,
    run_bind_of_ends ((ends_memmove (r := ())).mpr rfl)]

/-- The whole string fits the page. -/
theorem copyout_round_fits (hlen : 0 < len) (hka : Ends (uva2ka d (4096 * (va / 4096))) s u s)
    (hu : u ≠ 0) (hfit : va % 4096 + len ≤ 4097) :
    Ends (copyoutFrom d buf (fuel + 1 + 1) va off len) s true
      { s with mem := copy s.mem (u + va % 4096) buf off len } := by
  unfold Ends
  rw [copyout_round_next (fuel + 1) off hlen hka hu, Nat.min_eq_right (by omega), Nat.sub_self]
  exact copyout_round_done fuel _

end Rounds

theorem copyout_eq : copyout d va buf len = copyoutFrom d buf (1048574 + 1 + 1) va 0 len := by
  have : MAXPAGES = 1048574 + 1 + 1 := by decide
  rw [copyout, this]

/-- A destination in the guard page: nothing is written. -/
theorem copyout_guard (h : Inv L s ρ fl q) (hva : va < 2 ^ 32) (he : EntryIs s ρ d (va / 4096) e)
    (hU : e &&& PTE_U = 0) (hlen : 0 < len) : Ends (copyout d va buf len) s false s := by
  have hka := ends_uva2ka h (by omega) he
  rw [if_neg fun hc => hc.2 hU] at hka
  rw [copyout_eq]
  exact copyout_round_stop _ 0 hlen hka

/-- A destination within one page: the copy stays in it. -/
theorem copyout_within (buf : ByteMem.Mem) (len : Nat) (h : Inv L s ρ fl q)
    (hu : ρ u = .user d (va / 4096)) (hlen : va % 4096 + len ≤ 4096) :
    ∃ ok s', Ends (copyout d va buf len) s ok s' ∧ s'.freelist = s.freelist ∧
      s'.deny = s.deny ∧ ∀ x, x < u ∨ u + 4096 ≤ x → s'.mem x = s.mem x := by
  have hn := (h.trees.userOf u d _ hu).1
  obtain ⟨e, hent, hodd, hP⟩ := h.entry hu
  have hka := ends_uva2ka h (by omega) hent
  rw [copyout_eq]
  rcases Nat.eq_zero_or_pos len with rfl | hpos
  · exact ⟨true, s, copyout_round_done _ 0, rfl, rfl, fun _ _ => rfl⟩
  by_cases hU : e % 2 = 1 ∧ e &&& PTE_U ≠ 0
  · have hu0 : u ≠ 0 := by
      have := (h.isPage hu (by simp)).gt
      omega
    rw [if_pos hU, hP] at hka
    exact ⟨true, _, copyout_round_fits _ 0 hpos hka hu0 (by omega), rfl, rfl,
      fun x hx => if_neg (by omega)⟩
  · rw [if_neg hU] at hka
    exact ⟨false, s, copyout_round_stop _ 0 hpos hka, rfl, rfl, fun _ _ => rfl⟩

/-- `uva2ka` on a page that the user may write. -/
theorem Inv.ends_uva2ka_user (h : Inv L s ρ fl q) (hu : ρ u = .user d n)
    (hent : EntryIs s ρ d n (V2P u + 7)) : Ends (uva2ka d (4096 * n)) s u s ∧ u ≠ 0 := by
  have hpu : L.IsPage u := h.isPage hu (by simp)
  have h1 := hpu.gt
  have h2 := hpu.lt
  have h3 := hpu.mod
  have hn := (h.trees.userOf u d _ hu).1
  have hka := ends_uva2ka h (by omega) hent
  have hflags : (V2P u + 7) % 2 = 1 ∧ (V2P u + 7) &&& PTE_U ≠ 0 := by
    rw [and_PTE_U, hpu.V2P]
    omega
  have hP : P2V (PTE_ADDR (V2P u + 7)) = u := by
    rw [hpu.V2P]
    simp only [PTE_ADDR, P2V, PGSIZE, KERNBASE, u32]
    omega
  rw [if_pos hflags, hP] at hka
  exact ⟨hka, by omega⟩

/-- A destination within one page that the user may write. -/
theorem copyout_page (h : Inv L s ρ fl q) (hu : ρ u = .user d (va / 4096))
    (hent : EntryIs s ρ d (va / 4096) (V2P u + 7)) (hpos : 0 < len)
    (hlen : va % 4096 + len ≤ 4096) :
    Ends (copyout d va buf len) s true
      { s with mem := copy s.mem (u + va % 4096) buf 0 len } := by
  obtain ⟨hka, hu0⟩ := h.ends_uva2ka_user hu hent
  rw [copyout_eq]
  exact copyout_round_fits _ 0 hpos hka hu0 (by omega)

/-- A destination that crosses into a page without `PTE_U`: one byte beyond the page is written,
    then the copy fails. The byte is not in a table or a directory. -/
theorem copyout_cross (h : Inv L s ρ fl q) (hu : ρ u = .user d (va / 4096))
    (hent : EntryIs s ρ d (va / 4096) (V2P u + 7)) (hnext : EntryIs s ρ d (va / 4096 + 1) e)
    (hU : e &&& PTE_U = 0)
    (hbeyond : ρ (u + 4096) ≠ .other ∧ (∀ t, ρ (u + 4096) ≠ .dir t) ∧
      ∀ d' i, ρ (u + 4096) ≠ .table d' i) (hlen : 4097 < va % 4096 + len) :
    Ends (copyout d va buf len) s false
      { s with mem := copy s.mem (u + va % 4096) buf 0 (4097 - va % 4096) } := by
  have hpu : L.IsPage u := h.isPage hu (by simp)
  have hpf : L.IsPage (u + 4096) := h.page _ hbeyond.1
  have hn := (h.trees.userOf u d _ hu).1
  obtain ⟨hka, hu0⟩ := h.ends_uva2ka_user hu hent
  -- the second round finds the entry as it was
  generalize hs1 : ({ s with
    mem := copy s.mem (u + va % 4096) buf 0 (4097 - va % 4096) } : Phys) = s1
  have hka1 : Ends (uva2ka d (4096 * (va / 4096 + 1))) s1 0 s1 := by
    obtain ⟨a, ha, hl⟩ := hnext
    obtain ⟨⟨t, hd⟩, hi, hp⟩ := h.trees.tabOf a d _ ha
    have hsame : ∀ b, ρ b ≠ .other → b ≠ u → b ≠ u + 4096 → SamePage s.mem s1.mem b := by
      intro b hb hbu hbf
      have hd1 := (h.page b hb).disjoint hpu hbu
      have hd2 := (h.page b hb).disjoint hpf hbf
      subst hs1
      exact samePage_copy (by omega)
    have hsa := hsame a (by simp [ha]) (ne_of_role ha hu (by simp))
      fun hc => hbeyond.2.2 _ _ (hc ▸ ha)
    have hsd := hsame d (by simp [hd]) (ne_of_role hd hu (by simp))
      fun hc => hbeyond.2.1 _ (hc ▸ hd)
    have hp1 : ptr s1.mem d ((va / 4096 + 1) / 1024) = some a := by rw [hsd.ptr hi, hp]
    have := ends_uva2ka_ptr (by omega) hp1 ((hsa.load (Nat.mod_lt _ (by decide))).trans hl)
    rwa [if_neg fun hc => hc.2 hU] at this
  unfold Ends
  rw [copyout_eq, copyout_round_next _ 0 (by omega) hka hu0,
    Nat.min_eq_left (by omega : 4097 - va % 4096 ≤ len), hs1, next_page hn]
  refine copyout_round_stop 1048574 _ (by omega) ?_
  rw [show 4096 * (va / 4096 + 1) / 4096 = va / 4096 + 1 by omega]
  exact hka1

end Copyout

end Xv6.Mem
