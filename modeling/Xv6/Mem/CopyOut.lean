import Xv6.Mem.Boot
import Xv6.Mem.UserView

/-! # What `copyout` writes and what it rejects

    `copyout` takes `PGSIZE + 1` bytes for the room in a page. A range that ends within its first
    page is copied exactly. A longer range puts one byte into the frame above each frame it crosses
    and shifts the rest of the string down by one byte.

    `uva2ka` reads the entry that `walkpgdir` returns without looking whether there is a page table.
-/

namespace Xv6.Mem

open ByteMem Program

variable {L : Layout} {m m' : ByteMem.Mem} {s s' : Phys} {buf : ByteMem.Mem}
  {d va len n u k i : Nat}

/-! ## Ranges that are copied exactly -/

/-- `n` is the number of a page of the `len` bytes from `va` on. -/
def InRange (va len n : Nat) : Prop := ∃ k < len, n = u32 (va + k) / PGSIZE

/-- The user may write the whole range, and no page of it is mapped twice. -/
structure Covered (m : ByteMem.Mem) (d va len : Nat) : Prop
    extends Apart m d (InRange va len) where
  page : ∀ n, InRange va len n → ∃ u, userPage m d n = some u
  inj  : ∀ n n' u, InRange va len n → InRange va len n' → userPage m d n = some u →
    userPage m d n' = some u → n = n'

/-- `copyout` writes the bytes of a covered range and no others; whatever the
    range is, it writes to no frame outside it. -/
structure Copies (s : Phys) (d va : Nat) (buf : ByteMem.Mem) (len : Nat) : Prop where
  all    : Covered s.mem d va len → ∃ s', Ends (copyout d va buf len) s true s' ∧
    (∀ k < len, userByte s'.mem d (u32 (va + k)) = some (buf k)) ∧
    ∀ x, (∀ k < len, ∀ u, userPage s.mem d (u32 (va + k) / PGSIZE) = some u →
      x ≠ u + u32 (va + k) % PGSIZE) → s'.mem x = s.mem x
  within : ∀ ok s', Ends (copyout d va buf len) s ok s' → ∀ x, s'.mem x ≠ s.mem x →
    ∃ n u, InRange va len n ∧ userPage s.mem d n = some u ∧ InPage u x

/-- A range within one page. -/
theorem u32_of_within (hva : va < 2 ^ 32) (hfit : va % PGSIZE + len ≤ PGSIZE) (hk : k < len) :
    u32 (va + k) / PGSIZE = va / PGSIZE ∧
      u32 (va + k) % PGSIZE = va % PGSIZE + k := by
  simp only [PGSIZE, u32] at *
  omega

/-- Where `uva2ka` refuses the first page, nothing is written, however long the range is. -/
theorem copies_refused (hva : va < 2 ^ 32) (hpos : 0 < len)
    (hp : (userPage s.mem d (va / 4096)).getD 0 = 0) : Copies s d va buf len := by
  have hn : va / 4096 < 2 ^ 20 := by omega
  refine ⟨fun hc => ?_, fun ok s' he x hx => ?_⟩
  · have hin : InRange va len (va / 4096) := ⟨0, hpos, by simp only [u32, PGSIZE]; omega⟩
    obtain ⟨u, hu⟩ := hc.page _ hin
    rw [hu] at hp
    exact absurd hp (hc.ne_zero _ _ hin hu)
  · -- whether there is a table or not
    cases ht : ptr s.mem d (va / 4096 / 1024) with
    | none =>
      unfold Ends at he
      rw [copyout_eq, copyoutFrom, if_pos hpos] at he
      dsimp only at he
      rw [PGROUNDDOWN_eq, run_bind_of_error (uva2ka_fault hn ht)] at he
      cases he
    | some a =>
      have hka := ends_uva2ka_userPage (s := s) hn (by rw [ht]; rfl)
      rw [hp] at hka
      rw [copyout_eq] at he
      obtain ⟨-, rfl⟩ := he.unique (copyout_round_stop _ 0 hpos hka)
      exact absurd rfl hx

theorem copies_within (hva : va < 2 ^ 32) (hfit : va % PGSIZE + len ≤ PGSIZE) :
    Copies s d va buf len := by
  rcases Nat.eq_zero_or_pos len with rfl | hpos
  · have he : Ends (copyout d va buf 0) s true s := by
      rw [copyout_eq]
      exact copyout_round_done _ 0
    refine ⟨fun _ => ⟨s, he, by simp, fun _ _ => rfl⟩, fun ok s' he' x hx => ?_⟩
    obtain ⟨-, rfl⟩ := he.unique he'
    exact absurd rfl hx
  by_cases hp0 : (userPage s.mem d (va / 4096)).getD 0 = 0
  · exact copies_refused hva hpos hp0
  have hin : InRange va len (va / 4096) := ⟨0, hpos, (u32_of_within hva hfit hpos).1.symm⟩
  have hn : va / 4096 < 2 ^ 20 := by omega
  cases hp : userPage s.mem d (va / 4096) with
  | none => exact absurd (by rw [hp]; rfl) hp0
  | some u =>
    have hu0 : u ≠ 0 := by simpa [hp] using hp0
    have ht : (ptr s.mem d (va / 4096 / 1024)).isSome := by
      cases ht : ptr s.mem d (va / 4096 / 1024) with
      | none => simp [userPage, ht] at hp
      | some a => rfl
    have hka := ends_uva2ka_userPage hn ht
    rw [hp, Option.getD_some] at hka
    have he : Ends (copyout d va buf len) s true
        { s with mem := copy s.mem (u + va % 4096) buf 0 len } := by
      rw [copyout_eq]
      exact copyout_round_fits _ 0 hpos hka hu0 (by simp only [PGSIZE] at hfit; omega)
    simp only [PGSIZE] at hfit
    refine ⟨fun hc => ⟨_, he, fun k hk => ?_, fun x hx => ?_⟩, fun ok s' he' x hx => ?_⟩
    · obtain ⟨hdiv, hmod⟩ := u32_of_within hva hfit hk
      simp only [PGSIZE] at hdiv hmod
      have hsame : SameTables s.mem (copy s.mem (u + va % 4096) buf 0 len) d :=
        hc.copy hin hp (fun _ _ => rfl) (by omega) (.inl (by omega))
      unfold userByte
      simp only [PGSIZE]
      rw [hdiv, hmod, hsame.userPage hn, hp, Option.map_some, ByteMem.copy, if_pos (by omega)]
      congr 2
      omega
    · refine if_neg fun hc' => ?_
      obtain ⟨hdiv, hmod⟩ := u32_of_within hva hfit (k := x - (u + va % 4096)) (by omega)
      simp only [PGSIZE] at hdiv hmod
      refine hx (x - (u + va % 4096)) (by omega) u ?_ ?_
      · simp only [PGSIZE]
        rw [hdiv, hp]
      · simp only [PGSIZE]
        omega
    · obtain ⟨-, rfl⟩ := he.unique he'
      refine ⟨va / 4096, u, hin, hp, ?_⟩
      by_contra hout
      unfold InPage at hout
      exact hx (if_neg (by omega))

/-! ## Ranges that are not -/

/-- Directory, page table and frame of `crossMem`. -/
abbrev crossDir : Nat := 0x80400000
abbrev crossTab : Nat := 0x80401000
abbrev crossFrame : Nat := 0x80404000

/-- A memory with one page for the user, at page number `n`. The next page number is not mapped, but
    has a page table. -/
def crossMem (n : Nat) : ByteMem.Mem :=
  store (store (store (fun _ => 0) (crossDir + 4 * (n / 1024)) 4 (V2P crossTab + 7))
      (crossDir + 4 * ((n + 1) % 2 ^ 20 / 1024)) 4 (V2P crossTab + 7))
    (crossTab + 4 * (n % 1024)) 4 (V2P crossFrame + 7)

theorem crossMem_dir (n : Nat) (hi : i < 1024) :
    load (crossMem n) (crossDir + 4 * i) 4 =
      if i = n / 1024 ∨ i = (n + 1) % 2 ^ 20 / 1024 then V2P crossTab + 7 else 0 := by
  have hval : (V2P crossTab + 7) % 256 ^ 4 = V2P crossTab + 7 := by decide
  have hj : n % 1024 < 1024 := Nat.mod_lt _ (by decide)
  unfold crossMem
  rw [load_store_of_disjoint (by simp only [crossDir, crossTab]; omega)]
  by_cases h2 : i = (n + 1) % 2 ^ 20 / 1024
  · rw [if_pos (.inr h2), ← h2, load_store_self, hval]
  rw [load_store_of_disjoint (by omega)]
  by_cases h1 : i = n / 1024
  · rw [if_pos (.inl h1), ← h1, load_store_self, hval]
  · rw [if_neg (by omega), load_store_of_disjoint (by omega), load_zero]

theorem crossMem_tab (hn : n < 2 ^ 20) {j : Nat} (hj : j < 1024) :
    load (crossMem n) (crossTab + 4 * j) 4 =
      if j = n % 1024 then V2P crossFrame + 7 else 0 := by
  have hval : (V2P crossFrame + 7) % 256 ^ 4 = V2P crossFrame + 7 := by decide
  unfold crossMem
  by_cases h : j = n % 1024
  · rw [if_pos h, ← h, load_store_self, hval]
  · rw [if_neg h, load_store_of_disjoint (by omega),
      load_store_of_disjoint (by simp only [crossDir, crossTab]; omega),
      load_store_of_disjoint (by simp only [crossDir, crossTab]; omega), load_zero]

theorem crossMem_above (hn : n < 2 ^ 20) : crossMem n (crossFrame + 4096) = 0 := by
  have hj : n % 1024 < 1024 := Nat.mod_lt _ (by decide)
  unfold crossMem
  rw [store_outside (by simp only [crossTab, crossFrame]; omega),
    store_outside (by simp only [crossDir, crossFrame]; omega),
    store_outside (by simp only [crossDir, crossFrame]; omega)]

theorem ptr_crossMem (n : Nat) (hi : i < 1024) :
    ptr (crossMem n) crossDir i =
      if i = n / 1024 ∨ i = (n + 1) % 2 ^ 20 / 1024 then some crossTab else none := by
  unfold ptr
  dsimp only
  rw [crossMem_dir n hi]
  split
  · rfl
  · rfl

theorem userPage_crossMem (hn : n < 2 ^ 20) (hk : k < 2 ^ 20) :
    userPage (crossMem n) crossDir k =
      if (k / 1024 = n / 1024 ∨ k / 1024 = (n + 1) % 2 ^ 20 / 1024) ∧ k % 1024 = n % 1024 then
        some crossFrame
      else none := by
  unfold userPage
  rw [ptr_crossMem n (by omega)]
  by_cases h1 : k / 1024 = n / 1024 ∨ k / 1024 = (n + 1) % 2 ^ 20 / 1024
  · rw [if_pos h1, Option.bind_some, crossMem_tab hn (Nat.mod_lt _ (by decide))]
    by_cases h2 : k % 1024 = n % 1024
    · rw [if_pos h2, if_pos ⟨h1, h2⟩]
      decide
    · rw [if_neg h2, if_neg fun h => h2 h.2]
      decide
  · rw [if_neg h1, if_neg fun h => h1 h.1]
    rfl

/-- A range beyond the end of its first page: the byte above the frame is written. -/
theorem not_copies_cross (hva : va < 2 ^ 32) (hlong : PGSIZE < va % PGSIZE + len) :
    ¬ Copies ⟨crossMem (va / 4096), 0, []⟩ crossDir va (fun _ => 1) len := by
  intro h
  have hn : va / 4096 < 2 ^ 20 := by omega
  simp only [PGSIZE] at hlong
  have hpage : userPage (crossMem (va / 4096)) crossDir (va / 4096) = some crossFrame := by
    rw [userPage_crossMem hn hn, if_pos ⟨.inl rfl, rfl⟩]
  have hka : Ends (uva2ka crossDir (4096 * (va / 4096))) ⟨crossMem (va / 4096), 0, []⟩ crossFrame
      ⟨crossMem (va / 4096), 0, []⟩ := by
    have := ends_uva2ka_userPage (s := ⟨crossMem (va / 4096), 0, []⟩) (d := crossDir) hn
      (by rw [ptr_crossMem _ (by omega), if_pos (.inl rfl)]; rfl)
    rwa [hpage] at this
  generalize hs : (⟨copy (crossMem (va / 4096)) (crossFrame + va % 4096) (fun _ => 1) 0
    (4097 - va % 4096), 0, []⟩ : Phys) = s1
  have hrun : (copyout crossDir va (fun _ => 1) len).run ⟨crossMem (va / 4096), 0, []⟩ =
      (copyoutFrom crossDir (fun _ => 1) (1048574 + 1) (4096 * ((va / 4096 + 1) % 2 ^ 20))
        (0 + (4097 - va % 4096)) (len - (4097 - va % 4096))).run s1 := by
    have hnext : u32 (4096 * (va / 4096) + PGSIZE) = 4096 * ((va / 4096 + 1) % 2 ^ 20) := by
      simp only [u32, PGSIZE]
      omega
    rw [copyout_eq, copyout_round_next _ 0 (by omega) hka (by decide), hnext,
      Nat.min_eq_left (by omega), ← hs]
  -- the directory and its table are not written to
  have hsame : SameTables (crossMem (va / 4096)) s1.mem crossDir := by
    intro x hx
    rw [← hs]
    refine if_neg ?_
    rcases hx with ⟨h1, h2⟩ | ⟨i, hi, a, ha, h1, h2⟩
    · simp only [crossDir, crossFrame] at *
      omega
    · rw [ptr_crossMem _ hi] at ha
      split at ha
      · cases ha
        simp only [crossTab, crossFrame] at *
        omega
      · cases ha
  have hends : ∃ ok, Ends (copyout crossDir va (fun _ => 1) len) ⟨crossMem (va / 4096), 0, []⟩
      ok s1 := by
    rcases Nat.eq_zero_or_pos (len - (4097 - va % 4096)) with hz | hpos
    · exact ⟨true, by
        unfold Ends
        rw [hrun, hz]
        exact copyout_round_done _ _⟩
    · have hlt : (va / 4096 + 1) % 2 ^ 20 < 2 ^ 20 := Nat.mod_lt _ (by decide)
      have hka1 := ends_uva2ka_userPage (s := s1) (d := crossDir) hlt (by
        rw [hsame.ptr (by omega), ptr_crossMem _ (by omega), if_pos (.inr rfl)]
        rfl)
      rw [hsame.userPage hlt, userPage_crossMem hn hlt, if_neg (by omega)] at hka1
      refine ⟨false, hrun.trans (copyout_round_stop _ _ hpos ?_)⟩
      rw [Nat.mul_div_cancel_left _ (by decide)]
      exact hka1
  obtain ⟨ok, he⟩ := hends
  obtain ⟨k, u, ⟨i, -, rfl⟩, hu, hin⟩ := h.within ok s1 he (crossFrame + 4096) (by
    show s1.mem (crossFrame + 4096) ≠ crossMem (va / 4096) (crossFrame + 4096)
    rw [crossMem_above hn, ← hs]
    show (if _ then (1 : UInt8) else _) ≠ 0
    rw [if_pos (by omega)]
    decide)
  rw [userPage_crossMem hn (by simp only [u32, PGSIZE]; omega)] at hu
  split at hu
  · cases hu
    unfold InPage at hin
    omega
  · cases hu

/-- The ranges for which `copyout` writes exactly the requested bytes, whatever
    the page directory and the string. -/
theorem copyout_exact_iff (hva : va < 2 ^ 32) :
    (∀ s d buf, Copies s d va buf len) ↔ va % PGSIZE + len ≤ PGSIZE := by
  constructor
  · intro h
    by_contra hlong
    exact not_copies_cross hva (by omega) (h _ _ _)
  · intro hfit s d buf
    exact copies_within hva hfit

theorem copyout_exact_small :
    Copies ⟨crossMem (0x3FF0 / 4096), 0, []⟩ crossDir 0x3FF0 (fun _ => 1) 16 :=
  (copyout_exact_iff (by decide)).mpr (by decide) _ _ _

/-- A string of 17 bytes whose last byte is on the next page. -/
theorem copyout_inexact :
    ¬ Copies ⟨crossMem (0x3FF0 / 4096), 0, []⟩ crossDir 0x3FF0 (fun _ => 1) 17 :=
  not_copies_cross (show 0x3FF0 < 2 ^ 32 by decide) (show PGSIZE < 0x3FF0 % PGSIZE + 17 by decide)

/-! ## Page directories that the kernel builds -/

/-- A directory that `setupkvm` made, to which `allocuvm` added pages and from
    which `clearpteu` hid some. -/
inductive Built (L : Layout) (d : Nat) : Phys → Prop
  | setup {s s' : Phys} {ρ : Nat → Role Unit} {fl : List Nat} (h : Inv L s ρ fl 0)
      (he : Ends (setupkvm L) s d s') (hd : d ≠ 0) : Built L d s'
  | alloc {s s' : Phys} {oldsz newsz r : Nat} (h : Built L d s)
      (he : Ends (allocuvm L d oldsz newsz) s r s') : Built L d s'
  | guard {s s' : Phys} {n u : Nat} (h : Built L d s) (hn : n < 2 ^ 20)
      (hu : userPage s.mem d n = some u) (he : Ends (clearpteu d (4096 * n)) s () s') :
      Built L d s'

theorem Built.space (h : Built L d s) : ∃ (ρ : Nat → Role Unit) (fl : List Nat),
    Inv L s ρ fl 0 ∧ ρ d = .dir () ∧ Private s.mem d := by
  induction h with
  | setup h he hd =>
    obtain ⟨d', s1, ρ', fl', he', hinv, -, hres⟩ := setupkvm_private () h
    obtain ⟨rfl, rfl⟩ := he.unique he'
    rcases hres with ⟨hz, -⟩ | ⟨hz, -⟩ | ⟨-, -, hnew, -, hpriv, -⟩
    · exact absurd hz hd
    · exact absurd hz hd
    · exact ⟨ρ', fl', hinv, hnew.dir, hpriv⟩
  | alloc h he ih =>
    obtain ⟨ρ, fl, hinv, hd, hpriv⟩ := ih
    obtain ⟨ρ', fl', hinv', hloc, hframe, -⟩ := allocuvm_framed hinv hd he
    have hd' : ρ' d = .dir () := by rw [hloc.role (by rw [hd]; exact not_loose_dir), hd]
    exact ⟨ρ', fl', hinv', hd', hframe.private hinv hinv' hd hd' hpriv⟩
  | guard h hn hu he ih =>
    obtain ⟨ρ, fl, hinv, hd, hpriv⟩ := ih
    have hlt := hpriv.lt hn hu
    have hrole := hinv.role_of_userPage hd hlt hu
    obtain ⟨s1, he', hinv', -, -, hkeep⟩ := clearpteu_spec hinv hrole
    obtain ⟨-, rfl⟩ := he.unique he'
    refine ⟨ρ, fl, hinv', hd, fun k h1 h2 a ha => ?_⟩
    -- an entry of the kernel part is not the one that changed
    have htab := hinv'.trees.tab d () hd _ (by omega) a ha
    obtain ⟨b, hb, hl⟩ := hkeep k _ (by omega) ⟨a, htab, rfl⟩
    obtain rfl := hinv.trees.table_unique hb htab
    rw [hl]
    exact hpriv k h1 h2 _ (hinv.trees.tabOf _ d _ htab).2.2

/-! ## Ranges that are rejected -/

/-- The number of the `i`-th page from `va` on. -/
def pageAt (va i : Nat) : Nat := (va / PGSIZE + i) % 2 ^ 20

theorem pageAt_lt (va i : Nat) : pageAt va i < 2 ^ 20 := Nat.mod_lt _ (by decide)

/-- The user may not write the `j`-th page of the range, but all before it. -/
structure FirstBad (m : ByteMem.Mem) (d va len j : Nat) : Prop where
  reach  : PGSIZE * j < va % PGSIZE + len
  before : ∀ i < j, (userPage m d (pageAt va i)).isSome
  bad    : userPage m d (pageAt va j) = none

/-- Where the frame of one of the first `j` pages lies right below a page table
    of the directory, the byte that is written there is the one it has. -/
def Harmless (m : ByteMem.Mem) (d va len j : Nat) (buf : ByteMem.Mem) : Prop :=
  ∀ i < j, ∀ u, userPage m d (pageAt va i) = some u → TableByte m d (u + PGSIZE) →
    (PGSIZE + 1) * (i + 1) ≤ va % PGSIZE + len →
    buf ((PGSIZE + 1) * i + PGSIZE - va % PGSIZE) = m (u + PGSIZE)

/-- The next page starts at its own address. -/
theorem next_va (va : Nat) : u32 (4096 * (va / 4096) + PGSIZE) = 4096 * pageAt va 1 := by
  simp only [u32, PGSIZE, pageAt]
  omega

theorem pageAt_next (va i : Nat) : pageAt (4096 * pageAt va 1) i = pageAt va (i + 1) := by
  simp only [pageAt, PGSIZE]
  omega

/-- The loop of `copyout`, `j` pages before the page that the user may not write. -/
theorem copyoutFrom_rejects (h : Apart m d (· < 2 ^ 20)) (j : Nat) :
    ∀ (fuel : Nat) {va off len : Nat} {s : Phys}, j + 2 ≤ fuel → va < 2 ^ 32 →
    (va % 4096 = 0 ∨ 0 < len) → SameTables m s.mem d →
    (∀ i < j, (userPage m d (pageAt va i)).isSome) → userPage m d (pageAt va j) = none →
    Harmless m d va len j (fun k => buf (off + k)) →
    ((∃ s', Ends (copyoutFrom d buf fuel va off len) s false s') ↔
      (ptr m d (pageAt va j / 1024)).isSome ∧ 4097 * j < va % 4096 + len) := by
  have hpage : ∀ va, va < 2 ^ 32 → pageAt va 0 = va / 4096 := by
    intro va hva
    simp only [pageAt, PGSIZE]
    omega
  have hdone : ∀ {fuel va off s}, ¬ ∃ s',
      Ends (copyoutFrom d buf (fuel + 1) va off 0) s false s' := by
    intro fuel va off s ⟨s', he⟩
    cases (he.unique (copyout_round_done fuel off)).1
  induction j with
  | zero =>
    intro fuel va off len s hfuel hva h0 hs _ hbad _
    obtain ⟨fuel, rfl⟩ : ∃ f, fuel = f + 1 := ⟨fuel - 1, by omega⟩
    have hlt : pageAt va 0 < 2 ^ 20 := pageAt_lt va 0
    rcases Nat.eq_zero_or_pos len with rfl | hpos
    · exact iff_of_false hdone (by omega)
    rw [hpage va hva] at hbad hlt ⊢
    cases ht : ptr m d (va / 4096 / 1024) with
    | none =>
      refine iff_of_false ?_ (by simp)
      rintro ⟨s', he⟩
      unfold Ends at he
      rw [copyoutFrom, if_pos hpos] at he
      dsimp only at he
      rw [PGROUNDDOWN_eq, run_bind_of_error (uva2ka_fault hlt ((hs.ptr (by omega)).trans ht))] at he
      cases he
    | some a =>
      have hka := ends_uva2ka_userPage (s := s) (d := d) hlt (by rw [hs.ptr (by omega), ht]; rfl)
      rw [hs.userPage hlt, hbad] at hka
      exact iff_of_true ⟨s, copyout_round_stop fuel off hpos hka⟩ ⟨rfl, by omega⟩
  | succ j ih =>
    intro fuel va off len s hfuel hva h0 hs hbefore hbad hbuf
    obtain ⟨fuel, rfl⟩ : ∃ f, fuel = f + 1 + 1 := ⟨fuel - 2, by omega⟩
    have hlt : pageAt va 0 < 2 ^ 20 := pageAt_lt va 0
    rcases Nat.eq_zero_or_pos len with rfl | hpos
    · exact iff_of_false hdone (by omega)
    obtain ⟨u, hu⟩ := Option.isSome_iff_exists.mp (hbefore 0 (by omega))
    have hu0 := h.ne_zero _ u hlt hu
    rw [hpage va hva] at hu hlt
    have hka : Ends (uva2ka d (4096 * (va / 4096))) s u s := by
      have := ends_uva2ka_userPage (s := s) (d := d) hlt (by
        rw [hs.ptr (by omega)]
        cases ht : ptr m d (va / 4096 / 1024) with
        | none => simp [userPage, ht] at hu
        | some a => rfl)
      rwa [hs.userPage hlt, hu, Option.getD_some] at this
    by_cases hlong : va % 4096 + len ≤ 4097
    · -- the copy ends in this page, perhaps with a byte beyond it
      refine iff_of_false ?_ (by omega)
      rintro ⟨s', he⟩
      cases (he.unique (copyout_round_fits fuel off hpos hka hu0 hlong)).1
    have hrun : (copyoutFrom d buf (fuel + 1 + 1) va off len).run s = _ :=
      copyout_round_next (fuel + 1) off hpos hka hu0
    rw [Nat.min_eq_left (by omega), next_va va] at hrun
    have hfirst := hbuf 0 (by omega) u (by rw [hpage va hva]; exact hu)
    simp only [PGSIZE, mul_zero, zero_add, mul_one] at hfirst
    have hs1 : SameTables m (copy s.mem (u + va % 4096) buf off (4097 - va % 4096)) d := by
      refine h.copy hlt hu hs (by omega) (.inr ⟨by omega, fun ht => ?_⟩)
      rw [show u + 4096 - (u + va % 4096) = 4096 - va % 4096 by omega]
      exact hfirst ht (by omega)
    have hrest := @ih (fuel + 1) (4096 * pageAt va 1) (off + (4097 - va % 4096))
      (len - (4097 - va % 4096))
      { s with mem := copy s.mem (u + va % 4096) buf off (4097 - va % 4096) } (by omega)
      (by have := pageAt_lt va 1; omega) (.inl (by omega)) hs1
      (fun i hi => by rw [pageAt_next]; exact hbefore (i + 1) (by omega))
      (by rw [pageAt_next]; exact hbad) ?_
    · unfold Ends at hrest ⊢
      rw [hrun, hrest, pageAt_next]
      refine and_congr_right fun _ => ?_
      omega
    · intro i hi v hv ht hle
      have := hbuf (i + 1) (by omega) v (by rw [← pageAt_next]; exact hv) ht
        (by simp only [PGSIZE] at *; omega)
      simp only [PGSIZE] at *
      rw [← this]
      congr 1
      omega

/-- For a range with a page that the user may not write, `copyout` returns -1 exactly when that page
    has a page table and the bytes, one too many a page, get that far. -/
theorem copyout_rejects_iff {j : Nat} (h : Built L d s) (hva : va < 2 ^ 32) (hpos : 0 < len)
    (hbad : FirstBad s.mem d va len j) (hbuf : Harmless s.mem d va len j buf) :
    (∃ s', Ends (copyout d va buf len) s false s') ↔
      (ptr s.mem d (pageAt va j / NPTENTRIES)).isSome ∧
        (PGSIZE + 1) * j < va % PGSIZE + len := by
  obtain ⟨ρ, fl, hinv, hd, hpriv⟩ := h.space
  -- the user sees no page of the kernel part
  have hj : j ≤ 524288 := by
    by_contra hlt
    have hsee : ∀ i < j, pageAt va i < 524288 := by
      intro i hi
      obtain ⟨u, hu⟩ := Option.isSome_iff_exists.mp (hbad.before i hi)
      exact hpriv.lt (pageAt_lt va i) hu
    have h1 := hsee 0 (by omega)
    have h2 := hsee (524288 - va / 4096) (by omega)
    simp only [pageAt, PGSIZE] at h1 h2
    omega
  exact copyoutFrom_rejects (hinv.apart hd hpriv) j MAXPAGES (by simp only [MAXPAGES]; omega) hva
    (.inr hpos) (fun _ _ => rfl) hbad.before hbad.bad (by simpa using hbuf)

/-- A machine with 150 free pages. -/
theorem exists_freePages : ∃ (s : Phys) (ρ : Nat → Role Unit) (fl : List Nat),
    Inv builtLayout s ρ fl 0 ∧ s.deny = [] ∧ fl.length = 150 := by
  obtain ⟨s, -, h, hdeny⟩ := freerange_spec (L := builtLayout) (a := 0x80400000) (n := 150)
    (s := ⟨fun _ => 0, 0, []⟩) 0x80400000 (Inv.start () rfl) (by decide) (by decide)
    (fun u hu => by
      obtain ⟨i, hi, rfl⟩ := mem_pageRun.mp hu
      refine allHeld_page ⟨?_, ?_, ?_⟩
      all_goals
        simp only [builtLayout, PGSIZE, KERNBASE, PHYSTOP]
        omega)
  rw [List.append_nil] at h
  exact ⟨s, _, _, h, hdeny, by rw [List.length_reverse, length_pageRun]⟩

/-- `setupkvm` and `allocuvm` of one page. -/
theorem exists_onePage : ∃ (s : Phys) (d : Nat) (ρ : Nat → Role Unit) (fl : List Nat),
    Built builtLayout d s ∧ Inv builtLayout s ρ fl 0 ∧ ρ d = .dir () ∧
      (∀ m, Maps ρ d m ↔ m = 1) ∧ s.deny = [] ∧ 80 ≤ fl.length ∧
      ∀ i, 512 ≤ i → i < 1024 → ((ptr s.mem d i).isSome ↔ KernTab i) := by
  obtain ⟨s0, ρ0, fl0, h0, hdeny0, hlen⟩ := exists_freePages
  obtain ⟨d, s1, ρ1, s2, ρ2, hset, hd0, -, -, -, htabs, halloc, hdeny2, h₂,
    hspace, hmaps, hgrown⟩ :=
    setup_alloc (N := 1) () (by decide) (by decide) h0 hdeny0 (by omega)
  refine ⟨s2, d, ρ2, _, (Built.setup h0 hset hd0).alloc halloc, h₂, hspace.dir,
    fun m => ?_, hdeny2, ?_,
    fun i h1 h2 => ?_⟩
  · rw [hmaps]
    omega
  · rw [List.length_drop, hlen]
    decide
  · rw [← htabs i, Option.isSome_iff_ne_none, ← h₂.hasTab_iff hspace.dir h2]
    exact exists_congr fun a => (hgrown.frame 0 (Nat.zero_le _)).kern a i h1

theorem exists_built : ∃ s d, Built builtLayout d s ∧
    ∀ i, 512 ≤ i → i < 1024 → ((ptr s.mem d i).isSome ↔ KernTab i) := by
  obtain ⟨s, d, -, -, hb, -, -, -, -, -, htabs⟩ := exists_onePage
  exact ⟨s, d, hb, htabs⟩

/-- An address of the kernel: there is a page table, and `copyout` returns -1. -/
theorem copyout_rejects_kernel : ∃ L s d, Built L d s ∧ FirstBad s.mem d KERNBASE 4 0 ∧
    ∃ s', Ends (copyout d KERNBASE (fun _ => 1) 4) s false s' := by
  obtain ⟨s, d, hb, htabs⟩ := exists_built
  obtain ⟨ρ, fl, hinv, hd, hpriv⟩ := hb.space
  have hpage : pageAt KERNBASE 0 = 524288 := by decide
  have hbad : FirstBad s.mem d KERNBASE 4 0 := by
    refine ⟨by decide, by simp, ?_⟩
    rw [hpage]
    by_contra hsee
    obtain ⟨u, hu⟩ := Option.ne_none_iff_exists'.mp hsee
    have := hpriv.lt (by decide) hu
    omega
  refine ⟨_, s, d, hb, hbad, (copyout_rejects_iff hb (by decide) (by decide) hbad
    (fun i hi => by omega)).mpr ⟨?_, by decide⟩⟩
  rw [hpage]
  exact (htabs 512 (by decide) (by decide)).mpr (.inl (by decide))

/-- An address between the end of the kernel's memory and the devices: there is
    no page table, and `uva2ka` reads through the null pointer. -/
theorem copyout_gap_faults : ∃ L s d, Built L d s ∧ FirstBad s.mem d 0xF0000000 1 0 ∧
    ∀ buf, (copyout d 0xF0000000 buf 1).run s = .error .fault := by
  obtain ⟨s, d, hb, htabs⟩ := exists_built
  have hnone : ptr s.mem d (0xF0000000 / 4096 / 1024) = none := by
    have hno : ¬ (ptr s.mem d 960).isSome := by
      rw [htabs 960 (by decide) (by decide)]
      unfold KernTab
      omega
    rw [show 0xF0000000 / 4096 / 1024 = 960 from rfl]
    simpa using hno
  refine ⟨_, s, d, hb, ⟨by decide, by simp, ?_⟩, fun buf => ?_⟩
  · rw [show pageAt 0xF0000000 0 = 0xF0000000 / 4096 by decide, userPage, hnone, Option.bind_none]
  · rw [copyout_eq, copyoutFrom, if_pos (by decide)]
    dsimp only
    rw [PGROUNDDOWN_eq, run_bind_of_error (uva2ka_fault (by decide) hnone)]

end Xv6.Mem
