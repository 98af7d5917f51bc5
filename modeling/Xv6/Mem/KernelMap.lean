import Xv6.Mem.CopyOut

/-! # The kernel's address map

    What a directory made by `setupkvm` says about every virtual address. The directory entries
    allow everything, so the entry of the page decides.
-/

namespace Xv6.Mem

open ByteMem Program

variable {τ : Type} {L : Layout} {s s' : Phys} {ρ : Nat → Role τ} {fl : List Nat} {d va pa : Nat}
  {r : Kmap} {w : Bool}

/-- The entry that the hardware finds for the address `va`. -/
def lookup (m : ByteMem.Mem) (d va : Nat) : Option Nat :=
  match ptr m d (PDX va) with
  | none => none
  | some a => if present (load m (a + 4 * PTX va) 4) then some (load m (a + 4 * PTX va) 4) else none

/-- What the comment in `vm.c` says: the physical address for `va`, and whether
    the kernel may write there. -/
def kernelMap (L : Layout) (va : Nat) : Option (Nat × Bool) :=
  if KERNBASE ≤ va ∧ va < KERNBASE + PHYSTOP then
    some (va - KERNBASE, !decide (KERNLINK ≤ va ∧ va < L.data))
  else if DEVSPACE ≤ va then some (va, true)
  else none

theorem lookup_page {m : ByteMem.Mem} {e : Nat} (hva : va < 2 ^ 32) :
    lookup m d va = some e ↔ EntryAt m d (va / 4096) e ∧ e % 2 = 1 := by
  have hdir : PDX va = va / 4096 / 1024 := by
    unfold PDX
    omega
  have htab : PTX va = va / 4096 % 1024 := by
    unfold PTX
    omega
  unfold lookup EntryAt
  rw [hdir, htab, ← present_iff]
  cases ptr m d (va / 4096 / 1024) with
  | none => simp
  | some a =>
    simp only [Option.some.injEq, exists_eq_left']
    constructor
    · intro h
      split at h
      · next hp =>
        cases h
        exact ⟨rfl, hp⟩
      · cases h
    · rintro ⟨rfl, hp⟩
      rw [if_pos hp]

theorem and_PTE_W (e : Nat) : e &&& PTE_W ≠ 0 ↔ e / 2 % 2 = 1 := by
  have h := Nat.and_two_pow e 1
  rw [show (2 : Nat) ^ 1 = 2 from rfl] at h
  show e &&& 2 ≠ 0 ↔ _
  rw [h, Nat.testBit_eq_decide_div_mod_eq]
  simp

/-- The entry leads to `pa`, is writable as `w` says, and hidden from the user. -/
structure Leads (e va pa : Nat) (w : Bool) : Prop where
  addr : PTE_ADDR e + va % PGSIZE = pa
  write : e &&& PTE_W ≠ 0 ↔ w = true
  user : e &&& PTE_U = 0

/-- The entry that a row of the table has for the page of `va`. -/
theorem Kmap.leads (hcov : r.Covers (va / 4096)) (hvirt : r.virt % 4096 = 0)
    (hphys : r.phys_start % 4096 = 0) (hpa : u32 (r.phys_start + (va - r.virt)) = pa)
    (hperm : r.perm = if w then PTE_W else 0) : Leads (r.entry (va / 4096)) va pa w := by
  have hle := hcov.1
  have hu : u32 (r.phys_start + (4096 * (va / 4096) - r.virt)) % 4096 = 0 := by
    simp only [u32]
    omega
  have hent : r.entry (va / 4096) =
      u32 (r.phys_start + (4096 * (va / 4096) - r.virt)) + if w then 3 else 1 := by
    rw [Kmap.entry, hperm, Nat.or_assoc]
    cases w <;> exact or_flags hu (by decide)
  refine ⟨?_, ?_, ?_⟩
  · rw [hent, ← hpa]
    simp only [PTE_ADDR, PGSIZE, u32] at hu ⊢
    split <;> omega
  · rw [and_PTE_W, hent]
    cases w with
    | true => exact iff_of_true (by simp only [if_true]; omega) rfl
    | false => exact iff_of_false (by simp only [Bool.false_eq_true, if_false]; omega) (by simp)
  · by_contra hne
    have := (and_PTE_U _).mp hne
    rw [hent] at this
    split at this <;> omega

/-- The rows of the table are the address map. -/
theorem kmap_covers (hva : va < 2 ^ 32) (hr : r ∈ kmap L) (hcov : r.Covers (va / 4096)) :
    ∃ pa w, kernelMap L va = some (pa, w) ∧ Leads (r.entry (va / 4096)) va pa w := by
  obtain ⟨c, hdata, hc, hc'⟩ := L.data_page
  have hVd : V2P L.data = 4096 * c := by
    unfold V2P u32
    simp only [KERNBASE]
    omega
  have hVl : V2P KERNLINK = 4096 * 256 := rfl
  obtain ⟨h1, h2⟩ := hcov
  unfold kernelMap
  simp only [kmap, List.mem_cons, List.not_mem_nil, or_false] at hr
  rcases hr with rfl | rfl | rfl | rfl
  · dsimp only [u32, KERNBASE, EXTMEM] at h1 h2
    rw [if_pos (by simp only [KERNBASE, PHYSTOP]; omega)]
    refine ⟨_, _, rfl, Kmap.leads ⟨h1, h2⟩ rfl rfl ?_ ?_⟩
    · simp only [u32, KERNBASE]
      omega
    · rw [decide_eq_false (by simp only [KERNLINK, KERNBASE, EXTMEM]; omega)]
      rfl
  · rw [hVd, hVl] at h2
    dsimp only [u32, KERNLINK, KERNBASE, EXTMEM] at h1 h2
    rw [if_pos (by simp only [KERNBASE, PHYSTOP]; omega)]
    refine ⟨_, _, rfl, Kmap.leads ⟨h1, by rw [hVd, hVl]; exact h2⟩
      (show KERNLINK % 4096 = 0 by decide) (show V2P KERNLINK % 4096 = 0 by decide) ?_ ?_⟩
    · rw [hVl]
      simp only [u32, KERNLINK, KERNBASE, EXTMEM]
      omega
    · rw [decide_eq_true (by simp only [KERNLINK, KERNBASE, EXTMEM]; omega)]
      rfl
  · rw [hVd] at h2
    dsimp only [u32, PHYSTOP] at h1 h2
    rw [if_pos (by simp only [KERNBASE, PHYSTOP]; omega)]
    refine ⟨_, _, rfl, Kmap.leads ⟨h1, by rw [hVd]; exact h2⟩ L.data_aligned ?_ ?_ ?_⟩
    · show V2P L.data % 4096 = 0
      rw [hVd]
      omega
    · rw [hVd, hdata]
      simp only [u32, KERNBASE]
      omega
    · rw [decide_eq_false (by omega)]
      rfl
  · dsimp only [u32, DEVSPACE] at h1 h2
    rw [if_neg (by simp only [KERNBASE, PHYSTOP]; omega), if_pos (by simp only [DEVSPACE]; omega)]
    refine ⟨_, _, rfl, Kmap.leads ⟨h1, h2⟩ rfl rfl ?_ rfl⟩
    simp only [u32, DEVSPACE]
    omega

theorem exists_row (hva : va < 2 ^ 32) (h : kernelMap L va = some (pa, w)) :
    ∃ r ∈ kmap L, r.Covers (va / 4096) := by
  obtain ⟨c, hdata, hc, hc'⟩ := L.data_page
  have hVd : V2P L.data = 4096 * c := by
    unfold V2P u32
    simp only [KERNBASE]
    omega
  have hrow : ∀ r : Kmap, r ∈ kmap L → r.Covers (va / 4096) →
      ∃ r ∈ kmap L, r.Covers (va / 4096) := fun r hr hcov => ⟨r, hr, hcov⟩
  unfold kernelMap at h
  by_cases hlow : KERNBASE ≤ va ∧ va < KERNBASE + PHYSTOP
  · simp only [KERNBASE, PHYSTOP] at hlow
    by_cases h1 : va < KERNLINK
    · simp only [KERNLINK, KERNBASE, EXTMEM] at h1
      refine hrow ⟨KERNBASE, 0, EXTMEM, PTE_W⟩ (by simp [kmap]) ⟨?_, ?_⟩
      all_goals
        dsimp only [u32, KERNBASE, EXTMEM]
        omega
    by_cases h2 : va < L.data
    · simp only [KERNLINK, KERNBASE, EXTMEM] at h1
      refine hrow ⟨KERNLINK, V2P KERNLINK, V2P L.data, 0⟩ (by simp [kmap]) ⟨?_, ?_⟩
      · dsimp only [KERNLINK, KERNBASE, EXTMEM]
        omega
      · rw [hVd, show V2P KERNLINK = 4096 * 256 from rfl]
        dsimp only [u32, KERNLINK, KERNBASE, EXTMEM]
        omega
    · refine hrow ⟨L.data, V2P L.data, PHYSTOP, PTE_W⟩ (by simp [kmap]) ⟨?_, ?_⟩
      · dsimp only
        omega
      · rw [hVd]
        dsimp only [u32, PHYSTOP]
        omega
  · rw [if_neg hlow] at h
    by_cases hdev : DEVSPACE ≤ va
    · refine hrow ⟨DEVSPACE, DEVSPACE, 0, PTE_W⟩ (by simp [kmap]) ⟨?_, ?_⟩
      all_goals
        simp only [DEVSPACE] at hdev
        dsimp only [u32, DEVSPACE]
        omega
    · rw [if_neg hdev] at h
      cases h

/-- `setupkvm` ends on every memory. If it gives a directory, then the entries of this directory are
    the address map, and there are no others. -/
theorem kernel_address_map (h : Inv L s ρ fl 0) (t : τ) :
    ∃ d s', Ends (setupkvm L) s d s' ∧ (d ≠ 0 → ∀ va < 2 ^ 32,
      match kernelMap L va with
      | none => lookup s'.mem d va = none
      | some (pa, w) => ∃ e, lookup s'.mem d va = some e ∧ Leads e va pa w) := by
  obtain ⟨d, s', ρ', fl', he, -, -, hres⟩ := setupkvm_private t h
  refine ⟨d, s', he, fun hd va hva => ?_⟩
  rcases hres with ⟨hz, -⟩ | ⟨hz, -⟩ | ⟨-, -, -, -, -, hlaid⟩
  · exact absurd hz hd
  · exact absurd hz hd
  have hn : va / 4096 < 2 ^ 20 := by omega
  cases hmap : kernelMap L va with
  | none =>
    refine Option.eq_none_iff_forall_ne_some.mpr fun e hlook => ?_
    obtain ⟨hent, hodd⟩ := (lookup_page hva).mp hlook
    obtain ⟨r, hr, hcov⟩ := hlaid.only _ hn (present_iff_entryAt.mpr ⟨e, hent, hodd⟩)
    obtain ⟨pa, w, hmap', -⟩ := kmap_covers hva hr hcov
    rw [hmap] at hmap'
    cases hmap'
  | some pw =>
    obtain ⟨pa, w⟩ := pw
    obtain ⟨r, hr, hcov⟩ := exists_row hva hmap
    obtain ⟨pa', w', hmap', hleads⟩ := kmap_covers hva hr hcov
    obtain ⟨rfl, rfl⟩ : pa = pa' ∧ w = w' := by
      rw [hmap] at hmap'
      simpa using hmap'
    exact ⟨_, (lookup_page hva).mpr ⟨hlaid.entry r hr _ hn hcov, or_PTE_P_odd _⟩, hleads⟩

/-- On a machine with 150 free pages there is a directory. -/
theorem kernel_address_map_150 : ∃ (s s' : Phys) (d : Nat),
    Ends (setupkvm builtLayout) s d s' ∧ d ≠ 0 ∧
      ∃ e, lookup s'.mem d KERNLINK = some e ∧ Leads e KERNLINK EXTMEM false := by
  obtain ⟨s, ρ, fl, h, hdeny, hlen⟩ := exists_freePages
  obtain ⟨d, s', he, hmap⟩ := kernel_address_map h ()
  obtain ⟨d', s1, _, _, hset, -, ⟨-, -, -, hg⟩ | ⟨-, -, hg, -⟩ | ⟨hd0, -⟩⟩ := setupkvm_spec () h
  · exact absurd (grants_of_nil hdeny (by omega)) hg
  · exact absurd (grants_of_nil hdeny (by simp only [KVMPAGES]; omega)) hg
  obtain ⟨rfl, rfl⟩ := he.unique hset
  exact ⟨s, s', d, he, hd0, hmap hd0 KERNLINK (by decide)⟩

end Xv6.Mem
