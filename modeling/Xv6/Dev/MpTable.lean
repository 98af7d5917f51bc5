import Xv6.Mem.Phys

/-! # The MP configuration table

    `mp.c`: the firmware describes the processors in a table, and `mpinit` walks its entries. An
    entry of an unknown type does not move the cursor, and the number of processors is not compared
    with `NCPU`.

    Key theorem: `mpinit_robust_iff`.
-/

namespace Xv6.Mp

open ByteMem Mem List

/-! ## `mp.c` -/

/-- The globals that `mpinit` sets. `stores` are the indices `i` of the stores `cpus[i].id = i`,
    `imcr` says that the IMCR was written. -/
structure State where
  ismp     : Bool := false
  ncpu     : Nat := 0
  lapic    : Nat := 0
  ioapicid : Nat := 0
  stores   : List Nat := []
  imcr     : Bool := false

def sum (m : Mem) (addr len : Nat) : Nat :=
  ((range len).map fun i => (m (u32 (addr + i))).toNat).sum % 256

def mpsearch1 (m : Mem) (a len : Nat) : Option Nat :=
  ((range (len / 16)).map fun i => P2V a + 16 * i).find? fun p =>
    bytesFrom m p 4 = [95, 77, 80, 95] ∧ sum m p 16 = 0 -- "_MP_"

def mpsearch (m : Mem) : Option Nat :=
  let ebda := load m (P2V 0x40E) 2 * 16
  let base := load m (P2V 0x413) 2 * 1024
  (if ebda ≠ 0 then mpsearch1 m ebda 1024 else mpsearch1 m (u32 (base + 2 ^ 32 - 1024)) 1024) <|>
    mpsearch1 m 0xF0000 0x10000

/-- The addresses of the floating pointer and of the table. -/
def mpconfig (m : Mem) : Option (Nat × Nat) := do
  let mp ← mpsearch m
  let physaddr := load m (mp + 4) 4
  let conf := P2V physaddr
  if physaddr ≠ 0 ∧ bytesFrom m conf 4 = [80, 67, 77, 80] ∧ -- "PCMP"
      (m (conf + 6) = 1 ∨ m (conf + 6) = 4) ∧ sum m conf (load m (conf + 4) 2) = 0 then
    some (mp, conf)
  else none

/-- The body of the loop: the new state, and how far the cursor moves. -/
def entry (m : Mem) (p : Nat) (s : State) : State × Nat :=
  match (m p).toNat with
  | 0 => -- MPPROC
    ({ s with ismp := s.ismp && s.ncpu == (m (u32 (p + 1))).toNat,
              stores := s.stores ++ [s.ncpu],
              ncpu := s.ncpu + 1 }, 20)
  | 2 => ({ s with ioapicid := (m (u32 (p + 1))).toNat }, 8) -- MPIOAPIC
  | 1 | 3 | 4 => (s, 8) -- MPBUS, MPIOINTR, MPLINTR
  | _ => ({ s with ismp := false }, 0)

/-- The loop over the entries up to `e`; `none` means that `fuel` ran out. -/
def walk (m : Mem) (e : Nat) : (fuel : Nat) → (p : Nat) → State → Option State
  | 0, _, _ => none
  | fuel + 1, p, s =>
    if p < e then walk m e fuel (u32 (p + (entry m p s).2)) (entry m p s).1 else some s

/-- The end of the table at `conf`. -/
def tableEnd (m : Mem) (conf : Nat) : Nat := u32 (conf + load m (conf + 4) 2)

/-- What `mpinit` does behind the loop. -/
def finish (m : Mem) (mp : Nat) (s : State) : State :=
  if s.ismp then { s with imcr := m (mp + 12) ≠ 0 }
  else { s with ncpu := 1, lapic := 0, ioapicid := 0 }

def mpinit (m : Mem) (fuel : Nat) (s : State) : Option State :=
  match mpconfig m with
  | none => some s
  | some (mp, conf) =>
    (walk m (tableEnd m conf) fuel (u32 (conf + 44))
      { s with ismp := true, lapic := load m (conf + 36) 4 }).map (finish m mp)

/-! ## Well-formed tables -/

variable {m : Mem} {e p mp conf fuel : Nat} {s s' s1 : State} {ids : List Nat}

/-- From `p` to `e` there are entries of the five types, and `ids` are the APIC
    ids of the processors among them. -/
inductive Table (m : Mem) (e : Nat) : Nat → List Nat → Prop
  | done {p : Nat} (h : e ≤ p) : Table m e p []
  | proc {p : Nat} {ids : List Nat} (h : p < e) (htype : m p = 0)
      (hrest : Table m e (u32 (p + 20)) ids) : Table m e p ((m (u32 (p + 1))).toNat :: ids)
  | skip {p : Nat} {ids : List Nat} (h : p < e) (htype : m p ≠ 0) (hle : (m p).toNat ≤ 4)
      (hrest : Table m e (u32 (p + 8)) ids) : Table m e p ids

/-- What the walk over processors with the APIC ids `ids` does. -/
structure Walked (s : State) (ids : List Nat) (s' : State) : Prop where
  ncpu   : s'.ncpu = s.ncpu + ids.length
  stores : s'.stores = s.stores ++ range' s.ncpu ids.length
  ismp   : s'.ismp = true ↔ s.ismp = true ∧ ids = range' s.ncpu ids.length

theorem entry_proc (htype : m p = 0) (s : State) : entry m p s =
    ({ s with ismp := s.ismp && s.ncpu == (m (u32 (p + 1))).toNat,
              stores := s.stores ++ [s.ncpu],
              ncpu := s.ncpu + 1 }, 20) := by
  rw [entry, htype]
  rfl

/-- An entry that is not a processor changes `ioapicid` at most. -/
theorem entry_skip (htype : m p ≠ 0) (hle : (m p).toNat ≤ 4) (s : State) :
    ∃ id, entry m p s = ({ s with ioapicid := id }, 8) := by
  have h0 : (m p).toNat ≠ 0 := fun h => htype (UInt8.toNat_inj.mp h)
  obtain h | h | h | h : (m p).toNat = 1 ∨ (m p).toNat = 2 ∨ (m p).toNat = 3 ∨ (m p).toNat = 4 := by
    omega
  all_goals
    rw [entry, h]
    exact ⟨_, rfl⟩

/-- An entry of another type leaves the cursor where it is. -/
theorem entry_unknown (h : 4 < (m p).toNat) (s : State) :
    entry m p s = ({ s with ismp := false }, 0) := by
  unfold entry
  split
  · omega
  · omega
  · omega
  · omega
  · omega
  · rfl

theorem Walked.proc {id : Nat} (h : Walked s1 ids s') (hcpu : s1.ncpu = s.ncpu + 1)
    (hstores : s1.stores = s.stores ++ [s.ncpu]) (hmp : s1.ismp = (s.ismp && s.ncpu == id)) :
    Walked s (id :: ids) s' where
  ncpu := by
    rw [h.ncpu, hcpu, length_cons]
    omega
  stores := by
    rw [h.stores, hstores, hcpu, append_assoc]
    rfl
  ismp := by
    rw [h.ismp, hmp, hcpu, length_cons, range'_succ, cons.injEq, Bool.and_eq_true, beq_iff_eq,
      and_assoc, eq_comm (a := s.ncpu)]

theorem not_table (hlt : p < e) (h : 4 < (m p).toNat) : ¬ Table m e p ids := by
  intro ht
  cases ht with
  | done hle => omega
  | proc _ htype =>
    rw [htype] at h
    cases h
  | skip _ _ hle => omega

/-- A walk that ends has met a well-formed table. -/
theorem walk_table : ∀ fuel p s, u32 p = p → walk m e fuel p s = some s' →
    ∃ ids, Table m e p ids ∧ Walked s ids s' := by
  intro fuel
  induction fuel with
  | zero =>
    intro p s _ h
    cases h
  | succ fuel ih =>
    intro p s hp h
    rw [walk] at h
    by_cases hlt : p < e
    · rw [if_pos hlt] at h
      obtain ⟨ids, hids, hw⟩ := ih (u32 _) _ (Nat.mod_mod _ _) h
      by_cases h4 : 4 < (m p).toNat
      · -- the cursor would stand at the same entry
        rw [entry_unknown h4, add_zero, hp] at hids
        exact absurd hids (not_table hlt h4)
      · by_cases h0 : m p = 0
        · rw [entry_proc h0] at hids hw
          exact ⟨_, .proc hlt h0 hids, hw.proc rfl rfl rfl⟩
        · obtain ⟨id, hent⟩ := entry_skip h0 (by omega) s
          rw [hent] at hids hw
          exact ⟨ids, .skip hlt h0 (by omega) hids, hw.ncpu, hw.stores, hw.ismp⟩
    · rw [if_neg hlt] at h
      cases h
      exact ⟨[], .done (by omega), by simp, by simp, by simp⟩

theorem Table.walk (h : Table m e p ids) (s : State) :
    ∃ fuel s', walk m e fuel p s = some s' ∧ Walked s ids s' := by
  induction h generalizing s with
  | done h =>
    refine ⟨1, s, ?_, by simp, by simp, by simp⟩
    rw [Mp.walk, if_neg (by omega)]
  | proc h htype _ ih =>
    obtain ⟨fuel, s', hrun, hw⟩ := ih (entry m _ s).1
    rw [entry_proc htype] at hrun hw
    refine ⟨fuel + 1, s', ?_, hw.proc rfl rfl rfl⟩
    rw [Mp.walk, if_pos h, entry_proc htype, hrun]
  | skip h htype hle _ ih =>
    obtain ⟨id, hent⟩ := entry_skip htype hle s
    obtain ⟨fuel, s', hrun, hw⟩ := ih { s with ioapicid := id }
    refine ⟨fuel + 1, s', ?_, hw.ncpu, hw.stores, hw.ismp⟩
    rw [Mp.walk, if_pos h, hent, hrun]

/-! ## `mpinit` -/

/-- No store outside `cpus[]`; and either the processors have the APIC ids
    0, .., `ncpu - 1`, in this order, or the state is that of one processor. -/
def Robust (m : Mem) (conf : Nat) (s : State) : Prop :=
  (∀ i ∈ s.stores, i < NCPU) ∧
  ((s.ismp = true ∧ Table m (tableEnd m conf) (u32 (conf + 44)) (range s.ncpu)) ∨
    (s.ncpu = 1 ∧ s.lapic = 0 ∧ s.ioapicid = 0))

theorem finish_stores (m : Mem) (mp : Nat) (s : State) : (finish m mp s).stores = s.stores := by
  unfold finish
  split <;> rfl

/-- **Robustness**: `mpinit` ends in a proper state exactly if the table it has
    accepted has entries of the five types only and at most `NCPU` processors. -/
theorem mpinit_robust_iff (m : Mem) (mp conf : Nat) (h : mpconfig m = some (mp, conf)) :
    (∃ fuel s, mpinit m fuel {} = some s ∧ Robust m conf s) ↔
      ∃ ids, Table m (tableEnd m conf) (u32 (conf + 44)) ids ∧ ids.length ≤ NCPU := by
  unfold mpinit
  simp only [h, Option.map_eq_some_iff]
  constructor
  · rintro ⟨fuel, _, ⟨s, hrun, rfl⟩, hstores, -⟩
    obtain ⟨ids, hids, hw⟩ := walk_table _ _ _ (Nat.mod_mod _ _) hrun
    refine ⟨ids, hids, ?_⟩
    rw [finish_stores, hw.stores] at hstores
    by_contra hlt
    -- the ninth processor
    have := hstores NCPU (mem_append_right _ (mem_range'_1.mpr ⟨Nat.zero_le _, by
      dsimp only
      omega⟩))
    omega
  · rintro ⟨ids, hids, hle⟩
    obtain ⟨fuel, s, hrun, hw⟩ := hids.walk _
    refine ⟨fuel, _, ⟨s, hrun, rfl⟩, fun i hi => ?_, ?_⟩
    · rw [finish_stores, hw.stores] at hi
      have := (mem_range'_1.mp hi).2
      dsimp only at this
      omega
    · unfold finish
      by_cases hmp : s.ismp = true
      · rw [if_pos hmp]
        refine .inl ⟨hmp, ?_⟩
        have heq := (hw.ismp.mp hmp).2
        have hcpu : s.ncpu = ids.length := by rw [hw.ncpu, Nat.zero_add]
        show Table _ _ _ (range s.ncpu)
        rw [hcpu, range_eq_range', ← heq]
        exact hids
      · rw [if_neg hmp]
        exact .inr ⟨rfl, rfl, rfl⟩

/-- Firmware with a table of `len` bytes with the checksum `check`; the first
    entry is of type `type`, and the other bytes behind the header are 0. -/
def firmware (len check type : UInt8) : Mem := fun a =>
  if a < P2V 0x10000 then if a = P2V 0x40F then 0x10 else 0
  else ([95, 77, 80, 95, 0x10, 0, 1, 0, 1, 4, 143, 0, 0, 0, 0, 0, 80, 67, 77, 80,
  len, 0, 1, check] ++
    replicate 36 0 ++ [type]).getD (a - P2V 0x10000) 0

theorem mpinit_robust_iff_oneProc : mpconfig (firmware 64 143 0) = some (P2V 0x10000, P2V 0x10010) ∧
    ∃ fuel s, mpinit (firmware 64 143 0) fuel {} = some s ∧
    Robust (firmware 64 143 0) (P2V 0x10010) s := by
  have h : mpconfig (firmware 64 143 0) = some (P2V 0x10000, P2V 0x10010) := by decide +kernel
  refine ⟨h, (mpinit_robust_iff _ _ _ h).mpr ⟨[0], ?_, by decide⟩⟩
  exact .proc (by decide +kernel) (by decide +kernel) (.done (by decide +kernel))

/-- A table with one entry of type 5 is accepted, and the loop does not end. -/
theorem unknown_entry_loops : mpconfig (firmware 45 157 5) = some (P2V 0x10000, P2V 0x10010) ∧
    ∀ fuel, mpinit (firmware 45 157 5) fuel {} = none := by
  have h : mpconfig (firmware 45 157 5) = some (P2V 0x10000, P2V 0x10010) := by decide +kernel
  refine ⟨h, fun fuel => ?_⟩
  unfold mpinit
  simp only [h, Option.map_eq_none_iff]
  by_contra hne
  obtain ⟨s, hs⟩ := Option.ne_none_iff_exists'.mp hne
  obtain ⟨ids, hids, -⟩ := walk_table _ _ _ (Nat.mod_mod _ _) hs
  exact not_table (by decide +kernel) (by decide +kernel) hids

end Xv6.Mp
