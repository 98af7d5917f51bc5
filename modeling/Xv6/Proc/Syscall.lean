import Xv6.Proc.Shape

/-! # Arguments of system calls

    `fetchint`, `fetchstr`, `argint`, `argptr` and `argstr` of `syscall.c`. They compare an address
    with `proc->sz` and read user memory through the page table of the process. Since `exec` leaves
    the first page unmapped, an address that passes the comparison can be one that faults.
-/

namespace Xv6.Kernel

open Program Mem

variable {L : Layout} {k k' : State} {p : Slot} {va addr : Nat} {α : Type}

/-! ## User memory -/

/-- Where the page table of `p` leads from the user address `va`. -/
def translate (k : State) (p : Slot) (va : Nat) : Option Nat := do
  let pgtab ← ptr k.phys.mem (k.proc p).pgdir (PDX va)
  let page ← ptr k.phys.mem pgtab (PTX va)
  return page + va % PGSIZE

/-- The kernel reads a byte of user memory. -/
def loadByte (k : State) (p : Slot) (va : Nat) : Except Halt UInt8 :=
  match translate k p va with
  | some a => return k.phys.mem a
  | none => throw .fault

/-- The kernel reads `n` bytes of user memory as a number. -/
def loadUser (k : State) (p : Slot) : Nat → Nat → Except Halt Nat
  | _, 0 => return 0
  | va, n + 1 => do
      let c ← loadByte k p va
      let rest ← loadUser k p (va + 1) n
      return c.toNat + 256 * rest

/-- `va` is on a page that is present in the page table of `p`. -/
def Mapped (k : State) (p : Slot) (va : Nat) : Prop :=
  Present k.phys.mem (k.proc p).pgdir (va / PGSIZE)

/-! ## `syscall.c` -/

/-- `fetchint`; `none` is the return value `-1`. -/
def fetchint (k : State) (p : Slot) (addr : Nat) : Except Halt (Option Int) :=
  if addr ≥ (k.proc p).sz ∨ u32 (addr + 4) > (k.proc p).sz then return none
  else do
    let w ← loadUser k p addr 4
    return some (toI32 w)

/-- The loop of `fetchstr`: `n` bytes are left before `proc->sz`, and `i` were not zero. -/
def scanStr (k : State) (p : Slot) (addr : Nat) : Nat → Nat → Except Halt (Option Nat)
  | 0, _ => return none
  | n + 1, i => do
      let c ← loadByte k p (addr + i)
      if c = 0 then return some i else scanStr k p addr n (i + 1)

/-- `fetchstr`; the value is the length. -/
def fetchstr (k : State) (p : Slot) (addr : Nat) : Except Halt (Option Nat) :=
  if addr ≥ (k.proc p).sz then return none
  else scanStr k p addr ((k.proc p).sz - addr) 0

/-- The address of the `n`th argument. -/
def argAddr (k : State) (p : Slot) (n : Nat) : Nat := u32 ((k.proc p).tf.esp + 4 + 4 * n)

def argint (k : State) (p : Slot) (n : Nat) : Except Halt (Option Int) :=
  fetchint k p (argAddr k p n)

/-- `argptr`; the value is the pointer. -/
def argptr (k : State) (p : Slot) (n : Nat) (size : Int) : Except Halt (Option Nat) := do
  let r ← argint k p n
  match r with
  | none => return none
  | some i =>
      if toU32 i ≥ (k.proc p).sz ∨ u32 (toU32 i + toU32 size) > (k.proc p).sz then return none
      else return some (toU32 i)

/-- `argstr`; the value is the pointer and the length. -/
def argstr (k : State) (p : Slot) (n : Nat) : Except Halt (Option (Nat × Nat)) := do
  let r ← argint k p n
  match r with
  | none => return none
  | some i => do
      let l ← fetchstr k p (toU32 i)
      return l.map fun l => (toU32 i, l)

/-! ## What is mapped -/

/-- Below the size, all but the first page is mapped. -/
structure Addressed (k : State) (p : Slot) : Prop where
  size   : (k.proc p).sz < KERNBASE
  mapped : ∀ va < (k.proc p).sz, Mapped k p va ↔ PGSIZE ≤ va

theorem translate_isSome (h : va < 2 ^ 32) : (translate k p va).isSome ↔ Mapped k p va := by
  have hpdx : PDX va = va / 4096 / 1024 := by
    unfold PDX
    omega
  have hptx : PTX va = va / 4096 % 1024 := by
    unfold PTX
    omega
  unfold translate Mapped Present
  rw [hpdx, hptx]
  cases ptr k.phys.mem (k.proc p).pgdir (va / 4096 / 1024) with
  | none => simp
  | some t => cases ht : ptr k.phys.mem t (va / 4096 % 1024) <;> simp [ht]

theorem loadByte_ok (h : va < 2 ^ 32) (hm : Mapped k p va) : ∃ c, loadByte k p va = .ok c := by
  obtain ⟨a, ha⟩ := Option.isSome_iff_exists.mp ((translate_isSome h).mpr hm)
  refine ⟨k.phys.mem a, ?_⟩
  unfold loadByte
  rw [ha]
  rfl

theorem loadByte_fault (h : va < 2 ^ 32) (hm : ¬ Mapped k p va) :
    loadByte k p va = .error .fault := by
  rw [← translate_isSome h, Bool.not_eq_true, Option.isSome_eq_false_iff,
    Option.isNone_iff_eq_none] at hm
  unfold loadByte
  rw [hm]
  rfl

theorem loadUser_ok (n : Nat) : ∀ va, va + n ≤ 2 ^ 32 → (∀ b, va ≤ b → b < va + n → Mapped k p b) →
    ∃ w, w < 256 ^ n ∧ loadUser k p va n = .ok w := by
  induction n with
  | zero => exact fun va _ _ => ⟨0, by decide, rfl⟩
  | succ n ih =>
    intro va hva hm
    obtain ⟨c, hc⟩ := loadByte_ok (by omega) (hm va le_rfl (by omega))
    obtain ⟨w, hw, hrest⟩ := ih (va + 1) (by omega) fun b h1 h2 => hm b (by omega) (by omega)
    refine ⟨c.toNat + 256 * w, ?_, ?_⟩
    · have := c.toNat_lt
      rw [pow_succ]
      omega
    · rw [loadUser, hc]
      show (loadUser k p (va + 1) n >>= fun rest => pure (c.toNat + 256 * rest)) = _
      rw [hrest]
      rfl

/-! ## What is accepted -/

/-- The call returns, and if it accepts with the value `v`, then the bytes from
    `lo v` up to `hi v` are mapped. -/
structure Safe {α : Type} (k : State) (p : Slot) (r : Except Halt (Option α)) (lo hi : α → Nat) :
    Prop where
  ends   : ∃ v, r = .ok v
  mapped : ∀ v, r = .ok (some v) → ∀ b, lo v ≤ b → b < hi v → Mapped k p b

theorem safe_none {lo hi : α → Nat} : Safe k p (.ok none) lo hi :=
  ⟨⟨none, rfl⟩, fun v hv => by cases hv⟩

theorem not_safe_fault {lo hi : α → Nat} : ¬ Safe k p (.error .fault) lo hi := by
  intro h
  obtain ⟨v, hv⟩ := h.ends
  cases hv

/-- `fetchint` rejects exactly what ends beyond the size. -/
theorem fetchint_rejects (hsz : (k.proc p).sz < KERNBASE) (ha : addr < 2 ^ 32) :
    addr ≥ (k.proc p).sz ∨ u32 (addr + 4) > (k.proc p).sz ↔ ¬ addr + 4 ≤ (k.proc p).sz := by
  simp only [KERNBASE] at hsz
  unfold u32
  omega

section

variable (h : Addressed k p)
include h

/-- In the first page `fetchint` faults. -/
theorem fetchint_fault (hin : addr + 4 ≤ (k.proc p).sz) (hlow : addr < PGSIZE) :
    fetchint k p addr = .error .fault := by
  have hsz := h.size
  have ha : addr < 2 ^ 32 := by
    simp only [PGSIZE] at hlow
    omega
  unfold fetchint
  rw [if_neg fun hc => (fetchint_rejects hsz ha).mp hc hin, loadUser,
    loadByte_fault ha fun hm => not_le.mpr hlow ((h.mapped addr (by omega)).mp hm)]
  rfl

theorem fetchint_safe_iff (ha : addr < 2 ^ 32) :
    Safe k p (fetchint k p addr) (fun _ => addr) (fun _ => addr + 4) ↔
      (addr + 4 ≤ (k.proc p).sz → PGSIZE ≤ addr) := by
  have hsz := h.size
  constructor
  · intro hsafe hin
    by_contra hlow
    rw [fetchint_fault h hin (by omega)] at hsafe
    exact not_safe_fault hsafe
  · intro hlow
    unfold fetchint
    by_cases hin : addr + 4 ≤ (k.proc p).sz
    · have hm : ∀ b, addr ≤ b → b < addr + 4 → Mapped k p b := fun b h1 h2 =>
        (h.mapped b (by omega)).mpr (le_trans (hlow hin) h1)
      obtain ⟨w, -, hw⟩ := loadUser_ok 4 addr (by simp only [KERNBASE] at hsz; omega) hm
      rw [if_neg fun hc => (fetchint_rejects hsz ha).mp hc hin, hw]
      exact ⟨⟨_, rfl⟩, fun _ _ => hm⟩
    · rw [if_pos ((fetchint_rejects hsz ha).mpr hin)]
      exact safe_none

theorem scanStr_ok (ha : PGSIZE ≤ addr) (n : Nat) :
    ∀ i, addr + i + n ≤ (k.proc p).sz →
      ∃ v, scanStr k p addr n i = .ok v ∧ ∀ l, v = some l → l < i + n := by
  induction n with
  | zero => exact fun i _ => ⟨none, rfl, fun l hl => by cases hl⟩
  | succ n ih =>
    intro i hi
    have hsz := h.size
    simp only [KERNBASE] at hsz
    obtain ⟨c, hc⟩ := loadByte_ok (by omega) ((h.mapped (addr + i) (by omega)).mpr (by omega))
    by_cases hz : c = 0
    · refine ⟨some i, ?_, fun l hl => ?_⟩
      · rw [scanStr, hc]
        exact if_pos hz
      · cases hl
        omega
    · obtain ⟨v, hv, hl⟩ := ih (i + 1) (by omega)
      refine ⟨v, ?_, fun l hv' => ?_⟩
      · rw [scanStr, hc, ← hv]
        exact if_neg hz
      · have := hl l hv'
        omega

theorem fetchstr_safe_iff :
    Safe k p (fetchstr k p addr) (fun _ => addr) (fun l => addr + l + 1) ↔
      (addr < (k.proc p).sz → PGSIZE ≤ addr) := by
  have hsz := h.size
  simp only [KERNBASE] at hsz
  unfold fetchstr
  by_cases hin : addr < (k.proc p).sz
  · rw [if_neg (by omega)]
    constructor
    · intro hsafe _
      by_contra hlow
      have hfault : scanStr k p addr ((k.proc p).sz - addr) 0 = .error .fault := by
        obtain ⟨n, hn⟩ : ∃ n, (k.proc p).sz - addr = n + 1 := ⟨(k.proc p).sz - addr - 1, by omega⟩
        rw [hn, scanStr, add_zero,
          loadByte_fault (by omega) fun hm => hlow ((h.mapped addr hin).mp hm)]
        rfl
      rw [hfault] at hsafe
      exact not_safe_fault hsafe
    · intro hlow
      obtain ⟨v, hv, hl⟩ := scanStr_ok h (hlow hin) ((k.proc p).sz - addr) 0 (by omega)
      rw [hv]
      refine ⟨⟨v, rfl⟩, fun l hl' b h1 h2 => ?_⟩
      cases hl'
      have := hl l rfl
      exact (h.mapped b (by omega)).mpr (le_trans (hlow hin) h1)
  · rw [if_pos (by omega)]
    exact ⟨fun _ hc => absurd hc hin, fun _ => safe_none⟩

theorem argint_safe_iff (n : Nat) :
    Safe k p (argint k p n) (fun _ => argAddr k p n) (fun _ => argAddr k p n + 4) ↔
      (argAddr k p n + 4 ≤ (k.proc p).sz → PGSIZE ≤ argAddr k p n) :=
  fetchint_safe_iff h (u32_lt _)

/-- A call that reads an argument first is safe if the read is, and the rest
    is for the word it gives. -/
theorem safe_bind_argint {lo hi : α → Nat} {n : Nat} {f : Int → Except Halt (Option α)} :
    Safe k p (argint k p n >>= fun r => match r with | none => return none | some i => f i) lo hi ↔
      (argAddr k p n + 4 ≤ (k.proc p).sz → PGSIZE ≤ argAddr k p n) ∧
        ∀ i, argint k p n = .ok (some i) → Safe k p (f i) lo hi := by
  have hread := argint_safe_iff h n
  cases hr : argint k p n with
  | error e =>
    rw [hr] at hread
    rw [← hread]
    constructor
    · intro hs
      obtain ⟨v, hv⟩ := hs.ends
      cases hv
    · intro ⟨hs, _⟩
      obtain ⟨v, hv⟩ := hs.ends
      cases hv
  | ok r =>
    cases r with
    | none =>
      rw [hr] at hread
      exact ⟨fun _ => ⟨hread.mp safe_none, fun i hi => by cases hi⟩, fun _ => safe_none⟩
    | some i =>
      constructor
      · intro hs
        refine ⟨fun hin => ?_, fun j hj => ?_⟩
        · by_contra hlow
          have hfault : argint k p n = .error .fault := fetchint_fault h hin (by omega)
          cases hr.symm.trans hfault
        · cases hj
          exact hs
      · intro ⟨_, hs⟩
        exact hs i rfl

theorem argptr_safe_iff (n : Nat) {size : Int} (h0 : 0 ≤ size) (hlt : size < 2 ^ 31) :
    Safe k p (argptr k p n size) (fun a => a) (fun a => a + size.toNat) ↔
      (argAddr k p n + 4 ≤ (k.proc p).sz → PGSIZE ≤ argAddr k p n) ∧
        ∀ i, argint k p n = .ok (some i) → toU32 i + size.toNat ≤ (k.proc p).sz →
          0 < size → PGSIZE ≤ toU32 i := by
  have hsz := h.size
  simp only [KERNBASE] at hsz
  refine (safe_bind_argint h).trans (and_congr_right fun _ => forall₂_congr fun i _ => ?_)
  have hi : toU32 i < 2 ^ 32 := by
    unfold toU32
    omega
  have hsize : toU32 size = size.toNat := by
    unfold toU32
    omega
  rw [hsize]
  by_cases hin : toU32 i < (k.proc p).sz ∧ toU32 i + size.toNat ≤ (k.proc p).sz
  · rw [if_neg (by unfold u32; omega)]
    constructor
    · intro hs _ hpos
      have := hs.mapped (toU32 i) rfl (toU32 i) le_rfl (by omega)
      exact (h.mapped _ hin.1).mp this
    · intro hlow
      refine ⟨⟨_, rfl⟩, fun v hv b h1 h2 => ?_⟩
      cases hv
      have := hlow hin.2 (by omega)
      exact (h.mapped b (by omega)).mpr (by omega)
  · rw [if_pos (by unfold u32; omega)]
    constructor
    · intro _ hc hpos
      omega
    · exact fun _ => safe_none

theorem argstr_safe_iff (n : Nat) :
    Safe k p (argstr k p n) (fun r => r.1) (fun r => r.1 + r.2 + 1) ↔
      (argAddr k p n + 4 ≤ (k.proc p).sz → PGSIZE ≤ argAddr k p n) ∧
        ∀ i, argint k p n = .ok (some i) → toU32 i < (k.proc p).sz → PGSIZE ≤ toU32 i := by
  refine (safe_bind_argint h).trans (and_congr_right fun _ => forall₂_congr fun i _ => ?_)
  rw [← fetchstr_safe_iff h]
  cases hr : fetchstr k p (toU32 i) with
  | error e =>
    constructor
    · intro hs
      obtain ⟨v, hv⟩ := hs.ends
      cases hv
    · intro hs
      obtain ⟨v, hv⟩ := hs.ends
      cases hv
  | ok r =>
    constructor
    · intro hs
      refine ⟨⟨r, rfl⟩, fun l hl => ?_⟩
      cases hl
      exact hs.mapped (toU32 i, l) rfl
    · intro hs
      refine ⟨⟨_, rfl⟩, fun v hv => ?_⟩
      cases r with
      | none => cases hv
      | some l =>
        cases hv
        exact hs.mapped l rfl

end

/-! ## Processes that called `exec` -/

/-- User code of `p` ran: registers changed, and bytes of pages that the process maps. -/
structure UserRan (k k' : State) (p : Slot) : Prop where
  regs : ∃ tf, k'.proc p = { k.proc p with tf := tf }
  mem  : ∀ a, k'.phys.mem a ≠ k.phys.mem a → ∃ va < KERNBASE, translate k p va = some a

theorem UserRan.refl (k : State) (p : Slot) : UserRan k k p :=
  ⟨⟨_, rfl⟩, fun _ ha => absurd rfl ha⟩

/-- A user address leads to a user page. -/
theorem translate_role {ρ : Nat → Role Tag} {fl : List Nat} {a : Nat} {t : Tag}
    (h : Mem.Inv L k.phys ρ fl 0) (hd : ρ (k.proc p).pgdir = .dir t) (hva : va < KERNBASE)
    (ha : translate k p va = some a) :
    ∃ u n, ρ u = .user (k.proc p).pgdir n ∧ u ≤ a ∧ a < u + 4096 := by
  unfold translate at ha
  simp only [Option.bind_eq_bind, Option.bind_eq_some_iff, Option.pure_def, Option.some.injEq] at ha
  obtain ⟨pgtab, htab, page, hpage, rfl⟩ := ha
  have hi : PDX va < 512 := by
    simp only [KERNBASE] at hva
    unfold PDX
    omega
  have hj : PTX va < 1024 := Nat.mod_lt _ (by decide)
  have hrole := h.trees.tab _ t hd (PDX va) (by omega) pgtab htab
  have := h.trees.user pgtab _ _ hrole hi (PTX va) hj page hpage
  refine ⟨page, _, this, Nat.le_add_right _ _, ?_⟩
  have : va % PGSIZE < 4096 := Nat.mod_lt _ (by decide)
  omega

/-- User code cannot change a page table. -/
theorem Execed.addressed (h : Execed L k p) (hd : (k.proc p).pgdir ≠ 0) (hu : UserRan k k' p) :
    Addressed k' p := by
  obtain ⟨ρ, fl, hinv⟩ := h.inv
  obtain ⟨tf, hproc⟩ := hu.regs
  have hrole := hinv.space h.used hd
  have hsize := (hinv.procs p).size
  have hmem : Mem.Inv L { k.phys with mem := k'.phys.mem } ρ fl 0 := by
    refine hinv.mem.congr rfl fun b hb x h1 h2 => ?_
    by_contra hne
    obtain ⟨va, hva, hx⟩ := hu.mem x hne
    -- the byte is in a user page, and `b` is not one
    obtain ⟨u, n, hrole', hlo, hhi⟩ := translate_role hinv.mem hrole hva hx
    have hbu : b ≠ u := by
      rintro rfl
      rw [hrole'] at hb
      exact hb
    have hbo : ρ b ≠ .other := by
      intro ho
      rw [ho] at hb
      exact hb
    have := (hinv.mem.page b hbo).disjoint (hinv.mem.isPage hrole' (by simp)) hbu
    omega
  have hsz : (k'.proc p).sz = (k.proc p).sz := by rw [hproc]
  have hdir : (k'.proc p).pgdir = (k.proc p).pgdir := by rw [hproc]
  refine ⟨by rw [hsz]; exact hsize, fun va hva => ?_⟩
  rw [hsz] at hva
  have hshape := (hinv.procs p).shape rfl h.used hd (va / 4096)
  unfold Mapped
  rw [hdir]
  refine (hmem.present_iff hrole (by simp only [PGSIZE]; omega)).trans (hshape.trans ?_)
  unfold pages
  simp only [PGSIZE]
  omega

/-- Which addresses the kernel accepts, and which of them are mapped. The words at the addresses and
    the stack pointer are the user's choice. -/
theorem user_pointers_iff (h : Execed L k p) (hd : (k.proc p).pgdir ≠ 0) (hu : UserRan k k' p) :
    (∀ addr < 2 ^ 32, Safe k' p (fetchint k' p addr) (fun _ => addr) (fun _ => addr + 4) ↔
      (addr + 4 ≤ (k'.proc p).sz → PGSIZE ≤ addr)) ∧
    (∀ addr < 2 ^ 32, Safe k' p (fetchstr k' p addr) (fun _ => addr) (fun l => addr + l + 1) ↔
      (addr < (k'.proc p).sz → PGSIZE ≤ addr)) ∧
    (∀ n, Safe k' p (argint k' p n) (fun _ => argAddr k' p n) (fun _ => argAddr k' p n + 4) ↔
      (argAddr k' p n + 4 ≤ (k'.proc p).sz → PGSIZE ≤ argAddr k' p n)) ∧
    (∀ n size, 0 ≤ size → size < 2 ^ 31 →
      (Safe k' p (argptr k' p n size) (fun a => a) (fun a => a + size.toNat) ↔
        (argAddr k' p n + 4 ≤ (k'.proc p).sz → PGSIZE ≤ argAddr k' p n) ∧
          ∀ i, argint k' p n = .ok (some i) → toU32 i + size.toNat ≤ (k'.proc p).sz →
            0 < size → PGSIZE ≤ toU32 i)) ∧
    (∀ n, Safe k' p (argstr k' p n) (fun r => r.1) (fun r => r.1 + r.2 + 1) ↔
      (argAddr k' p n + 4 ≤ (k'.proc p).sz → PGSIZE ≤ argAddr k' p n) ∧
        ∀ i, argint k' p n = .ok (some i) → toU32 i < (k'.proc p).sz → PGSIZE ≤ toU32 i) := by
  have ha := h.addressed hd hu
  exact ⟨fun addr hlt => fetchint_safe_iff ha hlt, fun addr _ => fetchstr_safe_iff ha,
    argint_safe_iff ha, fun n size h0 hlt => argptr_safe_iff ha n h0 hlt, argstr_safe_iff ha⟩

theorem user_pointers_iff_smallRuns : ∃ k p, Execed smallLayout k p ∧ (k.proc p).pgdir ≠ 0 ∧
    UserRan k k p ∧ Safe k p (fetchint k p 0x1000) (fun _ => 0x1000) (fun _ => 0x1004) := by
  obtain ⟨-, p, k, ρ, fl, -, -, -, h⟩ := exists_smallRuns smallLayout
  have hd := (h.inv.procs p).running h.running
  exact ⟨k, p, h.execed, hd, .refl k p,
    ((user_pointers_iff h.execed hd (.refl k p)).1 0x1000 (by decide)).mpr fun _ => le_rfl⟩

/-- The small program makes a system call with `0xfffffffc` in `esp`. The first argument is then at
    address `0`, which is below `proc->sz` and not mapped. -/
theorem first_page_faults : ∃ k p k', Execed smallLayout k p ∧
    (k.proc p).state = .running ∧ UserRan k k' p ∧ (k'.proc p).tf.esp = 0xfffffffc ∧
    argAddr k' p 0 = 0 ∧ 4 ≤ (k'.proc p).sz ∧ argint k' p 0 = .error .fault := by
  obtain ⟨-, p, k, ρ, fl, -, -, -, h⟩ := exists_smallRuns smallLayout
  have hd := (h.inv.procs p).running h.running
  have hu : UserRan k (k.setProc p fun y => { y with tf := { y.tf with esp := 0xfffffffc } }) p :=
    ⟨⟨_, setProc_proc_self p _⟩, fun a ha => absurd rfl ha⟩
  have hsz : ((k.setProc p fun y => { y with
      tf := { y.tf with esp := 0xfffffffc } }).proc p).sz = 0x4000 := by
    rw [setProc_proc_self]
    exact h.sz
  have haddr : argAddr (k.setProc p fun y => { y with
      tf := { y.tf with esp := 0xfffffffc } }) p 0 = 0 := by
    unfold argAddr
    rw [setProc_proc_self]
    show u32 (0xfffffffc + 4 + 4 * 0) = 0
    decide
  refine ⟨k, p, _, h.execed, h.running, hu, by rw [setProc_proc_self], haddr,
    by rw [hsz]; decide, ?_⟩
  unfold argint
  rw [haddr]
  exact fetchint_fault (h.execed.addressed hd hu) (by rw [hsz]; decide) (by decide)

end Xv6.Kernel
