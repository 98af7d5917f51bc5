import Mathlib.Logic.Function.Basic
import Xv6.Framework.System

/-! # The interrupt flag under spinlocks

    `pushcli`, `popcli`, `acquire` and `release` of `spinlock.c` on one CPU, with the switches
    between its scheduler and the processes. `ncli` and `intena` belong to the CPU, and `sched`
    keeps `intena` for the process. The scheduler does not keep it: it enables interrupts at the top
    of its loop.
-/

namespace Xv6.Interrupts

open LTS Function

/-! ## Model -/

variable {P Lock : Type}

/-- One CPU. The last two fields are what no code reads. -/
structure Cpu (P Lock : Type) where
  ncli    : Int
  intena  : Bool
  /-- `FL_IF`. -/
  iflag   : Bool
  /-- The locks for which `holding` is true. -/
  held    : List Lock
  /-- The process that runs, or the scheduler. -/
  running : Option P
  /-- The local variable `intena` of a process in `sched`. -/
  saved   : P → Option Bool
  /-- The calls of `pushcli` outside `acquire` that have no `popcli` yet. -/
  pending : Nat
  /-- The flag before the last `pushcli` of a thread that found `ncli` at 0. -/
  before  : Option P → Option Bool

inductive Event (P Lock : Type) where
  | acquire (l : Lock)
  | release (l : Lock)
  | pushcli
  | popcli
  /-- `sti` of the scheduler, an interrupt or the return from one. -/
  | flag (b : Bool)
  | sched
  /-- The `swtch` of the scheduler to `p`, which returns from `sched`, or starts
      in `forkret`. -/
  | swtch (p : P)

section Model

variable [DecidableEq P] [DecidableEq Lock]

def pushcli (c : Cpu P Lock) : Cpu P Lock :=
  { c with
    iflag := false
    ncli := c.ncli + 1
    intena := if c.ncli = 0 then c.iflag else c.intena
    before := if c.ncli = 0 then update c.before c.running (some c.iflag) else c.before }

def popcli (c : Cpu P Lock) : Except String (Cpu P Lock) :=
  if c.iflag then .error "popcli - interruptible"
  else if c.ncli - 1 < 0 then .error "popcli"
  else .ok { c with ncli := c.ncli - 1, iflag := decide (c.ncli - 1 = 0) && c.intena }

def acquire (c : Cpu P Lock) (l : Lock) : Except String (Cpu P Lock) :=
  if l ∈ (pushcli c).held then .error "acquire"
  else .ok { pushcli c with held := l :: c.held }

def release (c : Cpu P Lock) (l : Lock) : Except String (Cpu P Lock) :=
  if l ∉ c.held then .error "release" else popcli { c with held := c.held.erase l }

/-- `sched`, up to the `swtch`. -/
def sched (ptable : Lock) (c : Cpu P Lock) (p : P) : Except String (Cpu P Lock) :=
  if ptable ∉ c.held then .error "sched ptable.lock"
  else if c.ncli ≠ 1 then .error "sched locks"
  else if c.iflag then .error "sched interruptible"
  else .ok { c with saved := update c.saved p (some c.intena), running := none }

/-- The rest of `sched` is `cpu->intena = intena`. -/
def swtch (c : Cpu P Lock) (p : P) : Cpu P Lock :=
  { c with
    running := some p
    intena := (c.saved p).getD c.intena
    saved := update c.saved p none }

def step (ptable : Lock) (c : Cpu P Lock) : Event P Lock → Except String (Cpu P Lock)
  | .acquire l => acquire c l
  | .release l => release c l
  | .pushcli => .ok { pushcli c with pending := c.pending + 1 }
  | .popcli => popcli { c with pending := c.pending - 1 }
  | .flag b => .ok { c with iflag := b }
  | .sched =>
      match c.running with
      | some p => sched ptable c p
      | none => .ok c
  | .swtch p => .ok (swtch c p)

/-- What the callers keep to: a lock is released after it was acquired, and the
    scheduler holds `ptable.lock` alone when it switches. -/
def allowed (ptable : Lock) (c : Cpu P Lock) : Event P Lock → Bool
  | .acquire l => l ∉ c.held
  | .release l => l ∈ c.held
  | .pushcli => true
  | .popcli => 0 < c.pending
  | .flag _ => c.ncli = 0
  | .sched => c.running.isSome
  | .swtch _ => c.running = none ∧ c.held = [ptable] ∧ c.pending = 0

def boot (b : Bool) : Cpu P Lock := ⟨0, false, b, [], none, fun _ => none, 0, fun _ => none⟩

def system (ptable : Lock) : System (Cpu P Lock) (Event P Lock) :=
  .ofStep (fun c => ∃ b, c = boot b)
    fun c e => if allowed ptable c e then (step ptable c e).toOption else none

end Model

/-! ## The invariant -/

structure Inv (c : Cpu P Lock) : Prop where
  off   : 0 < c.ncli → c.iflag = false
  count : c.ncli = c.held.length + c.pending
  /-- What the CPU has recorded is the flag of the process that runs. -/
  mine  : ∀ p f, c.running = some p → 0 < c.ncli → c.before (some p) = some f → c.intena = f
  /-- What a process keeps in `sched` is its own flag. -/
  kept  : ∀ p b f, c.saved p = some b → c.before (some p) = some f → b = f
  out   : ∀ p, c.running = some p → c.saved p = none
  fresh : ∀ p, c.running ≠ some p → c.saved p = none → c.before (some p) = none

variable {ptable : Lock} {c c' : Cpu P Lock} {e : Event P Lock}

/-- `popcli`, once the lock or the call that it is for is off the books. -/
theorem inv_popcli (h : Inv c) (held : List Lock) (pending : Nat)
    (hcount : held.length + pending + 1 = c.held.length + c.pending) :
    ∃ c', popcli { c with held := held, pending := pending } = .ok c' ∧ Inv c' ∧
      (c'.ncli = 0 → c'.iflag = c.intena) := by
  have hc := h.count
  have hrun : popcli { c with held := held, pending := pending } = .ok
      { c with
        held := held, pending := pending, ncli := c.ncli - 1
        iflag := decide (c.ncli - 1 = 0) && c.intena } := by
    unfold popcli
    rw [if_neg (by simp [h.off (show 0 < c.ncli by omega)]), if_neg (show ¬c.ncli - 1 < 0 by omega)]
  refine ⟨_, hrun, ⟨fun hpos => ?_, show c.ncli - 1 = _ by simp only; omega, fun p f hp hpos => ?_,
    h.kept, h.out, h.fresh⟩, fun h0 => ?_⟩
  · have hne : c.ncli - 1 ≠ 0 := Int.ne_of_gt hpos
    simp [hne]
  · have hpos' : 0 < c.ncli - 1 := hpos
    exact h.mine p f hp (by omega)
  · have hz : c.ncli - 1 = 0 := h0
    simp [hz]

variable [DecidableEq P]

/-- `pushcli`, with the lock or the call that it is for. -/
theorem inv_pushcli (h : Inv c) (held : List Lock) (pending : Nat)
    (hcount : held.length + pending = c.held.length + c.pending + 1) :
    Inv { pushcli c with held := held, pending := pending } := by
  have hncli : c.ncli + 1 = held.length + pending := by
    have := h.count
    omega
  by_cases h0 : c.ncli = 0
  · -- the outermost call records the flag for the thread that runs
    simp only [pushcli, if_pos h0]
    refine ⟨fun _ => rfl, hncli, fun p f hp _ hf => ?_, fun p b f hs hf => ?_, h.out,
      fun p hp hs => ?_⟩
    · dsimp only at hp hf
      rw [hp, update_self] at hf
      exact Option.some.inj hf
    · have hp : c.running ≠ some p := by
        intro hp
        rw [h.out p hp] at hs
        cases hs
      dsimp only at hf
      rw [update_of_ne (Ne.symm hp)] at hf
      exact h.kept p b f hs hf
    · dsimp only
      rw [update_of_ne (Ne.symm hp)]
      exact h.fresh p hp hs
  · simp only [pushcli, if_neg h0]
    exact ⟨fun _ => rfl, hncli,
      fun p f hp _ => h.mine p f hp (by have := h.count; omega), h.kept, h.out, h.fresh⟩

theorem inv_swtch (h : Inv c) (hidle : c.running = none) (p : P) : Inv (swtch c p) := by
  have hnot : ∀ q, c.running ≠ some q := fun q => by simp [hidle]
  have hsaved : ∀ q, q ≠ p → (swtch c p).saved q = c.saved q := fun q hq => update_of_ne hq _ _
  have hself : (swtch c p).saved p = none := update_self ..
  refine ⟨h.off, h.count, fun q f hq _ hf => ?_, fun q b f hs hf => ?_, fun q hq => ?_,
    fun q hq hs => ?_⟩
  · cases hq
    show (c.saved p).getD c.intena = f
    cases hs : c.saved p with
    | none =>
      -- a new process has not called `pushcli`
      have hnone := h.fresh p (hnot p) hs
      rw [show c.before (some p) = some f from hf] at hnone
      cases hnone
    | some b => exact h.kept p b f hs hf
  · by_cases hqp : q = p
    · rw [hqp, hself] at hs
      cases hs
    · rw [hsaved q hqp] at hs
      exact h.kept q b f hs hf
  · rw [← Option.some.inj hq]
    exact hself
  · have hqp : q ≠ p := fun he => hq (by rw [he]; rfl)
    rw [hsaved q hqp] at hs
    exact h.fresh q (hnot q) hs

variable [DecidableEq Lock]

theorem inv_sched (h : Inv c) {p : P} (hp : c.running = some p) (hs : sched ptable c p = .ok c') :
    Inv c' := by
  unfold sched at hs
  split_ifs at hs with h1 h2 h3
  cases hs
  refine ⟨h.off, h.count, fun q f hq => ?_, fun q b f hq hf => ?_, fun q hq => ?_, fun q _ hq => ?_⟩
  · cases hq
  · dsimp only at hq
    by_cases hqp : q = p
    · subst hqp
      rw [update_self] at hq
      have := h.mine q f hp (by omega) hf
      rwa [Option.some.inj hq] at this
    · rw [update_of_ne hqp] at hq
      exact h.kept q b f hq hf
  · cases hq
  · dsimp only at hq
    by_cases hqp : q = p
    · subst hqp
      rw [update_self] at hq
      cases hq
    · rw [update_of_ne hqp] at hq
      refine h.fresh q (fun hr => hqp ?_) hq
      exact Option.some.inj (hr.symm.trans hp)

/-- What the callers may do meets no panic of `popcli`, keeps the invariant, and
    where `ncli` returns to 0 the flag is the one that was recorded. -/
theorem inv_step (h : Inv c) (he : allowed ptable c e = true) :
    (∃ msg, step ptable c e = .error msg ∧ msg ≠ "popcli - interruptible" ∧ msg ≠ "popcli") ∨
    ∃ c', step ptable c e = .ok c' ∧ Inv c' ∧
      (0 < c.ncli → c'.ncli = 0 → c'.iflag = c.intena) := by
  have hc := h.count
  cases e with
  | acquire l =>
    have hnot : l ∉ (pushcli c).held := of_decide_eq_true he
    refine .inr ⟨_, if_neg hnot, inv_pushcli h _ c.pending (by simp; omega), fun hpos h0 => ?_⟩
    have : c.ncli + 1 = 0 := h0
    omega
  | release l =>
    have hl : l ∈ c.held := of_decide_eq_true he
    have hlen := List.length_erase_of_mem hl
    have hpos := List.length_pos_of_mem hl
    obtain ⟨c', hrun, hinv, hflag⟩ := inv_popcli h (c.held.erase l) c.pending (by omega)
    exact .inr ⟨c', (if_neg (not_not.mpr hl)).trans hrun, hinv, fun _ => hflag⟩
  | pushcli =>
    refine .inr ⟨_, rfl, inv_pushcli h c.held _ (by omega), fun hpos h0 => ?_⟩
    have : c.ncli + 1 = 0 := h0
    omega
  | popcli =>
    have hpos : 0 < c.pending := of_decide_eq_true he
    obtain ⟨c', hrun, hinv, hflag⟩ := inv_popcli h c.held (c.pending - 1) (by omega)
    exact .inr ⟨c', hrun, hinv, fun _ => hflag⟩
  | flag b =>
    have h0 : c.ncli = 0 := of_decide_eq_true he
    refine .inr ⟨_, rfl, ⟨fun hpos => ?_, h.count, h.mine, h.kept, h.out, h.fresh⟩, fun hpos => ?_⟩
    · exact absurd hpos (by simp [h0])
    · exact absurd hpos (by simp [h0])
  | sched =>
    obtain ⟨p, hp⟩ := Option.isSome_iff_exists.mp he
    simp only [step, hp]
    cases hs : sched ptable c p with
    | error msg =>
      refine .inl ⟨msg, rfl, ?_⟩
      unfold sched at hs
      split_ifs at hs
      all_goals
        cases hs
        decide
    | ok c' =>
      refine .inr ⟨c', rfl, inv_sched h hp hs, fun hpos h0 => ?_⟩
      unfold sched at hs
      split_ifs at hs
      cases hs
      exact absurd h0 (Int.ne_of_gt hpos)
  | swtch p =>
    have hidle := (of_decide_eq_true he).1
    exact .inr ⟨_, rfl, inv_swtch h hidle p, fun hpos h0 => absurd h0 (Int.ne_of_gt hpos)⟩

/-! ## Main theorem -/

theorem inv_of_reachable (h : (system ptable).Reachable c) : Inv c := by
  refine System.invariant (fun s hs => ?_) (fun s e s' hs hstep => ?_) h
  · obtain ⟨b, rfl⟩ := hs
    refine ⟨fun h0 => absurd h0 (Int.lt_irrefl 0), rfl, fun _ _ hp => ?_, fun _ _ _ hs => ?_,
      fun _ hp => ?_, fun _ _ _ => rfl⟩
    · cases hp
    · cases hs
    · cases hp
  · obtain ⟨he, hok⟩ := Option.ite_none_right_eq_some.mp hstep
    rcases inv_step hs he with ⟨msg, herr, -⟩ | ⟨s'', hok', hinv, -⟩
    · rw [herr] at hok
      cases hok
    · rw [hok'] at hok
      cases hok
      exact hinv

/-- **Interrupt state**: in every run interrupts are off while `ncli` is positive, and `ncli` counts
    the locks that are held and the pending calls of `pushcli`. `popcli` does not panic. Where
    `ncli` returns to 0, the flag is the one that was recorded, and for a process the one before its
    own outermost `pushcli`. -/
theorem interrupts_restored (h : (system ptable).Reachable c) :
    (0 < c.ncli → c.iflag = false) ∧ c.ncli = c.held.length + c.pending ∧ 0 ≤ c.ncli ∧
    (∀ e, allowed ptable c e = true → step ptable c e ≠ .error "popcli - interruptible" ∧
      step ptable c e ≠ .error "popcli") ∧
    ∀ e c', (system ptable).step c e c' → 0 < c.ncli → c'.ncli = 0 →
      c'.iflag = c.intena ∧
      ∀ p f, c.running = some p → c.before (some p) = some f → c'.iflag = f := by
  have hinv := inv_of_reachable h
  have hcount := hinv.count
  refine ⟨hinv.off, hcount, by omega, fun e he => ?_, fun e c' hstep hpos h0 => ?_⟩
  · rcases inv_step hinv he with ⟨msg, herr, h1, h2⟩ | ⟨c', hok, -⟩
    · rw [herr]
      exact ⟨fun hm => h1 (Except.error.inj hm), fun hm => h2 (Except.error.inj hm)⟩
    · rw [hok]
      constructor
      · intro hm
        cases hm
      · intro hm
        cases hm
  · obtain ⟨he, hok⟩ := Option.ite_none_right_eq_some.mp hstep
    rcases inv_step hinv he with ⟨msg, herr, -⟩ | ⟨c'', hok', -, hflag⟩
    · rw [herr] at hok
      cases hok
    · rw [hok'] at hok
      cases hok
      refine ⟨hflag hpos h0, fun p f hp hf => ?_⟩
      rw [hflag hpos h0]
      exact hinv.mine p f hp hpos hf

/-- A process runs, and the timer interrupt takes the CPU from it. -/
def tick : List (Event Unit Unit) :=
  [.acquire (), .swtch (), .release (), .flag false, .acquire (), .sched, .release ()]

theorem interrupts_restored_tick : ∃ c : Cpu Unit Unit, (system ()).Reachable c ∧
    0 < c.ncli ∧ c.iflag = false := by
  obtain ⟨c, hrun, hq⟩ : ∃ c, (system ()).Run (boot true) (tick.take 6) c ∧
      decide (0 < c.ncli) = true := System.exists_run_of_replay (by decide)
  have hreach : (system ()).Reachable c := ⟨_, _, ⟨true, rfl⟩, hrun⟩
  have hpos := of_decide_eq_true hq
  exact ⟨c, hreach, hpos, (interrupts_restored hreach).1 hpos⟩

/-- The scheduler called `acquire` with interrupts enabled and has them disabled behind its
    `release`. So has the process it switches to next, whose `release` is the one for another
    `acquire` of the scheduler. -/
theorem flag_not_restored :
    (∃ c, (system ()).Run (boot true) tick c ∧
      decide (c.ncli = 0 ∧ c.before c.running = some true ∧ c.iflag = false) = true) ∧
    ∃ c, (system ()).Run (boot true) (tick ++ [.flag true, .acquire (), .swtch (), .release ()]) c ∧
      decide (c.ncli = 0 ∧ c.iflag = false) = true :=
  ⟨System.exists_run_of_replay (by decide), System.exists_run_of_replay (by decide)⟩

end Xv6.Interrupts
