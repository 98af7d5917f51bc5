import Xv6.Proc.Tree
import Mathlib.Data.List.Count

/-! # Pids and reaping

    Pids are given out in order, so in a run with fewer than `2^31` calls of `fork` no pid is given
    out twice, although `nextpid` may become negative. A pid that `wait` has returned is in no slot
    any more, and never comes back.
-/

namespace Xv6.Ptable

open LTS

variable {t t' : State} {p q c np : Slot} {n m : Nat} {x : Int} {l : Label} {ls : List Label}

/-! ## Pids -/

/-- The `n`th value of `nextpid`. -/
def pidOf (n : Nat) : Int := Int.bmod n (2 ^ 32)

/-- One of the pids `1, ..., n - 1`. -/
def Issued (n : Nat) (x : Int) : Prop := ∃ i, 1 ≤ i ∧ i < n ∧ x = pidOf i

theorem incInt_pidOf (n : Nat) : incInt (pidOf n) = pidOf (n + 1) := by
  unfold incInt pidOf
  push_cast
  simp

theorem pidOf_zero : pidOf 0 = 0 := by
  show Int.bmod 0 (2 ^ 32) = 0
  exact Int.zero_bmod

/-- Up to the first negative one, pids tell their number. -/
theorem pidOf_inj {i j : Nat} (hi : i ≤ 2 ^ 31) (hj : j ≤ 2 ^ 31) (h : pidOf i = pidOf j) :
    i = j := by
  have hmod : (pidOf i) % ((2 ^ 32 : Nat) : Int) = (pidOf j) % ((2 ^ 32 : Nat) : Int) := by rw [h]
  unfold pidOf at hmod
  rw [Int.bmod_emod, Int.bmod_emod] at hmod
  omega

theorem Issued.ne_zero (h : Issued n x) (hn : n ≤ 2 ^ 31 + 1) : x ≠ 0 := by
  obtain ⟨i, hi, hin, hx⟩ := h
  intro h0
  rw [hx, ← pidOf_zero] at h0
  have h0' := pidOf_inj (by omega) (by omega) h0
  omega

theorem Issued.ne_neg_one (h : Issued n x) (hn : n ≤ 2 ^ 31 + 1) : x ≠ -1 := by
  obtain ⟨i, hi, hin, hx⟩ := h
  intro h1
  rw [hx] at h1
  have hmod : (pidOf i) % ((2 ^ 32 : Nat) : Int) = (-1) % ((2 ^ 32 : Nat) : Int) := by rw [h1]
  unfold pidOf at hmod
  rw [Int.bmod_emod] at hmod
  omega

theorem not_issued_self (hn : n ≤ 2 ^ 31) : ¬ Issued n (pidOf n) := by
  intro ⟨i, _, hin, h⟩
  exact absurd (pidOf_inj hn (by omega) h) (by omega)

theorem Issued.mono (h : Issued n x) (hm : n ≤ m) : Issued m x := by
  obtain ⟨i, hi, hin, he⟩ := h
  exact ⟨i, hi, by omega, he⟩

theorem issued_last (hn : 1 ≤ n) : Issued (n + 1) (pidOf n) := ⟨n, hn, by omega, rfl⟩

/-! ## Pids in the table -/

/-- The pids of the slots, when the next one is the `n`th. A slot keeps its pid when `allocproc`
    fails. -/
structure Pids (n : Nat) (t : State) : Prop where
  nextpid : t.nextpid = pidOf n
  pos     : 1 ≤ n
  issued  : ∀ c, (t.proc c).pid = 0 ∨ Issued n (t.proc c).pid
  live    : ∀ c, (t.proc c).state ≠ .unused → (t.proc c).pid ≠ 0
  inj     : ∀ c d, (t.proc c).pid = (t.proc d).pid → (t.proc c).pid ≠ 0 → c = d

theorem Pids.congr (h : Pids n t) (hnext : t'.nextpid = t.nextpid)
    (hpid : ∀ q, (t'.proc q).pid = (t.proc q).pid)
    (hu : ∀ q, (t'.proc q).state ≠ .unused → (t.proc q).state ≠ .unused) : Pids n t' := by
  refine ⟨hnext.trans h.nextpid, h.pos, fun c => ?_, fun c hc => ?_, fun c d => ?_⟩
  · rw [hpid]
    exact h.issued c
  · rw [hpid]
    exact h.live c (hu c hc)
  · rw [hpid, hpid]
    exact h.inj c d

theorem Pids.numbered_self (h : Pids n t) : ((numbered t np).proc np).pid = pidOf n := by
  show ((t.set np fun e => { e with pid := t.nextpid }).proc np).pid = _
  rw [set_self]
  exact h.nextpid

theorem numbered_ne (hq : q ≠ np) : (numbered t np).proc q = t.proc q := by
  show (t.set np fun e => { e with pid := t.nextpid }).proc q = _
  rw [set_ne hq]

theorem Pids.numbered (h : Pids n t) (hn : n ≤ 2 ^ 31) : Pids (n + 1) (numbered t np) := by
  have hself : ((Ptable.numbered t np).proc np).pid = pidOf n := h.numbered_self
  have hother : ∀ q, q ≠ np → (Ptable.numbered t np).proc q = t.proc q := fun q => numbered_ne
  have hne : pidOf n ≠ 0 := (issued_last h.pos).ne_zero (by omega)
  -- no slot has the pid before
  have hfresh : ∀ q, (t.proc q).pid ≠ pidOf n := by
    intro q hq
    rcases h.issued q with h0 | hi
    · exact hne (hq.symm.trans h0)
    · rw [hq] at hi
      exact not_issued_self hn hi
  refine ⟨?_, by omega, fun c => ?_, fun c hc => ?_, fun c d hcd h0 => ?_⟩
  · show incInt t.nextpid = _
    rw [h.nextpid, incInt_pidOf]
  · by_cases hc : c = np
    · rw [hc, hself]
      exact .inr (issued_last h.pos)
    · rw [hother c hc]
      exact (h.issued c).imp_right fun hi => hi.mono (by omega)
  · by_cases hcn : c = np
    · rw [hcn, hself]
      exact hne
    · rw [hother c hcn] at hc ⊢
      exact h.live c hc
  · by_cases hc : c = np
    · by_cases hd : d = np
      · rw [hc, hd]
      · rw [hc, hself, hother d hd] at hcd
        exact absurd hcd.symm (hfresh d)
    · rw [hother c hc] at hcd h0
      by_cases hd : d = np
      · rw [hd, hself] at hcd
        exact absurd hcd (hfresh c)
      · rw [hother d hd] at hcd
        exact h.inj c d hcd h0

theorem Pids.reaped (h : Pids n t) : Pids n (t.set c fun e =>
    { e with pid := 0, parent := none, killed := false, state := .unused }) := by
  refine ⟨h.nextpid, h.pos, fun d => ?_, fun d hd => ?_, fun d e hde h0 => ?_⟩
  · by_cases hdc : d = c
    · rw [hdc, set_self]
      exact .inl rfl
    · rw [set_ne hdc]
      exact h.issued d
  · by_cases hdc : d = c
    · rw [hdc, set_self] at hd
      exact absurd rfl hd
    · rw [set_ne hdc] at hd ⊢
      exact h.live d hd
  · have hdc : d ≠ c := by
      intro he
      rw [he, set_self] at h0
      exact h0 rfl
    rw [set_ne hdc] at hde h0
    by_cases hec : e = c
    · rw [hec, set_self] at hde
      exact absurd hde h0
    · rw [set_ne hec] at hde
      exact h.inj d e hde h0

/-! ## Runs -/

/-- The calls of `fork` in a run. -/
def forks (ls : List Label) : Nat :=
  ls.countP fun l => match l.event with
    | .fork _ _ _ => true
    | _ => false

/-- The label of a `wait` that returned `x`. -/
def reaps (x : Int) (l : Label) : Bool :=
  match l.event with
  | .wait _ => l.ret = some x
  | _ => false

/-- How often `wait` returned `x`. -/
def reaped (x : Int) (ls : List Label) : Nat := ls.countP (reaps x)

theorem forks_snoc (ls : List Label) (l : Label) : forks (ls ++ [l]) = forks ls + forks [l] :=
  List.countP_append

theorem reaped_snoc (x : Int) (ls : List Label) (l : Label) :
    reaped x (ls ++ [l]) = reaped x ls + if reaps x l then 1 else 0 := by
  simp [reaped, List.countP_append, List.countP_cons]

/-- A pid that `wait` returned was given out, and is in no slot. -/
structure Gone (n : Nat) (ls : List Label) (t : State) : Prop where
  le_one : ∀ x, x ≠ -1 → reaped x ls ≤ 1
  gone   : ∀ x, x ≠ -1 → reaped x ls ≠ 0 → Issued n x ∧ ∀ c, (t.proc c).pid ≠ x

theorem Gone.quiet (h : Gone n ls t) (hl : ∀ x, x ≠ -1 → reaps x l = false) (hm : n ≤ m)
    (hpid : ∀ c x, x ≠ -1 → Issued n x → (t.proc c).pid ≠ x → (t'.proc c).pid ≠ x) :
    Gone m (ls ++ [l]) t' := by
  have heq : ∀ x, x ≠ -1 → reaped x (ls ++ [l]) = reaped x ls := by
    intro x hx
    rw [reaped_snoc, hl x hx]
    simp
  refine ⟨fun x hx => ?_, fun x hx h0 => ?_⟩
  · rw [heq x hx]
    exact h.le_one x hx
  · rw [heq x hx] at h0
    obtain ⟨hi, hne⟩ := h.gone x hx h0
    exact ⟨hi.mono hm, fun c => hpid c x hx hi (hne c)⟩

/-- The pids after a run. -/
def Counted (ls : List Label) (t : State) : Prop :=
  forks ls < 2 ^ 31 → ∃ n, n ≤ 2 + forks ls ∧ Pids n t ∧ Gone n ls t

/-- The pid that a slot gets was never returned by `wait`. -/
theorem Pids.numbered_ne_issued (h : Pids n t) (hn : n ≤ 2 ^ 31) (hx : Issued n x)
    (hc : (t.proc c).pid ≠ x) : ((Ptable.numbered t np).proc c).pid ≠ x := by
  by_cases hcn : c = np
  · rw [hcn, h.numbered_self]
    intro he
    rw [← he] at hx
    exact not_issued_self hn hx
  · rw [numbered_ne hcn]
    exact hc

theorem Gone.reaped (h : Gone n ls t) (hp : Pids n t) (hn : n ≤ 2 ^ 31 + 1)
    (hz : (t.proc c).state = .zombie) :
    Gone n (ls ++ [⟨.wait p, some (t.proc c).pid⟩]) (t.set c fun e =>
      { e with pid := 0, parent := none, killed := false, state := .unused }) := by
  have hne : (t.proc c).pid ≠ 0 := hp.live c (by simp [hz])
  have hi := (hp.issued c).resolve_left hne
  have h0 : Ptable.reaped (t.proc c).pid ls = 0 := by
    by_contra hr
    exact (h.gone _ (hi.ne_neg_one hn) hr).2 c rfl
  have hcount : ∀ x, Ptable.reaped x (ls ++ [⟨.wait p, some (t.proc c).pid⟩]) =
      Ptable.reaped x ls + if (t.proc c).pid = x then 1 else 0 := by
    intro x
    rw [reaped_snoc]
    simp [reaps]
  refine ⟨fun x hx => ?_, fun x hx hr => ?_⟩
  · rw [hcount]
    by_cases hxc : (t.proc c).pid = x
    · rw [if_pos hxc, ← hxc, h0]
    · rw [if_neg hxc]
      exact h.le_one x hx
  · rw [hcount] at hr
    by_cases hxc : (t.proc c).pid = x
    · subst hxc
      refine ⟨hi, fun d hd => ?_⟩
      by_cases hdc : d = c
      · rw [hdc, set_self] at hd
        exact hne hd.symm
      · rw [set_ne hdc] at hd
        exact hdc (hp.inj c d hd.symm hne).symm
    · rw [if_neg hxc] at hr
      obtain ⟨hix, hgone⟩ := h.gone x hx hr
      refine ⟨hix, fun d => ?_⟩
      by_cases hdc : d = c
      · rw [hdc, set_self]
        exact fun h => hix.ne_zero hn h.symm
      · rw [set_ne hdc]
        exact hgone d

theorem counted_step (he : Effect t l t') (h : Counted ls t) : Counted (ls ++ [l]) t' := by
  intro hf
  rw [forks_snoc] at hf ⊢
  obtain ⟨n, hn, hp, hg⟩ := h (by omega)
  cases he with
  | calm hc _ hl =>
    refine ⟨n, by omega, hp.congr hc.nextpid hc.pid fun q hq => (not_congr (hc.unused q)).mp hq,
      hg.quiet (fun x hx => ?_) le_rfl fun c x _ _ hne => by rw [hc.pid]; exact hne⟩
    unfold reaps
    split
    · next p hev => exact decide_eq_false fun hr => hx (hl p x hev hr)
    · rfl
  | @failed p np kstack pgdir hnp =>
    have h1 : forks [⟨.fork p kstack pgdir, some (-1)⟩] = 1 := rfl
    rw [h1] at hf ⊢
    exact ⟨n + 1, by omega, hp.numbered (by omega), hg.quiet (fun x _ => rfl) (by omega)
      fun c x _ hi hne => hp.numbered_ne_issued (by omega) hi hne⟩
  | @forked p np kstack pgdir hrun hnp =>
    have h1 : forks [⟨.fork p kstack pgdir, some t.nextpid⟩] = 1 := rfl
    rw [h1] at hf ⊢
    have hp' : Pids (n + 1) (numbered t np) := hp.numbered (by omega)
    have hpid : ∀ q, (((numbered t np).set np fun e =>
        { e with parent := some p, state := .runnable }).proc q).pid
          = ((numbered t np).proc q).pid := by
      intro q
      by_cases hq : q = np
      · rw [hq, set_self]
      · rw [set_ne hq]
    refine ⟨n + 1, by omega, ⟨hp'.nextpid, hp'.pos, fun c => ?_, fun c hc => ?_, fun c d => ?_⟩,
      hg.quiet (fun x _ => rfl) (by omega) fun c x _ hi hne => ?_⟩
    · rw [hpid]
      exact hp'.issued c
    · rw [hpid]
      by_cases hcn : c = np
      · rw [hcn, hp.numbered_self]
        exact (issued_last hp.pos).ne_zero (by omega)
      · rw [set_ne hcn] at hc
        exact hp'.live c hc
    · rw [hpid, hpid]
      exact hp'.inj c d
    · rw [hpid]
      exact hp.numbered_ne_issued (by omega) hi hne
  | exited hrun hinit hx =>
    refine ⟨n, by omega, hp.congr hx.nextpid (fun q => (hx.rest q).1) fun q hq => ?_,
      hg.quiet (fun x _ => rfl) le_rfl fun c x _ _ hne => by rw [(hx.rest c).1]; exact hne⟩
    exact hx.used hrun hq
  | @reaped p c hrun hc hz => exact ⟨n, by omega, hp.reaped, hg.reaped hp (by omega) hz⟩

theorem counted_init (h : ∃ kstack, userinit kstack zero = some t) : Counted [] t := by
  intro _
  obtain ⟨kstack, h⟩ := h
  obtain rfl := userinit_zero h
  have h1 : ∀ c : Slot, c ≠ 0 → (Function.update zero.proc 0
      { state := .runnable, pid := 1, parent := none, killed := false, chan := 0 } c : Entry)
        = zero.proc c := fun c hc => Function.update_of_ne hc _ _
  refine ⟨2, le_rfl, ⟨rfl, by omega, fun c => ?_, fun c hc => ?_, fun c d hcd hne => ?_⟩,
    fun x _ => by simp [reaped], fun x _ h => absurd rfl h⟩
  · by_cases hc : c = 0
    · subst hc
      exact .inr ⟨1, by omega, by omega, rfl⟩
    · exact .inl (congrArg Entry.pid (h1 c hc))
  · by_cases hc0 : c = 0
    · subst hc0
      simp
    · exact absurd (congrArg Entry.state (h1 c hc0)) hc
  · -- only `init` has a pid
    have hc : c = 0 := by
      by_contra hc
      exact hne (congrArg Entry.pid (h1 c hc))
    have hd : d = 0 := by
      by_contra hd
      exact hne (hcd.trans (congrArg Entry.pid (h1 d hd)))
    rw [hc, hd]

theorem run_counted {t0 : State} (h0 : system.init t0) (hrun : system.Run t0 ls t) : Counted ls t :=
  System.run_invariant (I := Counted) (fun _ => counted_init)
    (fun _ _ _ _ h hs => counted_step (step_effect hs) h) h0 hrun

/-! ## The process tree -/

/-- A pid that `wait` returns is that of a zombie child. -/
theorem wait_returns_child {r : Int} (h : step t ⟨.wait p, some r⟩ = some t') (hr : r ≠ -1) :
    ∃ c, (t.proc c).parent = some p ∧ (t.proc c).state = .zombie ∧ (t.proc c).pid = r := by
  cases step_effect h with
  | calm _ _ hl => exact absurd (hl p r rfl rfl) hr
  | @reaped _ c _ hc hz => exact ⟨c, hc, hz, rfl⟩

/-- A process that is not killed gets `-1` only when it has no children. -/
theorem wait_fails (h : step t ⟨.wait p, some (-1)⟩ = some t') (hk : (t.proc p).killed = false)
    (hpid : ∀ c, (t.proc c).state ≠ .unused → (t.proc c).pid ≠ -1) :
    (t.proc c).parent ≠ some p := by
  obtain ⟨-, hret, -⟩ := step_eq h
  have hw : (wait p t).1 = some (-1) := hret
  unfold wait at hw
  cases hz : zombieChild t p with
  | some d =>
    rw [hz] at hw
    have hd := (zombieChild_some hz).2
    exact absurd (Option.some.inj hw) (hpid d (by simp [hd]))
  | none =>
    rw [hz] at hw
    by_cases hno : havekids t p = false ∨ (t.proc p).killed = true
    · have hkids := hno.resolve_right (by simp [hk])
      unfold havekids at hkids
      simpa using List.any_eq_false.mp hkids c (List.mem_finRange c)
    · simp only [if_neg hno] at hw
      cases hw

/-- In a run with fewer than `2^31` calls of `fork`: processes have different pids; the parent of
    every process but `init` is alive; `wait` returns a pid at most once, and to the parent; and it
    fails only for lack of children, or because the caller was killed. -/
theorem process_tree {t₀ : State} (h₀ : system.init t₀) (hrun : system.Run t₀ ls t)
    (hf : forks ls < 2 ^ 31) :
    (∀ c d, (t.proc c).state ≠ .unused → (t.proc d).state ≠ .unused →
      (t.proc c).pid = (t.proc d).pid → c = d) ∧
    (∀ c, (t.proc c).state ≠ .unused → t.initproc ≠ some c →
      ∃ p, (t.proc c).parent = some p ∧ Alive (t.proc p)) ∧
    (∀ x, x ≠ -1 → reaped x ls ≤ 1) ∧
    (∀ p r t', step t ⟨.wait p, some r⟩ = some t' → r ≠ -1 →
      ∃ c, (t.proc c).parent = some p ∧ (t.proc c).state = .zombie ∧ (t.proc c).pid = r) ∧
    ∀ p t', step t ⟨.wait p, some (-1)⟩ = some t' → (t.proc p).killed = false →
      ∀ c, (t.proc c).state ≠ .unused → (t.proc c).parent ≠ some p := by
  have htree := (reachable_tree ⟨t₀, ls, h₀, hrun⟩).1
  obtain ⟨n, hn, hp, hg⟩ := run_counted h₀ hrun hf
  refine ⟨fun c d hc _ hcd => hp.inj c d hcd (hp.live c hc), fun c hc hi => ?_, hg.le_one,
    fun p r t' h hr => wait_returns_child h hr, fun p t' h hk c _ => wait_fails h hk fun d hd => ?_⟩
  · obtain ⟨p, hpar, -, hal⟩ := htree.parent c hc hi
    exact ⟨p, hpar, hal⟩
  · exact ((hp.issued d).resolve_left (hp.live d hd)).ne_neg_one (by omega)

/-- A child of `init` exits and is reaped. -/
def forkAndReap : List Label :=
  [⟨.dispatch 0, none⟩, ⟨.fork 0 4096 8192, some 2⟩, ⟨.wait 0, none⟩, ⟨.dispatch 1, none⟩,
    ⟨.exit 1, none⟩, ⟨.dispatch 0, none⟩, ⟨.wait 0, some 2⟩]

theorem process_tree_forkAndReap : ∃ t₀ t, system.init t₀ ∧ system.Run t₀ forkAndReap t ∧
    forks forkAndReap < 2 ^ 31 ∧ reaped 2 forkAndReap = 1 ∧
    ∀ x, x ≠ -1 → reaped x forkAndReap ≤ 1 := by
  obtain ⟨t₀, h₀⟩ : ∃ t, userinit 4096 zero = some t := ⟨_, rfl⟩
  have hrun : ∃ t, system.Run t₀ forkAndReap t ∧ decide ((t.proc 1).state = .unused) = true :=
    System.exists_run_of_replay (by obtain rfl := userinit_zero h₀; decide)
  obtain ⟨t, hrun, -⟩ := hrun
  have hf : forks forkAndReap < 2 ^ 31 := by
    have h1 : forks forkAndReap = 1 := rfl
    omega
  exact ⟨t₀, t, ⟨4096, h₀⟩, hrun, hf, rfl, (process_tree ⟨4096, h₀⟩ hrun hf).2.2.1⟩

end Xv6.Ptable
