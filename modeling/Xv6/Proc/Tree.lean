import Xv6.Proc.Table

/-! # Parents, children and zombies

    What one critical section does to the process table, and from it the two invariants about `exit`
    and `wait`: every process has a parent that can still wait for it, and no process sleeps in
    `wait` while it has a zombie to free.
-/

namespace Xv6.Ptable

open LTS List

variable {t t' : State} {p q c np : Slot} {cs : List Slot} {f : Entry → Entry} {e : Event}
  {kstack : Nat} {l : Label}

/-! ## Updates -/

@[simp] theorem set_self (f : Entry → Entry) : (t.set p f).proc p = f (t.proc p) := by
  simp [State.set]

theorem set_ne (h : q ≠ p) (f : Entry → Entry) : (t.set p f).proc q = t.proc q := by
  simp [State.set, h]

@[simp] theorem set_nextpid (f : Entry → Entry) : (t.set p f).nextpid = t.nextpid := rfl

@[simp] theorem set_initproc (f : Entry → Entry) : (t.set p f).initproc = t.initproc := rfl

theorem zombieChild_none (h : zombieChild t p = none) (hc : (t.proc c).parent = some p) :
    (t.proc c).state ≠ .zombie := by
  intro hz
  have := find?_eq_none.mp h c (mem_finRange c)
  simp [hc, hz] at this

theorem target_some {pid : Int} (h : target t pid = some p) : (t.proc p).pid = pid := by
  simpa using find?_some h

/-! ## Wakeups -/

/-- `p` sleeps in `wait`. -/
def Waits (t : State) (p : Slot) : Prop :=
  (t.proc p).state = .sleeping ∧ (t.proc p).chan = chanOf p

instance (t : State) (p : Slot) : Decidable (Waits t p) := by
  unfold Waits
  infer_instance

/-- Some sleeping processes became runnable. -/
structure Woken (t t' : State) : Prop where
  proc     : ∀ q, t'.proc q = t.proc q ∨
    (t.proc q).state = .sleeping ∧ t'.proc q = { t.proc q with state := .runnable }
  nextpid  : t'.nextpid = t.nextpid
  initproc : t'.initproc = t.initproc

theorem woken_wakeup1 (chan : Nat) (t : State) : Woken t (wakeup1 chan t) := by
  refine ⟨fun q => ?_, rfl, rfl⟩
  by_cases h : (t.proc q).state = .sleeping ∧ (t.proc q).chan = chan
  · exact .inr ⟨h.1, if_pos h⟩
  · exact .inl (if_neg h)

theorem woken_wakeupProc (o : Option Slot) (t : State) : Woken t (wakeupProc o t) := by
  cases o with
  | none => exact woken_wakeup1 0 t
  | some p => exact woken_wakeup1 (chanOf p) t

namespace Woken

theorem awake (h : Woken t t') (hq : (t.proc q).state ≠ .sleeping) : t'.proc q = t.proc q :=
  (h.proc q).resolve_right fun h => hq h.1

theorem parent (h : Woken t t') (q : Slot) : (t'.proc q).parent = (t.proc q).parent := by
  rcases h.proc q with hq | ⟨-, hq⟩ <;> rw [hq]

theorem state (h : Woken t t') (q : Slot) : (t'.proc q).state = (t.proc q).state ∨
    (t.proc q).state = .sleeping ∧ (t'.proc q).state = .runnable := by
  rcases h.proc q with hq | ⟨hs, hq⟩
  · exact .inl (by rw [hq])
  · exact .inr ⟨hs, by rw [hq]⟩

theorem waits (h : Woken t t') (hq : Waits t' q) : Waits t q := by
  rcases h.proc q with he | ⟨-, he⟩
  · rw [Waits, he] at hq
    exact hq
  · rw [Waits, he] at hq
    exact absurd hq.1 (by simp)

end Woken

/-- After the wakeup of its slot a process does not sleep in `wait`. -/
theorem not_waits_wakeupProc (p : Slot) (t : State) : ¬ Waits (wakeupProc (some p) t) p := by
  intro h
  by_cases hp : (t.proc p).state = .sleeping ∧ (t.proc p).chan = chanOf p
  · have he : (wakeupProc (some p) t).proc p = { t.proc p with state := .runnable } := if_pos hp
    rw [Waits, he] at h
    exact absurd h.1 (by simp)
  · have he : (wakeupProc (some p) t).proc p = t.proc p := if_neg hp
    rw [Waits, he] at h
    exact hp h

/-! ## `exit` -/

/-- What the loop of `exit` does, for the children in `cs`. -/
structure Reparented (p : Slot) (cs : List Slot) (t t' : State) : Prop where
  parent   : ∀ c, (t'.proc c).parent =
    if c ∈ cs ∧ (t.proc c).parent = some p then t.initproc else (t.proc c).parent
  rest     : ∀ c, (t'.proc c).pid = (t.proc c).pid ∧ (t'.proc c).killed = (t.proc c).killed ∧
    (t'.proc c).chan = (t.proc c).chan
  state    : ∀ c, (t'.proc c).state = (t.proc c).state ∨
    (t.proc c).state = .sleeping ∧ (t'.proc c).state = .runnable
  woken    : ∀ c ∈ cs, (t.proc c).parent = some p → (t.proc c).state = .zombie →
    ∀ i, t.initproc = some i → ¬ Waits t' i
  nextpid  : t'.nextpid = t.nextpid
  initproc : t'.initproc = t.initproc

theorem Reparented.waits (h : Reparented p cs t t') (hq : Waits t' q) : Waits t q := by
  obtain ⟨hst, hchan⟩ := hq
  rcases h.state q with he | ⟨-, he⟩
  · exact ⟨he ▸ hst, (h.rest q).2.2 ▸ hchan⟩
  · rw [he] at hst
    cases hst

theorem Reparented.cons {t1 : State} (hinit : t.initproc ≠ some p) (hc : (t.proc c).parent = some p)
    (hw : Woken (t.set c fun e => { e with parent := t.initproc }) t1)
    (hz : (t.proc c).state = .zombie → ∀ i, t.initproc = some i → ¬ Waits t1 i)
    (h : Reparented p cs t1 t') : Reparented p (c :: cs) t t' := by
  have hself := hw.proc c
  have hother : ∀ q, q ≠ c → t1.proc q = t.proc q ∨
      (t.proc q).state = .sleeping ∧ t1.proc q = { t.proc q with state := .runnable } := by
    intro q hq
    have := hw.proc q
    rwa [set_ne hq] at this
  rw [set_self] at hself
  have hi1 : t1.initproc = t.initproc := hw.initproc
  constructor
  case parent =>
    intro q
    rw [h.parent q, hi1]
    by_cases hq : q = c
    · subst hq
      -- its parent is `initproc` now, and that is not `p`
      have hpar : (t1.proc q).parent = t.initproc := by rcases hself with he | ⟨-, he⟩ <;> rw [he]
      rw [hpar, if_neg (fun h => hinit h.2), if_pos ⟨mem_cons_self, hc⟩]
    · have hpar : (t1.proc q).parent = (t.proc q).parent := by
        rcases hother q hq with he | ⟨-, he⟩ <;> rw [he]
      simp [hpar, hq]
  case rest =>
    intro q
    obtain ⟨h1, h2, h3⟩ := h.rest q
    rw [h1, h2, h3]
    by_cases hq : q = c
    · subst hq
      rcases hself with he | ⟨-, he⟩ <;> simp [he]
    · rcases hother q hq with he | ⟨-, he⟩ <;> simp [he]
  case state =>
    intro q
    have hst : (t1.proc q).state = (t.proc q).state ∨
        (t.proc q).state = .sleeping ∧ (t1.proc q).state = .runnable := by
      by_cases hq : q = c
      · subst hq
        rcases hself with he | ⟨hs, he⟩
        · exact .inl (by rw [he])
        · exact .inr ⟨hs, by rw [he]⟩
      · rcases hother q hq with he | ⟨hs, he⟩
        · exact .inl (by rw [he])
        · exact .inr ⟨hs, by rw [he]⟩
    rcases h.state q with he | ⟨hs, he⟩
    · rw [he]
      exact hst
    · rcases hst with he' | ⟨-, he'⟩
      · exact .inr ⟨he' ▸ hs, he⟩
      · rw [he'] at hs
        cases hs
  case woken =>
    intro q hq hpar hzq i hi hwait
    rcases mem_cons.mp hq with rfl | hq
    · exact hz hzq i hi (h.waits hwait)
    · by_cases hqc : q = c
      · subst hqc
        exact hz hzq i hi (h.waits hwait)
      · -- a zombie does not sleep, so the wakeup did not touch it
        have he := (hother q hqc).resolve_right fun hs => by rw [hzq] at hs; cases hs.1
        exact h.woken q hq (by rw [he, hpar]) (by rw [he, hzq]) i (hi1.trans hi) hwait
  case nextpid => exact h.nextpid.trans hw.nextpid
  case initproc => exact h.initproc.trans hi1

theorem reparent_spec (cs : List Slot) : ∀ t : State, t.initproc ≠ some p →
    Reparented p cs t (reparent p cs t) := by
  induction cs with
  | nil =>
    intro t _
    exact ⟨fun c => by simp [reparent], fun c => ⟨rfl, rfl, rfl⟩, fun c => .inl rfl,
      fun c hc => by simp at hc, rfl, rfl⟩
  | cons c cs ih =>
    intro t hinit
    by_cases hc : (t.proc c).parent = some p
    · by_cases hz : (t.proc c).state = .zombie
      · have he : reparent p (c :: cs) t = reparent p cs
            (wakeupProc t.initproc (t.set c fun e => { e with parent := t.initproc })) := by
          simp only [reparent, if_pos hc, if_pos hz]
        rw [he]
        have hw := woken_wakeupProc t.initproc (t.set c fun e => { e with parent := t.initproc })
        refine .cons hinit hc hw (fun _ i hi => ?_) (ih _ ?_)
        · rw [hi]
          exact not_waits_wakeupProc i _
        · rw [hw.initproc]
          exact hinit
      · have he : reparent p (c :: cs) t =
            reparent p cs (t.set c fun e => { e with parent := t.initproc }) := by
          simp only [reparent, if_pos hc, if_neg hz]
        rw [he]
        exact .cons hinit hc ⟨fun _ => .inl rfl, rfl, rfl⟩ (fun h => absurd h hz) (ih _ hinit)
    · have he : reparent p (c :: cs) t = reparent p cs t := by simp only [reparent, if_neg hc]
      rw [he]
      have h := ih t hinit
      refine ⟨fun q => ?_, h.rest, h.state, fun q hq hpar => ?_, h.nextpid, h.initproc⟩
      · rw [h.parent q]
        by_cases hq : q = c
        · subst hq
          simp [hc]
        · simp [hq]
      · rcases mem_cons.mp hq with rfl | hq
        · exact absurd hpar hc
        · exact h.woken q hq hpar

/-- What the critical section of `exit` does. -/
structure Exited (p : Slot) (t t' : State) : Prop where
  parent   : ∀ c, (t'.proc c).parent =
    if (t.proc c).parent = some p then t.initproc else (t.proc c).parent
  rest     : ∀ c, (t'.proc c).pid = (t.proc c).pid ∧ (t'.proc c).killed = (t.proc c).killed ∧
    (t'.proc c).chan = (t.proc c).chan
  zombie   : (t'.proc p).state = .zombie
  state    : ∀ c, c ≠ p → (t'.proc c).state = (t.proc c).state ∨
    (t.proc c).state = .sleeping ∧ (t'.proc c).state = .runnable
  waits    : ∀ q, Waits t' q → Waits t q
  reader   : ∀ q, (t.proc p).parent = some q → ¬ Waits t' q
  woken    : ∀ c, (t.proc c).parent = some p → (t.proc c).state = .zombie →
    ∀ i, t.initproc = some i → ¬ Waits t' i
  nextpid  : t'.nextpid = t.nextpid
  initproc : t'.initproc = t.initproc

theorem exit_spec (hp : (t.proc p).state = .running) (hinit : t.initproc ≠ some p) :
    Exited p t (exit p t) := by
  have hw := woken_wakeupProc (t.proc p).parent t
  have hr := reparent_spec (p := p) (finRange NPROC) (wakeupProc (t.proc p).parent t)
    (by rw [hw.initproc]; exact hinit)
  -- the two loops, before the process becomes a zombie
  generalize hm : reparent p (finRange NPROC) (wakeupProc (t.proc p).parent t) = m at hr
  have he : exit p t = m.set p fun e => { e with state := .zombie } := by
    unfold exit
    rw [← hm]
  rw [he]
  have hwaits : ∀ q, Waits (m.set p fun e => { e with state := .zombie }) q → Waits m q := by
    intro q hq
    by_cases hqp : q = p
    · subst hqp
      rw [Waits, set_self] at hq
      exact absurd hq.1 (by simp)
    · rwa [Waits, set_ne hqp] at hq
  constructor
  case parent =>
    intro c
    have hpar : ((m.set p fun e => { e with state := .zombie }).proc c).parent
        = (m.proc c).parent := by
      by_cases hcp : c = p
      · subst hcp
        rw [set_self]
      · rw [set_ne hcp]
    rw [hpar, hr.parent c, hw.initproc, hw.parent c]
    simp
  case rest =>
    intro c
    obtain ⟨h1, h2, h3⟩ := hr.rest c
    have hc : ((wakeupProc (t.proc p).parent t).proc c).pid = (t.proc c).pid ∧
        ((wakeupProc (t.proc p).parent t).proc c).killed = (t.proc c).killed ∧
        ((wakeupProc (t.proc p).parent t).proc c).chan = (t.proc c).chan := by
      rcases hw.proc c with he | ⟨-, he⟩ <;> simp [he]
    rw [← hc.1, ← hc.2.1, ← hc.2.2, ← h1, ← h2, ← h3]
    by_cases hcp : c = p
    · subst hcp
      simp
    · rw [set_ne hcp]
      exact ⟨rfl, rfl, rfl⟩
  case zombie => rw [set_self]
  case state =>
    intro c hcp
    rw [set_ne hcp]
    rcases hr.state c with h1 | ⟨hs, h1⟩
    · rw [h1]
      exact hw.state c
    · rcases hw.state c with h2 | ⟨-, h2⟩
      · exact .inr ⟨h2 ▸ hs, h1⟩
      · rw [h2] at hs
        cases hs
  case waits =>
    intro q hq
    exact hw.waits (hr.waits (hwaits q hq))
  case reader =>
    intro q hq hwait
    have h := hr.waits (hwaits q hwait)
    rw [hq] at h
    exact not_waits_wakeupProc q t h
  case woken =>
    intro c hc hz i hi hwait
    have hzc : (wakeupProc (t.proc p).parent t).proc c = t.proc c := hw.awake (by simp [hz])
    exact hr.woken c (mem_finRange c) (by rw [hzc, hc]) (by rw [hzc, hz]) i
      (by rw [hw.initproc, hi]) (hwaits i hwait)
  case nextpid => exact hr.nextpid.trans hw.nextpid
  case initproc => exact hr.initproc.trans hw.initproc

/-! ## What a step does -/

/-- Nobody is born, dies or changes parents. -/
structure SameTree (t t' : State) : Prop where
  parent   : ∀ q, (t'.proc q).parent = (t.proc q).parent
  unused   : ∀ q, (t'.proc q).state = .unused ↔ (t.proc q).state = .unused
  zombie   : ∀ q, (t'.proc q).state = .zombie ↔ (t.proc q).state = .zombie
  waits    : ∀ q, Waits t' q → Waits t q ∨ zombieChild t q = none
  initproc : t'.initproc = t.initproc

/-- And no pid is given out. -/
structure Calm (t t' : State) : Prop extends SameTree t t' where
  pid      : ∀ q, (t'.proc q).pid = (t.proc q).pid
  nextpid  : t'.nextpid = t.nextpid

theorem SameTree.refl (t : State) : SameTree t t :=
  ⟨fun _ => rfl, fun _ => .rfl, fun _ => .rfl, fun _ => .inl, rfl⟩

theorem Calm.refl (t : State) : Calm t t := ⟨.refl t, fun _ => rfl, rfl⟩

/-- `allocproc` gave the next pid to `np`. -/
def numbered (t : State) (np : Slot) : State :=
  { t.set np fun e => { e with pid := t.nextpid } with nextpid := incInt t.nextpid }

/-- The event marks `q` as killed. -/
def Marks (t : State) (e : Event) (q : Slot) : Prop :=
  e = .fault q ∨ ∃ pid, e = .kill pid ∧ target t pid = some q

/-- Who is killed afterwards was killed before, or is marked by the event. -/
def Keeps (t : State) (e : Event) (t' : State) : Prop :=
  ∀ q, (t'.proc q).killed = true → (t.proc q).killed = true ∨ Marks t e q

/-- The effect of one critical section. -/
inductive Effect (t : State) : Label → State → Prop where
  | calm {l : Label} {t' : State} (h : Calm t t') (hk : Keeps t l.event t')
      (hl : ∀ p r, l.event = .wait p → l.ret = some r → r = -1) : Effect t l t'
  /-- A `fork` that ran out of memory. -/
  | failed {p np : Slot} {kstack pgdir : Nat} (hnp : (t.proc np).state = .unused) :
      Effect t ⟨.fork p kstack pgdir, some (-1)⟩ (numbered t np)
  | forked {p np : Slot} {kstack pgdir : Nat} (hp : (t.proc p).state = .running)
      (hnp : (t.proc np).state = .unused) :
      Effect t ⟨.fork p kstack pgdir, some t.nextpid⟩
        ((numbered t np).set np fun e => { e with parent := some p, state := .runnable })
  | exited {p : Slot} {t' : State} (hp : (t.proc p).state = .running)
      (hinit : t.initproc ≠ some p) (h : Exited p t t') : Effect t ⟨.exit p, none⟩ t'
  | reaped {p c : Slot} (hp : (t.proc p).state = .running) (hc : (t.proc c).parent = some p)
      (hz : (t.proc c).state = .zombie) :
      Effect t ⟨.wait p, some (t.proc c).pid⟩ (t.set c fun e =>
        { e with pid := 0, parent := none, killed := false, state := .unused })

theorem Woken.calm (h : Woken t t') : Calm t t' := by
  refine ⟨⟨h.parent, fun q => ?_, fun q => ?_, fun q hq => .inl (h.waits hq), h.initproc⟩,
    fun q => ?_, h.nextpid⟩
  · rcases h.state q with hq | ⟨hs, hq⟩
    · rw [hq]
    · simp [hs, hq]
  · rcases h.state q with hq | ⟨hs, hq⟩
    · rw [hq]
    · simp [hs, hq]
  · rcases h.proc q with hq | ⟨-, hq⟩ <;> rw [hq]

/-- One entry changes, but for its parent and whether it is alive. -/
theorem sameTree_set (hpar : (f (t.proc p)).parent = (t.proc p).parent)
    (hu : (f (t.proc p)).state = .unused ↔ (t.proc p).state = .unused)
    (hz : (f (t.proc p)).state = .zombie ↔ (t.proc p).state = .zombie)
    (hw : (f (t.proc p)).state = .sleeping → (f (t.proc p)).chan = chanOf p →
      Waits t p ∨ zombieChild t p = none) : SameTree t (t.set p f) := by
  refine ⟨fun q => ?_, fun q => ?_, fun q => ?_, fun q hq => ?_, rfl⟩
  all_goals by_cases hqp : q = p
  · rw [hqp, set_self, hpar]
  · rw [set_ne hqp]
  · rw [hqp, set_self, hu]
  · rw [set_ne hqp]
  · rw [hqp, set_self, hz]
  · rw [set_ne hqp]
  · subst hqp
    rw [Waits, set_self] at hq
    exact hw hq.1 hq.2
  · rw [Waits, set_ne hqp] at hq
    exact .inl hq

theorem SameTree.calm_set (h : SameTree t (t.set p f)) (hpid : (f (t.proc p)).pid = (t.proc p).pid)
    : Calm t (t.set p f) := by
  refine ⟨h, fun q => ?_, rfl⟩
  by_cases hqp : q = p
  · rw [hqp, set_self, hpid]
  · rw [set_ne hqp]

/-- A running process changes to another state in which it is alive. -/
theorem calm_state {s : ProcState} {chan : Nat} (hp : (t.proc p).state ≠ .unused)
    (hp' : (t.proc p).state ≠ .zombie) (hu : s ≠ .unused) (hz : s ≠ .zombie)
    (hw : s = .sleeping → chan = chanOf p → zombieChild t p = none) :
    Calm t (t.set p fun e => { e with chan := chan, state := s }) :=
  (sameTree_set rfl (iff_of_false hu hp) (iff_of_false hz hp')
    fun h h' => .inr (hw h h')).calm_set rfl

theorem keeps_set (hf : (f (t.proc p)).killed = (t.proc p).killed ∨ Marks t e p) :
    Keeps t e (t.set p f) := by
  intro q hq
  by_cases hqp : q = p
  · subst hqp
    rw [set_self] at hq
    exact hf.imp_left fun h => h.symm.trans hq
  · rw [set_ne hqp] at hq
    exact .inl hq

theorem keeps_refl (t : State) (e : Event) : Keeps t e t := fun _ => .inl

theorem Woken.keeps (h : Woken t t') : Keeps t e t' := by
  intro q hq
  rcases h.proc q with he | ⟨-, he⟩ <;> rw [he] at hq <;> exact .inl hq

theorem keeps_kill (pid : Int) (t : State) : Keeps t (.kill pid) (kill pid t).2 := by
  unfold kill
  cases h : target t pid with
  | none => exact keeps_refl t _
  | some q => exact keeps_set (.inr (.inr ⟨pid, rfl, h⟩))

theorem calm_kill (pid : Int) (t : State) : Calm t (kill pid t).2 := by
  unfold kill
  cases target t pid with
  | none => exact .refl t
  | some q =>
    refine (sameTree_set rfl ?_ ?_ fun h h' => ?_).calm_set rfl
    · by_cases hs : (t.proc q).state = .sleeping <;> simp [Entry.kill, hs]
    · by_cases hs : (t.proc q).state = .sleeping <;> simp [Entry.kill, hs]
    · by_cases hs : (t.proc q).state = .sleeping
      · simp [Entry.kill, hs] at h
      · simp [Entry.kill, hs] at h

theorem fork_effect {pgdir : Nat} (hp : (t.proc p).state = .running) :
    Effect t ⟨.fork p kstack pgdir, some (fork p kstack pgdir t).1⟩ (fork p kstack pgdir t).2 := by
  unfold fork allocproc
  cases hf : freeSlot t with
  | none =>
    exact .calm (.refl t) (keeps_refl t _) fun _ _ h => by cases h
  | some np =>
    have hnp := freeSlot_some hf
    -- the slot is `UNUSED` again after a failure, with the new pid
    have hback : ∀ n : Int, ({ (t.set np fun e => { e with state := .embryo, pid := t.nextpid })
        with nextpid := n } : State).set np (fun e => { e with state := .unused }) =
        { t.set np fun e => { e with pid := t.nextpid } with nextpid := n } := by
      intro n
      simp [State.set, hnp]
    by_cases hk : kstack = 0
    · simp only [hk, if_true, hback]
      exact .failed hnp
    · by_cases hd : pgdir = 0x1000
      · simp only [if_neg hk, if_pos hd, hback]
        exact .failed hnp
      · simp only [if_neg hk, if_neg hd, set_self]
        have he : ((({ (t.set np fun e => { e with state := .embryo, pid := t.nextpid })
            with nextpid := incInt t.nextpid } : State).set np
              fun e => { e with parent := some p }).set np fun e => { e with state := .runnable })
            = (numbered t np).set np fun e => { e with parent := some p, state := .runnable } := by
          simp [State.set, numbered]
        simp only [set_nextpid, he]
        exact .forked hp hnp

theorem wait_effect (hp : (t.proc p).state = .running) :
    Effect t ⟨.wait p, (wait p t).1⟩ (wait p t).2 := by
  unfold wait
  cases hz : zombieChild t p with
  | some c =>
    obtain ⟨hc, hzc⟩ := zombieChild_some hz
    exact .reaped hp hc hzc
  | none =>
    by_cases hk : havekids t p = false ∨ (t.proc p).killed = true
    · simp only [if_pos hk]
      exact .calm (.refl t) (keeps_refl t _) fun _ r _ hr => (Option.some.inj hr).symm
    · simp only [if_neg hk]
      refine .calm ?_ (keeps_set (.inl rfl)) fun _ _ _ hr => by cases hr
      exact calm_state (by simp [hp]) (by simp [hp]) (by simp) (by simp) fun _ _ => hz

theorem step_effect (h : step t l = some t') : Effect t l t' := by
  obtain ⟨hen, hret, ht⟩ := step_eq h
  obtain ⟨e, ret⟩ := l
  dsimp only at hen hret ht
  subst hret ht
  cases e with
  | dispatch p =>
    have hp : (t.proc p).state = .runnable := hen
    have hc : Calm t (dispatch p t) :=
      calm_state (by simp [hp]) (by simp [hp]) (by simp) (by simp) (by simp)
    have hk : Keeps t (.dispatch p) (dispatch p t) := keeps_set (.inl rfl)
    exact .calm hc hk fun _ _ h => by cases h
  | yield p =>
    have hp : (t.proc p).state = .running := hen
    have hc : Calm t (yield p t) :=
      (sameTree_set rfl (by simp [hp]) (by simp [hp]) (by simp)).calm_set rfl
    have hk : Keeps t (.yield p) (yield p t) := keeps_set (.inl rfl)
    exact .calm hc hk fun _ _ h => by cases h
  | sleep p chan =>
    obtain ⟨hp, hchan⟩ := hen
    have hc : Calm t (sleep p chan t) :=
      calm_state (by simp [hp]) (by simp [hp]) (by simp) (by simp) fun _ h => absurd h (hchan p)
    have hk : Keeps t (.sleep p chan) (sleep p chan t) := keeps_set (.inl rfl)
    exact .calm hc hk fun _ _ h => by cases h
  | wakeup chan =>
    exact .calm (woken_wakeup1 chan t).calm (woken_wakeup1 chan t).keeps fun _ _ h => by cases h
  | kill pid => exact .calm (calm_kill pid t) (keeps_kill pid t) fun _ _ h => by cases h
  | fork p kstack pgdir => exact fork_effect hen
  | exit p => exact .exited hen.1 hen.2 (exit_spec hen.1 hen.2)
  | wait p => exact wait_effect hen
  | fault p =>
    have hc : Calm t (fault p t) :=
      (sameTree_set rfl .rfl .rfl fun h h' => .inl ⟨h, h'⟩).calm_set rfl
    have hk : Keeps t (.fault p) (fault p t) := keeps_set (.inr (.inl rfl))
    exact .calm hc hk fun _ _ h => by cases h

/-! ## The invariants -/

/-- The entry of a process that has not exited. -/
def Alive (e : Entry) : Prop := e.state ≠ .unused ∧ e.state ≠ .zombie

/-- `init` is there, and every other process has a parent that is alive. -/
structure Tree (t : State) : Prop where
  init   : ∃ i, t.initproc = some i ∧ (t.proc i).parent = none ∧ Alive (t.proc i)
  parent : ∀ c, (t.proc c).state ≠ .unused → t.initproc ≠ some c →
    ∃ p, (t.proc c).parent = some p ∧ p ≠ c ∧ Alive (t.proc p)

/-- Nobody sleeps in `wait` with a zombie to free. -/
def NoLost (t : State) : Prop :=
  ∀ p c, (t.proc c).parent = some p → (t.proc c).state = .zombie → ¬ Waits t p

theorem SameTree.alive (h : SameTree t t') : Alive (t'.proc q) ↔ Alive (t.proc q) :=
  and_congr (not_congr (h.unused q)) (not_congr (h.zombie q))

theorem Tree.same (h : Tree t) (hc : SameTree t t') : Tree t' := by
  obtain ⟨i, hi, hpar, halive⟩ := h.init
  refine ⟨⟨i, hc.initproc.trans hi, (hc.parent i).trans hpar, hc.alive.mpr halive⟩, ?_⟩
  intro c hu hne
  obtain ⟨p, hp, hpc, hal⟩ := h.parent c ((not_congr (hc.unused c)).mp hu) (hc.initproc ▸ hne)
  exact ⟨p, (hc.parent c).trans hp, hpc, hc.alive.mpr hal⟩

theorem NoLost.same (h : NoLost t) (hc : SameTree t t') : NoLost t' := by
  intro p c hpar hz hw
  rw [hc.parent] at hpar
  rw [hc.zombie] at hz
  rcases hc.waits p hw with hw | hnone
  · exact h p c hpar hz hw
  · exact zombieChild_none hnone hpar hz

theorem sameTree_numbered (hnp : (t.proc np).state = .unused) : SameTree t (numbered t np) := by
  have h : SameTree t (t.set np fun e => { e with pid := t.nextpid }) :=
    sameTree_set rfl .rfl .rfl fun h => by rw [hnp] at h; cases h
  exact ⟨h.parent, h.unused, h.zombie, h.waits, h.initproc⟩

theorem Tree.init_ne (h : Tree t) (hc : ¬ Alive (t.proc c)) : t.initproc ≠ some c := by
  obtain ⟨i, hi, -, halive⟩ := h.init
  intro he
  rw [hi, Option.some.injEq] at he
  exact hc (he ▸ halive)

/-- A slot that was `UNUSED` becomes a child of `p`. -/
theorem Tree.born (h : Tree t) (hp : (t.proc p).state = .running)
    (hnp : (t.proc np).state = .unused) :
    Tree (t.set np fun e => { e with parent := some p, state := .runnable }) := by
  have hdead : ¬ Alive (t.proc np) := fun h => h.1 hnp
  have hne : p ≠ np := by
    intro he
    rw [he, hnp] at hp
    cases hp
  obtain ⟨i, hi, hpar, halive⟩ := h.init
  have hinp : i ≠ np := fun he => h.init_ne hdead (he ▸ hi)
  refine ⟨⟨i, hi, ?_⟩, fun c hu hci => ?_⟩
  · rw [set_ne hinp]
    exact ⟨hpar, halive⟩
  · by_cases hc : c = np
    · subst hc
      refine ⟨p, by rw [set_self], hne, ?_⟩
      rw [set_ne hne]
      exact ⟨by simp [hp], by simp [hp]⟩
    · rw [set_ne hc] at hu ⊢
      obtain ⟨q, hq, hqc, hal⟩ := h.parent c hu hci
      have hqnp : q ≠ np := fun he => hdead (he ▸ hal)
      exact ⟨q, hq, hqc, by rw [set_ne hqnp]; exact hal⟩

theorem NoLost.born (h : NoLost t) :
    NoLost (t.set np fun e => { e with parent := some p, state := .runnable }) := by
  intro q c hpar hz hw
  by_cases hc : c = np
  · subst hc
    rw [set_self] at hz
    cases hz
  · rw [set_ne hc] at hpar hz
    by_cases hq : q = np
    · subst hq
      rw [Waits, set_self] at hw
      exact absurd hw.1 (by simp)
    · rw [Waits, set_ne hq] at hw
      exact h q c hpar hz hw

theorem Exited.alive (h : Exited p t t') (hq : q ≠ p) : Alive (t'.proc q) ↔ Alive (t.proc q) := by
  unfold Alive
  rcases h.state q hq with he | ⟨hs, he⟩
  · rw [he]
  · simp [hs, he]

theorem Exited.used (h : Exited p t t') (hp : (t.proc p).state = .running)
    (hq : (t'.proc q).state ≠ .unused) : (t.proc q).state ≠ .unused := by
  by_cases hqp : q = p
  · rw [hqp, hp]
    simp
  · rcases h.state q hqp with he | ⟨hs, -⟩
    · rwa [← he]
    · simp [hs]

theorem Tree.exited (h : Tree t) (hp : (t.proc p).state = .running) (hinit : t.initproc ≠ some p)
    (hx : Exited p t t') : Tree t' := by
  obtain ⟨i, hi, hpar, halive⟩ := h.init
  have hip : i ≠ p := fun he => hinit (he ▸ hi)
  refine ⟨⟨i, hx.initproc.trans hi, ?_, (hx.alive hip).mpr halive⟩, fun c hu hne => ?_⟩
  · rw [hx.parent, if_neg (by simp [hpar]), hpar]
  · rw [hx.initproc] at hne
    obtain ⟨q, hq, hqc, hal⟩ := h.parent c (hx.used hp hu) hne
    by_cases hqp : q = p
    · -- an abandoned child goes to `init`
      have hci : i ≠ c := fun he => hne (he ▸ hi)
      exact ⟨i, by rw [hx.parent, if_pos (hqp ▸ hq), hi], hci, (hx.alive hip).mpr halive⟩
    · have hne' : (t.proc c).parent ≠ some p := by
        rw [hq]
        simpa using hqp
      exact ⟨q, by rw [hx.parent, if_neg hne', hq], hqc, (hx.alive hqp).mpr hal⟩

theorem NoLost.exited (h : NoLost t) (ht : Tree t) (hp : (t.proc p).state = .running)
    (hinit : t.initproc ≠ some p) (hx : Exited p t t') : NoLost t' := by
  intro q c hpar hz hw
  rw [hx.parent] at hpar
  by_cases hcp : c = p
  · subst hcp
    -- its parent is not itself, and was woken up
    obtain ⟨r, hr, hrc, -⟩ := ht.parent c (by simp [hp]) hinit
    have hne : (t.proc c).parent ≠ some c := by
      rw [hr]
      simpa using hrc
    rw [if_neg hne] at hpar
    exact hx.reader q hpar hw
  · have hzc : (t.proc c).state = .zombie := by
      rcases hx.state c hcp with he | ⟨-, he⟩
      · rwa [← he]
      · rw [he] at hz
        cases hz
    by_cases hc : (t.proc c).parent = some p
    · rw [if_pos hc] at hpar
      exact hx.woken c hc hzc q hpar hw
    · rw [if_neg hc] at hpar
      exact h q c hpar hzc (hx.waits q hw)

theorem Tree.reaped (h : Tree t) (hz : (t.proc c).state = .zombie) : Tree (t.set c fun e =>
    { e with pid := 0, parent := none, killed := false, state := .unused }) := by
  have hdead : ¬ Alive (t.proc c) := fun h => h.2 hz
  obtain ⟨i, hi, hpar, halive⟩ := h.init
  have hic : i ≠ c := fun he => h.init_ne hdead (he ▸ hi)
  refine ⟨⟨i, hi, ?_⟩, fun d hu hdi => ?_⟩
  · rw [set_ne hic]
    exact ⟨hpar, halive⟩
  · have hdc : d ≠ c := by
      intro he
      rw [he, set_self] at hu
      exact hu rfl
    rw [set_ne hdc] at hu ⊢
    obtain ⟨q, hq, hqd, hal⟩ := h.parent d hu hdi
    have hqc : q ≠ c := fun he => hdead (he ▸ hal)
    exact ⟨q, hq, hqd, by rw [set_ne hqc]; exact hal⟩

theorem NoLost.reaped (h : NoLost t) : NoLost (t.set c fun e =>
    { e with pid := 0, parent := none, killed := false, state := .unused }) := by
  intro q d hpar hz hw
  by_cases hd : d = c
  · subst hd
    rw [set_self] at hz
    cases hz
  · rw [set_ne hd] at hpar hz
    by_cases hq : q = c
    · subst hq
      rw [Waits, set_self] at hw
      exact absurd hw.1 (by simp)
    · rw [Waits, set_ne hq] at hw
      exact h q d hpar hz hw

theorem effect_tree (he : Effect t l t') (ht : Tree t) (hn : NoLost t) : Tree t' ∧ NoLost t' := by
  cases he with
  | calm h _ _ => exact ⟨ht.same h.toSameTree, hn.same h.toSameTree⟩
  | failed hnp => exact ⟨ht.same (sameTree_numbered hnp), hn.same (sameTree_numbered hnp)⟩
  | @forked p np _ _ hp hnp =>
    have hs := sameTree_numbered hnp
    have hne : p ≠ np := by
      intro he
      rw [he, hnp] at hp
      cases hp
    have hp' : ((numbered t np).proc p).state = .running := by
      show ((t.set np fun e => { e with pid := t.nextpid }).proc p).state = _
      rw [set_ne hne, hp]
    exact ⟨(ht.same hs).born hp' ((hs.unused np).mpr hnp), (hn.same hs).born⟩
  | exited hp hinit h => exact ⟨ht.exited hp hinit h, hn.exited ht hp hinit h⟩
  | reaped _ _ hz => exact ⟨ht.reaped hz, hn.reaped⟩

/-- The table after `userinit`: slot 0 is `init`. -/
theorem userinit_zero (h : userinit kstack zero = some t) :
    t = { proc := Function.update zero.proc 0
            { state := .runnable, pid := 1, parent := none, killed := false, chan := 0 },
          nextpid := 2, initproc := some 0 } := by
  have hfree : freeSlot zero = some 0 := by decide
  unfold userinit allocproc at h
  rw [hfree] at h
  by_cases hk : kstack = 0
  · simp [hk] at h
  · simp only [if_neg hk] at h
    cases h
    simp [State.set, zero, incInt]

theorem init_tree (h : ∃ kstack, userinit kstack zero = some t) : Tree t ∧ NoLost t := by
  obtain ⟨kstack, h⟩ := h
  obtain rfl := userinit_zero h
  refine ⟨⟨⟨0, rfl, rfl, by simp [Alive]⟩, fun c hu hc => ?_⟩, fun p c hpar => ?_⟩
  · have hc0 : c ≠ 0 := fun he => hc (by rw [he])
    simp [hc0, zero] at hu
  · by_cases hc0 : c = 0
    · subst hc0
      simp at hpar
    · simp [hc0, zero] at hpar

theorem reachable_tree (h : system.Reachable t) : Tree t ∧ NoLost t :=
  System.invariant (I := fun t => Tree t ∧ NoLost t) (fun _ h => init_tree h)
    (fun _ _ _ h hs => effect_tree (step_effect hs) h.1 h.2) h

/-! ## No wakeup is lost -/

/-- A process that sleeps in `wait` has no zombie among its children, its own
    or those it inherited. -/
theorem wait_sees_exit (h : system.Reachable t) (hw : Waits t p)
    (hc : (t.proc c).parent = some p) : (t.proc c).state ≠ .zombie :=
  fun hz => (reachable_tree h).2 p c hc hz hw

/-- `init` makes a child and waits for it. -/
def forkAndWait : List Label :=
  [⟨.dispatch 0, none⟩, ⟨.fork 0 4096 8192, some 2⟩, ⟨.wait 0, none⟩]

theorem wait_sees_exit_forkAndWait : ∃ t, system.Reachable t ∧ Waits t 0 ∧
    (t.proc 1).parent = some 0 ∧ (t.proc 1).state ≠ .zombie := by
  obtain ⟨t0, h0⟩ : ∃ t, userinit 4096 zero = some t := ⟨_, rfl⟩
  have hrun : ∃ t, system.Run t0 forkAndWait t ∧
      decide (Waits t 0 ∧ (t.proc 1).parent = some 0) = true :=
    System.exists_run_of_replay (by obtain rfl := userinit_zero h0; decide)
  obtain ⟨t, hrun, hq⟩ := hrun
  obtain ⟨hw, hc⟩ := of_decide_eq_true hq
  have hreach : system.Reachable t := ⟨t0, forkAndWait, ⟨4096, h0⟩, hrun⟩
  exact ⟨t, hreach, hw, hc, wait_sees_exit hreach hw hc⟩

/-! ## Everyone descends from `init` -/

/-- `init`, its children, their children and so on. -/
inductive Descends (t : State) : Slot → Prop where
  | init {i : Slot} (h : t.initproc = some i) : Descends t i
  | child {p c : Slot} (h : (t.proc c).parent = some p) (hp : Descends t p) : Descends t c

def Rooted (t : State) : Prop := ∀ c, (t.proc c).state ≠ .unused → Descends t c

theorem Tree.alive_parent (h : Tree t) (hc : (t.proc c).state ≠ .unused)
    (hp : (t.proc c).parent = some p) : Alive (t.proc p) := by
  by_cases hi : t.initproc = some c
  · obtain ⟨i, hi', hnone, -⟩ := h.init
    cases hi.symm.trans hi'
    cases hp.symm.trans hnone
  · obtain ⟨q, hq, -, halive⟩ := h.parent c hc hi
    cases hp.symm.trans hq
    exact halive

/-- A step after which every slot has its old parent, or `init`. -/
theorem Descends.step (h : Descends t q) (ht : Tree t) (hinit : t'.initproc = t.initproc)
    (hpar : ∀ c, (t'.proc c).parent = t.initproc ∨ (t'.proc c).parent = (t.proc c).parent) :
    Descends t' q := by
  induction h with
  | init hi => exact .init (hinit.trans hi)
  | @child p c hc _ ih =>
    rcases hpar c with he | he
    · obtain ⟨i, hi, -⟩ := ht.init
      exact .child (he.trans hi) (.init (hinit.trans hi))
    · exact .child (he.trans hc) ih

/-- A slot that is not alive is not among the ancestors of a process. -/
theorem Descends.set (h : Descends t q) (ht : Tree t) (hc : ¬ Alive (t.proc c))
    (hq : (t.proc q).state ≠ .unused) (hqc : q ≠ c) : Descends (t.set c f) q := by
  induction h with
  | init hi => exact .init hi
  | @child p q hpar _ ih =>
    have halive := ht.alive_parent hq hpar
    have hpc : p ≠ c := fun he => hc (he ▸ halive)
    exact .child (by rw [set_ne hqc, hpar]) (ih halive.1 hpc)

theorem Rooted.same (h : Rooted t) (ht : Tree t) (hs : SameTree t t') : Rooted t' := by
  intro c hu
  exact (h c ((not_congr (hs.unused c)).mp hu)).step ht hs.initproc fun c => .inr (hs.parent c)

theorem Rooted.born (h : Rooted t) (ht : Tree t) (hp : (t.proc p).state ≠ .unused)
    (hnp : (t.proc np).state = .unused) :
    Rooted (t.set np fun e => { e with parent := some p, state := .runnable }) := by
  have hold : ∀ q, (t.proc q).state ≠ .unused →
      Descends (t.set np fun e => { e with parent := some p, state := .runnable }) q := by
    intro q hq
    exact (h q hq).set ht (fun halive => halive.1 hnp) hq fun he => hq (he ▸ hnp)
  intro c hu
  by_cases hc : c = np
  · subst hc
    exact .child (by rw [set_self]) (hold p hp)
  · rw [set_ne hc] at hu
    exact hold c hu

theorem effect_rooted (he : Effect t l t') (ht : Tree t) (h : Rooted t) : Rooted t' := by
  cases he with
  | calm hc _ _ => exact h.same ht hc.toSameTree
  | failed hnp => exact h.same ht (sameTree_numbered hnp)
  | @forked p np _ _ hp hnp =>
    have hs := sameTree_numbered hnp
    refine (h.same ht hs).born (ht.same hs) ?_ ((hs.unused np).mpr hnp)
    rw [Ne, hs.unused, hp]
    decide
  | exited hp _ hx =>
    intro c hu
    refine (h c (hx.used hp hu)).step ht hx.initproc fun c => ?_
    rw [hx.parent]
    split
    · exact .inl rfl
    · exact .inr rfl
  | @reaped _ c _ _ hz =>
    intro d hu
    have hdc : d ≠ c := by
      rintro rfl
      simp at hu
    rw [set_ne hdc] at hu
    exact (h d hu).set ht (fun halive => halive.2 hz) hu hdc

/-- **Orphans**: whatever is forked, exits or is waited for, every process descends from `init`. -/
theorem descends_of_reachable (h : system.Reachable t) (hc : (t.proc c).state ≠ .unused) :
    Descends t c := by
  refine (System.invariant (I := fun t => (Tree t ∧ NoLost t) ∧ Rooted t) ?_ ?_ h).2 c hc
  · intro t ht
    refine ⟨init_tree ht, fun c hu => ?_⟩
    obtain ⟨kstack, ht⟩ := ht
    obtain rfl := userinit_zero ht
    by_cases hc0 : c = 0
    · exact .init (by rw [hc0])
    · simp [hc0, zero] at hu
  · intro t l t' ht hs
    have he := step_effect hs
    exact ⟨effect_tree he ht.1.1 ht.1.2, effect_rooted he ht.1.1 ht.2⟩

theorem descends_of_reachable_fork : ∃ t, system.Reachable t ∧ Descends t 1 := by
  obtain ⟨t0, h0⟩ : ∃ t, userinit 4096 zero = some t := ⟨_, rfl⟩
  have hrun : ∃ t, system.Run t0 [⟨.dispatch 0, none⟩, ⟨.fork 0 4096 8192, some 2⟩] t ∧
      decide ((t.proc 1).state ≠ .unused) = true :=
    System.exists_run_of_replay (by obtain rfl := userinit_zero h0; decide)
  obtain ⟨t, hrun, hc⟩ := hrun
  have hreach : system.Reachable t := ⟨t0, _, ⟨4096, h0⟩, hrun⟩
  exact ⟨t, hreach, descends_of_reachable hreach (of_decide_eq_true hc)⟩

end Xv6.Ptable
