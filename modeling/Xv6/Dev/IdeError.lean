import Xv6.Dev.Ide

/-! # Errors of the disk controller

    The controller ends a command with a status. With `IDE_DF` or `IDE_ERR` in it no data has moved:
    there is nothing to read, and the disk is as it was. `ideintr` looks at the status before
    `insl`, and only there; it sets `B_VALID` and clears `B_DIRTY` whatever the status is.

    Key theorem:
    - `flags_truthful`: the flags are right exactly after a command without error
-/

namespace Xv6.Ide.Errors

open LTS Bio

/-! ## Model -/

abbrev IDE_BSY : Nat := 0x80
abbrev IDE_DRDY : Nat := 0x40
abbrev IDE_DF : Nat := 0x20
abbrev IDE_ERR : Nat := 0x01

/-- `idewait(checkerr)`, when it reads the status `r`; `none` if it reads again. -/
def idewait (checkerr : Bool) (r : Nat) : Option Int :=
  if r &&& (IDE_BSY ||| IDE_DRDY) ≠ IDE_DRDY then none
  else if checkerr ∧ r &&& (IDE_DF ||| IDE_ERR) ≠ 0 then some (-1)
  else some 0

/-- The driver, and the status of the last command. -/
structure State (P : Type) where
  driver : Ide.State P
  status : Nat

inductive Event (P : Type) where
  /-- A step of a process or of the handler. -/
  | code (e : Ide.Event P)
  /-- The controller ends its command with the status `r`. -/
  | complete (r : Nat)

variable {P : Type} {s : State P}

/-- The buffer after `ideintr`. -/
def finished (s : State P) (b : Fin NBUF) : Buf :=
  { (if (s.driver.buf b).dirty = false ∧ idewait true s.status = some 0 then
      { s.driver.buf b with data := s.driver.ctl.block } else s.driver.buf b) with
    valid := true, dirty := false }

def ideintr (s : State P) : Option (Ide.State P) :=
  match s.driver.idequeue.first with
  | none => some { s.driver with ctl := .idle }
  | some b =>
      let d := { s.driver.dequeue b with cache := s.driver.cache.set b (finished s b) }
      match d.idequeue.first with
      | none => some d
      | some b' => idestart d b'

/-- The controller gives its command up. -/
def fail (d : Ide.State P) : Option (Ide.State P) :=
  match d.ctl with
  | .busy c => some { d with ctl := .done c (.fill 0) }
  | _ => none

section Model

variable [DecidableEq P]

def step (s : State P) : Event P → Option (State P)
  | .code .complete => none
  | .code .ideintr =>
      if s.driver.panicked ∨ s.driver.ctl.isBusy then none
      else (ideintr s).map fun d => { s with driver := d }
  | .code e => (Ide.step s.driver e).map fun d => { s with driver := d }
  | .complete r =>
      if s.driver.panicked then none
      else if idewait true r = some 0 then (Ide.complete s.driver).map fun d => ⟨d, r⟩
      else if idewait true r = none then none
      else (fail s.driver).map fun d => ⟨d, r⟩

variable (P) in
def system : System (State P) (Event P) :=
  System.ofStep (fun s => ∃ havedisk1 disk next, s = ⟨boot havedisk1 disk next, IDE_DRDY⟩) step

end Model

/-- No command ends with an error. -/
def Ok (_ : State P) : Event P → Prop
  | .complete r => r &&& (IDE_DF ||| IDE_ERR) = 0
  | .code _ => True

instance (s : State P) (e : Event P) : Decidable (Ok s e) := by
  cases e with
  | code _ => exact .isTrue trivial
  | complete r => exact inferInstanceAs (Decidable (_ = _))

/-! ## Runs without errors -/

theorem idewait_eq_zero {r : Nat} :
    idewait true r = some 0 ↔
      r &&& (IDE_BSY ||| IDE_DRDY) = IDE_DRDY ∧ r &&& (IDE_DF ||| IDE_ERR) = 0 := by
  unfold idewait
  split_ifs with h1 h2
  · simp [h1]
  · simp [h2.2]
  · simpa using ⟨by simpa using h1, by simpa using h2⟩

section Steps

variable {s s' : State P} {b : Fin NBUF}

/-- Without an error it is the handler of the driver. -/
theorem ideintr_of_ok (h : idewait true s.status = some 0) : ideintr s = Ide.ideintr s.driver := by
  have hfin : ∀ b, finished s b = Ide.finished s.driver b := by
    intro b
    unfold finished Ide.finished
    cases hd : (s.driver.buf b).dirty with
    | true => simp
    | false => simp [h]
  unfold ideintr Ide.ideintr
  simp only [hfin]
  rfl

/-- The handler changes the first buffer of the queue as `finished` says. -/
theorem buf_ideintr {d : Ide.State P} (hs : ideintr s = some d)
    (hb : s.driver.idequeue.first = some b) : d.buf b = finished s b := by
  have hset : (s.driver.cache.set b (finished s b)).buf b = finished s b := buf_set_self ..
  unfold ideintr at hs
  rw [hb] at hs
  dsimp only at hs
  split at hs
  · cases hs
    exact hset
  · unfold idestart at hs
    split at hs
    · cases hs
      exact hset
    · split at hs
      · cases hs
      · cases hs
        exact hset

variable [DecidableEq P]

theorem step_code {e : Ide.Event P} (hst : idewait true s.status = some 0)
    (hs : step s (.code e) = some s') :
    ∃ d, Ide.step s.driver e = some d ∧ s' = { s with driver := d } := by
  have hlift : (Ide.step s.driver e).map (fun d => { s with driver := d }) = some s' := by
    cases e with
    | complete => cases hs
    | ideintr =>
      rw [step] at hs
      split_ifs at hs with hbusy
      rw [not_or] at hbusy
      rw [Ide.step, if_neg hbusy.1, if_neg hbusy.2, ← ideintr_of_ok hst]
      exact hs
    | _ => exact hs
  obtain ⟨d, hd, rfl⟩ := Option.map_eq_some_iff.mp hlift
  exact ⟨d, hd, rfl⟩

/-- A run without errors is one of the driver with a controller that makes none. -/
theorem reachable_driver (h : ((system P).restrict Ok).Reachable s) :
    (Ide.system P).Reachable s.driver ∧ idewait true s.status = some 0 := by
  refine System.invariant (I := fun s => (Ide.system P).Reachable s.driver ∧
    idewait true s.status = some 0) ?_ (fun s e s' hs hstep => ?_) h
  · rintro s ⟨havedisk1, disk, next, rfl⟩
    exact ⟨.of_init ⟨havedisk1, disk, next, rfl⟩,
      show idewait true IDE_DRDY = some 0 by decide⟩
  · obtain ⟨hreach, hst⟩ := hs
    obtain ⟨hstep, hok⟩ : step s e = some s' ∧ Ok s e := hstep
    cases e with
    | code e =>
      obtain ⟨d, hd, rfl⟩ := step_code hst hstep
      exact ⟨hreach.step hd, hst⟩
    | complete r =>
      rw [step] at hstep
      split_ifs at hstep with hp hr hr'
      · obtain ⟨d, hd, rfl⟩ := Option.map_eq_some_iff.mp hstep
        refine ⟨hreach.step (l := .complete) ?_, hr⟩
        show Ide.step s.driver .complete = some d
        rw [Ide.step, if_neg hp]
        exact hd
      · -- an error, against `Ok`
        refine absurd (idewait_eq_zero.mpr ⟨?_, hok⟩) hr
        by_contra hbusy
        exact hr' (if_pos hbusy)

theorem step_ideintr (hs : step s (.code .ideintr) = some s') : s.driver.panicked = false ∧
    s.driver.ctl.isBusy = false ∧ ∃ d, ideintr s = some d ∧ s' = { s with driver := d } := by
  rw [step] at hs
  split_ifs at hs with hno
  rw [not_or, Bool.not_eq_true, Bool.not_eq_true] at hno
  obtain ⟨d, hd, rfl⟩ := Option.map_eq_some_iff.mp hs
  exact ⟨hno.1, hno.2, d, hd, rfl⟩

end Steps

/-! ## What the flags say -/

/-- What `B_VALID` without `B_DIRTY` says when `ideintr` has handled the request for `b`: the
    command was for its block, it ended without error, and the buffer is equal to the block. -/
structure Truthful (s s' : State P) (b : Fin NBUF) : Prop where
  command : ∃ x, s.driver.ctl = .done (.of (s.driver.buf b)) x
  status  : s.status &&& (IDE_DF ||| IDE_ERR) = 0
  data    : (s'.driver.buf b).data = s.driver.disk (s.driver.buf b).dev (s.driver.buf b).blockno

variable [DecidableEq P]

theorem truthful_of_ok {s' : State P} {b : Fin NBUF} (h : ((system P).restrict Ok).Reachable s)
    (hs : step s (.code .ideintr) = some s') (hb : s.driver.idequeue.first = some b) :
    Truthful s s' b := by
  obtain ⟨hreach, hst⟩ := reachable_driver h
  obtain ⟨hrun, hidle, d, hd, rfl⟩ := step_ideintr hs
  obtain ⟨-, l, hq⟩ := (reachable_queued hreach).resolve_left (by simp [hrun])
  have hwork := hq.work b (by rw [← hq.chain.first_eq, hb]; rfl)
  obtain ⟨x, hctl, hx, hdirty⟩ := hwork.ctl.resolve_left fun hbusy => by
    rw [hbusy] at hidle
    cases hidle
  refine ⟨⟨x, hctl⟩, (idewait_eq_zero.mp hst).2, ?_⟩
  show (d.buf b).data = _
  rw [buf_ideintr hd hb, hx, finished]
  cases hdb : (s.driver.buf b).dirty with
  | true =>
    rw [if_neg (by simp)]
    exact (hdirty hdb).symm
  | false =>
    rw [if_pos ⟨rfl, hst⟩, hctl]
    rfl

/-- As long as no command has ended with an error: each request that `ideintr` takes off the queue
    was carried out, and each call of `iderw` returns with the buffer equal to its block. The next
    command may end with any status; its buffer is then marked valid and clean in any case, and
    rightly so exactly if there was no error. -/
theorem flags_truthful (h : ((system P).restrict Ok).Reachable s)
    (hrun : s.driver.panicked = false) :
    (∀ s' b, step s (.code .ideintr) = some s' → s.driver.idequeue.first = some b →
      Truthful s s' b) ∧
    (∀ e s' q b, step s (.code e) = some s' → (s.driver.pc q).request = some b →
      s'.driver.pc q = .out →
        (s'.driver.buf b).data = s'.driver.disk (s'.driver.buf b).dev (s'.driver.buf b).blockno) ∧
    ∀ r s₁ s₂ b, step s (.complete r) = some s₁ → step s₁ (.code .ideintr) = some s₂ →
      s₁.driver.idequeue.first = some b →
        Buf.synced (s₂.driver.buf b) = true ∧
        (Truthful s₁ s₂ b ↔ r &&& (IDE_DF ||| IDE_ERR) = 0) := by
  obtain ⟨hreach, hst⟩ := reachable_driver h
  obtain ⟨hh, l, hq⟩ := (reachable_queued hreach).resolve_left (by simp [hrun])
  refine ⟨fun s' b hs hb => truthful_of_ok h hs hb, fun e s' q b hs hreq hout => ?_,
    fun r s₁ s₂ b h1 h2 hb => ?_⟩
  · obtain ⟨d, hd, rfl⟩ := step_code hst hs
    rcases (step_steps hh hq hrun hd).stay q b hreq with hstay | ⟨rfl, hsync⟩
    · have hout : d.pc q = .out := hout
      rw [hout] at hstay
      cases hstay
    · exact hq.data q b hreq hsync
  · have hstatus : s₁.status = r := by
      rw [step] at h1
      split_ifs at h1
      all_goals
        obtain ⟨d, -, rfl⟩ := Option.map_eq_some_iff.mp h1
        rfl
    refine ⟨?_, fun ht => hstatus ▸ ht.status, fun hok => ?_⟩
    · obtain ⟨-, -, d, hd, rfl⟩ := step_ideintr h2
      rw [buf_ideintr hd hb]
      rfl
    · exact truthful_of_ok (h.step ⟨h1, hok⟩) h2 hb

/-- One process reads block 5; the controller ends the command with the status `r`. -/
def oneRead (r : Nat) : List (Event (Fin 2)) :=
  [.code (.bget 0 0 5), .code (.iderw 0 0), .complete r, .code .ideintr, .code (.resume 0)]

/-- A disk without zeros. -/
def ones : State (Fin 2) := ⟨boot false (fun _ _ => .fill 1) fun _ => none, IDE_DRDY⟩

/-- The command has ended, and the interrupt is due. -/
theorem flags_truthful_oneRead : ∃ s s', ((system (Fin 2)).restrict Ok).Reachable s ∧
    s.driver.panicked = false ∧ s.driver.idequeue.first = some 0 ∧
    step s (.code .ideintr) = some s' ∧ Truthful s s' 0 := by
  have hend : (System.replay (fun s e => if Ok s e then step s e else none) ones
      ((oneRead IDE_DRDY).take 3)).any (fun s => decide (s.driver.panicked = false ∧
        s.driver.idequeue.first = some 0 ∧ (step s (.code .ideintr)).isSome)) = true := by
    decide +kernel
  obtain ⟨s, hs, hq⟩ := (Option.any_eq_true _ _).mp hend
  obtain ⟨hrun, hfirst, hsome⟩ := of_decide_eq_true hq
  obtain ⟨s', hstep⟩ := Option.isSome_iff_exists.mp hsome
  have hreach : ((system (Fin 2)).restrict Ok).Reachable s :=
    ⟨_, _, ⟨_, _, _, rfl⟩, System.run_restrict_of_replay hs⟩
  exact ⟨s, s', hreach, hrun, hfirst, hstep, (flags_truthful hreach hrun).1 s' 0 hstep hfirst⟩

/-- The process is back from `iderw`: its buffer is valid and clean, but not what is on the disk. -/
def Stale (s : State (Fin 2)) : Prop :=
  s.driver.pc 0 = .out ∧ Buf.synced (s.driver.buf 0) = true ∧
    (s.driver.buf 0).data 0 ≠ s.driver.disk 0 5 0

instance (s : State (Fin 2)) : Decidable (Stale s) := inferInstanceAs (Decidable (_ ∧ _ ∧ _))

/-- A read fails, and `iderw` returns all the same; then a write does. -/
theorem failed_request_is_hidden :
    (∃ s, (system (Fin 2)).Reachable s ∧ s.driver.completed = [0] ∧ Stale s) ∧
    ∃ s, (system (Fin 2)).Reachable s ∧ s.driver.completed = [0, 0] ∧ Stale s := by
  have hrun : ∀ (es : List (Event (Fin 2))) (done : List (Fin NBUF)),
      (System.replay step ones es).any (fun s => decide (s.driver.completed = done ∧ Stale s)) =
        true → ∃ s, (system (Fin 2)).Reachable s ∧ s.driver.completed = done ∧ Stale s := by
    intro es done hend
    obtain ⟨s, hs, hq⟩ := System.exists_run_of_replay hend
    exact ⟨s, ⟨_, _, ⟨_, _, _, rfl⟩, hs⟩, of_decide_eq_true hq⟩
  constructor
  · exact hrun (oneRead (IDE_DRDY ||| IDE_ERR)) _ (by decide +kernel)
  · exact hrun (oneRead (IDE_DRDY ||| IDE_ERR) ++ [.code (.dirty 0 0), .code (.iderw 0 0),
      .complete (IDE_DRDY ||| IDE_DF), .code .ideintr, .code (.resume 0)]) _ (by decide +kernel)

end Xv6.Ide.Errors
