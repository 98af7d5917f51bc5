import Xv6.Ipc.Pipe

/-! # Wakeups on a pipe

    A reader sleeps while the pipe is empty, a writer while it is full. The one critical section
    that stores bytes and wakes nobody is that of a writer that fills the pipe and then returns
    `-1`, because it was killed or the read end is closed.
-/

namespace Xv6.Ipc

open LTS

variable {P : Type} {killed : Bool} {addr : Nat → UInt8} {r i j : Nat} {p p' : Pipe}
  {bs : List UInt8} {n : Int} {e : Event P}

/-! ## Sleepers -/

/-- No process that is not killed sleeps on `&nread` while there is something to read or nobody to
    wait for, or on `&nwrite` while there is room or nobody to read. -/
def NoLost (s : State P) : Prop :=
  ∀ x, s.killed x = false →
    (∀ n, s.pc x = .rsleep n → s.pipe.nread = s.pipe.nwrite ∧ s.pipe.writeopen = true) ∧
    ∀ addr n i, s.pc x = .wsleep addr n i →
      s.pipe.nwrite = u32 (s.pipe.nread + PIPESIZE) ∧ s.pipe.readopen = true

/-- A reader that is not killed sleeps. -/
def Awaited (s : State P) : Prop := ∃ x n, s.killed x = false ∧ s.pc x = .rsleep n

/-- `q`, with `r` bytes left to write, will give up after it has filled the pipe. -/
def Cut (s : State P) (q : P) (r : Nat) : Prop :=
  (s.killed q = true ∨ s.pipe.readopen = false) ∧ s.pipe.len < PIPESIZE ∧
    PIPESIZE < s.pipe.len + r

/-- No writer gives up like this while a reader sleeps. -/
def Clean (s : State P) : Event P → Prop
  | .pipewrite q _ n => Awaited s → ¬ Cut s q n.toNat
  | .resume q =>
      match s.pc q with
      | .wready _ n i => Awaited s → ¬ Cut s q (n.toNat - i)
      | _ => True
  | _ => True

@[simp] theorem wakeRead_ne_rsleep (pc : Pc) (n : Int) : pc.wakeRead ≠ .rsleep n := by
  cases pc <;> simp [Pc.wakeRead]

@[simp] theorem wakeWrite_ne_wsleep (pc : Pc) (addr : Nat → UInt8) (n : Int) (i : Nat) :
    pc.wakeWrite ≠ .wsleep addr n i := by
  cases pc <;> simp [Pc.wakeWrite]

@[simp] theorem wakeRead_eq_wsleep (pc : Pc) (addr : Nat → UInt8) (n : Int) (i : Nat) :
    pc.wakeRead = .wsleep addr n i ↔ pc = .wsleep addr n i := by
  cases pc <;> simp [Pc.wakeRead]

@[simp] theorem wakeWrite_eq_rsleep (pc : Pc) (n : Int) :
    pc.wakeWrite = .rsleep n ↔ pc = .rsleep n := by
  cases pc <;> simp [Pc.wakeWrite]

variable [DecidableEq P] {s s' : State P} {q : P}

/-! ## Critical sections -/

/-- A section of `pipewrite` leaves a full pipe as it is. -/
theorem writeLoop_full {ex : WriteExit} (hfull : p.Full)
    (hw : writeLoop killed addr r i p = (p', j, ex, bs)) : p' = p := by
  cases r with
  | zero => exact (congrArg Prod.fst hw).symm
  | succ r =>
    rw [writeLoop, if_pos hfull] at hw
    exact (congrArg Prod.fst hw).symm

/-- A section that gives up had more to write than there was room. -/
theorem Wrote.fails (h : Wrote killed addr r i p p' j .fail bs) :
    PIPESIZE - p.len < r ∧ (p.readopen = false ∨ killed = true) := by
  have hex := h.exit
  split at hex
  · cases hex
  next hr =>
  split at hex
  next hc => exact ⟨by omega, hc⟩
  · cases hex

/-- A section that sleeps has filled the pipe. -/
theorem Wrote.sleeps (h : Wrote killed addr r i p p' j .sleep bs) (hp : p.Sound) :
    p'.Full ∧ p'.readopen = true := by
  have hex := h.exit
  have hj := h.index
  have hlen := h.len
  have hle := hp.len_le
  split at hex
  · cases hex
  next hr =>
  split at hex
  · cases hex
  next hc =>
  refine ⟨h.sound.full_iff.mpr (by omega), ?_⟩
  rw [h.readopen]
  simpa using (not_or.mp hc).1

theorem pipewrite_noLost (hf : Fifo s) (h : NoLost s)
    (hclean : Awaited s → ¬ Cut s q (n.toNat - i)) :
    NoLost (pipewrite s q addr n i bs) := by
  rcases hw : writeLoop (s.killed q) addr (n.toNat - i) i s.pipe with ⟨p, j, ex, new⟩
  have hspec := writeLoop_spec _ hf.sound hw
  -- a writer that slept before is left alone, since the pipe was full
  have hwriter : ∀ x, s.killed x = false → ∀ addr n i, s.pc x = .wsleep addr n i →
      p.nwrite = u32 (p.nread + PIPESIZE) ∧ p.readopen = true := by
    intro x hx addr' n' i' hpc
    have hfull := ((h x hx).2 addr' n' i' hpc)
    rw [writeLoop_full hfull.1 hw]
    exact hfull
  unfold pipewrite
  rw [hw]
  dsimp only
  cases ex with
  | done =>
    intro x hx
    refine ⟨fun m hm => absurd hm (wakeRead_ne_rsleep _ _), fun addr' n' i' hpc => ?_⟩
    rw [wakeRead_eq_wsleep] at hpc
    by_cases hxq : x = q
    · subst hxq
      simp at hpc
    · exact hwriter x hx addr' n' i' (by simpa [hxq] using hpc)
  | fail =>
    intro x hx
    refine ⟨fun m hm => ?_, fun addr' n' i' hpc => ?_⟩
    · -- the pipe was empty, so the writer filled it and woke nobody
      by_cases hxq : x = q
      · subst hxq
        simp at hm
      have hm : s.pc x = .rsleep m := by simpa [hxq] using hm
      have hempty := hf.sound.empty_iff.mp ((h x hx).1 m hm).1
      obtain ⟨hr, hc⟩ := hspec.fails
      refine absurd ⟨hc.symm, ?_, ?_⟩ (hclean ⟨x, m, hx, hm⟩)
      · rw [hempty]
        decide
      · rw [hempty] at hr ⊢
        omega
    · by_cases hxq : x = q
      · subst hxq
        simp at hpc
      · exact hwriter x hx addr' n' i' (by simpa [hxq] using hpc)
  | sleep =>
    intro x hx
    by_cases hxq : x = q
    · subst hxq
      exact ⟨fun m hm => by simp at hm, fun addr' n' i' _ => hspec.sleeps hf.sound⟩
    · refine ⟨fun m hm => ?_, fun addr' n' i' hpc => ?_⟩
      · simp [hxq] at hm
      · exact hwriter x hx addr' n' i' (by simpa [hxq] using hpc)

theorem piperead_noLost (h : NoLost s) (n : Int) : NoLost (piperead s q n) := by
  unfold piperead
  split
  · next hempty =>
    split
    · intro x hx
      by_cases hxq : x = q
      · subst hxq
        simp
      · simpa [hxq] using h x hx
    · intro x hx
      by_cases hxq : x = q
      · subst hxq
        refine ⟨fun _ _ => hempty, fun addr m i hpc => ?_⟩
        simp at hpc
      · simpa [hxq] using h x hx
  · next hready =>
    rcases readLoop n.toNat s.pipe with ⟨p, bs⟩
    intro x hx
    refine ⟨fun m hm => ?_, fun addr m i hpc => absurd hpc (wakeWrite_ne_wsleep _ _ _ _)⟩
    -- another reader that slept would have found the same
    rw [wakeWrite_eq_rsleep] at hm
    by_cases hxq : x = q
    · subst hxq
      simp at hm
    · exact absurd ((h x hx).1 m (by simpa [hxq] using hm)) hready

theorem step_noLost (hf : Fifo s) (h : NoLost s) (hclean : Clean s e) (hs : step s e = some s') :
    NoLost s' := by
  unfold step at hs
  split at hs
  · cases hs
  cases e with
  | pipewrite q addr n =>
    dsimp only at hs
    split at hs
    · cases hs
      exact pipewrite_noLost hf h hclean
    · cases hs
  | piperead q n =>
    dsimp only at hs
    split at hs
    · cases hs
      exact piperead_noLost h n
    · cases hs
  | resume q =>
    dsimp only at hs
    split at hs
    · next addr n i hpc =>
      cases hs
      simp only [Clean, hpc] at hclean
      exact pipewrite_noLost hf h hclean
    · cases hs
      exact piperead_noLost h _
    · cases hs
  | pipeclose writable =>
    cases hs
    unfold pipeclose
    split
    · intro x hx
      refine ⟨fun m hm => absurd hm (wakeRead_ne_rsleep _ _), fun addr n i hpc => ?_⟩
      exact (h x hx).2 addr n i ((wakeRead_eq_wsleep _ _ _ _).mp hpc)
    · intro x hx
      refine ⟨fun m hm => ?_, fun addr n i hpc => absurd hpc (wakeWrite_ne_wsleep _ _ _ _)⟩
      exact (h x hx).1 m ((wakeWrite_eq_rsleep _ _).mp hm)
  | kill q =>
    cases hs
    intro x hx
    by_cases hxq : x = q
    · subst hxq
      simp [kill] at hx
    · simpa [kill, hxq] using h x (by simpa [kill, hxq] using hx)
  | killAwake q =>
    dsimp only at hs
    split at hs <;> try cases hs
    all_goals
      intro x hx
      by_cases hxq : x = q
      · subst hxq
        simp at hx
      · exact h x (by simpa [hxq] using hx)

/-- A writer that gives up leaves a sleeping reader asleep, on a full pipe. -/
theorem pipewrite_strands (hf : Fifo s) (addr : Nat → UInt8) (bs : List UInt8) {x : P} {m : Int}
    (hxq : x ≠ q) (hm : s.pc x = .rsleep m) (hcut : Cut s q (n.toNat - i)) :
    (pipewrite s q addr n i bs).pc x = .rsleep m ∧
    (pipewrite s q addr n i bs).killed x = s.killed x ∧
    (pipewrite s q addr n i bs).pipe.nread ≠ (pipewrite s q addr n i bs).pipe.nwrite := by
  rcases hw : writeLoop (s.killed q) addr (n.toNat - i) i s.pipe with ⟨p, j, ex, new⟩
  have hspec := writeLoop_spec _ hf.sound hw
  obtain ⟨hc, hlt, hgt⟩ := hcut
  have hex := hspec.exit
  rw [if_neg (by omega), if_pos hc.symm] at hex
  subst hex
  unfold pipewrite
  rw [hw]
  refine ⟨by simp [hxq, hm], rfl, fun hempty => ?_⟩
  have hempty : p.len = 0 := hspec.sound.empty_iff.mp hempty
  have hj := hspec.index
  have hlen := hspec.len
  omega

theorem pipewrite_lost (hf : Fifo s) (hq : ∀ m, s.pc q ≠ .rsleep m) (ha : Awaited s)
    (hcut : Cut s q (n.toNat - i)) : ¬ NoLost (pipewrite s q addr n i bs) := by
  obtain ⟨x, m, hx, hm⟩ := ha
  have hxq : x ≠ q := by
    rintro rfl
    exact hq m hm
  obtain ⟨hpc, hlive, hne⟩ := pipewrite_strands hf addr bs hxq hm hcut
  intro h
  exact hne ((h x (hlive.trans hx)).1 m hpc).1

theorem step_lost (hf : Fifo s) (hs : step s e = some s') (hdirty : ¬ Clean s e) : ¬ NoLost s' := by
  unfold step at hs
  split at hs
  · cases hs
  cases e with
  | pipewrite q addr n =>
    dsimp only at hs
    split at hs
    · next hpc =>
      cases hs
      obtain ⟨ha, hcut⟩ := Classical.not_imp.mp hdirty
      exact pipewrite_lost hf (by simp [hpc]) ha (not_not.mp hcut)
    · cases hs
  | resume q =>
    dsimp only at hs
    split at hs
    · next addr n i hpc =>
      cases hs
      simp only [Clean, hpc] at hdirty
      obtain ⟨ha, hcut⟩ := Classical.not_imp.mp hdirty
      exact pipewrite_lost hf (by simp [hpc]) ha (not_not.mp hcut)
    · next hpc => simp [Clean, hpc] at hdirty
    · cases hs
  | _ => exact absurd trivial hdirty

/-! ## Runs -/

/-- Along every run of clean steps no wakeup is lost, and every other step of any run loses one. -/
theorem pipe_wakeups :
    (∀ s, ((system P).restrict Clean).Reachable s → NoLost s) ∧
    ∀ s e s', (system P).Reachable s → step s e = some s' → ¬ Clean s e → ¬ NoLost s' := by
  refine ⟨fun s hreach => ?_, fun s e s' hreach hs hdirty =>
    step_lost (reachable_fifo hreach) hs hdirty⟩
  -- the queue invariant goes along: it says when the pipe is full or empty
  refine (System.invariant (I := fun s => Fifo s ∧ NoLost s) ?_ ?_ hreach).2
  · intro s hinit
    refine ⟨reachable_fifo (.of_init hinit), ?_⟩
    obtain ⟨data, rfl⟩ := hinit
    intro x _
    exact ⟨fun n hn => (by cases hn), fun addr n i hi => (by cases hi)⟩
  · intro s e s' ⟨hf, h⟩ ⟨hs, hclean⟩
    exact ⟨step_fifo hf hs, step_noLost hf h hclean hs⟩

theorem pipe_wakeups_readFirst : ∃ s, ((system (Fin 2)).restrict Clean).Reachable s ∧
    s.pc 0 = .rsleep 1 ∧ NoLost s := by
  obtain ⟨s, hs, hpc⟩ : ∃ s, step (alloc fun _ => 0) (.piperead 0 1 : Event (Fin 2)) = some s ∧
      s.pc 0 = .rsleep 1 := ⟨_, rfl, rfl⟩
  have hreach : ((system (Fin 2)).restrict Clean).Reachable s :=
    System.Reachable.step (.of_init ⟨_, rfl⟩) ⟨hs, trivial⟩
  exact ⟨s, hreach, hpc, pipe_wakeups.1 s hreach⟩

/-- Process 0 waits to read. Process 1 is killed and writes more than fits: it leaves a full pipe
    and the reader asleep. -/
theorem killed_writer_loses_wakeup : ∃ s s' : State (Fin 2), (system (Fin 2)).Reachable s ∧
    step s (.pipewrite 1 (fun _ => 0) 513) = some s' ∧ s'.killed 0 = false ∧
    s'.pc 0 = .rsleep 1 ∧ s'.pipe.nread ≠ s'.pipe.nwrite := by
  obtain ⟨s, hs, hpc, hlive, hdead, hlen, hstep⟩ :
      ∃ s, System.replay step (alloc fun _ => 0) [.piperead 0 1, .kill 1] = some s ∧
        s.pc (0 : Fin 2) = .rsleep 1 ∧ s.killed 0 = false ∧ s.killed 1 = true ∧
        s.pipe.len = 0 ∧ step s (.pipewrite 1 (fun _ => 0) 513) =
          some (pipewrite s 1 (fun _ => 0) 513 0 []) :=
    ⟨_, rfl, rfl, rfl, rfl, rfl, rfl⟩
  have hreach : (system (Fin 2)).Reachable s := ⟨_, _, ⟨_, rfl⟩, System.run_of_replay hs⟩
  have hcut : Cut s 1 ((513 : Int).toNat - 0) := by
    unfold Cut
    rw [hlen]
    exact ⟨.inl hdead, by decide, by decide⟩
  obtain ⟨hpc', hlive', hne⟩ :=
    pipewrite_strands (reachable_fifo hreach) (fun _ => 0) [] (by decide) hpc hcut
  exact ⟨s, _, hreach, hstep, hlive'.trans hlive, hpc', hne⟩

end Xv6.Ipc
