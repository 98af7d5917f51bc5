import Xv6.Bio.Transaction

/-! # Coherence of the buffer cache

    Along every run no block is in two buffers, no buffer has two holders, and a reader gets what
    was last released after a `log_write` or `bwrite`. When the log is used as the source does, the
    blocks of a transaction stay in the cache, and off their home locations, until its header is
    written.
-/

namespace Xv6.Bio

open LTS Function

variable {P : Type} [DecidableEq P] {s s' : State P} {p : P} {ops : List Op} {log : Log.State P}
  {b : Fin NBUF} {e : Event P}

/-! ## How the source uses the log -/

/-- `log_write` is called on home blocks of the log's device. `bwrite` is called by `commit`, and by
    others only for blocks that are not logged. -/
def Disciplined (s : State P) : Event P → Prop
  | .log_write _ b => (s.cache.buf b).dev = s.dev ∧ Home s.start (s.cache.buf b).blockno
  | .bwrite _ b => (s.cache.buf b).dev = s.dev → (s.cache.buf b).blockno ∉ s.log.lh
  | _ => True

instance (start n : Nat) : Decidable (Home start n) := inferInstanceAs (Decidable (_ ∨ _))

instance (s : State P) : (e : Event P) → Decidable (Disciplined s e)
  | .log_write _ _ => inferInstanceAs (Decidable (_ ∧ _))
  | .bwrite _ _ => inferInstanceAs (Decidable (_ → _))
  | .begin_op _ | .test _ | .end_op _ | .finish _ | .bread .. | .bget _ | .wake _ | .iderw _
  | .modify .. | .brelse .. | .append _ | .commit _ => .isTrue trivial

omit [DecidableEq P] in
theorem no_commit (hw : Log.Waits s.log) (hp : (s.log.pc p).used.isSome) (q : P) :
    s.log.pc q ≠ .ending ∧ s.log.pc q ≠ .committed := by
  obtain ⟨A, hA⟩ := hw.counts
  have hno := hA.not_committing hp
  exact ⟨fun hq => hno (hA.ender q (.inl hq)), fun hq => hno (hA.ender q (.inr hq))⟩

/-- The statement that is due is the next one of the program. -/
theorem todo_tail {op : Op} (htodo : s.todo p = op :: ops) :
    (∀ q, q ≠ p → update s.todo p ops q = s.todo q) ∧
      ∀ o ∈ update s.todo p ops p, o ∈ s.todo p := by
  refine ⟨fun q hq => update_of_ne hq _ _, fun o ho => ?_⟩
  rw [update_self] at ho
  rw [htodo]
  exact List.mem_cons_of_mem _ ho

theorem logged_end_op (h : Logged s) (hw : Log.Waits s.log) (hpc : s.pc p = .idle)
    (hlog : Log.step s.log (.end_op p) = some log) :
    Logged { s with
      log := log
      todo := if log.pc p = .ending then
        update s.todo p (Bio.commit s.start s.log.lh) else s.todo } := by
  have hf := (Log.step_fires hlog).2
  have hused : (s.log.pc p).used.isSome := by
    cases hf with
    | end_panic hin | end_last hin | end_more hin => simp [hin, Log.Pc.used]
  have hnone := no_commit hw hused
  obtain ⟨hnew, hold, hclr, hlh⟩ := Log.ending_fires hf
  simp only [reduceCtorEq, or_false, exists_false, Log.Event.end_op.injEq] at hnew hold hclr hlh
  split
  · refine h.end_op hpc hlh (fun q => (hnone q).1) (fun q hq => ?_) fun q hq =>
      (hnone q).2 (hclr q hq)
    exact ((hnew q hq).resolve_left (hnone q).1).symm
  · next hp =>
    refine h.onLog hlh (fun q hq => (hnew q hq).resolve_right ?_) hold hclr
    rintro rfl
    exact hp hq

theorem logged_log_write (h : Logged s) (hw : Log.Waits s.log) (hpc : s.pc p = .idle)
    (hdev : (s.cache.buf b).dev = s.dev) (hhome : Home s.start (s.cache.buf b).blockno)
    (hlog : Log.step s.log (.log_write p (s.cache.buf b).blockno) = some log) :
    Logged { s with log := log, toPool := s.move p (.logging b) } := by
  have hf := (Log.step_fires hlog).2
  have hused : (s.log.pc p).used.isSome := by
    cases hf with
    | tooBig hin | outside hin | log_write hin => simp [hin, Log.Pc.used]
  have hnone := no_commit hw hused
  obtain ⟨hnew, hold, hclr, hlh⟩ := Log.ending_fires hf
  simp only [reduceCtorEq, or_false, exists_false] at hnew hold hclr hlh
  exact (h.onLog hlh hnew hold hclr).log_write hpc (fun q hq => (hnone q).1 (hnew q hq)) hdev hhome

theorem logged_append (h : Logged s) (hc : Coherent s.toPool) (hw : Log.Waits s.log)
    (hpc : s.pc p = .logging b)
    (hlog : Log.step s.log (.append p (s.cache.buf b).blockno) = some log) :
    Logged { s with log := log, toPool := s.mark p b } := by
  have hf := (Log.step_fires hlog).2
  obtain ⟨hnew, hold, hclr, -⟩ := Log.ending_fires hf
  simp only [reduceCtorEq, or_false] at hnew hold hclr
  cases hf with
  | append hin =>
    have hnone := no_commit hw (p := p) (by simp [hin, Log.Pc.used])
    refine h.mark hc hpc (fun n => ?_) (fun q => (hnone q).1) (fun q hq => (hnone q).1 (hnew q hq))
      fun q hq => (hnone q).2 (hclr q hq)
    exact Log.mem_absorb.trans or_comm

/-- `log.lh.n = 0`: by now every logged block is installed. -/
theorem logged_clear (h : Logged s) (hw : Log.Waits s.log) (hpc : s.pc p = .idle)
    (htodo : s.todo p = .clear :: ops) (hlog : Log.step s.log (.commit p) = some log) :
    Logged { s with
      log := log, committed := false, todo := update s.todo p ops } := by
  cases (Log.step_fires hlog).2 with
  | commit hend =>
    have hp := h.commits p hend
    obtain ⟨κ, -, htrack, hclean⟩ := hp.small (hp.lt hpc htodo (by simp))
    rw [htodo] at htrack hclean
    obtain ⟨A, hA⟩ := hw.counts
    refine ⟨by simp [Log.State.at], by simp [Log.State.at], fun b hd => .inl ?_,
      by simp [Log.State.at], h.logging, fun q hq => ?_, by simp, fun q hq => ?_⟩
    · by_contra hio
      have := hclean b hd (not_exists.mp hio)
      simp [cleans] at this
    · by_cases hqp : q = p
      · subst hqp
        simp [Log.State.at] at hq
      · have hq : s.log.pc q = .ending := by simpa [Log.State.at, hqp] using hq
        exact absurd (hA.sole q p (.inl hq) (.inl hend)) hqp
    · by_cases hqp : q = p
      · subst hqp
        simpa [Track] using htrack
      · have hq : s.log.pc q = .committed := by simpa [Log.State.at, hqp] using hq
        exact absurd (hA.sole q p (.inr hq) (.inl hend)) hqp

theorem logged_committed (h : Logged s) (hw : Log.Waits s.log) (hpc : s.pc p = .idle)
    (hcom : (s.log.pc p).Commits) (htodo : s.todo p = .committed :: ops) :
    Logged { s with committed := true, todo := update s.todo p ops } := by
  have hend : s.log.pc p = .ending := by
    rcases hcom with hp | hp
    · exact hp
    · exact absurd (by simp [htodo]) (h.cleared p hp)
  have hp := h.commits p hend
  have hlt := hp.lt hpc htodo (by simp)
  obtain ⟨κ, hregs, htrack, hclean⟩ := hp.small hlt
  rw [htodo] at htrack hclean
  obtain ⟨A, hA⟩ := hw.counts
  refine ⟨h.area, by simp, h.dirty, by simp, h.logging, fun q hq => ?_, fun _ => ⟨p, hend⟩,
    fun q hq => ?_⟩
  · obtain rfl := hA.sole q p (.inl hq) (.inl hend)
    refine ⟨fun hbig => absurd hbig (not_le.mpr hlt), fun _ =>
      ⟨κ, ⟨hregs.loaded, hregs.pending, hregs.distinct⟩, ?_, fun b hd hio => ?_⟩⟩
    · dsimp only
      rw [update_self]
      exact htrack
    · dsimp only
      rw [update_self]
      exact hclean b hd hio
  · have hqp : q ≠ p := by
      rintro rfl
      cases hend.symm.trans hq
    dsimp only
    rw [update_of_ne hqp]
    exact h.cleared q hq

theorem logged_fires (h : Logged s) (hc : Coherent s.toPool) (hw : Log.Waits s.log)
    (hnd : s.log.lh.Nodup) (hdis : Disciplined s e) (hf : Fires s e s') : Logged s' := by
  cases hf with
  | begin_op hlog | test hlog | finish hpc hlog | log_panic hpc hlog =>
    obtain ⟨hnew, hold, hclr, hlh⟩ := Log.ending_fires (Log.step_fires hlog).2
    simp only [reduceCtorEq, or_false, exists_false] at hnew hold hclr hlh
    exact h.onLog hlh hnew hold hclr
  | end_op hpc hlog => exact logged_end_op h hw hpc hlog
  | @call e p pool hpc hruns hact =>
    refine h.quiet hc (quiet_acts hc hact) (fun _ _ => rfl) (fun _ => id) fun he => ?_
    simp [he, Runs] at hruns
  | @goOn e p pool hpc _ hact =>
    exact h.quiet hc (quiet_acts hc hact) (fun _ _ => rfl) (fun _ => id) fun he =>
      (h.commits p he).goOn h hc hnd hpc hact
  | @bwrite p b hpc hruns hheld =>
    refine h.bwrite hc hpc hheld (fun _ => hdis) (fun _ _ => rfl) (fun _ => id) fun he => ?_
    simp [he, Runs] at hruns
  | log_write hpc _ hlog => exact logged_log_write h hw hpc hdis.1 hdis.2 hlog
  | append hpc hlog => exact logged_append h hc hw hpc hlog
  | @op_bread p r n ops hpc hcom htodo =>
    obtain ⟨hother, hsub⟩ := todo_tail htodo
    exact h.quiet hc (.move (by simp [hpc]) (by simp) (by simp)) hother hsub fun he =>
      (h.commits p he).op_bread hpc htodo
  | @op_modify p op r data ops hpc hcom htodo hop hheld =>
    obtain ⟨hother, hsub⟩ := todo_tail htodo
    exact h.quiet hc (quiet_acts hc (.modify hpc hheld data)) hother hsub fun he =>
      (h.commits p he).op_modify hc hpc htodo hop hheld
  | @op_bwrite p r ops hpc hcom htodo hheld =>
    obtain ⟨hother, hsub⟩ := todo_tail htodo
    refine h.bwrite hc hpc hheld (fun hno _ => ?_) hother hsub fun he =>
      ((h.commits p he).op_bwrite h hc hpc htodo hheld).2
    -- before it has cleared the log, `commit` writes to the log; then `lh` is empty
    rcases hcom with hp | hp
    · exact ((h.commits p hp).op_bwrite h hc hpc htodo hheld).1 hno
    · simp [hw.emptied p hp]
  | @op_brelse p r ops hpc hcom htodo hrel =>
    obtain ⟨hother, hsub⟩ := todo_tail htodo
    exact h.quiet hc (quiet_acts hc (.brelse hpc hrel)) hother hsub fun he =>
      (h.commits p he).op_brelse hc hpc htodo hrel
  | op_committed hpc hcom htodo => exact logged_committed h hw hpc hcom htodo
  | op_clear hpc htodo hlog => exact logged_clear h hw hpc htodo hlog

omit [DecidableEq P] in
theorem logged_boot (disk : Nat → Nat → Block) (start dev : Nat) :
    Logged (boot disk start dev : State P) := by
  constructor <;> simp [boot, binit, Log.boot]

theorem reachable_logged (h : ((system P).restrict Disciplined).Reachable s) : Logged s := by
  obtain ⟨s0, ls, hinit, hrun⟩ := h
  refine (System.run_invariant (I := fun _ s => (system P).Reachable s ∧ Logged s) ?_ ?_
    hinit hrun).2
  · rintro s hs
    refine ⟨.of_init hs, ?_⟩
    obtain ⟨disk, start, dev, -, rfl⟩ := hs
    exact logged_boot disk start dev
  · intro ls s e s' ⟨hreach, hl⟩ ⟨hstep, hdis⟩
    obtain ⟨l0, ms, hl0, hlog⟩ := reachable_log hreach
    obtain rfl : l0 = Log.boot := hl0
    obtain ⟨ht, hw⟩ := Log.run_waits hlog
    exact ⟨hreach.step hstep, logged_fires hl (reachable_coherent hreach).1 hw ht.nodup hdis
      (step_fires hstep).2⟩

/-! ## Runs -/

/-- Only `iderw` changes the disk. -/
theorem disk_fires (hc : Coherent s.toPool) (hf : Fires s e s') (d n : Nat) :
    s'.disk d n = s.disk d n ∨ ∃ p b, s.pc p = .io b ∧ (s.cache.buf b).dirty = true ∧
      (s.cache.buf b).dev = d ∧ (s.cache.buf b).blockno = n := by
  have hbw : ∀ p b, (s.toPool.bwrite p b).disk = s.disk := by
    intro p b
    unfold Pool.bwrite
    split <;> rfl
  cases hf with
  | @call e p pool _ _ hact | @goOn e p pool _ _ hact =>
    exact ((quiet_acts hc hact).disk d n).imp_right fun hb => ⟨p, hb⟩
  | bwrite | op_bwrite =>
    left
    dsimp only
    rw [hbw]
  | @op_brelse p r ops hpc _ _ hrel =>
    exact ((quiet_acts hc (.brelse hpc hrel)).disk d n).imp_right fun hb => ⟨p, hb⟩
  | _ => exact .inl rfl

/-- `bget` returns a buffer of the block it was called for. -/
theorem look_returns (hc : Coherent s.toPool) {r : Fin 2} {dev blockno : Nat}
    (hret : (s.look p r dev blockno).panicked = none ∧
      ∀ b, (s.look p r dev blockno).pc p ≠ .asleep b r dev blockno) :
    ∃ b, (s.look p r dev blockno).var p r = b ∧
      (s.look p r dev blockno).held p b = some .clean ∧
      ((s.look p r dev blockno).cache.buf b).dev = dev ∧
      ((s.look p r dev blockno).cache.buf b).blockno = blockno := by
  have htake : ∀ b x, x.dev = dev → x.blockno = blockno → ∃ i, (s.take p r b x).var p r = i ∧
      (s.take p r b x).held p i = some .clean ∧ ((s.take p r b x).cache.buf i).dev = dev ∧
        ((s.take p r b x).cache.buf i).blockno = blockno := by
    intro b x hdev hno
    have hbuf : (s.take p r b x).cache.buf b = x := update_self ..
    refine ⟨b, by simp [Pool.take], ?_, by rw [hbuf, hdev], by rw [hbuf, hno]⟩
    exact (held_change p).trans (if_pos rfl)
  have hlook := looked_bget hc.linked dev blockno
  unfold Pool.look at hret ⊢
  cases hl : bget s.cache dev blockno with
  | got b c =>
    rw [hl] at hlook
    cases hlook with
    | hit hdev hno _ =>
      exact htake b _ (by simpa [Cache.set] using hdev) (by simpa [Cache.set] using hno)
    | recycle => exact htake b _ (by simp [Cache.set]) (by simp [Cache.set])
  | sleep b =>
    rw [hl] at hret
    exact absurd (Pool.pc_move_self ..) (hret.2 b)
  | panic =>
    rw [hl] at hret
    cases hret.1

/-- In every state of every run: no block is in two buffers, a busy buffer has one holder, the list
    through the head has every buffer once, and a buffer that `bread` returned, and that its holder
    has not changed, has the data of the last release of its block after a `log_write` or `bwrite`.
    When the log is used as the source does, a block of a transaction whose header is not written
    stays in a dirty buffer, and no step writes its home location. -/
theorem cache_coherent :
    (∀ s, (system P).Reachable s →
      (∀ i j, (s.cache.buf i).dev ≠ NODEV → (s.cache.buf i).dev = (s.cache.buf j).dev →
        (s.cache.buf i).blockno = (s.cache.buf j).blockno → i = j) ∧
      (∀ b, (s.cache.buf b).busy = true ↔ ∃ p, (s.held p b).isSome) ∧
      (∀ p q b, (s.held p b).isSome → (s.held q b).isSome → p = q) ∧
      (∃ l : List (Fin NBUF), l.Perm (List.finRange NBUF) ∧
        s.cache.links.Ring none (l.map some)) ∧
      (∀ p r dev blockno s', s.pc p = .getting r dev blockno →
        step s (.bget p) = some s' → s'.panicked = none →
        (∀ b, s'.pc p ≠ .asleep b r dev blockno) → ∃ b, s'.var p r = b ∧
          s'.held p b = some .clean ∧ (s'.cache.buf b).dev = dev ∧
          (s'.cache.buf b).blockno = blockno) ∧
      (∀ p b, s.held p b = some .clean → s.pc p ≠ .io b → (s.cache.buf b).data =
        s.content (s.cache.buf b).dev (s.cache.buf b).blockno)) ∧
    ∀ s, ((system P).restrict Disciplined).Reachable s → s.committed = false →
      ∀ n ∈ s.log.lh,
        (∃ b, (s.cache.buf b).dev = s.dev ∧ (s.cache.buf b).blockno = n ∧
          (s.cache.buf b).dirty = true) ∧
        ∀ e s', step s e = some s' → s'.disk s.dev n = s.disk s.dev n := by
  refine ⟨fun s hreach => ?_, fun s hreach hcom n hn => ?_⟩
  · have hc := (reachable_coherent hreach).1
    refine ⟨hc.unique, fun b => (hc.bufs b).busy, fun p q b => (hc.bufs b).owner p q, hc.linked,
      fun p r dev blockno s' hpc hs hnp hret => ?_, fun p b hheld hpc => ?_⟩
    · unfold step at hs
      split at hs
      · cases hs
      · simp only [hpc] at hs
        cases hs
        exact look_returns hc ⟨hnp, hret⟩
    · exact (hc.bufs b).data ((hc.bufs b).valid p (by simp [hheld]) hpc) fun q m =>
        (hc.bufs b).modes hheld q
  · have hl := reachable_logged hreach
    obtain ⟨s0, ls, hinit, hrun⟩ := hreach
    have hc := (reachable_coherent ⟨s0, ls, hinit, hrun.of_restrict⟩).1
    refine ⟨hl.pinned hcom n hn, fun e s' hs => ?_⟩
    refine (disk_fires hc (step_fires hs).2 s.dev n).resolve_right ?_
    rintro ⟨p, b, hio, hd, hdev, hno⟩
    exact hl.raw hcom p b hio hd hdev (hno ▸ hn)

/-- A process logs block 40. -/
def logOne : List (Event (Fin 1)) :=
  [.begin_op 0, .test 0, .bread 0 0 1 40, .bget 0, .iderw 0, .modify 0 0 (.fill 7),
    .log_write 0 0, .append 0, .brelse 0 0]

/-- It ends its operation and commits, up to where the header is on the disk. -/
def commitOne : List (Event (Fin 1)) :=
  [.end_op 0, .commit 0, .bget 0, .iderw 0, .commit 0, .bget 0, .commit 0, .commit 0, .iderw 0,
    .commit 0, .commit 0, .commit 0, .bget 0, .iderw 0, .commit 0, .commit 0, .iderw 0, .commit 0,
    .commit 0]

set_option maxRecDepth 10000 in
theorem cache_coherent_logOne : ∃ s t : State (Fin 1),
    ((system (Fin 1)).restrict Disciplined).Reachable s ∧ s.log.lh = [40] ∧
    (∃ b, (s.cache.buf b).dev = s.dev ∧ (s.cache.buf b).blockno = 40 ∧
      (s.cache.buf b).dirty = true) ∧
    (∀ i j, (s.cache.buf i).dev ≠ NODEV → (s.cache.buf i).dev = (s.cache.buf j).dev →
      (s.cache.buf i).blockno = (s.cache.buf j).blockno → i = j) ∧
    ((system (Fin 1)).restrict Disciplined).Run s commitOne t ∧ t.committed = true ∧
    Log.header (t.disk t.dev t.start) = t.log.lh := by
  obtain ⟨s, t, hs, hcom, hlh, ht, hend⟩ : ∃ s t, System.replay
      (fun s e => if Disciplined s e then step s e else none)
      (boot (fun _ _ => .fill 0) 2 1) logOne = some s ∧ s.committed = false ∧ s.log.lh = [40] ∧
      System.replay (fun s e => if Disciplined s e then step s e else none) s commitOne = some t ∧
      t.committed = true ∧ Log.header (t.disk t.dev t.start) = t.log.lh :=
    ⟨_, _, rfl, rfl, rfl, rfl, rfl, by decide⟩
  have hrun : ((system (Fin 1)).restrict Disciplined).Run _ logOne s :=
    System.run_restrict_of_replay hs
  have hinit : (system (Fin 1)).init (boot (fun _ _ => .fill 0) 2 1) :=
    ⟨_, _, _, by decide, rfl⟩
  have hreach : ((system (Fin 1)).restrict Disciplined).Reachable s := ⟨_, _, hinit, hrun⟩
  exact ⟨s, t, hreach, hlh, (cache_coherent.2 s hreach hcom 40 (by simp [hlh])).1,
    (cache_coherent.1 s ⟨_, _, hinit, hrun.of_restrict⟩).1, System.run_restrict_of_replay ht, hend⟩

end Xv6.Bio
