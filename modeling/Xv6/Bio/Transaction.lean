import Xv6.Bio.Pinned

/-! # The transaction along runs

    Every step keeps the invariant of `Bio.Pinned`, if log_write is called on home blocks only and
    no process calls bwrite on a logged block.
-/

namespace Xv6.Bio

open LTS Function

variable {P : Type} [DecidableEq P] {s s' : State P} {p : P} {b : Fin NBUF} {pool : Pool P}
  {todo : P → List Op} {log : Log.State P} {κ : Vars} {r : Fin 2} {n dev blockno : Nat} {op : Op}
  {ops : List Op}

/-! ## Steps of any process -/

/-- An action of `p`, which may go on in its program. -/
theorem Logged.quiet (h : Logged s) (hc : Coherent s.toPool) (hq : Quiet s.toPool pool p)
    (htodo : ∀ q, q ≠ p → todo q = s.todo q) (hsub : ∀ op ∈ todo p, op ∈ s.todo p)
    (hself : s.log.pc p = .ending → Committing { s with toPool := pool, todo := todo } p) :
    Logged { s with toPool := pool, todo := todo } where
  area := h.area
  pinned := by
    intro hcom n hn
    obtain ⟨b, hdev, hno, hd⟩ := h.pinned hcom n hn
    -- nobody writes this block before the header
    have hio : s.pc p ≠ .io b := fun hio => h.raw hcom p b hio hd hdev (hno ▸ hn)
    have hd' := hq.kept b hd hio
    obtain ⟨-, hdev', hno'⟩ := hq.fresh b hd'
    exact ⟨b, hdev'.trans hdev, hno'.trans hno, hd'⟩
  dirty := by
    intro b hd
    obtain ⟨hd', hdev, hno⟩ := hq.fresh b hd
    by_cases hio : ∃ q, pool.pc q = .io b
    · exact .inl hio
    · obtain ⟨-, -, hio'⟩ := hq.settle hd (not_exists.mp hio)
      have := (h.dirty b hd').resolve_left (not_exists.mpr hio')
      exact .inr ⟨hdev.trans this.1, hno ▸ this.2⟩
  raw := by
    intro hcom q b hio hd hdev
    by_cases hqp : q = p
    · subst hqp
      rw [hq.io b hio] at hd
      cases hd
    · obtain ⟨hd', hdev', hno⟩ := hq.fresh b hd
      rcases hq.pc q hqp with he | ⟨_, _, _, _, -, hg⟩
      · have := h.raw hcom q b (he ▸ hio) hd' (hdev' ▸ hdev)
        exact hno ▸ this
      · cases hg.symm.trans hio
  logging := by
    intro q b hlog
    by_cases hqp : q = p
    · subst hqp
      exact absurd hlog (hq.logging b)
    · rcases hq.pc q hqp with he | ⟨_, _, _, _, -, hg⟩
      · have hlog' := he ▸ hlog
        obtain ⟨hdev, hno⟩ := hq.key q b ((hc.bufs b).logging q hlog')
        have := h.logging q b hlog'
        exact ⟨hdev.trans this.1, hno ▸ this.2⟩
      · cases hg.symm.trans hlog
  commits := by
    intro q hqe
    by_cases hqp : q = p
    · subst hqp
      exact hself hqe
    · exact (h.commits q hqe).frame ⟨rfl, rfl, rfl, rfl, htodo q hqp, hq.held q hqp,
        hq.var q hqp, hq.pc q hqp, fun b => hq.key q b, fun b => hq.settle⟩
  ending := h.ending
  cleared := by
    intro q hqc
    by_cases hqp : q = p
    · subst hqp
      exact fun hm => h.cleared q hqc (hsub _ hm)
    · exact fun hm => h.cleared q hqc (htodo q hqp ▸ hm)

omit [DecidableEq P] in
/-- The log makes a step that logs and clears nothing. -/
theorem Logged.onLog (h : Logged s) (hlh : log.lh = s.log.lh)
    (hnew : ∀ q, log.pc q = .ending → s.log.pc q = .ending)
    (hold : ∀ q, s.log.pc q = .ending → log.pc q = .ending)
    (hclr : ∀ q, log.pc q = .committed → s.log.pc q = .committed) :
    Logged { s with log := log } where
  area := by
    rw [hlh]
    exact h.area
  pinned := by
    rw [hlh]
    exact h.pinned
  dirty := by
    rw [hlh]
    exact h.dirty
  raw := by
    rw [hlh]
    exact h.raw
  logging := h.logging
  commits := fun q hq => (h.commits q (hnew q hq)).frame
    ⟨hlh, rfl, rfl, rfl, rfl, rfl, rfl, .inl rfl, fun _ _ => ⟨rfl, rfl⟩,
      fun _ hd hio => ⟨hd, rfl, hio⟩⟩
  ending := fun hcom => (h.ending hcom).imp hold
  cleared := fun q hq => h.cleared q (hclr q hq)

omit [DecidableEq P] in
theorem buf_set (x : Buf) (i : Fin NBUF) :
    (s.toPool.set b x).cache.buf i = if i = b then x else s.cache.buf i := by
  by_cases hi : i = b
  · subst hi
    simp [Pool.set, Cache.set]
  · simp [Pool.set, Cache.set, hi]

theorem Logged.bwrite (h : Logged s) (hc : Coherent s.toPool) (hpc : s.pc p = .idle)
    (hheld : (s.held p b).isSome)
    (hraw : s.committed = false → (s.cache.buf b).dev = s.dev → (s.cache.buf b).blockno ∉ s.log.lh)
    (htodo : ∀ q, q ≠ p → todo q = s.todo q) (hsub : ∀ op ∈ todo p, op ∈ s.todo p)
    (hself : s.log.pc p = .ending →
      Committing { s with toPool := s.toPool.bwrite p b, todo := todo } p) :
    Logged { s with toPool := s.toPool.bwrite p b, todo := todo } := by
  have hw := dirties_bwrite hc hheld
  generalize s.toPool.bwrite p b = pool at *
  refine ⟨h.area, fun hcom n hn => ?_, fun i hd => ?_, fun hcom q i hio hd hdev => ?_,
    fun q i hlog => ?_, fun q hq => ?_, h.ending, fun q hq => ?_⟩
  · obtain ⟨i, hdev, hno, hd⟩ := h.pinned hcom n hn
    refine ⟨i, (hw.key i).1.trans hdev, (hw.key i).2.trans hno, ?_⟩
    by_cases hi : i = b
    · exact hi ▸ hw.dirty
    · exact (congrArg Buf.dirty (hw.buf i hi)).trans hd
  · by_cases hio : ∃ q, pool.pc q = .io i
    · exact .inl hio
    · obtain ⟨-, hd', -, hio'⟩ := hw.settle hpc hd (not_exists.mp hio)
      have := (h.dirty i hd').resolve_left (not_exists.mpr hio')
      exact .inr ⟨(hw.key i).1.trans this.1, (hw.key i).2 ▸ this.2⟩
  · have hdev : (s.cache.buf i).dev = s.dev := (hw.key i).1.symm.trans hdev
    show (pool.cache.buf i).blockno ∉ s.log.lh
    rw [(hw.key i).2]
    by_cases hqp : q = p
    · subst hqp
      obtain rfl : b = i := by simpa [hw.pc] using hio
      exact hraw hcom hdev
    · have hio' : s.pc q = .io i := (hw.other q hqp).symm.trans hio
      have hi : i ≠ b := by
        rintro rfl
        exact hqp ((hc.bufs i).owner q p ((hc.bufs i).io q hio').1 hheld)
      exact h.raw hcom q i hio' ((congrArg Buf.dirty (hw.buf i hi)).symm.trans hd) hdev
  · by_cases hqp : q = p
    · subst hqp
      cases hw.pc.symm.trans hlog
    · have := h.logging q i ((hw.other q hqp).symm.trans hlog)
      exact ⟨(hw.key i).1.trans this.1, (hw.key i).2 ▸ this.2⟩
  · by_cases hqp : q = p
    · subst hqp
      exact hself hq
    · exact (h.commits q hq).frame ⟨rfl, rfl, rfl, rfl, htodo q hqp, congrFun hw.held q,
        congrFun hw.var q, .inl (hw.other q hqp), fun i _ => hw.key i,
        fun i hd hio => (hw.settle hpc hd hio).2⟩
  · by_cases hqp : q = p
    · subst hqp
      exact fun hm => h.cleared q hq (hsub _ hm)
    · exact fun hm => h.cleared q hq (htodo q hqp ▸ hm)

theorem Logged.log_write (h : Logged s) (hpc : s.pc p = .idle)
    (hnone : ∀ q, s.log.pc q ≠ .ending) (hdev : (s.cache.buf b).dev = s.dev)
    (hhome : Home s.start (s.cache.buf b).blockno) :
    Logged { s with toPool := s.move p (.logging b) } := by
  have hio : ∀ q i, (s.move p (.logging b)).pc q = .io i ↔ s.pc q = .io i := by
    intro q i
    by_cases hqp : q = p
    · subst hqp
      simp [hpc]
    · rw [Pool.pc_move_of_ne _ hqp]
  refine ⟨h.area, h.pinned, fun i hd => ?_, fun hcom q i hq => ?_, fun q i hq => ?_,
    fun q hq => absurd hq (hnone q), h.ending, h.cleared⟩
  · exact (h.dirty i hd).imp_left fun ⟨q, hq⟩ => ⟨q, (hio q i).mpr hq⟩
  · exact h.raw hcom q i ((hio q i).mp hq)
  · by_cases hqp : q = p
    · subst hqp
      obtain rfl : b = i := by simpa using hq
      exact ⟨hdev, hhome⟩
    · exact h.logging q i (by rwa [Pool.pc_move_of_ne _ hqp] at hq)

/-- `log_write(b)` records the block and marks the buffer. -/
theorem Logged.mark (h : Logged s) (hc : Coherent s.toPool) (hpc : s.pc p = .logging b)
    (hlh : ∀ n, n ∈ log.lh ↔ n ∈ s.log.lh ∨ n = (s.cache.buf b).blockno)
    (hnone : ∀ q, s.log.pc q ≠ .ending) (hnone' : ∀ q, log.pc q ≠ .ending)
    (hclr : ∀ q, log.pc q ≠ .committed) : Logged { s with log := log, toPool := s.mark p b } := by
  have hheld := (hc.bufs b).logging p hpc
  obtain ⟨hdev, hhome⟩ := h.logging p b hpc
  have hcom : s.committed = false := by
    by_contra hcom
    obtain ⟨q, hq⟩ := h.ending (by simpa using hcom)
    exact hnone q hq
  have hbuf : ∀ i, (s.mark p b).cache.buf i =
      if i = b then { s.cache.buf b with dirty := true } else s.cache.buf i := fun i => buf_set _ i
  have hkey : ∀ i, ((s.mark p b).cache.buf i).dev = (s.cache.buf i).dev ∧
      ((s.mark p b).cache.buf i).blockno = (s.cache.buf i).blockno := by
    intro i
    rw [hbuf]
    split
    · next hi => exact hi ▸ ⟨rfl, rfl⟩
    · exact ⟨rfl, rfl⟩
  have hpcp : (s.mark p b).pc p = .idle := Pool.pc_move_self ..
  have hpcq : ∀ q, q ≠ p → (s.mark p b).pc q = s.pc q := fun q hq => Pool.pc_move_of_ne _ hq _
  have hio : ∀ q i, (s.mark p b).pc q = .io i ↔ s.pc q = .io i := by
    intro q i
    by_cases hqp : q = p
    · subst hqp
      simp [hpcp, hpc]
    · rw [hpcq q hqp]
  refine ⟨fun n hn => ?_, fun _ n hn => ?_, fun i hd => ?_, fun _ q i hq' hd hi' => ?_,
    fun q i hq => ?_, fun q hq => absurd hq (hnone' q), fun hcom' => ?_, fun q hq =>
      absurd hq (hclr q)⟩
  · rcases (hlh n).mp hn with hn | rfl
    · exact h.area n hn
    · exact hhome
  · rcases (hlh n).mp hn with hn | rfl
    · obtain ⟨i, hi, hno, hd⟩ := h.pinned hcom n hn
      refine ⟨i, (hkey i).1.trans hi, (hkey i).2.trans hno, ?_⟩
      show ((s.mark p b).cache.buf i).dirty = true
      rw [hbuf]
      split
      · rfl
      · exact hd
    · refine ⟨b, (hkey b).1.trans hdev, (hkey b).2, ?_⟩
      show ((s.mark p b).cache.buf b).dirty = true
      rw [hbuf, if_pos rfl]
  · have hd : ((s.mark p b).cache.buf i).dirty = true := hd
    rw [hbuf] at hd
    split at hd
    · next hi =>
      subst hi
      exact .inr ⟨(hkey i).1.trans hdev, (hlh _).mpr (.inr (hkey i).2)⟩
    · refine (h.dirty i hd).imp (fun ⟨q, hq⟩ => ⟨q, (hio q i).mpr hq⟩) fun ⟨hi, hn⟩ => ?_
      exact ⟨(hkey i).1.trans hi, (hlh _).mpr (.inl ((hkey i).2 ▸ hn))⟩
  · have hq : s.pc q = .io i := (hio q i).mp hq'
    have hi : (s.cache.buf i).dev = s.dev := (hkey i).1.symm.trans hi'
    -- `b` is held by `p`, so nobody else is writing it
    have hib : i ≠ b := by
      rintro rfl
      obtain rfl := (hc.bufs i).owner q p ((hc.bufs i).io q hq).1 hheld
      cases hpc.symm.trans hq
    have hd : ((s.mark p b).cache.buf i).dirty = true := hd
    rw [hbuf, if_neg hib] at hd
    intro hn
    rcases (hlh _).mp hn with hn | hn
    · exact h.raw hcom q i hq hd hi ((hkey i).2 ▸ hn)
    · refine hib (hc.unique i b ?_ (hi.trans hdev.symm) ((hkey i).2.symm.trans hn))
      exact (hc.bufs i).device q ((hc.bufs i).io q hq).1
  · by_cases hqp : q = p
    · subst hqp
      cases hpcp.symm.trans hq
    · have := h.logging q i ((hpcq q hqp).symm.trans hq)
      exact ⟨(hkey i).1.trans this.1, (hkey i).2 ▸ this.2⟩
  · cases hcom.symm.trans hcom'

theorem Logged.end_op (h : Logged s) (hpc : s.pc p = .idle) (hlh : log.lh = s.log.lh)
    (hnone : ∀ q, s.log.pc q ≠ .ending) (hend : ∀ q, log.pc q = .ending → q = p)
    (hclr : ∀ q, log.pc q ≠ .committed) :
    Logged { s with
      log := log, todo := update s.todo p (Bio.commit s.start s.log.lh) } := by
  have hcom : s.committed = false := by
    by_contra hcom
    obtain ⟨q, hq⟩ := h.ending (by simpa using hcom)
    exact hnone q hq
  refine ⟨hlh ▸ h.area, hlh ▸ h.pinned, hlh ▸ h.dirty, hlh ▸ h.raw, h.logging, fun q hq => ?_,
    fun hcom' => ?_, fun q hq => absurd hq (hclr q)⟩
  · obtain rfl := hend q hq
    refine ⟨fun _ => ⟨hcom, .inl ⟨hpc, ?_⟩⟩, fun hlen => ⟨noVars, ?_, ?_, fun b hd hio => ?_⟩⟩
    · rw [hlh]
      exact update_self ..
    · refine ⟨fun r n hr => (by cases hr), fun r d n hg => ?_, fun r r' n hr => (by cases hr)⟩
      simp [hpc] at hg
    · dsimp only at hlen ⊢
      rw [hlh] at hlen
      rw [update_self, hlh, hcom]
      exact track_commit h.area hlen
    · dsimp only
      rw [update_self]
      exact cleans_commit ((h.dirty b hd).resolve_left (not_exists.mpr hio)).2
  · cases hcom.symm.trans hcom'

/-! ## Steps of the committing process -/

omit [DecidableEq P] in
/-- Between statements the variables are loaded. -/
theorem Regs.held (h : Regs s p κ) (hpc : s.pc p = .idle) (hr : κ r = some n) :
    (s.held p (s.var p r)).isSome ∧
      (s.cache.buf (s.var p r)).dev = s.dev ∧ (s.cache.buf (s.var p r)).blockno = n := by
  refine (h.loaded r n hr).resolve_left ?_
  rintro (hg | ⟨_, hg⟩) <;> cases hpc.symm.trans hg

/-- The first statement, if there are blocks to commit. -/
theorem commit_head {start : Nat} {lh : List Nat} (hlh : lh ≠ []) (h : commit start lh = op :: ops)
    : op = .bread 0 (start + 1) := by
  unfold commit at h
  rw [if_pos (List.length_pos_iff.mpr hlh)] at h
  cases lh with
  | nil => exact absurd rfl hlh
  | cons b bs =>
    simp only [write_log, copyBlocks, List.cons_append, List.cons.injEq] at h
    exact h.1.symm

omit [DecidableEq P] in
/-- Where a statement is due other than the first `bread`, the log is not full. -/
theorem Committing.lt (h : Committing s p) (hpc : s.pc p = .idle) (htodo : s.todo p = op :: ops)
    (hop : op ≠ .bread 0 (s.start + 1)) : s.log.lh.length < LOGSIZE := by
  by_contra hbig
  obtain ⟨-, hearly⟩ := h.big (by omega)
  rcases hearly with ⟨-, hc⟩ | hg | ⟨_, hg⟩
  · refine hop (commit_head ?_ (hc.symm.trans htodo))
    intro hnil
    simp [hnil, LOGSIZE] at hbig
  · cases hpc.symm.trans hg
  · cases hpc.symm.trans hg

theorem Committing.op_bread (h : Committing s p) (hpc : s.pc p = .idle)
    (htodo : s.todo p = .bread r n :: ops) :
    Committing { s with
      toPool := s.move p (.getting r s.dev n), todo := update s.todo p ops } p := by
  refine ⟨fun hbig => ?_, fun hsmall => ?_⟩
  · obtain ⟨hcom, hearly⟩ := h.big hbig
    refine ⟨hcom, .inr (.inl ?_)⟩
    rcases hearly with ⟨-, hc⟩ | hg | ⟨_, hg⟩
    · have hne : s.log.lh ≠ [] := by
        intro hnil
        simp [hnil, LOGSIZE] at hbig
      have hop := commit_head hne (hc.symm.trans htodo)
      cases hop
      exact Pool.pc_move_self ..
    · cases hpc.symm.trans hg
    · cases hpc.symm.trans hg
  · obtain ⟨κ, hregs, htrack, hclean⟩ := h.small hsmall
    rw [htodo] at htrack hclean
    obtain ⟨hr, hne, htrack⟩ := htrack
    refine ⟨update κ r (some n), ⟨fun r' m hm => ?_, fun r' d m hg => ?_,
      fun r1 r2 m h1 h2 => ?_⟩, ?_, fun b hd hio => ?_⟩
    · by_cases hr' : r' = r
      · subst hr'
        obtain rfl : n = m := by simpa using hm
        exact .inl (.inl (Pool.pc_move_self ..))
      · exact .inr (hregs.held hpc (by simpa [hr'] using hm))
    · have he : r = r' ∧ s.dev = d ∧ n = m := by simpa using hg
      obtain ⟨rfl, rfl, rfl⟩ := he
      exact ⟨rfl, update_self ..⟩
    · by_cases hr1 : r1 = r
      · by_cases hr2 : r2 = r
        · rw [hr1, hr2]
        · subst hr1
          obtain rfl : n = m := by simpa using h1
          exact absurd (by simpa [hr2] using h2) (hne r2)
      · by_cases hr2 : r2 = r
        · subst hr2
          obtain rfl : n = m := by simpa using h2
          exact absurd (by simpa [hr1] using h1) (hne r1)
        · exact hregs.distinct r1 r2 m (by simpa [hr1] using h1) (by simpa [hr2] using h2)
    · dsimp only
      rw [update_self]
      exact htrack
    · dsimp only
      rw [update_self]
      refine hclean b hd fun q hq => hio q ?_
      have hqp : q ≠ p := by
        rintro rfl
        cases hpc.symm.trans hq
      exact (Pool.pc_move_of_ne _ hqp _).trans hq

omit [DecidableEq P] in
/-- `NBUF` logged blocks take up all buffers. -/
theorem Logged.all_pinned (h : Logged s) (hnd : s.log.lh.Nodup) (hcom : s.committed = false)
    (hbig : NBUF ≤ s.log.lh.length) (b : Fin NBUF) :
    (s.cache.buf b).blockno ∈ s.log.lh ∧ (s.cache.buf b).dirty = true := by
  let pinned : Finset (Fin NBUF) := Finset.univ.filter fun b =>
    (s.cache.buf b).blockno ∈ s.log.lh ∧ (s.cache.buf b).dirty = true
  have hsub : s.log.lh.toFinset ⊆ pinned.image fun b => (s.cache.buf b).blockno := by
    intro n hn
    have hn := List.mem_toFinset.mp hn
    obtain ⟨b, -, hno, hd⟩ := h.pinned hcom n hn
    exact Finset.mem_image.mpr ⟨b, by simp [pinned, hno, hn, hd], hno⟩
  have hcard : Fintype.card (Fin NBUF) ≤ pinned.card := by
    calc Fintype.card (Fin NBUF) = NBUF := Fintype.card_fin _
      _ ≤ s.log.lh.toFinset.card := by rwa [List.toFinset_card_of_nodup hnd]
      _ ≤ _ := Finset.card_le_card hsub
      _ ≤ pinned.card := Finset.card_image_le
  have hall : pinned = Finset.univ :=
    Finset.eq_univ_of_card _ (le_antisymm (Finset.card_le_univ _) hcard)
  have hb : b ∈ pinned := hall ▸ Finset.mem_univ b
  simpa [pinned] using hb

theorem Early.look (h : Logged s) (hc : Coherent s.toPool) (hnd : s.log.lh.Nodup)
    (hcom : s.committed = false) (hbig : LOGSIZE ≤ s.log.lh.length) (hearly : Early s p)
    (hpc : s.pc p = .getting r dev blockno) :
    Early { s with toPool := s.look p r dev blockno } p := by
  have hp : Pending s p 0 (s.start + 1) := by
    rcases hearly with ⟨hidle, -⟩ | hp
    · cases hpc.symm.trans hidle
    · exact hp
  obtain ⟨rfl, rfl, rfl⟩ : r = 0 ∧ dev = s.dev ∧ blockno = s.start + 1 := by
    rcases hp with hg | ⟨_, hg⟩
    · simpa [hpc] using hg
    · cases hpc.symm.trans hg
  have hall := h.all_pinned hnd hcom hbig
  have hmiss : ∀ i, (s.cache.buf i).blockno ≠ s.start + 1 := by
    intro i hi
    exact not_home (i := 1) (by decide) (hi ▸ h.area _ (hall i).1)
  -- every buffer is dirty and none has the block: `bget` panics
  have hlook := looked_bget hc.linked s.dev (s.start + 1)
  unfold Pool.look
  cases hl : bget s.cache s.dev (s.start + 1) with
  | got b c =>
    rw [hl] at hlook
    cases hlook with
    | hit _ hno _ => exact absurd hno (hmiss b)
    | recycle _ _ hclean => exact absurd (hall b).2 (by simp [hclean])
  | sleep b =>
    rw [hl] at hlook
    cases hlook with
    | wait _ hno _ => exact absurd hno (hmiss b)
  | panic => exact .inr hp

/-- `bget` returns with a buffer for the block. -/
theorem Regs.take (h : Regs s p κ) (hc : Coherent s.toPool) (hpc : s.pc p = .getting r dev blockno)
    {x : Buf} (hfree : (s.cache.buf b).busy = false) (hx : x.dev = dev ∧ x.blockno = blockno) :
    Regs { s with toPool := s.take p r b x } p κ := by
  obtain ⟨rfl, hr⟩ := h.pending r dev blockno (.inl hpc)
  have hpcp : (s.take p r b x).pc p = if x.valid then .idle else .io b := Pool.pc_move_self ..
  have hvar : ∀ r', (s.take p r b x).var p r' = if r' = r then b else s.var p r' := by
    intro r'
    by_cases hr' : r' = r <;> simp [Pool.take, hr']
  have hbuf : ∀ i, (s.take p r b x).cache.buf i = if i = b then x else s.cache.buf i :=
    fun i => buf_set x i
  have hheld : ∀ i, (s.take p r b x).held p i = if i = b then some .clean else s.held p i := by
    intro i
    refine (held_hold (s := s.toPool.set b x) (some .clean) p i).trans ?_
    simp [Pool.set]
  refine ⟨fun r' n hn => .inr ?_, fun r' d n hg => ?_, h.distinct⟩
  · dsimp only
    rw [hvar]
    by_cases hr' : r' = r
    · subst hr'
      cases hr.symm.trans hn
      rw [if_pos rfl, hheld, hbuf, if_pos rfl, if_pos rfl]
      exact ⟨rfl, hx⟩
    · -- the other variable has another buffer
      rw [if_neg hr']
      have hold := (h.loaded r' n hn).resolve_left (by
        rintro (hg | ⟨_, hg⟩)
        · rw [hpc] at hg
          exact hr' (Pc.getting.inj hg).1.symm
        · cases hpc.symm.trans hg)
      have hne : s.var p r' ≠ b := by
        rintro rfl
        simp [hc.held_none hfree p] at hold
      rw [hheld, hbuf, if_neg hne, if_neg hne]
      exact hold
  · dsimp only at hg
    rw [hpcp] at hg
    split at hg <;> simp at hg

theorem pc_iderw (hc : Coherent s.toPool) (hpc : s.pc p = .io b) :
    (s.toPool.iderw p b).pc p = .idle := by
  obtain ⟨-, hread⟩ := (hc.bufs b).io p hpc
  unfold Pool.iderw
  dsimp only
  by_cases hd : (s.cache.buf b).dirty = true
  · rw [if_pos hd]
    exact Pool.pc_move_self ..
  · rw [if_neg hd, if_neg (by simp [(hread (by simpa using hd)).2])]
    exact Pool.pc_move_self ..

theorem var_iderw (s : Pool P) (p : P) (b : Fin NBUF) : (s.iderw p b).var = s.var := by
  unfold Pool.iderw
  dsimp only
  split
  · rfl
  · split <;> rfl

theorem Regs.wait (h : Regs s p κ) {pc : Pc}
    (hpc : s.pc p = .getting r dev blockno ∨ ∃ b, s.pc p = .asleep b r dev blockno)
    (hpc' : pc = .getting r dev blockno ∨ ∃ b, pc = .asleep b r dev blockno) :
    Regs { s with toPool := s.move p pc } p κ := by
  obtain ⟨rfl, hr⟩ := h.pending r dev blockno hpc
  refine ⟨fun r' n hn => ?_, fun r' d n hg => ?_, h.distinct⟩
  · refine (h.loaded r' n hn).imp_left fun hp => ?_
    have he : r' = r ∧ n = blockno := by
      rcases hpc with hpc | ⟨_, hpc⟩ <;> rcases hp with hp | ⟨_, hp⟩ <;> rw [hpc] at hp <;>
        cases hp <;> exact ⟨rfl, rfl⟩
    obtain ⟨rfl, rfl⟩ := he
    unfold Pending
    rwa [Pool.pc_move_self]
  · dsimp only at hg
    rw [Pool.pc_move_self] at hg
    rcases hpc' with rfl | ⟨_, rfl⟩ <;> rcases hg with hg | ⟨_, hg⟩ <;> cases hg <;>
      exact ⟨rfl, hr⟩

omit [DecidableEq P] in
theorem Regs.keep {κ' : Vars} (h : Regs s p κ) (hq : Quiet s.toPool pool p)
    (hpc : ∀ r d n, s.pc p ≠ .getting r d n ∧ ∀ b, s.pc p ≠ .asleep b r d n)
    (hpc' : ∀ r d n, pool.pc p ≠ .getting r d n ∧ ∀ b, pool.pc p ≠ .asleep b r d n)
    (hvar : pool.var p = s.var p) (hκ : ∀ r n, κ' r = some n → κ r = some n)
    (hheld : ∀ r n, κ' r = some n → (s.held p (s.var p r)).isSome →
      (pool.held p (s.var p r)).isSome) (todo : P → List Op) :
    Regs { s with toPool := pool, todo := todo } p κ' := by
  refine ⟨fun r n hn => .inr ?_, fun r d n hg => ?_, fun r r' n hr hr' =>
    h.distinct r r' n (hκ r n hr) (hκ r' n hr')⟩
  · obtain ⟨hs, hdev, hno⟩ := (h.loaded r n (hκ r n hn)).resolve_left (by
      rintro (hg | ⟨b, hg⟩)
      · exact (hpc _ _ _).1 hg
      · exact (hpc _ _ _).2 b hg)
    obtain ⟨hd, hn'⟩ := hq.key p _ hs
    dsimp only
    rw [hvar]
    exact ⟨hheld r n hn hs, hd.trans hdev, hn'.trans hno⟩
  · rcases hg with hg | ⟨b, hg⟩
    · exact absurd hg (hpc' r d n).1
    · exact absurd hg ((hpc' r d n).2 b)

omit [DecidableEq P] in
theorem isSome_ite {c : Prop} [Decidable c] {m : Mode} {o : Option Mode} (h : o.isSome) :
    (if c then some m else o).isSome := by
  split
  · rfl
  · exact h

theorem held_iderw (q : P) (i : Fin NBUF) (hi : (s.held q i).isSome) :
    ((s.toPool.iderw p b).held q i).isSome := by
  unfold Pool.iderw
  dsimp only
  split
  · exact (held_hold (s := s.toPool.set b _) (some .written) q i).symm ▸ isSome_ite hi
  · split
    · exact hi
    · exact hi

theorem Committing.goOn (h : Logged s) (hp : Committing s p) (hc : Coherent s.toPool)
    (hnd : s.log.lh.Nodup) (hpc : s.pc p ≠ .idle) (hact : Acts s.toPool p pool) :
    Committing { s with toPool := pool } p := by
  have hq := quiet_acts hc hact
  have hbig : LOGSIZE ≤ s.log.lh.length → s.committed = false ∧
      Early { s with toPool := pool } p := by
    intro hbig
    obtain ⟨hcom, hearly⟩ := hp.big hbig
    refine ⟨hcom, ?_⟩
    cases hact with
    | bread hidle | modify hidle | brelse hidle => exact absurd hidle hpc
    | look hget => exact hearly.look h hc hnd hcom hbig hget
    | wake hsleep =>
      rcases hearly with ⟨hidle, -⟩ | hg | ⟨_, hg⟩
      · exact absurd hidle hpc
      · cases hsleep.symm.trans hg
      · cases hsleep.symm.trans hg
        exact .inr (.inl (Pool.pc_move_self ..))
    | iderw hio =>
      rcases hearly with ⟨hidle, -⟩ | hg | ⟨_, hg⟩
      · exact absurd hidle hpc
      · cases hio.symm.trans hg
      · cases hio.symm.trans hg
  refine ⟨hbig, fun hsmall => ?_⟩
  obtain ⟨κ, hregs, htrack, hclean⟩ := hp.small hsmall
  refine ⟨κ, ?_, htrack, fun b hd hio => ?_⟩
  · cases hact with
    | bread hidle | modify hidle | brelse hidle => exact absurd hidle hpc
    | @look r dev blockno hget =>
      have hlook := looked_bget hc.linked dev blockno
      unfold Pool.look
      cases hl : bget s.cache dev blockno with
      | got b c =>
        rw [hl] at hlook
        cases hlook with
        | hit hd hn hfree =>
          dsimp only [Cache.set]
          rw [update_self]
          exact hregs.take hc hget hfree ⟨hd, hn⟩
        | recycle _ hfree _ =>
          dsimp only [Cache.set]
          rw [update_self]
          exact hregs.take hc hget hfree ⟨rfl, rfl⟩
      | sleep b => exact hregs.wait (.inl hget) (.inr ⟨b, rfl⟩)
      | panic => exact ⟨hregs.loaded, hregs.pending, hregs.distinct⟩
    | wake hsleep => exact hregs.wait (.inr ⟨_, hsleep⟩) (.inl rfl)
    | iderw hio =>
      exact hregs.keep hq (by simp [hio]) (by simp [pc_iderw hc hio])
        (by rw [var_iderw]) (fun _ _ => id)
        (fun r n _ => held_iderw p _) s.todo
  · obtain ⟨hd', hno, hio'⟩ := hq.settle hd hio
    dsimp only
    rw [hno]
    exact hclean b hd' hio'

theorem Committing.op_modify (hp : Committing s p) (hc : Coherent s.toPool) (hpc : s.pc p = .idle)
    {data : Block} (htodo : s.todo p = op :: ops) (hop : op = .fill r ∨ ∃ r', op = .memmove r r')
    (hheld : (s.held p (s.var p r)).isSome) :
    Committing { s with
      toPool := s.modify p (s.var p r) data, todo := update s.todo p ops } p := by
  have hq := quiet_acts hc (.modify hpc hheld data)
  have hlt := hp.lt hpc htodo (by rcases hop with rfl | ⟨_, rfl⟩ <;> simp)
  refine ⟨fun hbig => absurd hbig (not_le.mpr hlt), fun _ => ?_⟩
  obtain ⟨κ, hregs, htrack, hclean⟩ := hp.small hlt
  rw [htodo] at htrack hclean
  have hpc' : (s.modify p (s.var p r) data).pc p = .idle := hpc
  refine ⟨κ, hregs.keep hq (by simp [hpc]) (by simp [hpc']) rfl (fun _ _ => id)
    (fun r' n _ hs => ?_) _, ?_, fun b hd hio => ?_⟩
  · exact (held_hold (s := s.toPool.set _ _) (some .modified) p _).symm ▸ isSome_ite hs
  · dsimp only
    rw [update_self]
    rcases hop with rfl | ⟨_, rfl⟩ <;> exact htrack
  · obtain ⟨hd', hno, hio'⟩ := hq.settle hd hio
    dsimp only
    rw [update_self, hno]
    have := hclean b hd' hio'
    rcases hop with rfl | ⟨_, rfl⟩ <;> exact this

theorem Committing.op_brelse (hp : Committing s p) (hc : Coherent s.toPool) (hpc : s.pc p = .idle)
    (htodo : s.todo p = .brelse r :: ops) (hrel : Releasable s.toPool p (s.var p r)) :
    Committing { s with
      toPool := s.toPool.brelse p (s.var p r), todo := update s.todo p ops } p := by
  have hq := quiet_acts hc (.brelse hpc hrel)
  have hlt := hp.lt hpc htodo (by simp)
  have hheld : (s.held p (s.var p r)).isSome := by
    rcases hrel with hm | hm <;> simp [hm]
  have hbusy := (hc.bufs (s.var p r)).busy.mpr ⟨p, hheld⟩
  refine ⟨fun hbig => absurd hbig (not_le.mpr hlt), fun _ => ?_⟩
  obtain ⟨κ, hregs, htrack, hclean⟩ := hp.small hlt
  rw [htodo] at htrack hclean
  obtain ⟨hr, htrack⟩ := htrack
  obtain ⟨m, hm⟩ := Option.isSome_iff_exists.mp hr
  have hpc' : (s.toPool.brelse p (s.var p r)).pc p = .idle := by
    unfold Pool.brelse
    dsimp only
    rw [if_neg (by simp [hbusy])]
    simp [hpc, Pc.wakeup]
  refine ⟨update κ r none, hregs.keep hq (by simp [hpc]) (by simp [hpc']) ?_
    (fun r' n hn => ?_) (fun r' n hn hs => ?_) _, ?_, fun b hd hio => ?_⟩
  · unfold Pool.brelse
    dsimp only
    rw [if_neg (by simp [hbusy])]
    rfl
  · by_cases hr' : r' = r
    · subst hr'
      simp at hn
    · simpa [hr'] using hn
  · -- the variables hold different blocks, hence different buffers
    have hr' : r' ≠ r := by
      rintro rfl
      simp at hn
    have hn : κ r' = some n := by simpa [hr'] using hn
    have hne : s.var p r' ≠ s.var p r := by
      intro he
      have h1 := (hregs.held hpc hn).2.2
      have h2 := (hregs.held hpc hm).2.2
      rw [he, h2] at h1
      exact hr' (hregs.distinct r' r n hn (h1 ▸ hm))
    unfold Pool.brelse
    dsimp only
    rw [if_neg (by simp [hbusy])]
    rw [show ∀ i, ({ s.toPool.hold p (s.var p r) none with
      cache := Bio.brelse s.cache (s.var p r)
      pc := fun q => (s.pc q).wakeup (s.var p r)
      content := if s.held p (s.var p r) = some .written then
        put s.content (s.cache.buf (s.var p r)).dev (s.cache.buf (s.var p r)).blockno
          (s.cache.buf (s.var p r)).data else s.content } : Pool P).held p i =
        if p = p ∧ i = s.var p r then none else s.held p i from held_hold none p]
    rw [if_neg fun hcon => hne hcon.2]
    exact hs
  · dsimp only
    rw [update_self]
    exact htrack
  · obtain ⟨hd', hno, hio'⟩ := hq.settle hd hio
    dsimp only
    rw [update_self, hno]
    exact hclean b hd' hio'

theorem Committing.op_bwrite (hp : Committing s p) (h : Logged s) (hc : Coherent s.toPool)
    (hpc : s.pc p = .idle) (htodo : s.todo p = .bwrite r :: ops)
    (hheld : (s.held p (s.var p r)).isSome) :
    (s.committed = false → (s.cache.buf (s.var p r)).blockno ∉ s.log.lh) ∧
    Committing { s with
      toPool := s.toPool.bwrite p (s.var p r), todo := update s.todo p ops } p := by
  have hlt := hp.lt hpc htodo (by simp)
  obtain ⟨κ, hregs, htrack, hclean⟩ := hp.small hlt
  rw [htodo] at htrack hclean
  obtain ⟨⟨n, hn, hraw⟩, htrack⟩ := htrack
  obtain ⟨-, hdev, hno⟩ := hregs.held hpc hn
  refine ⟨fun hcom => hno ▸ hraw hcom, fun hbig => absurd hbig (not_le.mpr hlt), fun _ => ?_⟩
  have hw := dirties_bwrite hc hheld
  refine ⟨κ, ⟨fun r' m hm => .inr ?_, fun r' d m hg => ?_, hregs.distinct⟩, ?_, fun b hd hio => ?_⟩
  · obtain ⟨hs, hd, hm⟩ := hregs.held hpc hm
    dsimp only
    rw [hw.held, hw.var]
    exact ⟨hs, (hw.key _).1.trans hd, (hw.key _).2.trans hm⟩
  · dsimp only at hg
    simp [hw.pc] at hg
  · dsimp only
    rw [update_self]
    exact htrack
  · -- what is left to clean, apart from the block of this statement
    obtain ⟨hb, hd', hno', hio'⟩ := hw.settle hpc hd hio
    dsimp only
    rw [update_self, hno']
    have hmem := hclean b hd' hio'
    rw [cleans, hn, Option.toList_some, List.singleton_append, List.mem_cons] at hmem
    refine hmem.resolve_left fun he => hb ?_
    have hdirty := (h.dirty b hd').resolve_left (not_exists.mpr hio')
    refine (hc.unique (s.var p r) b ((hc.bufs _).device p hheld) ?_ ?_).symm
    · rw [hdev, hdirty.1]
    · rw [hno, he]

end Xv6.Bio
