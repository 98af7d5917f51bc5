import Xv6.Bio.Coherence

/-! # Running out of buffers

    `bget` panics when every buffer is busy or pinned. Pinned buffers have blocks of `log.lh`, so
    there is room as long as these and the other busy buffers are fewer than `NBUF`. Nothing in the
    code keeps them so: readers do not call `begin_op`, and each of them holds a buffer while it
    waits for the disk.
-/

namespace Xv6.Bio

open LTS

variable {P : Type} [DecidableEq P] {s s' : State P} {p : P}

/-! ## Pressure -/

def noBuffers : String := "bget: no buffers"

/-- The buffer is for a block of the transaction. -/
def IsLogged (s : State P) (b : Fin NBUF) : Prop :=
  (s.cache.buf b).dev = s.dev ∧ (s.cache.buf b).blockno ∈ s.log.lh

instance (s : State P) (b : Fin NBUF) : Decidable (IsLogged s b) :=
  inferInstanceAs (Decidable (_ ∧ _))

/-- The busy buffers of other blocks. -/
def busyOthers (s : State P) : Finset (Fin NBUF) :=
  Finset.univ.filter fun b => (s.cache.buf b).busy = true ∧ ¬ IsLogged s b

/-- `bget` is called for a block in the cache, or while the logged blocks and
    the other busy buffers are fewer than `NBUF`. -/
def Room (s : State P) : Event P → Prop
  | .bget p =>
      match s.pc p with
      | .getting _ dev blockno =>
          (∃ b, (s.cache.buf b).dev = dev ∧ (s.cache.buf b).blockno = blockno) ∨
            s.log.lh.length + (busyOthers s).card < NBUF
      | _ => True
  | _ => True

instance (s : State P) : (e : Event P) → Decidable (Room s e)
  | .bget p => by
      unfold Room
      dsimp only
      split
      · exact inferInstance
      · exact inferInstance
  | .begin_op _ | .test _ | .end_op _ | .finish _ | .bread .. | .wake _ | .iderw _ | .modify ..
  | .bwrite .. | .brelse .. | .log_write .. | .append _ | .commit _ => .isTrue trivial

omit [DecidableEq P] in
/-- The blocks of the transaction are in at most `lh.n` buffers. -/
theorem card_logged_le (hc : Coherent s.toPool) (hdev : s.dev ≠ NODEV) :
    (Finset.univ.filter fun b => IsLogged s b).card ≤ s.log.lh.length := by
  have himage : (Finset.univ.filter fun b => IsLogged s b).image
      (fun b => (s.cache.buf b).blockno) ⊆ s.log.lh.toFinset := by
    intro n hn
    obtain ⟨b, hb, rfl⟩ := Finset.mem_image.mp hn
    exact List.mem_toFinset.mpr (Finset.mem_filter.mp hb).2.2
  have hinj : Set.InjOn (fun b => (s.cache.buf b).blockno)
      (Finset.univ.filter fun b => IsLogged s b) := by
    intro i hi j hj hno
    have hi := (Finset.mem_filter.mp hi).2.1
    have hj := (Finset.mem_filter.mp hj).2.1
    exact hc.unique i j (hi ▸ hdev) (hi.trans hj.symm) hno
  calc _ = _ := (Finset.card_image_of_injOn hinj).symm
    _ ≤ s.log.lh.toFinset.card := Finset.card_le_card himage
    _ ≤ s.log.lh.length := List.toFinset_card_le _

omit [DecidableEq P] in
/-- With room, some buffer is neither busy nor dirty. -/
theorem exists_unused (h : Logged s) (hc : Coherent s.toPool) (hdev : s.dev ≠ NODEV)
    (hroom : s.log.lh.length + (busyOthers s).card < NBUF) :
    ∃ b, (s.cache.buf b).busy = false ∧ (s.cache.buf b).dirty = false := by
  by_contra hnone
  have hall : ∀ b, b ∈ (Finset.univ.filter fun b => IsLogged s b) ∪ busyOthers s := by
    intro b
    by_cases hl : IsLogged s b
    · exact Finset.mem_union_left _ (by simp [hl])
    · refine Finset.mem_union_right _ (Finset.mem_filter.mpr ⟨Finset.mem_univ b, ?_, hl⟩)
      by_contra hbusy
      -- not busy, so nobody is writing it, so it is dirty for the log
      have hd : (s.cache.buf b).dirty = true := by
        by_contra hd
        exact hnone ⟨b, by simpa using hbusy, by simpa using hd⟩
      refine hl ((h.dirty b hd).resolve_left ?_)
      rintro ⟨p, hio⟩
      exact hbusy ((hc.bufs b).busy.mpr ⟨p, ((hc.bufs b).io p hio).1⟩)
  have hcard : NBUF ≤ s.log.lh.length + (busyOthers s).card := by
    calc NBUF = (Finset.univ : Finset (Fin NBUF)).card := (Finset.card_fin _).symm
      _ ≤ _ := Finset.card_le_card fun b _ => hall b
      _ ≤ _ := Finset.card_union_le _ _
      _ ≤ _ := Nat.add_le_add_right (card_logged_le hc hdev) _
  omega

/-! ## Runs -/

theorem acts_panicked {s s' : Pool P} (hc : Coherent s) (ha : Acts s p s') (hs : s.panicked = none)
    (hs' : s'.panicked = some noBuffers) :
    ∃ r dev blockno, s.pc p = .getting r dev blockno ∧
      (∀ i, (s.cache.buf i).dev = dev → (s.cache.buf i).blockno ≠ blockno) ∧
      ∀ i, (s.cache.buf i).busy = true ∨ (s.cache.buf i).dirty = true := by
  have hno : s.panicked ≠ some noBuffers := by simp [hs]
  cases ha with
  | bread | wake | modify => exact absurd hs' hno
  | @look r dev blockno hpc =>
    have hlook := looked_bget hc.linked dev blockno
    unfold Pool.look at hs'
    cases hl : bget s.cache dev blockno with
    | got b c | sleep b =>
      rw [hl] at hs'
      exact absurd hs' hno
    | panic =>
      rw [hl] at hlook
      cases hlook with
      | panic hmiss hfull => exact ⟨r, dev, blockno, hpc, hmiss, hfull⟩
  | iderw =>
    unfold Pool.iderw at hs'
    dsimp only at hs'
    split at hs'
    · exact absurd hs' hno
    · split at hs'
      · simp [noBuffers] at hs'
      · exact absurd hs' hno
  | brelse =>
    unfold Pool.brelse at hs'
    dsimp only at hs'
    split at hs'
    · simp [noBuffers] at hs'
    · exact absurd hs' hno

theorem bwrite_panicked {s : Pool P} {b : Fin NBUF} (hs : s.panicked = none) :
    (s.bwrite p b).panicked ≠ some noBuffers := by
  unfold Pool.bwrite
  split
  · simp [noBuffers]
  · simp [Pool.move, Pool.set, hs]

/-- Only `bget` can run out of buffers. -/
theorem fires_panicked {e : Event P} (hc : Coherent s.toPool) (hf : Fires s e s')
    (hs : s.panicked = none) (hs' : s'.panicked = some noBuffers) :
    ∃ p r dev blockno, e = .bget p ∧ s.pc p = .getting r dev blockno ∧
      (∀ i, (s.cache.buf i).dev = dev → (s.cache.buf i).blockno ≠ blockno) ∧
      ∀ i, (s.cache.buf i).busy = true ∨ (s.cache.buf i).dirty = true := by
  cases hf with
  | @call e p pool hpc _ hact =>
    obtain ⟨r, dev, blockno, hget, -⟩ := acts_panicked hc hact hs hs'
    cases hpc.symm.trans hget
  | @goOn e p pool _ he hact =>
    obtain ⟨r, dev, blockno, hget, hfull⟩ := acts_panicked hc hact hs hs'
    exact ⟨p, r, dev, blockno, he r dev blockno hget, hget, hfull⟩
  | @op_brelse p r ops hpc _ _ hrel =>
    obtain ⟨r', dev, blockno, hget, -⟩ := acts_panicked hc (.brelse hpc hrel) hs hs'
    cases hpc.symm.trans hget
  | bwrite | op_bwrite => exact absurd hs' (bwrite_panicked hs)
  | _ => exact absurd hs' (by simp [hs, Pool.move, Pool.mark, Pool.hold, Pool.set, Pool.modify])

/-- Along every run in which `bget` is called with room, it never runs out of buffers. -/
theorem bget_finds_buffer
    (h : ((system P).restrict fun s e => Disciplined s e ∧ Room s e).Reachable s) :
    s.panicked ≠ some "bget: no buffers" := by
  refine (System.invariant (I := fun s => (system P).Reachable s ∧
    ((system P).restrict Disciplined).Reachable s ∧ s.panicked ≠ some noBuffers) ?_ ?_ h).2.2
  · intro s hinit
    refine ⟨.of_init hinit, .of_init hinit, ?_⟩
    obtain ⟨disk, start, dev, -, rfl⟩ := hinit
    simp [boot]
  · rintro s e s' ⟨hreach, hdreach, _⟩ ⟨hstep, hdis, hroom⟩
    refine ⟨hreach.step hstep, hdreach.step ⟨hstep, hdis⟩, fun hp => ?_⟩
    obtain ⟨hc, hdev⟩ := reachable_coherent hreach
    obtain ⟨hs, hf⟩ := step_fires hstep
    obtain ⟨p, r, dev, blockno, rfl, hget, hmiss, hfull⟩ := fires_panicked hc hf hs hp
    simp only [Room, hget] at hroom
    rcases hroom with ⟨b, hb, hno⟩ | hroom
    · exact hmiss b hb hno
    · obtain ⟨b, hbusy, hclean⟩ := exists_unused (reachable_logged hdreach) hc hdev hroom
      rcases hfull b with hf | hf
      · simp [hbusy] at hf
      · simp [hclean] at hf

set_option maxRecDepth 10000 in
/-- One process logs a block and commits it. -/
theorem bget_finds_buffer_commitOne : ∃ s : State (Fin 1),
    ((system (Fin 1)).restrict fun s e => Disciplined s e ∧ Room s e).Reachable s ∧
    s.committed = true ∧ s.panicked ≠ some "bget: no buffers" := by
  obtain ⟨s, hs, hcom⟩ : ∃ s, System.replay
      (fun s e => if Disciplined s e ∧ Room s e then step s e else none)
      (boot (fun _ _ => .fill 0) 2 1) (logOne ++ commitOne) = some s ∧ s.committed = true :=
    ⟨_, rfl, rfl⟩
  have hreach : ((system (Fin 1)).restrict fun s e => Disciplined s e ∧ Room s e).Reachable s :=
    ⟨_, _, ⟨_, _, _, by decide, rfl⟩, System.run_restrict_of_replay hs⟩
  exact ⟨s, hreach, hcom, bget_finds_buffer hreach⟩

/-- 31 processes read one block each. -/
def manyReaders : List (Event (Fin 31)) :=
  (List.finRange 31).flatMap fun p => [.bread p 0 1 (100 + p), .bget p]

set_option maxRecDepth 100000 in
/-- The last of them finds every buffer busy. -/
theorem many_readers_panic : ∃ s : State (Fin 31),
    (system (Fin 31)).Run (boot (fun _ _ => .fill 0) 2 1) manyReaders s ∧
    s.panicked = some "bget: no buffers" := by
  have hrun : ∃ s, (system (Fin 31)).Run (boot (fun _ _ => .fill 0) 2 1) manyReaders s ∧
      decide (s.panicked = some "bget: no buffers") = true :=
    System.exists_run_of_replay (by decide +kernel)
  simpa using hrun

end Xv6.Bio
