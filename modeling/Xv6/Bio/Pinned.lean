import Mathlib.Data.Finset.Card
import Mathlib.Data.Fintype.Card
import Xv6.Bio.Program

/-! # Pinned buffers

    The source calls `log_write` only on home blocks of the log's device, and `bwrite` only from
    `log.c`. Along every such run the blocks of the transaction stay in dirty buffers, and nothing
    writes their home locations, until the header is on the disk.

    The code does not keep `log.lh.n` below `log.size`: two processes that pass the tests of
    `log_write` together can make it `LOGSIZE`. Then `write_log` would run over the end of the log,
    but it does not get there: with `NBUF` blocks pinned its first `bread` panics.
-/

namespace Xv6.Bio

open Function

variable {P : Type} [DecidableEq P]

/-! ## What an action leaves alone -/

/-- An action of `p` makes no buffer dirty; it cleans one only in `iderw`. -/
structure Quiet (s s' : Pool P) (p : P) : Prop where
  fresh   : ∀ b, (s'.cache.buf b).dirty = true → (s.cache.buf b).dirty = true ∧
              (s'.cache.buf b).dev = (s.cache.buf b).dev ∧
              (s'.cache.buf b).blockno = (s.cache.buf b).blockno
  kept    : ∀ b, (s.cache.buf b).dirty = true → s.pc p ≠ .io b → (s'.cache.buf b).dirty = true
  cleaned : ∀ b, s.pc p = .io b → (s'.cache.buf b).dirty = false
  key     : ∀ q b, (s.held q b).isSome → (s'.cache.buf b).dev = (s.cache.buf b).dev ∧
              (s'.cache.buf b).blockno = (s.cache.buf b).blockno
  pc      : ∀ q, q ≠ p → s'.pc q = s.pc q ∨
              ∃ b r d n, s.pc q = .asleep b r d n ∧ s'.pc q = .getting r d n
  io      : ∀ b, s'.pc p = .io b → (s'.cache.buf b).dirty = false
  logging : ∀ b, s'.pc p ≠ .logging b
  held    : ∀ q, q ≠ p → s'.held q = s.held q
  var     : ∀ q, q ≠ p → s'.var q = s.var q
  disk    : ∀ d n, s'.disk d n = s.disk d n ∨ ∃ b, s.pc p = .io b ∧
              (s.cache.buf b).dirty = true ∧ (s.cache.buf b).dev = d ∧ (s.cache.buf b).blockno = n

section

variable {s s' : Pool P} {p : P} {b : Fin NBUF}

theorem Quiet.move {pc : Pc} (hpc : ∀ b, s.pc p ≠ .io b) (hio : ∀ b, pc ≠ .io b)
    (hlog : ∀ b, pc ≠ .logging b) : Quiet s (s.move p pc) p where
  fresh := fun _ hd => ⟨hd, rfl, rfl⟩
  kept := fun _ hd _ => hd
  cleaned := fun b hb => absurd hb (hpc b)
  key := fun _ _ _ => ⟨rfl, rfl⟩
  pc := fun _ hq => .inl (s.pc_move_of_ne hq pc)
  io := fun b hb => absurd (s.pc_move_self p pc ▸ hb) (hio b)
  logging := fun b hb => hlog b (s.pc_move_self p pc ▸ hb)
  held := fun _ _ => rfl
  var := fun _ _ => rfl
  disk := fun _ _ => .inl rfl

omit [DecidableEq P] in
theorem Quiet.panic (hpc : ∀ b, s.pc p ≠ .io b) (hlog : ∀ b, s.pc p ≠ .logging b) (msg : String) :
    Quiet s { s with panicked := some msg } p :=
  ⟨fun _ hd => ⟨hd, rfl, rfl⟩, fun _ hd _ => hd, fun b hb => absurd hb (hpc b),
    fun _ _ _ => ⟨rfl, rfl⟩, fun _ _ => .inl rfl, fun b hb => absurd hb (hpc b), hlog,
    fun _ _ => rfl, fun _ _ => rfl, fun _ _ => .inl rfl⟩

omit [DecidableEq P] in
theorem Quiet.touch (hbuf : ∀ i, i ≠ b → s'.cache.buf i = s.cache.buf i)
    (hfresh : (s'.cache.buf b).dirty = true → (s.cache.buf b).dirty = true)
    (hkept : (s.cache.buf b).dirty = true → s.pc p ≠ .io b → (s'.cache.buf b).dirty = true)
    (hkey : (s'.cache.buf b).dirty = true ∨ (∃ q, (s.held q b).isSome) →
      (s'.cache.buf b).dev = (s.cache.buf b).dev ∧
        (s'.cache.buf b).blockno = (s.cache.buf b).blockno)
    (hdone : ∀ i, s.pc p = .io i → i = b ∧ (s'.cache.buf b).dirty = false)
    (hpc : ∀ q, q ≠ p → s'.pc q = s.pc q ∨
      ∃ b r d n, s.pc q = .asleep b r d n ∧ s'.pc q = .getting r d n)
    (hio : ∀ i, s'.pc p = .io i → i = b ∧ (s'.cache.buf b).dirty = false)
    (hlog : ∀ i, s'.pc p ≠ .logging i) (hheld : ∀ q, q ≠ p → s'.held q = s.held q)
    (hvar : ∀ q, q ≠ p → s'.var q = s.var q)
    (hdisk : ∀ d n, s'.disk d n = s.disk d n ∨ s.pc p = .io b ∧ (s.cache.buf b).dirty = true ∧
      (s.cache.buf b).dev = d ∧ (s.cache.buf b).blockno = n) : Quiet s s' p where
  fresh := by
    intro i hd
    by_cases hi : i = b
    · subst hi
      exact ⟨hfresh hd, hkey (.inl hd)⟩
    · rw [hbuf i hi] at hd ⊢
      exact ⟨hd, rfl, rfl⟩
  kept := by
    intro i hd hne
    by_cases hi : i = b
    · subst hi
      exact hkept hd hne
    · rw [hbuf i hi]
      exact hd
  cleaned := by
    intro i hi
    obtain ⟨rfl, hd⟩ := hdone i hi
    exact hd
  key := by
    intro q i hq
    by_cases hi : i = b
    · subst hi
      exact hkey (.inr ⟨q, hq⟩)
    · rw [hbuf i hi]
      exact ⟨rfl, rfl⟩
  pc := hpc
  io := by
    intro i hi
    obtain ⟨rfl, hd⟩ := hio i hi
    exact hd
  logging := hlog
  held := hheld
  var := hvar
  disk := fun d n => (hdisk d n).imp_right fun h => ⟨b, h⟩

theorem held_hold_of_ne (m : Option Mode) {q : P} (hq : q ≠ p) : (s.hold p b m).held q = s.held q :=
  update_of_ne hq _ _

theorem Quiet.take {r : Fin 2} {dev blockno : Nat} (h : Coherent s)
    (hpc : s.pc p = .getting r dev blockno) {x : Buf} (hfree : (s.cache.buf b).busy = false)
    (hx : x = { s.cache.buf b with busy := true } ∨ x.dirty = false ∧ (s.cache.buf b).dirty = false)
    : Quiet s (s.take p r b x) p := by
  have hbuf : (s.take p r b x).cache.buf b = x := update_self ..
  have hpcp : (s.take p r b x).pc p = if x.valid then .idle else .io b := Pool.pc_move_self ..
  have hdirty : x.dirty = (s.cache.buf b).dirty := by
    rcases hx with rfl | ⟨hx, hb⟩
    · rfl
    · rw [hx, hb]
  refine Quiet.touch (b := b) (fun i hi => update_of_ne hi _ _) ?_ ?_ ?_ (by simp [hpc])
    (fun q hq => .inl (Pool.pc_move_of_ne _ hq _)) ?_ ?_ (fun q hq => held_hold_of_ne _ hq)
    (fun q hq => update_of_ne hq _ _) (fun _ _ => .inl rfl)
  · rw [hbuf, hdirty]
    exact id
  · rw [hbuf, hdirty]
    exact fun hd _ => hd
  · rintro (hd | ⟨q, hq⟩)
    · rw [hbuf] at hd ⊢
      rcases hx with rfl | ⟨hx, -⟩
      · exact ⟨rfl, rfl⟩
      · simp [hx] at hd
    · simp [h.held_none hfree q] at hq
  · intro i hi
    rw [hpcp] at hi
    split at hi
    · cases hi
    · next hv =>
      refine ⟨(Pc.io.inj hi).symm, ?_⟩
      rw [hbuf, hdirty]
      by_contra hd
      rcases hx with rfl | ⟨-, hb⟩
      · exact hv ((h.bufs b).dirty (by simpa using hd))
      · exact hd hb
  · intro i
    rw [hpcp]
    split <;> simp

omit [DecidableEq P] in
theorem wakeup_cases (pc : Pc) (b : Fin NBUF) : pc.wakeup b = pc ∨
    ∃ i r d n, pc = .asleep i r d n ∧ pc.wakeup b = .getting r d n := by
  cases pc with
  | asleep i r d n =>
    by_cases hi : i = b
    · exact .inr ⟨i, r, d, n, rfl, if_pos hi⟩
    · exact .inl (if_neg hi)
  | _ => exact .inl rfl

theorem quiet_acts (h : Coherent s) (ha : Acts s p s') : Quiet s s' p := by
  cases ha with
  | bread hpc _ | wake hpc => exact .move (by simp [hpc]) (by simp) (by simp)
  | @look r dev blockno hpc =>
    have hlook := looked_bget h.linked dev blockno
    unfold Pool.look
    cases hl : bget s.cache dev blockno with
    | got b c =>
      rw [hl] at hlook
      cases hlook with
      | hit _ _ hfree =>
        dsimp only [Cache.set]
        rw [update_self]
        exact .take h hpc hfree (.inl rfl)
      | recycle _ hfree hclean =>
        dsimp only [Cache.set]
        rw [update_self]
        exact .take h hpc hfree (.inr ⟨rfl, hclean⟩)
    | sleep b => exact .move (by simp [hpc]) (by simp) (by simp)
    | panic => exact .panic (by simp [hpc]) (by simp [hpc]) _
  | @iderw b hpc =>
    obtain ⟨hheld, hread⟩ := (h.bufs b).io p hpc
    have hdone : ∀ i, s.pc p = .io i → i = b := fun i hi => by simpa [hpc] using hi.symm
    unfold Pool.iderw
    dsimp only
    by_cases hd : (s.cache.buf b).dirty = true
    · rw [if_pos hd]
      refine Quiet.touch (b := b) (fun i hi => update_of_ne hi _ _) (by simp [hd]) (by simp [hpc])
        ?_ (fun i hi => ⟨hdone i hi, ?_⟩) (fun q hq => .inl (Pool.pc_move_of_ne _ hq _)) (by simp)
        (by simp) (fun q hq => held_hold_of_ne _ hq) (fun _ _ => rfl) (fun d n => ?_)
      · intro _
        simp [Pool.move, Pool.hold, Pool.set, Cache.set]
      · simp [Pool.move, Pool.hold, Pool.set, Cache.set]
      · dsimp only
        rw [put_apply]
        split
        · next hdn => exact .inr ⟨hpc, hd, hdn.1.symm, hdn.2.symm⟩
        · exact .inl rfl
    · obtain ⟨-, hv⟩ := hread (by simpa using hd)
      rw [if_neg hd, if_neg (by simp [hv])]
      refine Quiet.touch (b := b) (fun i hi => update_of_ne hi _ _) ?_ (by simp [hpc]) ?_
        (fun i hi => ⟨hdone i hi, ?_⟩) (fun q hq => .inl (Pool.pc_move_of_ne _ hq _)) (by simp)
        (by simp) (fun _ _ => rfl) (fun _ _ => rfl) (fun _ _ => .inl rfl)
      all_goals simp [Pool.move, Pool.set, Cache.set, hd]
  | @modify b hpc hheld data =>
    refine Quiet.touch (b := b) (fun i hi => update_of_ne hi _ _) ?_ ?_ ?_
      (by simp [hpc]) (fun _ _ => .inl rfl) (by simp [Pool.modify, Pool.hold, Pool.set, hpc])
      (by simp [Pool.modify, Pool.hold, Pool.set, hpc]) (fun q hq => held_hold_of_ne _ hq)
      (fun _ _ => rfl) (fun _ _ => .inl rfl)
    all_goals simp [Pool.modify, Pool.hold, Pool.set, Cache.set, hpc]
  | @brelse b hpc hheld =>
    have hsome : (s.held p b).isSome := by rcases hheld with hm | hm <;> simp [hm]
    unfold Pool.brelse
    dsimp only
    rw [if_neg (by simp [(h.bufs b).busy.mpr ⟨p, hsome⟩])]
    refine Quiet.touch (b := b) (fun i hi => update_of_ne hi _ _) ?_ ?_ ?_
      (by simp [hpc]) (fun q _ => ?_) (by simp [hpc, Pc.wakeup]) (by simp [hpc, Pc.wakeup])
      (fun q hq => held_hold_of_ne _ hq) (fun _ _ => rfl) (fun _ _ => .inl rfl)
    · simp [Bio.brelse]
    · simp [Bio.brelse, hpc]
    · simp [Bio.brelse]
    · exact wakeup_cases (s.pc q) b

omit [DecidableEq P] in
/-- A dirty buffer nobody is writing was one before. -/
theorem Quiet.settle (hq : Quiet s s' p) (hd : (s'.cache.buf b).dirty = true)
    (hio : ∀ q, s'.pc q ≠ .io b) : (s.cache.buf b).dirty = true ∧
      (s'.cache.buf b).blockno = (s.cache.buf b).blockno ∧ ∀ q, s.pc q ≠ .io b := by
  obtain ⟨hd', -, hno⟩ := hq.fresh b hd
  refine ⟨hd', hno, fun q hqb => ?_⟩
  by_cases hqp : q = p
  · subst hqp
    rw [hq.cleaned b hqb] at hd
    cases hd
  · rcases hq.pc q hqp with he | ⟨_, _, _, _, ha, -⟩
    · exact hio q (he.trans hqb)
    · cases ha.symm.trans hqb

/-- What `bwrite` of a buffer that `p` holds does before `iderw`. -/
structure Dirties (s s' : Pool P) (p : P) (b : Fin NBUF) : Prop where
  pc    : s'.pc p = .io b
  other : ∀ q, q ≠ p → s'.pc q = s.pc q
  dirty : (s'.cache.buf b).dirty = true
  key   : ∀ i, (s'.cache.buf i).dev = (s.cache.buf i).dev ∧
            (s'.cache.buf i).blockno = (s.cache.buf i).blockno
  buf   : ∀ i, i ≠ b → s'.cache.buf i = s.cache.buf i
  held  : s'.held = s.held
  var   : s'.var = s.var

theorem dirties_bwrite (h : Coherent s) (hheld : (s.held p b).isSome) :
    Dirties s (s.bwrite p b) p b := by
  unfold Pool.bwrite
  rw [if_neg (by simp [(h.bufs b).busy.mpr ⟨p, hheld⟩])]
  refine ⟨Pool.pc_move_self .., fun q hq => Pool.pc_move_of_ne _ hq _, ?_, fun i => ?_,
    fun i hi => update_of_ne hi _ _, rfl, rfl⟩
  · simp [Pool.move, Pool.set, Cache.set]
  · by_cases hi : i = b
    · subst hi
      simp [Pool.move, Pool.set, Cache.set]
    · simp [Pool.move, Pool.set, Cache.set, hi]

omit [DecidableEq P] in
theorem Dirties.settle (hw : Dirties s s' p b) (hpc : s.pc p = .idle) {i : Fin NBUF}
    (hd : (s'.cache.buf i).dirty = true) (hio : ∀ q, s'.pc q ≠ .io i) :
    i ≠ b ∧ (s.cache.buf i).dirty = true ∧
      (s'.cache.buf i).blockno = (s.cache.buf i).blockno ∧ ∀ q, s.pc q ≠ .io i := by
  have hi : i ≠ b := fun hi => hio p (hi ▸ hw.pc)
  refine ⟨hi, hw.buf i hi ▸ hd, (hw.key i).2, fun q hq => ?_⟩
  by_cases hqp : q = p
  · subst hqp
    cases hpc.symm.trans hq
  · exact hio q ((hw.other q hqp).trans hq)

end

/-! ## The transaction -/

/-- `bread(log.dev, n)` into variable `r` is under way. -/
def Pending (s : State P) (p : P) (r : Fin 2) (n : Nat) : Prop :=
  s.pc p = .getting r s.dev n ∨ ∃ b, s.pc p = .asleep b r s.dev n

/-- The variables of `commit` hold the blocks `κ`. -/
structure Regs (s : State P) (p : P) (κ : Vars) : Prop where
  loaded   : ∀ r n, κ r = some n → Pending s p r n ∨ ((s.held p (s.var p r)).isSome ∧
               (s.cache.buf (s.var p r)).dev = s.dev ∧ (s.cache.buf (s.var p r)).blockno = n)
  pending  : ∀ r d n, (s.pc p = .getting r d n ∨ ∃ b, s.pc p = .asleep b r d n) →
               d = s.dev ∧ κ r = some n
  distinct : ∀ r r' n, κ r = some n → κ r' = some n → r = r'

/-- `commit` has not yet got its first buffer. -/
def Early (s : State P) (p : P) : Prop :=
  s.pc p = .idle ∧ s.todo p = commit s.start s.log.lh ∨ Pending s p 0 (s.start + 1)

/-- `p` is in `commit` and has not cleared the log. -/
structure Committing (s : State P) (p : P) : Prop where
  big   : LOGSIZE ≤ s.log.lh.length → s.committed = false ∧ Early s p
  small : s.log.lh.length < LOGSIZE → ∃ κ, Regs s p κ ∧
            Track s.log.lh s.committed κ (s.todo p) ∧
            ∀ b, (s.cache.buf b).dirty = true → (∀ q, s.pc q ≠ .io b) →
              (s.cache.buf b).blockno ∈ cleans κ (s.todo p)

/-- What holds between steps, when the log is used as the source does. -/
structure Logged (s : State P) : Prop where
  area    : ∀ n ∈ s.log.lh, Home s.start n
  pinned  : s.committed = false → ∀ n ∈ s.log.lh, ∃ b, (s.cache.buf b).dev = s.dev ∧
              (s.cache.buf b).blockno = n ∧ (s.cache.buf b).dirty = true
  dirty   : ∀ b, (s.cache.buf b).dirty = true → (∃ p, s.pc p = .io b) ∨
              ((s.cache.buf b).dev = s.dev ∧ (s.cache.buf b).blockno ∈ s.log.lh)
  raw     : s.committed = false → ∀ p b, s.pc p = .io b → (s.cache.buf b).dirty = true →
              (s.cache.buf b).dev = s.dev → (s.cache.buf b).blockno ∉ s.log.lh
  logging : ∀ p b, s.pc p = .logging b → (s.cache.buf b).dev = s.dev ∧
              Home s.start (s.cache.buf b).blockno
  commits : ∀ p, s.log.pc p = .ending → Committing s p
  ending  : s.committed = true → ∃ p, s.log.pc p = .ending
  cleared : ∀ p, s.log.pc p = .committed → Op.committed ∉ s.todo p

section

variable {s s' : State P} {p q : P} {b : Fin NBUF}

/-- What `p` looks at while it commits. -/
structure Frame (s s' : State P) (p : P) : Prop where
  lh        : s'.log.lh = s.log.lh
  start     : s'.start = s.start
  dev       : s'.dev = s.dev
  committed : s'.committed = s.committed
  todo      : s'.todo p = s.todo p
  held      : s'.held p = s.held p
  var       : s'.var p = s.var p
  pc        : s'.pc p = s.pc p ∨ ∃ b r d n, s.pc p = .asleep b r d n ∧ s'.pc p = .getting r d n
  key       : ∀ b, (s.held p b).isSome → (s'.cache.buf b).dev = (s.cache.buf b).dev ∧
                (s'.cache.buf b).blockno = (s.cache.buf b).blockno
  dirty     : ∀ b, (s'.cache.buf b).dirty = true → (∀ q, s'.pc q ≠ .io b) →
                (s.cache.buf b).dirty = true ∧
                (s'.cache.buf b).blockno = (s.cache.buf b).blockno ∧ ∀ q, s.pc q ≠ .io b

omit [DecidableEq P]

theorem Frame.pending (hf : Frame s s' p) {r : Fin 2} {n : Nat} (h : Pending s p r n) :
    Pending s' p r n := by
  unfold Pending at h ⊢
  rw [hf.dev]
  rcases hf.pc with he | ⟨b, r', d, m, ha, hg⟩
  · rw [he]
    exact h
  · rcases h with h | ⟨b', h⟩
    · cases ha.symm.trans h
    · cases ha.symm.trans h
      exact .inl hg

theorem Committing.frame (h : Committing s p) (hf : Frame s s' p) : Committing s' p where
  big := by
    rw [hf.lh, hf.committed]
    intro hbig
    refine ⟨(h.big hbig).1, ?_⟩
    rcases (h.big hbig).2 with ⟨hpc, htodo⟩ | hp
    · refine .inl ⟨?_, by rw [hf.todo, hf.start, hf.lh, htodo]⟩
      rcases hf.pc with he | ⟨_, _, _, _, ha, -⟩
      · exact he.trans hpc
      · cases ha.symm.trans hpc
    · rw [← hf.start] at hp
      exact .inr (hf.pending hp)
  small := by
    rw [hf.lh, hf.committed, hf.todo]
    intro hsmall
    obtain ⟨κ, hregs, htrack, hclean⟩ := h.small hsmall
    refine ⟨κ, ⟨fun r n hr => ?_, fun r d n hpc => ?_, hregs.distinct⟩, htrack, fun b hd hio => ?_⟩
    · rw [hf.held, hf.var, hf.dev]
      refine (hregs.loaded r n hr).imp hf.pending fun ⟨hheld, hdev, hno⟩ => ?_
      obtain ⟨hd, hn⟩ := hf.key _ hheld
      exact ⟨hheld, hd.trans hdev, hn.trans hno⟩
    · rw [hf.dev]
      refine hregs.pending r d n ?_
      rcases hf.pc with he | ⟨b, r', d', n', ha, hg⟩
      · rwa [he] at hpc
      · rcases hpc with hpc | ⟨_, hpc⟩
        · cases hg.symm.trans hpc
          exact .inr ⟨b, ha⟩
        · cases hg.symm.trans hpc
    · obtain ⟨hd', hno, hio'⟩ := hf.dirty b hd hio
      rw [hno]
      exact hclean b hd' hio'

end

end Xv6.Bio
