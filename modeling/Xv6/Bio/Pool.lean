import Xv6.Bio.Cache

/-! # Processes over the buffer cache

    What any number of processes `P` do with buffers: `bread` (`bget`, then `iderw` if the buffer is
    not valid), changing the data of a buffer they hold, marking it dirty as `log_write` does,
    `bwrite` and `brelse`. The steps are the critical sections under `bcache.lock`; `iderw` is one
    step, which does the documented transfer.

    No code reads what a process remembers of the buffers it holds (`held`), or `content`: the data
    of each block when it was last released after a `log_write` or a `bwrite`, and at first what is
    on the disk.
-/

namespace Xv6.Bio

open Function

/-! ## Model -/

/-- What a process did with a buffer it holds. -/
inductive Mode where
  /-- It has not changed the data. -/
  | clean
  /-- It has changed the data after the last `log_write` or `bwrite`. -/
  | modified
  /-- It has called `log_write` or `bwrite`, and not changed the data since. -/
  | written
  deriving DecidableEq

/-- Where a process stands. -/
inductive Pc where
  | idle
  /-- In `bget`, about to look for the block; the buffer goes to variable `r`. -/
  | getting (r : Fin 2) (dev blockno : Nat)
  /-- In the `sleep(b, &bcache.lock)` of `bget`. -/
  | asleep (b : Fin NBUF) (r : Fin 2) (dev blockno : Nat)
  /-- In `iderw(b)`. -/
  | io (b : Fin NBUF)
  /-- In `log_write(b)`, past its panics. -/
  | logging (b : Fin NBUF)
  deriving DecidableEq

/-- `wakeup(b)`. -/
def Pc.wakeup (b : Fin NBUF) : Pc → Pc
  | .asleep b' r dev blockno => if b' = b then .getting r dev blockno else .asleep b' r dev blockno
  | pc => pc

structure Pool (P : Type) where
  cache    : Cache
  disk     : Nat → Nat → Block
  pc       : P → Pc
  held     : P → Fin NBUF → Option Mode
  /-- Two local variables of type `struct buf *`. -/
  var      : P → Fin 2 → Fin NBUF
  content  : Nat → Nat → Block
  panicked : Option String

/-- Change a table of blocks in one place. -/
def put (t : Nat → Nat → Block) (dev blockno : Nat) (x : Block) : Nat → Nat → Block :=
  Function.update t dev (Function.update (t dev) blockno x)

variable {P : Type} [DecidableEq P]

namespace Pool

def set (s : Pool P) (b : Fin NBUF) (x : Buf) : Pool P := { s with cache := s.cache.set b x }

def move (s : Pool P) (p : P) (pc : Pc) : Pool P := { s with pc := Function.update s.pc p pc }

def hold (s : Pool P) (p : P) (b : Fin NBUF) (m : Option Mode) : Pool P :=
  { s with held := Function.update s.held p (Function.update (s.held p) b m) }

/-- `bget` returns `b`, whose fields are now `x`; without `B_VALID`, `bread` goes on to `iderw`. -/
def take (s : Pool P) (p : P) (r : Fin 2) (b : Fin NBUF) (x : Buf) : Pool P :=
  { ((s.set b x).hold p b (some .clean)).move p (if x.valid then .idle else .io b) with
    var := Function.update s.var p (Function.update (s.var p) r b) }

/-- The critical section of `bget`. -/
def look (s : Pool P) (p : P) (r : Fin 2) (dev blockno : Nat) : Pool P :=
  match bget s.cache dev blockno with
  | .got b c => s.take p r b (c.buf b)
  | .sleep b => s.move p (.asleep b r dev blockno)
  | .panic => { s with panicked := some "bget: no buffers" }

def iderw (s : Pool P) (p : P) (b : Fin NBUF) : Pool P :=
  let x := s.cache.buf b
  if x.dirty then
    { ((s.set b { x with dirty := false, valid := true }).hold p b (some .written)).move
      p .idle with
      disk := put s.disk x.dev x.blockno x.data }
  else if x.valid then { s with panicked := some "iderw: nothing to do" }
  else (s.set b { x with valid := true, data := s.disk x.dev x.blockno }).move p .idle

/-- A process changes `b->data`. -/
def modify (s : Pool P) (p : P) (b : Fin NBUF) (data : Block) : Pool P :=
  (s.set b { s.cache.buf b with data := data }).hold p b (some .modified)

/-- `bwrite`, up to `iderw`. -/
def bwrite (s : Pool P) (p : P) (b : Fin NBUF) : Pool P :=
  if (s.cache.buf b).busy = false then { s with panicked := some "bwrite" }
  else (s.set b { s.cache.buf b with dirty := true }).move p (.io b)

/-- `b->flags |= B_DIRTY` in `log_write`. -/
def mark (s : Pool P) (p : P) (b : Fin NBUF) : Pool P :=
  ((s.set b { s.cache.buf b with dirty := true }).hold p b (some .written)).move p .idle

def brelse (s : Pool P) (p : P) (b : Fin NBUF) : Pool P :=
  let x := s.cache.buf b
  if x.busy = false then { s with panicked := some "brelse" }
  else { s.hold p b none with
    cache := Bio.brelse s.cache b
    pc := fun q => (s.pc q).wakeup b
    content :=
      if s.held p b = some .written then put s.content x.dev x.blockno x.data else s.content }

@[simp] theorem pc_move_self (s : Pool P) (p : P) (pc : Pc) : (s.move p pc).pc p = pc :=
  update_self ..

theorem pc_move_of_ne (s : Pool P) {p q : P} (hq : q ≠ p) (pc : Pc) : (s.move p pc).pc q = s.pc q :=
  update_of_ne hq _ _

end Pool

/-! ## What a step can do -/

/-- What a process can do without making a buffer dirty, with the guards. -/
inductive Acts (s : Pool P) (p : P) : Pool P → Prop where
  | bread {r : Fin 2} {dev blockno : Nat} (hpc : s.pc p = .idle) (hdev : dev ≠ NODEV) :
      Acts s p (s.move p (.getting r dev blockno))
  | look {r : Fin 2} {dev blockno : Nat} (hpc : s.pc p = .getting r dev blockno) :
      Acts s p (s.look p r dev blockno)
  | wake {b : Fin NBUF} {r : Fin 2} {dev blockno : Nat} (hpc : s.pc p = .asleep b r dev blockno) :
      Acts s p (s.move p (.getting r dev blockno))
  | iderw {b : Fin NBUF} (hpc : s.pc p = .io b) : Acts s p (s.iderw p b)
  | modify {b : Fin NBUF} (hpc : s.pc p = .idle) (hheld : (s.held p b).isSome) (data : Block) :
      Acts s p (s.modify p b data)
  | brelse {b : Fin NBUF} (hpc : s.pc p = .idle)
      (hheld : s.held p b = some .clean ∨ s.held p b = some .written) : Acts s p (s.brelse p b)

/-! ## Coherence -/

/-- What holds for one buffer: it is busy exactly when a process holds it, and then one does; its
    data is the content of its block unless the process has changed it. -/
structure BufOk (s : Pool P) (b : Fin NBUF) : Prop where
  busy    : (s.cache.buf b).busy = true ↔ ∃ p, (s.held p b).isSome
  owner   : ∀ p q, (s.held p b).isSome → (s.held q b).isSome → p = q
  device  : ∀ p, (s.held p b).isSome → (s.cache.buf b).dev ≠ NODEV
  io      : ∀ p, s.pc p = .io b → (s.held p b).isSome ∧ ((s.cache.buf b).dirty = false →
              s.held p b = some .clean ∧ (s.cache.buf b).valid = false)
  logging : ∀ p, s.pc p = .logging b → (s.held p b).isSome
  valid   : ∀ p, (s.held p b).isSome → s.pc p ≠ .io b → (s.cache.buf b).valid = true
  dirty   : (s.cache.buf b).dirty = true → (s.cache.buf b).valid = true
  data    : (s.cache.buf b).valid = true → (∀ p m, s.held p b = some m → m = .clean) →
              (s.cache.buf b).data = s.content (s.cache.buf b).dev (s.cache.buf b).blockno
  flushed : ∀ p, s.held p b = some .written → (s.cache.buf b).dirty = false →
              s.disk (s.cache.buf b).dev (s.cache.buf b).blockno = (s.cache.buf b).data

/-- Nothing in the buffer is still to be written to the disk. -/
def Settled (s : Pool P) (b : Fin NBUF) : Prop :=
  (s.cache.buf b).dirty = false ∧ ∀ p m, s.held p b = some m → m = .clean

structure Coherent (s : Pool P) : Prop where
  linked  : s.cache.Linked
  unique  : ∀ i j, (s.cache.buf i).dev ≠ NODEV → (s.cache.buf i).dev = (s.cache.buf j).dev →
              (s.cache.buf i).blockno = (s.cache.buf j).blockno → i = j
  bufs    : ∀ b, BufOk s b
  getting : ∀ p r dev blockno, (s.pc p = .getting r dev blockno ∨
              ∃ b, s.pc p = .asleep b r dev blockno) → dev ≠ NODEV
  disk    : ∀ dev blockno, (∀ b, (s.cache.buf b).dev = dev → (s.cache.buf b).blockno = blockno →
              Settled s b) → s.disk dev blockno = s.content dev blockno

theorem put_apply (t : Nat → Nat → Block) (dev blockno : Nat) (x : Block) (d n : Nat) :
    put t dev blockno x d n = if d = dev ∧ n = blockno then x else t d n := by
  unfold put
  by_cases hd : d = dev
  · subst hd
    by_cases hn : n = blockno <;> simp [hn]
  · simp [hd]

section

variable {s s' : Pool P} {p : P} {b : Fin NBUF} {m : Mode} {pc : Pc} {x : Buf} {r : Fin 2}
  {dev blockno : Nat}

theorem held_hold (m : Option Mode) (q : P) (i : Fin NBUF) :
    (s.hold p b m).held q i = if q = p ∧ i = b then m else s.held q i := by
  unfold Pool.hold
  by_cases hq : q = p
  · subst hq
    by_cases hi : i = b <;> simp [hi]
  · simp [hq]

omit [DecidableEq P] in
/-- A buffer nobody touches stays as it is. -/
theorem BufOk.frame (h : BufOk s b) (hbuf : s'.cache.buf b = s.cache.buf b)
    (hheld : ∀ q, s'.held q b = s.held q b) (hio : ∀ q, s'.pc q = .io b ↔ s.pc q = .io b)
    (hlog : ∀ q, s'.pc q = .logging b → s.pc q = .logging b)
    (hdisk : s'.disk (s.cache.buf b).dev (s.cache.buf b).blockno =
      s.disk (s.cache.buf b).dev (s.cache.buf b).blockno)
    (hcontent : s'.content (s.cache.buf b).dev (s.cache.buf b).blockno =
      s.content (s.cache.buf b).dev (s.cache.buf b).blockno) : BufOk s' b := by
  obtain ⟨h1, h2, h3, h4, h5, h6, h7, h8, h9⟩ := h
  constructor <;> simp only [hbuf, hheld, hio, hdisk, hcontent, ne_eq] <;> try assumption
  exact fun q hq => h5 q (hlog q hq)

/-- Only buffer `b` has changed; the calls of `bget` go on. -/
structure Touches (s s' : Pool P) (b : Fin NBUF) : Prop where
  buf     : ∀ i, i ≠ b → s'.cache.buf i = s.cache.buf i
  held    : ∀ q i, i ≠ b → s'.held q i = s.held q i
  io      : ∀ q i, i ≠ b → (s'.pc q = .io i ↔ s.pc q = .io i)
  logging : ∀ q i, i ≠ b → s'.pc q = .logging i → s.pc q = .logging i
  getting : ∀ q r dev blockno,
    (s'.pc q = .getting r dev blockno ∨ ∃ b, s'.pc q = .asleep b r dev blockno) →
    s.pc q = .getting r dev blockno ∨ ∃ b, s.pc q = .asleep b r dev blockno

omit [DecidableEq P] in
theorem Coherent.touch (h : Coherent s) (ht : Touches s s' b) (hlinked : s'.cache.Linked)
    (hkey : ∀ i, i ≠ b → (s.cache.buf i).dev ≠ NODEV →
      (s'.cache.buf b).dev = (s.cache.buf i).dev →
      (s'.cache.buf b).blockno ≠ (s.cache.buf i).blockno) (hb : BufOk s' b)
    (hframe : ∀ i, i ≠ b → s'.disk (s.cache.buf i).dev (s.cache.buf i).blockno =
        s.disk (s.cache.buf i).dev (s.cache.buf i).blockno ∧
      s'.content (s.cache.buf i).dev (s.cache.buf i).blockno =
        s.content (s.cache.buf i).dev (s.cache.buf i).blockno)
    (hdisk : ∀ dev blockno, (∀ i, i ≠ b → (s.cache.buf i).dev = dev →
        (s.cache.buf i).blockno = blockno → Settled s i) →
      ((s'.cache.buf b).dev = dev → (s'.cache.buf b).blockno = blockno → Settled s' b) →
      s'.disk dev blockno = s'.content dev blockno) : Coherent s' where
  linked := hlinked
  unique := by
    intro i j hi hdev hno
    by_cases hib : i = b
    · subst hib
      by_contra hij
      have hij := Ne.symm hij
      rw [ht.buf j hij] at hdev hno
      exact hkey j hij (hdev ▸ hi) hdev hno
    · rw [ht.buf i hib] at hi hdev hno
      by_cases hjb : j = b
      · subst hjb
        exact absurd hno.symm (hkey i hib hi hdev.symm)
      · rw [ht.buf j hjb] at hdev hno
        exact h.unique i j hi hdev hno
  bufs := by
    intro i
    by_cases hib : i = b
    · exact hib ▸ hb
    · exact (h.bufs i).frame (ht.buf i hib) (fun q => ht.held q i hib) (fun q => ht.io q i hib)
        (fun q => ht.logging q i hib) (hframe i hib).1 (hframe i hib).2
  getting := fun q r dev blockno hq => h.getting q r dev blockno (ht.getting q r dev blockno hq)
  disk := by
    intro dev blockno hset
    refine hdisk dev blockno (fun i hib hdev hno => ?_) (hset b)
    have := hset i (by rw [ht.buf i hib, hdev]) (by rw [ht.buf i hib, hno])
    exact ⟨ht.buf i hib ▸ this.1, fun q m hm => this.2 q m ((ht.held q i hib).trans hm)⟩

omit [DecidableEq P] in
theorem Coherent.other (h : Coherent s) {i : Fin NBUF} (hi : i ≠ b)
    (hdev : (s.cache.buf i).dev ≠ NODEV) (he : (s.cache.buf b).dev = (s.cache.buf i).dev) :
    (s.cache.buf b).blockno ≠ (s.cache.buf i).blockno :=
  fun hno => hi (h.unique i b hdev he.symm hno.symm)

omit [DecidableEq P] in
/-- A buffer that its process has not changed has only that mode. -/
theorem BufOk.modes (h : BufOk s b) (hheld : s.held p b = some m) (q : P) {m' : Mode}
    (hq : s.held q b = some m') : m' = m := by
  obtain rfl := h.owner p q (by simp [hheld]) (by simp [hq])
  exact Option.some.inj (hq.symm.trans hheld)

omit [DecidableEq P] in
/-- The disk has the content of a block whose buffer is settled. -/
theorem Coherent.disk_of_settled (h : Coherent s) (hdev : (s.cache.buf b).dev ≠ NODEV)
    (hset : Settled s b) : s.disk (s.cache.buf b).dev (s.cache.buf b).blockno =
      s.content (s.cache.buf b).dev (s.cache.buf b).blockno := by
  refine h.disk _ _ fun i hi hn => ?_
  obtain rfl := h.unique b i hdev hi.symm hn.symm
  exact hset

/-! ## Each action keeps the cache coherent -/

theorem Coherent.move (h : Coherent s) (hio : ∀ b, s.pc p ≠ .io b) (hio' : ∀ b, pc ≠ .io b)
    (hlog : ∀ b, pc = .logging b → (s.held p b).isSome)
    (hget : ∀ r dev blockno, (pc = .getting r dev blockno ∨ ∃ b, pc = .asleep b r dev blockno) →
      dev ≠ NODEV) : Coherent (s.move p pc) where
  linked := h.linked
  unique := h.unique
  bufs := by
    intro b
    obtain ⟨h1, h2, h3, h4, h5, h6, h7, h8, h9⟩ := h.bufs b
    refine ⟨h1, h2, h3, fun q hq => ?_, fun q hq => ?_, fun q hq hne => ?_, h7, h8, h9⟩
    · by_cases hqp : q = p
      · subst hqp
        simp [Pool.move, hio'] at hq
      · exact h4 q (by simpa [Pool.move, hqp] using hq)
    · by_cases hqp : q = p
      · subst hqp
        exact hlog b (by simpa [Pool.move] using hq)
      · exact h5 q (by simpa [Pool.move, hqp] using hq)
    · by_cases hqp : q = p
      · subst hqp
        exact h6 q hq (hio b)
      · exact h6 q hq (by simpa [Pool.move, hqp] using hne)
  getting := by
    intro q r dev blockno hq
    by_cases hqp : q = p
    · subst hqp
      exact hget r dev blockno (by simpa [Pool.move] using hq)
    · exact h.getting q r dev blockno (by simpa [Pool.move, hqp] using hq)
  disk := h.disk

/-- What `set`, `hold` and `move` of one buffer and process leave alone. -/
theorem touches_change (s : Pool P) (x : Buf) (m : Option Mode) (pc : Pc)
    (hpc : ∀ i, i ≠ b → s.pc p ≠ .io i ∧ pc ≠ .io i ∧ pc ≠ .logging i)
    (hget : ∀ r dev blockno, pc ≠ .getting r dev blockno ∧ ∀ b, pc ≠ .asleep b r dev blockno) :
    Touches s (((s.set b x).hold p b m).move p pc) b where
  buf := fun i hi => update_of_ne hi _ _
  held := by
    intro q i hi
    exact (held_hold (s := s.set b x) m q i).trans (if_neg fun hc => hi hc.2)
  io := by
    intro q i hi
    by_cases hq : q = p
    · subst hq
      simp [Pool.move, hpc i hi]
    · simp [Pool.move, hq, Pool.hold, Pool.set]
  logging := by
    intro q i hi hlog
    by_cases hq : q = p
    · subst hq
      simp [Pool.move, hpc i hi] at hlog
    · simpa [Pool.move, hq, Pool.hold, Pool.set] using hlog
  getting := by
    intro q r dev blockno hg
    by_cases hq : q = p
    · subst hq
      simp [Pool.move, hget] at hg
    · simpa [Pool.move, hq, Pool.hold, Pool.set] using hg

theorem held_change {m : Option Mode} (q : P) :
    ((s.set b x).hold p b m).held q b = if q = p then m else s.held q b := by
  refine (held_hold (s := s.set b x) m q b).trans ?_
  simp [Pool.set]

omit [DecidableEq P] in
theorem Coherent.held_none (h : Coherent s) (hfree : (s.cache.buf b).busy = false) (q : P) :
    s.held q b = none := by
  by_contra hq
  have := (h.bufs b).busy.mpr ⟨q, Option.isSome_iff_ne_none.mpr hq⟩
  simp [hfree] at this

theorem Coherent.take (h : Coherent s) (hpc : s.pc p = .getting r dev blockno)
    (hfree : (s.cache.buf b).busy = false) (hx : x.busy = true ∧ x.dev = dev ∧ x.blockno = blockno)
    (hkey : ∀ i, i ≠ b → (s.cache.buf i).dev = dev → (s.cache.buf i).blockno ≠ blockno)
    (hdata : x = { s.cache.buf b with busy := true } ∨ x.valid = false ∧ x.dirty = false ∧
      (s.cache.buf b).dirty = false) : Coherent (s.take p r b x) := by
  have hnone := h.held_none hfree
  have hdev := h.getting p r dev blockno (.inl hpc)
  obtain ⟨hbusy, rfl, rfl⟩ := hx
  have hbuf : (s.take p r b x).cache.buf b = x := update_self ..
  have hheld : ∀ q, (s.take p r b x).held q b = if q = p then some .clean else none := by
    intro q
    exact (held_change q).trans (by simp [hnone])
  have hpc' : ∀ q i, (s.take p r b x).pc q = .io i → q ≠ p → s.pc q = .io i := by
    intro q i hq hqp
    simpa [Pool.take, Pool.move, Pool.hold, Pool.set, hqp] using hq
  have hdirty : x.dirty = true → x.valid = true := by
    rcases hdata with rfl | ⟨-, hd, -⟩
    · exact (h.bufs b).dirty
    · simp [hd]
  have ht : Touches s (s.take p r b x) b := by
    have hc := touches_change (p := p) (b := b) s x (some .clean)
      (if x.valid then .idle else .io b) ?_ ?_
    · exact ⟨hc.buf, hc.held, hc.io, hc.logging, hc.getting⟩
    · intro i hi
      cases x.valid <;> simp [hpc, Ne.symm hi]
    · intro r dev blockno
      cases x.valid <;> simp
  refine h.touch ht (h.linked.set b x) (fun i hi _ he hno => ?_) ?_ (fun i hi => ⟨rfl, rfl⟩) ?_
  · rw [hbuf] at he hno
    exact hkey i hi he.symm hno.symm
  · constructor <;> simp only [hbuf, hheld]
    · simp [hbusy]
    · grind
    · intro q _
      exact hdev
    · intro q hq
      by_cases hqp : q = p
      · subst hqp
        have hinv : x.valid = false := by
          by_contra hv
          simp [Pool.take, Pool.move, hv] at hq
        simp [hinv]
      · have := ((h.bufs b).io q (hpc' q b hq hqp)).1
        simp [hnone] at this
    · intro q hq
      by_cases hqp : q = p
      · simp [hqp]
      · have := (h.bufs b).logging q (by
          simpa [Pool.take, Pool.move, Pool.hold, Pool.set, hqp] using hq)
        simp [hnone] at this
    · intro q hq hne
      by_cases hqp : q = p
      · subst hqp
        by_contra hv
        simp [Pool.take, Pool.move, hv] at hne
      · simp [hqp] at hq
    · exact hdirty
    · intro hv _
      rcases hdata with rfl | ⟨hinv, -⟩
      · exact (h.bufs b).data hv fun q m hm => by simp [hnone] at hm
      · simp [hinv] at hv
    · intro q hq
      split at hq <;> simp at hq
  · intro d n hothers hself
    refine h.disk d n fun i hi hno => ?_
    by_cases hib : i = b
    · subst hib
      refine ⟨?_, fun q m hm => by simp [hnone] at hm⟩
      rcases hdata with rfl | ⟨-, -, hclean⟩
      · have := (hself (by rw [hbuf, ← hi]) (by rw [hbuf, ← hno])).1
        rwa [hbuf] at this
      · exact hclean
    · exact hothers i hib hi hno

omit [DecidableEq P] in
theorem Coherent.panic (h : Coherent s) (msg : String) : Coherent { s with panicked := some msg } :=
  ⟨h.linked, h.unique, fun b => (h.bufs b).frame rfl (fun _ => rfl) (fun _ => Iff.rfl)
    (fun _ => id) rfl rfl, h.getting, h.disk⟩

theorem Coherent.look (h : Coherent s) (hpc : s.pc p = .getting r dev blockno) :
    Coherent (s.look p r dev blockno) := by
  have hdev := h.getting p r dev blockno (.inl hpc)
  have hlook := looked_bget h.linked dev blockno
  unfold Pool.look
  cases hl : bget s.cache dev blockno with
  | got b c =>
    rw [hl] at hlook
    cases hlook with
    | hit hd hn hfree =>
      dsimp only [Cache.set]
      rw [update_self]
      refine h.take hpc hfree ⟨rfl, hd, hn⟩ (fun i hi he hno => ?_) (.inl rfl)
      exact hi (h.unique i b (he ▸ hdev) (he.trans hd.symm) (hno.trans hn.symm))
    | recycle hmiss hfree hclean =>
      dsimp only [Cache.set]
      rw [update_self]
      exact h.take hpc hfree ⟨rfl, rfl, rfl⟩ (fun i _ => hmiss i) (.inr ⟨rfl, rfl, hclean⟩)
  | sleep b =>
    refine h.move (by simp [hpc]) (by simp) (by simp) fun r' d n hg => ?_
    have he : r = r' ∧ dev = d ∧ blockno = n := by simpa using hg
    exact he.2.1 ▸ hdev
  | panic => exact h.panic _

/-- The changes of a process that holds `b` and keeps it for the same block. -/
theorem Coherent.change (h : Coherent s) (hheld : (s.held p b).isSome) (x : Buf) (m : Mode)
    (pc : Pc) (disk : Nat → Nat → Block)
    (hkeep : x.busy = (s.cache.buf b).busy ∧ x.dev = (s.cache.buf b).dev ∧
      x.blockno = (s.cache.buf b).blockno)
    (hpc : s.pc p = .idle ∨ s.pc p = .io b ∨ s.pc p = .logging b) (hpc' : pc = .idle ∨ pc = .io b)
    (hio : pc = .io b → x.dirty = true) (hvalid : x.valid = true)
    (hdisk : ∀ d n, ¬ (d = x.dev ∧ n = x.blockno) → disk d n = s.disk d n)
    (hclean : m = .clean → x.data = s.content x.dev x.blockno ∧
      (x.dirty = false → disk x.dev x.blockno = s.content x.dev x.blockno))
    (hwritten : m = .written → x.dirty = false → disk x.dev x.blockno = x.data) :
    Coherent { ((s.set b x).hold p b (some m)).move p pc with disk := disk } := by
  obtain ⟨hbusy, hdev, hno⟩ := hkeep
  have hok := h.bufs b
  have hnone : ∀ q, q ≠ p → s.held q b = none := by
    intro q hq
    by_contra hs
    exact hq (hok.owner q p (Option.isSome_iff_ne_none.mpr hs) hheld)
  have hnodev := hok.device p hheld
  have ht := touches_change (p := p) (b := b) s x (some m) pc
    (fun i hi => by
      rcases hpc with hpc | hpc | hpc <;> rcases hpc' with rfl | rfl <;> simp [hpc, Ne.symm hi])
    (fun r dev blockno => by rcases hpc' with rfl | rfl <;> simp)
  generalize hs' : ({ ((s.set b x).hold p b (some m)).move p pc with disk := disk } : Pool P) = s'
  have hbuf : s'.cache.buf b = x := by
    rw [← hs']
    exact update_self ..
  have hheld' : ∀ q, s'.held q b = if q = p then some m else none := by
    intro q
    rw [← hs']
    refine (held_change q).trans ?_
    by_cases hq : q = p
    · simp [hq]
    · simp [hq, hnone q hq]
  have hpcq : ∀ q, q ≠ p → s'.pc q = s.pc q := by
    intro q hq
    rw [← hs']
    exact update_of_ne hq _ _
  have hpcp : s'.pc p = pc := by
    rw [← hs']
    exact update_self ..
  have hkeys : ∀ i, i ≠ b →
      ¬ ((s.cache.buf i).dev = x.dev ∧ (s.cache.buf i).blockno = x.blockno) := by
    rintro i hi ⟨hd, hn⟩
    rw [hdev] at hd
    exact h.other hi (hd ▸ hnodev) hd.symm (hno ▸ hn.symm)
  have hdisk' : s'.disk = disk := by rw [← hs']
  have hcontent : s'.content = s.content := by
    rw [← hs']
    rfl
  refine h.touch (b := b) ?_ ?_ (fun i hi hne hd hn => ?_) ?_ (fun i hi => ⟨?_, ?_⟩) ?_
  · rw [← hs']
    exact ⟨ht.buf, ht.held, ht.io, ht.logging, ht.getting⟩
  · rw [← hs']
    exact h.linked.set b x
  · rw [hbuf] at hd hn
    exact hkeys i hi ⟨hd.symm, hn.symm⟩
  · constructor <;> simp only [hbuf, hheld', hdisk', hcontent]
    · simp [hbusy, hok.busy.mpr ⟨p, hheld⟩]
    · grind
    · intro q _
      rw [hdev]
      exact hnodev
    · intro q hq
      by_cases hqp : q = p
      · subst hqp
        simp [hio (hpcp ▸ hq)]
      · have := (hok.io q (hpcq q hqp ▸ hq)).1
        simp [hnone q hqp] at this
    · intro q hq
      by_cases hqp : q = p
      · simp [hqp]
      · have := hok.logging q (hpcq q hqp ▸ hq)
        simp [hnone q hqp] at this
    · intro q _ _
      exact hvalid
    · intro _
      exact hvalid
    · intro _ hall
      exact (hclean (hall p m (by simp))).1
    · intro q hq hd
      split at hq
      · exact hwritten (Option.some.inj hq) hd
      · cases hq
  · rw [hdisk', hdisk _ _ (hkeys i hi)]
  · rw [hcontent]
  · intro d n hothers hself
    rw [hdisk', hcontent]
    by_cases hdn : d = x.dev ∧ n = x.blockno
    · obtain ⟨rfl, rfl⟩ := hdn
      have hset := hself (by rw [hbuf]) (by rw [hbuf])
      have hm : m = .clean := hset.2 p m (by simp [hheld'])
      exact (hclean hm).2 (hbuf ▸ hset.1)
    · rw [hdisk d n hdn]
      refine h.disk d n fun i hi hn => ?_
      by_cases hib : i = b
      · subst hib
        exact absurd ⟨hi.symm.trans hdev.symm, hn.symm.trans hno.symm⟩ hdn
      · exact hothers i hib hi hn

theorem hold_set (hheld : s.held p b = some m) (x : Buf) :
    (s.set b x).hold p b (some m) = s.set b x := by
  rw [← hheld]
  simp [Pool.hold, Pool.set]

theorem move_self (s : Pool P) (p : P) : s.move p (s.pc p) = s := by
  simp [Pool.move]

theorem Coherent.iderw (h : Coherent s) (hpc : s.pc p = .io b) : Coherent (s.iderw p b) := by
  obtain ⟨hheld, hread⟩ := (h.bufs b).io p hpc
  unfold Pool.iderw
  dsimp only
  by_cases hd : (s.cache.buf b).dirty = true
  · rw [if_pos hd]
    refine h.change hheld _ _ _ _ ⟨rfl, rfl, rfl⟩ (.inr (.inl hpc)) (.inl rfl) (by simp) rfl
      (fun d n hdn => ?_) (by simp) fun _ _ => ?_
    · rw [put_apply, if_neg hdn]
    · rw [put_apply, if_pos ⟨rfl, rfl⟩]
  · obtain ⟨hclean, hv⟩ := hread (by simpa using hd)
    rw [if_neg hd, if_neg (by simp [hv])]
    -- nothing is pending in this buffer, so the disk has the content
    have hdisk := h.disk_of_settled ((h.bufs b).device p hheld)
      ⟨by simpa using hd, fun q m => (h.bufs b).modes hclean q⟩
    have hc := h.change hheld { s.cache.buf b with valid := true, data := _ } .clean .idle s.disk
      ⟨rfl, rfl, rfl⟩ (.inr (.inl hpc)) (.inl rfl) (by simp) rfl (fun _ _ _ => rfl)
      (fun _ => ⟨hdisk, fun _ => hdisk⟩) (by simp)
    rwa [hold_set hclean] at hc

theorem Coherent.modify (h : Coherent s) (hpc : s.pc p = .idle) (hheld : (s.held p b).isSome)
    (data : Block) : Coherent (s.modify p b data) := by
  have hc := h.change hheld { s.cache.buf b with data := data } .modified (s.pc p) s.disk
    ⟨rfl, rfl, rfl⟩ (.inl hpc) (.inl hpc) (by simp [hpc])
    ((h.bufs b).valid p hheld (by simp [hpc])) (fun _ _ _ => rfl) (by simp) (by simp)
  have hself := move_self (s.modify p b data) p
  rw [← hself]
  exact hc

theorem Coherent.bwrite (h : Coherent s) (hpc : s.pc p = .idle) (hheld : (s.held p b).isSome) :
    Coherent (s.bwrite p b) := by
  unfold Pool.bwrite
  split
  · exact h.panic _
  · have hvalid := (h.bufs b).valid p hheld (by simp [hpc])
    obtain ⟨m, hm⟩ := Option.isSome_iff_exists.mp hheld
    have hc := h.change hheld { s.cache.buf b with dirty := true } m (.io b) s.disk
      ⟨rfl, rfl, rfl⟩ (.inl hpc) (.inr rfl) (fun _ => rfl) hvalid (fun _ _ _ => rfl)
      (fun hclean => ⟨(h.bufs b).data hvalid fun q m' hm' =>
        ((h.bufs b).modes hm q hm').trans hclean, by simp⟩) (by simp)
    rwa [hold_set hm] at hc

theorem Coherent.mark (h : Coherent s) (hpc : s.pc p = .logging b) : Coherent (s.mark p b) := by
  have hheld := (h.bufs b).logging p hpc
  exact h.change hheld _ _ _ s.disk ⟨rfl, rfl, rfl⟩ (.inr (.inr hpc)) (.inl rfl) (by simp)
    ((h.bufs b).valid p hheld (by simp [hpc])) (fun _ _ _ => rfl) (by simp) (by simp)

omit [DecidableEq P] in
theorem wakeup_eq_io (pc : Pc) (b i : Fin NBUF) : pc.wakeup b = .io i ↔ pc = .io i := by
  cases pc <;> simp [Pc.wakeup]
  split <;> simp

theorem wakeup_eq_logging (pc : Pc) (b i : Fin NBUF) :
    pc.wakeup b = .logging i ↔ pc = .logging i := by
  cases pc <;> simp [Pc.wakeup]
  split <;> simp

theorem wakeup_getting
    (h : pc.wakeup b = .getting r dev blockno ∨ ∃ i, pc.wakeup b = .asleep i r dev blockno) :
    pc = .getting r dev blockno ∨ ∃ i, pc = .asleep i r dev blockno := by
  cases pc <;> simp [Pc.wakeup] at h ⊢ <;> grind

theorem Coherent.brelse (h : Coherent s) (hpc : s.pc p = .idle)
    (hheld : s.held p b = some .clean ∨ s.held p b = some .written) : Coherent (s.brelse p b) := by
  have hsome : (s.held p b).isSome := by rcases hheld with hm | hm <;> simp [hm]
  have hok := h.bufs b
  have hvalid := hok.valid p hsome (by simp [hpc])
  have hnodev := hok.device p hsome
  unfold Pool.brelse
  dsimp only
  rw [if_neg (by simp [hok.busy.mpr ⟨p, hsome⟩])]
  generalize hs' : ({ s.hold p b none with
    cache := Bio.brelse s.cache b
    pc := fun q => (s.pc q).wakeup b
    content := if s.held p b = some .written then
      put s.content (s.cache.buf b).dev (s.cache.buf b).blockno (s.cache.buf b).data
      else s.content } : Pool P) = s'
  have hbuf : s'.cache.buf b = { s.cache.buf b with busy := false } := by
    rw [← hs']
    exact update_self ..
  have hnone : ∀ q, s'.held q b = none := by
    intro q
    rw [← hs']
    refine (held_hold none q b).trans ?_
    split
    · rfl
    · next hq =>
      by_contra hs
      exact hq ⟨hok.owner q p (Option.isSome_iff_ne_none.mpr hs) hsome, rfl⟩
  have hdisk' : s'.disk = s.disk := by
    rw [← hs']
    rfl
  have hothers : ∀ d n, ¬ (d = (s.cache.buf b).dev ∧ n = (s.cache.buf b).blockno) →
      s'.content d n = s.content d n := by
    intro d n hdn
    rw [← hs']
    dsimp only
    split
    · rw [put_apply, if_neg hdn]
    · rfl
  -- what is released is what the next reader will get
  have hself : s'.content (s.cache.buf b).dev (s.cache.buf b).blockno = (s.cache.buf b).data := by
    rw [← hs']
    dsimp only
    split
    · rw [put_apply, if_pos ⟨rfl, rfl⟩]
    · next hw =>
      exact (hok.data hvalid fun q m => hok.modes (hheld.resolve_right hw) q).symm
  have hkeys : ∀ i, i ≠ b → ¬ ((s.cache.buf i).dev = (s.cache.buf b).dev ∧
      (s.cache.buf i).blockno = (s.cache.buf b).blockno) := by
    rintro i hi ⟨hd, hn⟩
    exact h.other hi (hd ▸ hnodev) hd.symm hn.symm
  refine h.touch (b := b) ?_ ?_ (fun i hi hne hd hn => ?_) ?_ (fun i hi => ⟨?_, ?_⟩) ?_
  · rw [← hs']
    refine ⟨fun i hi => update_of_ne hi _ _, fun q i hi => ?_, fun q i _ => wakeup_eq_io _ _ _, fun
      q i _ => (wakeup_eq_logging _ _ _).mp, fun q r dev blockno => wakeup_getting⟩
    exact (held_hold none q i).trans (if_neg fun hc => hi hc.2)
  · rw [← hs']
    exact h.linked.brelse b
  · rw [hbuf] at hd hn
    exact hkeys i hi ⟨hd.symm, hn.symm⟩
  · constructor <;> simp only [hbuf, hnone, hdisk']
    · simp
    · simp
    · simp
    · intro q hq
      rw [← hs', wakeup_eq_io] at hq
      have := (hok.io q hq).1
      obtain rfl := hok.owner p q hsome this
      simp [hpc] at hq
    · intro q hq
      rw [← hs', wakeup_eq_logging] at hq
      have := hok.logging q hq
      obtain rfl := hok.owner p q hsome this
      simp [hpc] at hq
    · simp
    · exact hok.dirty
    · intro _ _
      exact hself.symm
    · simp
  · rw [hdisk']
  · exact hothers _ _ (hkeys i hi)
  · intro d n hset hb
    rw [hdisk']
    by_cases hdn : d = (s.cache.buf b).dev ∧ n = (s.cache.buf b).blockno
    · obtain ⟨rfl, rfl⟩ := hdn
      have hd : (s.cache.buf b).dirty = false := by
        have := (hb (by rw [hbuf]) (by rw [hbuf])).1
        rwa [hbuf] at this
      rw [hself]
      rcases hheld with hm | hm
      · exact (h.disk_of_settled hnodev ⟨hd, fun q m => hok.modes hm q⟩).trans
          (hok.data hvalid fun q m => hok.modes hm q).symm
      · exact hok.flushed p hm hd
    · rw [hothers d n hdn]
      refine h.disk d n fun i hi hn => ?_
      by_cases hib : i = b
      · subst hib
        exact absurd ⟨hi.symm, hn.symm⟩ hdn
      · exact hset i hib hi hn

theorem Coherent.logging (h : Coherent s) (hpc : s.pc p = .idle) (hheld : (s.held p b).isSome) :
    Coherent (s.move p (.logging b)) := by
  refine h.move (by simp [hpc]) (by simp) (fun i hi => ?_) (by simp)
  obtain rfl : b = i := by simpa using hi
  exact hheld

theorem coherent_acts (h : Coherent s) (ha : Acts s p s') : Coherent s' := by
  cases ha with
  | bread hpc hdev =>
    refine h.move (by simp [hpc]) (by simp) (by simp) fun r d n hg => ?_
    have he := show _ ∧ _ ∧ _ by simpa using hg
    exact he.2.1 ▸ hdev
  | look hpc => exact h.look hpc
  | wake hpc =>
    refine h.move (by simp [hpc]) (by simp) (by simp) fun r d n hg => ?_
    have he := show _ ∧ _ ∧ _ by simpa using hg
    exact he.2.1 ▸ h.getting p _ _ _ (.inr ⟨_, hpc⟩)
  | iderw hpc => exact h.iderw hpc
  | modify hpc hheld data => exact h.modify hpc hheld data
  | brelse hpc hheld => exact h.brelse hpc hheld

end

end Xv6.Bio
