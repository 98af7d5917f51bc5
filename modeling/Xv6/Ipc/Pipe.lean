import Xv6.Framework.Ring
import Xv6.Framework.System
import Xv6.Param

/-! # Pipes

    `piperead`, `pipewrite`, `pipeclose` and `kill` as steps of any number of processes `P` on one
    pipe. A step is a critical section under the lock of the pipe: from `acquire`, or from the
    return of `sleep`, to the next `sleep` or `release`.

    The state remembers what no code reads: the bytes stored and fetched so far, and what each
    process stored in its last call of `pipewrite`.
-/

namespace Xv6.Ipc

open LTS Function List

/-! ## Model -/

abbrev PIPESIZE : Nat := 512

/-- `struct pipe` without its lock. -/
structure Pipe extends RingBuffer UInt8 where
  readopen  : Bool
  writeopen : Bool

/-- `p->nwrite == p->nread + PIPESIZE`. -/
def Pipe.Full (p : Pipe) : Prop := p.nwrite = u32 (p.nread + PIPESIZE)

instance (p : Pipe) : Decidable p.Full := inferInstanceAs (Decidable (_ = _))

/-- `p->data[p->nwrite++ % PIPESIZE] = c`. -/
def Pipe.put (p : Pipe) (c : UInt8) : Pipe :=
  { p with toRingBuffer := p.push PIPESIZE (2 ^ 32) c }

/-- `p->nread++`. -/
def Pipe.get (p : Pipe) : Pipe := { p with toRingBuffer := p.pop (2 ^ 32) }

/-- How a critical section of `pipewrite` ends. -/
inductive WriteExit where
  /-- After the loop. -/
  | done
  /-- With `return -1`. -/
  | fail
  /-- In `sleep(&p->nwrite, &p->lock)`. -/
  | sleep
  deriving DecidableEq

/-- The loop of `pipewrite` from index `i` on, with `r` bytes left: the pipe,
    the index and the exit, and the bytes that were stored. -/
def writeLoop (killed : Bool) (addr : Nat → UInt8) :
    Nat → Nat → Pipe → Pipe × Nat × WriteExit × List UInt8
  | 0, i, p => (p, i, .done, [])
  | r + 1, i, p =>
      if p.Full then
        (p, i, if p.readopen = false ∨ killed = true then .fail else .sleep, [])
      else
        let (p', j, ex, bs) := writeLoop killed addr r (i + 1) (p.put (addr i))
        (p', j, ex, addr i :: bs)

/-- The copying loop of `piperead`, with at most `r` bytes to go: the pipe and
    the bytes that were fetched. -/
def readLoop : Nat → Pipe → Pipe × List UInt8
  | 0, p => (p, [])
  | r + 1, p =>
      if p.nread = p.nwrite then (p, [])
      else
        let (p', bs) := readLoop r p.get
        (p', p.head PIPESIZE :: bs)

/-- Where a process stands. -/
inductive Pc where
  /-- Not in a call on this pipe. -/
  | out
  /-- In the `sleep` of `pipewrite`, with index `i`. -/
  | wsleep (addr : Nat → UInt8) (n : Int) (i : Nat)
  /-- Woken from it, before the next test. -/
  | wready (addr : Nat → UInt8) (n : Int) (i : Nat)
  /-- In the `sleep` of `piperead`. -/
  | rsleep (n : Int)
  /-- Woken from it, before the next test. -/
  | rready (n : Int)

/-- A call of `pipewrite` with what it stored and returned. -/
structure Call where
  addr   : Nat → UInt8
  n      : Int
  bytes  : List UInt8
  result : Option Int

structure State (P : Type) where
  pipe    : Pipe
  pc      : P → Pc
  killed  : P → Bool
  stored  : List UInt8
  fetched : List UInt8
  call    : P → Option Call

inductive Event (P : Type) where
  | pipewrite (q : P) (addr : Nat → UInt8) (n : Int)
  | piperead (q : P) (n : Int)
  /-- A process that was woken goes on. -/
  | resume (q : P)
  | pipeclose (writable : Bool)
  | kill (q : P)
  /-- `kill` comes between the test of `proc->killed` and the `sleep`. -/
  | killAwake (q : P)

/-- `wakeup(&p->nread)`. -/
def Pc.wakeRead : Pc → Pc
  | .rsleep n => .rready n
  | pc => pc

/-- `wakeup(&p->nwrite)`. -/
def Pc.wakeWrite : Pc → Pc
  | .wsleep addr n i => .wready addr n i
  | pc => pc

variable {P : Type} [DecidableEq P] {i r l : Nat} {addr : Nat → UInt8} {s s' : State P} {q : P}

/-- A critical section of `pipewrite`, from index `i` on; `bs` was stored by
    the earlier ones of this call. -/
def pipewrite (s : State P) (q : P) (addr : Nat → UInt8) (n : Int) (i : Nat) (bs : List UInt8) :
    State P :=
  match writeLoop (s.killed q) addr (n.toNat - i) i s.pipe with
  | (p, j, ex, new) =>
      let s := { s with pipe := p, stored := s.stored ++ new }
      match ex with
      | .done => { s with
          pc := fun x => (update s.pc q .out x).wakeRead
          call := update s.call q (some ⟨addr, n, bs ++ new, some n⟩) }
      | .fail => { s with
          pc := update s.pc q .out
          call := update s.call q (some ⟨addr, n, bs ++ new, some (-1)⟩) }
      | .sleep => { s with
          pc := update (fun x => (s.pc x).wakeRead) q (.wsleep addr n j)
          call := update s.call q (some ⟨addr, n, bs ++ new, none⟩) }

/-- A critical section of `piperead`. -/
def piperead (s : State P) (q : P) (n : Int) : State P :=
  if s.pipe.nread = s.pipe.nwrite ∧ s.pipe.writeopen = true then
    if s.killed q = true then { s with pc := update s.pc q .out }
    else { s with pc := update s.pc q (.rsleep n) }
  else
    match readLoop n.toNat s.pipe with
    | (p, bs) => { s with
        pipe := p
        pc := fun x => (update s.pc q .out x).wakeWrite
        fetched := s.fetched ++ bs }

def pipeclose (s : State P) (writable : Bool) : State P :=
  if writable then { s with
    pipe := { s.pipe with writeopen := false }
    pc := fun x => (s.pc x).wakeRead }
  else { s with
    pipe := { s.pipe with readopen := false }
    pc := fun x => (s.pc x).wakeWrite }

/-- `kill` makes a sleeping process runnable. -/
def kill (s : State P) (q : P) : State P :=
  { s with
    killed := update s.killed q true
    pc := update s.pc q (s.pc q).wakeRead.wakeWrite }

/-- The bytes that the call of `q` has stored. -/
def State.bytes (s : State P) (q : P) : List UInt8 :=
  match s.call q with
  | some c => c.bytes
  | none => []

/-- One step. Once both ends are closed, the page is freed. -/
def step (s : State P) (e : Event P) : Option (State P) :=
  if s.pipe.readopen = false ∧ s.pipe.writeopen = false then none
  else
    match e with
    | .pipewrite q addr n =>
        match s.pc q with
        | .out => some (pipewrite s q addr n 0 [])
        | _ => none
    | .piperead q n =>
        match s.pc q with
        | .out => some (piperead s q n)
        | _ => none
    | .resume q =>
        match s.pc q with
        | .wready addr n i => some (pipewrite s q addr n i (s.bytes q))
        | .rready n => some (piperead s q n)
        | _ => none
    | .pipeclose writable => some (pipeclose s writable)
    | .kill q => some (kill s q)
    | .killAwake q =>
        match s.pc q with
        | .wsleep _ _ _ | .rsleep _ => some { s with killed := update s.killed q true }
        | _ => none

/-- After `pipealloc`. -/
def alloc (data : Nat → UInt8) : State P where
  pipe := { data := data, nread := 0, nwrite := 0, readopen := true, writeopen := true }
  pc := fun _ => .out
  killed := fun _ => false
  stored := []
  fetched := []
  call := fun _ => none

variable (P) in
def system : System (State P) (Event P) :=
  System.ofStep (fun s => ∃ data, s = alloc data) step

/-! ## The loops -/

/-- `nwrite - nread`, as a `uint`. -/
def Pipe.len (p : Pipe) : Nat := p.count (2 ^ 32)

/-- What is in the pipe. -/
def Pipe.buffered (p : Pipe) : List UInt8 := p.contents PIPESIZE (2 ^ 32)

/-- The counters are in range and at most `PIPESIZE` apart. -/
abbrev Pipe.Sound (p : Pipe) : Prop := p.Ok PIPESIZE (2 ^ 32)

/-- No cell changes its place when a counter wraps. -/
theorem pipesize_dvd : PIPESIZE ∣ 2 ^ 32 := ⟨2 ^ 23, rfl⟩

variable {p : Pipe}

theorem Pipe.Sound.len_le (h : p.Sound) : p.len ≤ PIPESIZE := h.count

theorem Pipe.Sound.full_iff (h : p.Sound) : p.Full ↔ p.len = PIPESIZE :=
  RingBuffer.full_iff (by decide) h

theorem Pipe.Sound.empty_iff (h : p.Sound) : p.nread = p.nwrite ↔ p.len = 0 :=
  RingBuffer.empty_iff h

theorem Pipe.Sound.put (h : p.Sound) (hfull : ¬ p.Full) (c : UInt8) :
    (p.put c).Sound ∧ (p.put c).len = p.len + 1 ∧ (p.put c).buffered = p.buffered ++ [c] := by
  have hc : p.count (2 ^ 32) ≠ PIPESIZE := fun hc => hfull (h.full_iff.mpr hc)
  exact ⟨RingBuffer.Ok.push (by decide) h hc c, RingBuffer.count_push (by decide) h hc c,
    RingBuffer.contents_push (by decide) pipesize_dvd h hc c⟩

theorem Pipe.Sound.get (h : p.Sound) (hne : p.nread ≠ p.nwrite) :
    p.get.Sound ∧ p.get.len = p.len - 1 ∧ p.buffered = p.head PIPESIZE :: p.get.buffered := by
  have hc : p.count (2 ^ 32) ≠ 0 := fun hc => hne (h.empty_iff.mpr hc)
  exact ⟨RingBuffer.Ok.pop (by decide) h hc, RingBuffer.count_pop h hc,
    RingBuffer.contents_pop pipesize_dvd h hc⟩

/-- A round of the loop that stores a byte, when `l` bytes are in the pipe. -/
theorem round_index {j l' : Nat} (hlt : l < PIPESIZE) (hj : j = i + 1 + min r (PIPESIZE - (l + 1)))
    (hl : l' = l + 1 + (j - (i + 1))) :
    j = i + min (r + 1) (PIPESIZE - l) ∧ l' = l + (j - i) ∧ j - i = j - (i + 1) + 1 ∧
      (r ≤ PIPESIZE - (l + 1) ↔ r + 1 ≤ PIPESIZE - l) := by
  omega

/-- What a critical section of `pipewrite` does that has `r` bytes to write from index `i` on. -/
structure Wrote (killed : Bool) (addr : Nat → UInt8) (r i : Nat) (p p' : Pipe) (j : Nat)
    (ex : WriteExit) (bs : List UInt8) : Prop where
  sound     : p'.Sound
  nread     : p'.nread = p.nread
  readopen  : p'.readopen = p.readopen
  writeopen : p'.writeopen = p.writeopen
  index     : j = i + min r (PIPESIZE - p.len)
  len       : p'.len = p.len + (j - i)
  exit      : ex = if r ≤ PIPESIZE - p.len then .done
    else if p.readopen = false ∨ killed = true then .fail else .sleep
  bytes     : bs = (List.range (j - i)).map fun m => addr (i + m)
  buffered  : p'.buffered = p.buffered ++ bs

theorem writeLoop_spec {killed : Bool} {ex : WriteExit} (r : Nat) :
    ∀ {i j : Nat} {p p' : Pipe} {bs : List UInt8}, p.Sound →
      writeLoop killed addr r i p = (p', j, ex, bs) → Wrote killed addr r i p p' j ex bs := by
  induction r with
  | zero =>
    intro i j p p' bs h hw
    obtain ⟨rfl, rfl, rfl, rfl⟩ : p = p' ∧ i = j ∧ .done = ex ∧ [] = bs := by
      simpa [writeLoop] using hw
    exact ⟨h, rfl, rfl, rfl, by simp, by simp, by simp, by simp, by simp⟩
  | succ r ih =>
    intro i j p p' bs h hw
    rw [writeLoop] at hw
    by_cases hfull : p.Full
    · have hlen := h.full_iff.mp hfull
      rw [if_pos hfull] at hw
      obtain ⟨rfl, rfl, rfl, rfl⟩ : p = p' ∧ i = j ∧
          (if p.readopen = false ∨ killed = true then .fail else .sleep) = ex ∧ [] = bs := by
        simpa using hw
      exact ⟨h, rfl, rfl, rfl, by simp [hlen], by simp, by simp [hlen], by simp, by simp⟩
    · obtain ⟨hput, hlen, hbuf⟩ := h.put hfull (addr i)
      have hlt : p.len < PIPESIZE := Nat.lt_of_le_of_ne h.len_le fun hc => hfull (h.full_iff.mpr hc)
      rw [if_neg hfull] at hw
      rcases hw1 : writeLoop killed addr r (i + 1) (p.put (addr i)) with ⟨p1, j1, ex1, bs1⟩
      rw [hw1] at hw
      obtain ⟨rfl, rfl, rfl, rfl⟩ : p1 = p' ∧ j1 = j ∧ ex1 = ex ∧ addr i :: bs1 = bs := by
        simpa using hw
      obtain ⟨hs, hnr, hro, hwo, hj, hl, hex, hbs, hb⟩ := ih hput hw1
      rw [hlen] at hj hl hex
      obtain ⟨hj', hl', hsub, hdone⟩ := round_index hlt hj hl
      refine ⟨hs, hnr, hro, hwo, hj', hl', ?_, ?_, ?_⟩
      · rw [hex]
        exact if_congr hdone rfl rfl
      · rw [hbs, hsub, range_succ_eq_map, map_cons, map_map]
        congr 1
        refine map_congr_left fun m _ => ?_
        show addr (i + 1 + m) = addr (i + (m + 1))
        rw [add_assoc, add_comm 1 m]
      · rw [hb, hbuf, append_assoc, singleton_append]

/-- What the copying loop of `piperead` does. -/
structure Fetched (r : Nat) (p p' : Pipe) (bs : List UInt8) : Prop where
  sound     : p'.Sound
  nwrite    : p'.nwrite = p.nwrite
  readopen  : p'.readopen = p.readopen
  writeopen : p'.writeopen = p.writeopen
  length    : bs.length = min r p.len
  buffered  : p.buffered = bs ++ p'.buffered

theorem min_pred (h : 0 < l) : min r (l - 1) + 1 = min (r + 1) l := by
  omega

theorem readLoop_spec (r : Nat) : ∀ {p p' : Pipe} {bs : List UInt8}, p.Sound →
    readLoop r p = (p', bs) → Fetched r p p' bs := by
  induction r with
  | zero =>
    intro p p' bs h hr
    obtain ⟨rfl, rfl⟩ : p = p' ∧ [] = bs := by simpa [readLoop] using hr
    exact ⟨h, rfl, rfl, rfl, (Nat.zero_min _).symm, (nil_append _).symm⟩
  | succ r ih =>
    intro p p' bs h hr
    rw [readLoop] at hr
    by_cases hempty : p.nread = p.nwrite
    · rw [if_pos hempty] at hr
      obtain ⟨rfl, rfl⟩ : p = p' ∧ [] = bs := by simpa using hr
      refine ⟨h, rfl, rfl, rfl, ?_, (nil_append _).symm⟩
      rw [h.empty_iff.mp hempty]
      exact (Nat.min_zero _).symm
    · obtain ⟨hget, hlen, hbuf⟩ := h.get hempty
      have hpos : 0 < p.len := Nat.pos_of_ne_zero fun hc => hempty (h.empty_iff.mpr hc)
      rw [if_neg hempty] at hr
      rcases hr1 : readLoop r p.get with ⟨p1, bs1⟩
      rw [hr1] at hr
      obtain ⟨rfl, rfl⟩ : p1 = p' ∧ p.head PIPESIZE :: bs1 = bs := by simpa using hr
      obtain ⟨hs, hnw, hro, hwo, hl, hb⟩ := ih hget hr1
      refine ⟨hs, hnw, hro, hwo, ?_, ?_⟩
      · rw [length_cons, hl, hlen]
        exact min_pred hpos
      · rw [hbuf, hb, cons_append]

/-! ## First in, first out -/

/-- The call of `pipewrite` that a process is in. -/
def Pc.writes : Pc → Option ((Nat → UInt8) × Int × Nat)
  | .wsleep addr n i | .wready addr n i => some (addr, n, i)
  | _ => none

@[simp] theorem writes_wakeRead (pc : Pc) : pc.wakeRead.writes = pc.writes := by
  cases pc <;> rfl

@[simp] theorem writes_wakeWrite (pc : Pc) : pc.wakeWrite.writes = pc.writes := by
  cases pc <;> rfl

/-- What a call stored is a first part of its buffer, and all of it if the call
    returns with success. -/
structure Call.Ok (c : Call) : Prop where
  first : ∃ m ≤ c.n.toNat, c.bytes = (List.range m).map c.addr
  all   : ∀ r, c.result = some r → 0 ≤ r → r = c.n ∧ c.bytes.length = c.n.toNat

/-- The invariant of the queue. -/
structure Fifo (s : State P) : Prop where
  sound : s.pipe.Sound
  order : s.stored = s.fetched ++ s.pipe.buffered
  calls : ∀ q c, s.call q = some c → c.Ok
  going : ∀ q addr n i, (s.pc q).writes = some (addr, n, i) →
    i ≤ n.toNat ∧ s.call q = some ⟨addr, n, (List.range i).map addr, none⟩

omit [DecidableEq P] in
/-- A step that leaves the calls alone. -/
theorem Fifo.keep (h : Fifo s) (hsound : s'.pipe.Sound)
    (horder : s'.stored = s'.fetched ++ s'.pipe.buffered) (hcall : s'.call = s.call)
    (hpc : ∀ q, (s'.pc q).writes = none ∨ (s'.pc q).writes = (s.pc q).writes) : Fifo s' := by
  refine ⟨hsound, horder, fun q c hc => h.calls q c (by rwa [← hcall]), fun q addr n i hw => ?_⟩
  rcases hpc q with hno | heq
  · rw [hno] at hw
    cases hw
  · rw [hcall]
    exact h.going q addr n i (by rwa [← heq])

theorem range_map_append (addr : Nat → UInt8) (i m : Nat) :
    (range i).map addr ++ (range m).map (fun l => addr (i + l)) =
      (range (i + m)).map addr := by
  rw [range_add, map_append, map_map]
  rfl

theorem Fifo.record (h : Fifo s) {c : Call} (hsound : s'.pipe.Sound)
    (horder : s'.stored = s'.fetched ++ s'.pipe.buffered)
    (hcall : s'.call = update s.call q (some c)) (hc : c.Ok)
    (hpc : ∀ x, x ≠ q → (s'.pc x).writes = (s.pc x).writes)
    (hq : ∀ addr n i, (s'.pc q).writes = some (addr, n, i) →
      i ≤ n.toNat ∧ c = ⟨addr, n, (range i).map addr, none⟩) : Fifo s' := by
  refine ⟨hsound, horder, fun x c' hx => ?_, fun x addr n i hw => ?_⟩
  · rw [hcall] at hx
    by_cases hxq : x = q
    · subst hxq
      rw [update_self] at hx
      exact Option.some.inj hx ▸ hc
    · rw [update_of_ne hxq] at hx
      exact h.calls x c' hx
  · rw [hcall]
    by_cases hxq : x = q
    · subst hxq
      rw [update_self]
      obtain ⟨hi, rfl⟩ := hq addr n i hw
      exact ⟨hi, rfl⟩
    · rw [update_of_ne hxq]
      exact h.going x addr n i (by rwa [← hpc x hxq])

theorem pipewrite_fifo (h : Fifo s) {n : Int} (hi : i ≤ n.toNat) :
    Fifo (pipewrite s q addr n i ((range i).map addr)) := by
  rcases hw : writeLoop (s.killed q) addr (n.toNat - i) i s.pipe with ⟨p, j, ex, new⟩
  obtain ⟨hs, -, -, -, hj, -, hex, hnew, hbuf⟩ := writeLoop_spec _ h.sound hw
  have hij : i ≤ j ∧ j ≤ n.toNat ∧ i + (j - i) = j := by omega
  -- what the call has stored now
  have hbytes : (range i).map addr ++ new = (range j).map addr := by
    rw [hnew, range_map_append, hij.2.2]
  have horder : s.stored ++ new = s.fetched ++ p.buffered := by
    rw [hbuf, h.order, append_assoc]
  unfold pipewrite
  rw [hw]
  dsimp only
  rw [hbytes]
  cases ex with
  | done =>
    -- everything fitted
    have hall : j = n.toNat := by
      split at hex
      · omega
      · split at hex <;> cases hex
    refine h.record hs horder rfl ⟨⟨j, hij.2.1, rfl⟩, fun r hr _ => ?_⟩ (fun x hx => ?_)
      fun addr' n' i' hw' => ?_
    · cases hr
      exact ⟨rfl, by simp [hall]⟩
    · simp [hx]
    · simp [Pc.writes, Pc.wakeRead] at hw'
  | fail =>
    refine h.record hs horder rfl ⟨⟨j, hij.2.1, rfl⟩, fun r hr h0 => ?_⟩ (fun x hx => ?_)
      fun addr' n' i' hw' => ?_
    · cases hr
      omega
    · simp [hx]
    · simp [Pc.writes] at hw'
  | sleep =>
    refine h.record hs horder rfl ⟨⟨j, hij.2.1, rfl⟩, fun r hr => by cases hr⟩ (fun x hx => ?_)
      fun addr' n' i' hw' => ?_
    · simp [hx]
    · obtain ⟨rfl, rfl, rfl⟩ : addr = addr' ∧ n = n' ∧ j = i' := by simpa [Pc.writes] using hw'
      exact ⟨hij.2.1, rfl⟩

theorem piperead_fifo (h : Fifo s) (q : P) (n : Int) : Fifo (piperead s q n) := by
  have hq : ∀ pc : Pc, pc.writes = none → ∀ x, (update s.pc q pc x).writes = none ∨
      (update s.pc q pc x).writes = (s.pc x).writes := by
    intro pc hpc x
    by_cases hx : x = q
    · subst hx
      exact .inl (by simpa using hpc)
    · exact .inr (by simp [hx])
  unfold piperead
  split
  · split
    · exact h.keep h.sound h.order rfl (hq .out rfl)
    · exact h.keep h.sound h.order rfl (hq (.rsleep n) rfl)
  · rcases hr : readLoop n.toNat s.pipe with ⟨p, bs⟩
    obtain ⟨hs, -, -, -, -, hbuf⟩ := readLoop_spec _ h.sound hr
    refine h.keep hs ?_ rfl fun x => ?_
    · show s.stored = s.fetched ++ bs ++ p.buffered
      rw [h.order, hbuf, append_assoc]
    · simpa using hq .out rfl x

theorem step_fifo {e : Event P} (h : Fifo s) (hs : step s e = some s') : Fifo s' := by
  unfold step at hs
  split at hs
  · cases hs
  cases e with
  | pipewrite q addr n =>
    dsimp only at hs
    split at hs
    · cases hs
      exact pipewrite_fifo h (i := 0) (Nat.zero_le _)
    · cases hs
  | piperead q n =>
    dsimp only at hs
    split at hs
    · cases hs
      exact piperead_fifo h q n
    · cases hs
  | resume q =>
    dsimp only at hs
    split at hs
    · next addr n i hpc =>
      cases hs
      obtain ⟨hi, hcall⟩ := h.going q addr n i (by rw [hpc]; rfl)
      have hb : s.bytes q = (range i).map addr := by
        unfold State.bytes
        rw [hcall]
      rw [hb]
      exact pipewrite_fifo h hi
    · cases hs
      exact piperead_fifo h q _
    · cases hs
  | pipeclose writable =>
    cases hs
    unfold pipeclose
    split
    · exact h.keep h.sound h.order rfl fun q => .inr (writes_wakeRead _)
    · exact h.keep h.sound h.order rfl fun q => .inr (writes_wakeWrite _)
  | kill q =>
    cases hs
    refine h.keep h.sound h.order rfl fun x => .inr ?_
    by_cases hx : x = q
    · subst hx
      simp [kill]
    · simp [kill, hx]
  | killAwake q =>
    dsimp only at hs
    split at hs
    · cases hs
      exact h.keep h.sound h.order rfl fun _ => .inr rfl
    · cases hs
      exact h.keep h.sound h.order rfl fun _ => .inr rfl
    · cases hs

theorem reachable_fifo (h : (system P).Reachable s) : Fifo s := by
  refine System.invariant (I := Fifo) ?_ (fun s e s' hs hstep => step_fifo hs hstep) h
  rintro s ⟨data, rfl⟩
  refine ⟨⟨by simp [alloc], by simp [alloc], by simp [alloc, RingBuffer.count]⟩, ?_,
    fun q c hc => ?_, fun q addr n i hw => ?_⟩
  · simp [alloc, Pipe.buffered, RingBuffer.contents, RingBuffer.count]
  · cases hc
  · cases hw

/-- A pipe is a queue of at most `PIPESIZE` bytes, whatever its counters went
    through: what was read and what is still in the pipe is what was written,
    in order, and each write stored a first part of its buffer. -/
theorem pipe_fifo {s : State P} (h : (system P).Reachable s) :
    (s.pipe.nwrite + 2 ^ 32 - s.pipe.nread) % 2 ^ 32 ≤ PIPESIZE ∧
    s.stored = s.fetched ++
      (List.range ((s.pipe.nwrite + 2 ^ 32 - s.pipe.nread) % 2 ^ 32)).map
        (fun m => s.pipe.data ((s.pipe.nread + m) % PIPESIZE)) ∧
    ∀ q c, s.call q = some c → (∃ m ≤ c.n.toNat, c.bytes = (List.range m).map c.addr) ∧
      ∀ r, c.result = some r → 0 ≤ r → r = c.n ∧ c.bytes.length = c.n.toNat := by
  have hf := reachable_fifo h
  exact ⟨hf.sound.count, hf.order, fun q c hc => ⟨(hf.calls q c hc).first, (hf.calls q c hc).all⟩⟩

/-- Process 0 writes two bytes, process 1 reads one. -/
def writeThenRead : List (Event (Fin 2)) :=
  [.pipewrite 0 (fun i => UInt8.ofNat (97 + i)) 2, .piperead 1 1]

theorem pipe_fifo_writeThenRead : ∃ s, (system (Fin 2)).Reachable s ∧ s.stored = [97, 98] ∧
    s.fetched = [97] ∧ (s.pipe.nwrite + 2 ^ 32 - s.pipe.nread) % 2 ^ 32 ≤ PIPESIZE := by
  obtain ⟨s, hs, h1, h2⟩ : ∃ s, System.replay step (alloc fun _ => 0) writeThenRead = some s ∧
      s.stored = [97, 98] ∧ s.fetched = [97] := ⟨_, rfl, rfl, rfl⟩
  have hreach : (system (Fin 2)).Reachable s := ⟨_, _, ⟨_, rfl⟩, System.run_of_replay hs⟩
  exact ⟨s, hreach, h1, h2, (pipe_fifo hreach).1⟩

end Xv6.Ipc
