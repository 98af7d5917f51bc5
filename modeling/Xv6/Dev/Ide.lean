import Mathlib.Data.Fintype.Card
import Xv6.Bio.Cache
import Xv6.Framework.Chain
import Xv6.Framework.System

/-! # The disk driver

    `iderw`, `idestart` and `ideintr` of `ide.c` as steps of any number of processes `P`, the
    interrupt handler and the controller. A step of the driver is a critical section under
    `idelock`: from `acquire`, or from the return of `sleep`, to the next `sleep` or `release`.
    Around it the processes use the buffer cache: they get buffers from `bget`, change what they
    hold, and give it back with `brelse`.

    The controller works on the command it was given last, raises an interrupt when it has finished,
    and makes no error.

    The state remembers what no code reads: who holds a buffer, and the buffers in the order in
    which they were queued, issued and completed.
-/

namespace Xv6.Ide

open LTS Bio Function List

/-! ## Model -/

/-- A command as `idestart` writes it to the ports `0x1f2` to `0x1f7`; `data`
    is what `outsl` sends with a write. -/
structure Cmd where
  count : Nat
  sec   : Nat
  low   : Nat
  high  : Nat
  head  : Nat
  data  : Option Block

/-- The drive and the sector the controller makes of the ports. -/
def Cmd.drive (c : Cmd) : Nat := c.head / 16 % 2
def Cmd.sector (c : Cmd) : Nat := c.sec + 2 ^ 8 * c.low + 2 ^ 16 * c.high + 2 ^ 24 * (c.head % 16)

/-- The command of `idestart`. A block is one sector. -/
def Cmd.of (b : Buf) : Cmd where
  count := 1
  sec := b.blockno % 2 ^ 8
  low := b.blockno / 2 ^ 8 % 2 ^ 8
  high := b.blockno / 2 ^ 16 % 2 ^ 8
  head := 0xe0 + b.dev % 2 * 16 + b.blockno / 2 ^ 24 % 16
  data := if b.dirty then some b.data else none

inductive Controller where
  | idle
  | busy (c : Cmd)
  /-- The command is done, the interrupt has not been handled; `insl` would
      read this block. -/
  | done (c : Cmd) (block : Block)

/-- What `insl` reads. -/
def Controller.block : Controller → Block
  | .done _ x => x
  | _ => .fill 0

/-- `idewait(0)` would loop. -/
def Controller.isBusy : Controller → Bool
  | .busy _ => true
  | _ => false

/-- Where a process stands. -/
inductive Pc where
  /-- Not in `iderw`. -/
  | out
  /-- In the `sleep` of `iderw(b)`. -/
  | asleep (b : Fin NBUF)
  /-- Woken from it, before the next test. -/
  | woken (b : Fin NBUF)
  deriving DecidableEq

/-- `wakeup(b)`. -/
def Pc.wake (b : Fin NBUF) : Pc → Pc
  | .asleep x => if x = b then .woken x else .asleep x
  | pc => pc

/-- The buffer of the call of `iderw` that a process is in. -/
def Pc.request : Pc → Option (Fin NBUF)
  | .asleep b | .woken b => some b
  | .out => none

structure State (P : Type) where
  cache     : Cache
  idequeue  : Chain (Fin NBUF)
  havedisk1 : Bool
  ctl       : Controller
  disk      : Nat → Nat → Block
  pc        : P → Pc
  panicked  : Bool
  holder    : Fin NBUF → Option P
  queued    : List (Fin NBUF)
  issued    : List (Fin NBUF)
  completed : List (Fin NBUF)

inductive Event (P : Type) where
  /-- `bget` returns a buffer to `q`. -/
  | bget (q : P) (dev blockno : Nat)
  /-- The holder writes into `b->data`. -/
  | store (q : P) (b : Fin NBUF) (data : Block)
  /-- `b->flags |= B_DIRTY`, in `bwrite` and `log_write`. -/
  | dirty (q : P) (b : Fin NBUF)
  | brelse (q : P) (b : Fin NBUF)
  | iderw (q : P) (b : Fin NBUF)
  /-- A process that was woken goes on. -/
  | resume (q : P)
  /-- `kill` makes a sleeping process runnable. -/
  | kill (q : P)
  /-- The controller finishes its command. -/
  | complete
  | ideintr

/-- `(b->flags & (B_VALID|B_DIRTY)) == B_VALID`. -/
def Buf.synced (b : Buf) : Bool := b.valid && !b.dirty

variable {P : Type}

def State.buf (s : State P) (b : Fin NBUF) : Buf := s.cache.buf b

/-- `idestart(b)`. It waits as long as the controller is busy. -/
def idestart (s : State P) (b : Fin NBUF) : Option (State P) :=
  if FSSIZE ≤ (s.buf b).blockno then some { s with panicked := true }
  else if s.ctl.isBusy then none
  else some { s with ctl := .busy (.of (s.buf b)), issued := s.issued ++ [b] }

section Model

variable [DecidableEq P]

/-- The loop at the end of `iderw`. -/
def await (s : State P) (q : P) (b : Fin NBUF) : State P :=
  { s with pc := update s.pc q (if Buf.synced (s.buf b) then .out else .asleep b) }

/-- `b` is the last of the queue `c`. -/
def State.enqueue (s : State P) (c : Chain (Fin NBUF)) (b : Fin NBUF) : State P :=
  { s with idequeue := c, queued := s.queued ++ [b] }

/-- `iderw(b)` up to its first `sleep`. -/
def iderw (s : State P) (q : P) (b : Fin NBUF) : Option (State P) :=
  if (s.buf b).busy = false ∨ Buf.synced (s.buf b) = true ∨
      ((s.buf b).dev ≠ 0 ∧ s.havedisk1 = false) then
    some { s with panicked := true }
  else
    (s.idequeue.append (NBUF + 1) b).bind fun c =>
      let s := s.enqueue c b
      let started := if s.idequeue.first = some b then idestart s b else some s
      started.map fun s => if s.panicked then s else await s q b

/-- The data that was read, if any, is copied, and the flags are set. -/
def finished (s : State P) (b : Fin NBUF) : Buf :=
  { (if (s.buf b).dirty then s.buf b else { s.buf b with data := s.ctl.block }) with
    valid := true, dirty := false }

/-- `ideintr` up to the start of the next request, when `b` is the first. -/
def State.dequeue (s : State P) (b : Fin NBUF) : State P :=
  { s with
    idequeue := s.idequeue.pop
    cache := s.cache.set b (finished s b)
    pc := fun q => (s.pc q).wake b
    ctl := .idle
    completed := s.completed ++ [b] }

def ideintr (s : State P) : Option (State P) :=
  match s.idequeue.first with
  | none => some { s with ctl := .idle }
  | some b =>
      let s := s.dequeue b
      match s.idequeue.first with
      | none => some s
      | some b' => idestart s b'

/-- The controller carries out the command. -/
def complete (s : State P) : Option (State P) :=
  match s.ctl with
  | .busy c =>
      match c.data with
      | some x => some { s with
          ctl := .done c x
          disk := update s.disk c.drive (update (s.disk c.drive) c.sector x) }
      | none => some { s with ctl := .done c (s.disk c.drive c.sector) }
  | _ => none

/-- `q` holds `b` and is not in `iderw`. -/
def State.Has (s : State P) (q : P) (b : Fin NBUF) : Prop := s.pc q = .out ∧ s.holder b = some q

instance (s : State P) (q : P) (b : Fin NBUF) : Decidable (s.Has q b) :=
  inferInstanceAs (Decidable (_ ∧ _))

/-- One step. A `panic` stops the system. -/
def step (s : State P) (e : Event P) : Option (State P) :=
  if s.panicked then none
  else
    match e with
    | .bget q dev blockno =>
        -- the two drives of the controller
        if s.pc q = .out ∧ dev < 2 then
          match bget s.cache dev blockno with
          | .got b c => some { s with cache := c, holder := update s.holder b (some q) }
          | .sleep _ => none
          | .panic => some { s with panicked := true }
        else none
    | .store q b data =>
        if s.Has q b then some { s with cache := s.cache.set b { s.buf b with data := data } }
        else none
    | .dirty q b =>
        if s.Has q b then some { s with cache := s.cache.set b { s.buf b with dirty := true } }
        else none
    | .brelse q b =>
        if s.Has q b then
          some { s with cache := brelse s.cache b, holder := update s.holder b none }
        else none
    | .iderw q b => if s.Has q b then iderw s q b else none
    | .resume q =>
        match s.pc q with
        | .woken b => some (await s q b)
        | _ => none
    | .kill q =>
        match s.pc q with
        | .asleep b => some { s with pc := update s.pc q (.woken b) }
        | _ => none
    | .complete => complete s
    | .ideintr => if s.ctl.isBusy then none else ideintr s

/-- After `binit` and `ideinit`. -/
def boot (havedisk1 : Bool) (disk : Nat → Nat → Block) (next : Fin NBUF → Option (Fin NBUF)) :
    State P where
  cache := binit
  idequeue := ⟨none, next⟩
  havedisk1 := havedisk1
  ctl := .idle
  disk := disk
  pc := fun _ => .out
  panicked := false
  holder := fun _ => none
  queued := []
  issued := []
  completed := []

variable (P) in
def system : System (State P) (Event P) :=
  System.ofStep (fun s => ∃ havedisk1 disk next, s = boot havedisk1 disk next) step

end Model

/-! ## The invariant -/

theorem cmd_place {x : Buf} (hdev : x.dev < 2) (hno : x.blockno < FSSIZE) :
    (Cmd.of x).drive = x.dev ∧ (Cmd.of x).sector = x.blockno := by
  simp only [FSSIZE] at hno
  constructor
  · show (0xe0 + x.dev % 2 * 16 + x.blockno / 2 ^ 24 % 16) / 16 % 2 = x.dev
    omega
  · show x.blockno % 2 ^ 8 + 2 ^ 8 * (x.blockno / 2 ^ 8 % 2 ^ 8) +
      2 ^ 16 * (x.blockno / 2 ^ 16 % 2 ^ 8) +
      2 ^ 24 * ((0xe0 + x.dev % 2 * 16 + x.blockno / 2 ^ 24 % 16) % 16) = x.blockno
    omega

/-- What the processes see of the cache: a busy buffer has a holder, and no two
    buffers are for one block. -/
structure Held (s : State P) : Prop where
  linked : s.cache.Linked
  busy   : ∀ b, (s.buf b).busy = (s.holder b).isSome
  dev    : ∀ b, (s.buf b).dev < 2 ∨ (s.buf b).busy = false
  uniq   : ∀ b x, (s.buf b).dev < 2 → (s.buf b).dev = (s.buf x).dev →
    (s.buf b).blockno = (s.buf x).blockno → b = x

/-- The controller works on the request for `b`, or has done so. -/
structure Working (s : State P) (b : Fin NBUF) : Prop where
  blockno : (s.buf b).blockno < FSSIZE
  ctl     : s.ctl = .busy (.of (s.buf b)) ∨ ∃ x, s.ctl = .done (.of (s.buf b)) x ∧
    s.disk (s.buf b).dev (s.buf b).blockno = x ∧ ((s.buf b).dirty = true → x = (s.buf b).data)

/-- The queue is `l`. It has the requests that are not complete, in order, and the controller works
    on the first. -/
structure Queued (s : State P) (l : List (Fin NBUF)) : Prop where
  chain  : s.idequeue.Is l
  mem    : ∀ b, b ∈ l ↔ ∃ q, (s.pc q).request = some b ∧ Buf.synced (s.buf b) = false
  asleep : ∀ q b, s.pc q = .asleep b → Buf.synced (s.buf b) = false
  held   : ∀ q b, (s.pc q).request = some b → s.holder b = some q
  queued : s.queued = s.completed ++ l
  issued : s.issued = s.completed ++ l.take 1
  idle   : l = [] → s.ctl = .idle
  work   : ∀ b ∈ l.head?, Working s b
  data   : ∀ q b, (s.pc q).request = some b → Buf.synced (s.buf b) = true →
    (s.buf b).data = s.disk (s.buf b).dev (s.buf b).blockno

section Steps

variable {s s' : State P} {l issued : List (Fin NBUF)} {q : P} {b : Fin NBUF} {pc : Pc}
  {ctl : Controller}

theorem request_asleep (h : pc = .asleep b) : pc.request = some b := by
  rw [h]
  rfl

/-! ### Steps outside the driver -/

theorem Queued.outside (h : Queued s l) (hb : ∀ q, (s.pc q).request ≠ some b)
    (hbuf : ∀ x, x ≠ b → s'.buf x = s.buf x) (hholder : ∀ x, x ≠ b → s'.holder x = s.holder x)
    (hqueue : s'.idequeue = s.idequeue) (hctl : s'.ctl = s.ctl) (hdisk : s'.disk = s.disk)
    (hpc : s'.pc = s.pc) (hlogs : s'.queued = s.queued ∧ s'.issued = s.issued ∧
      s'.completed = s.completed) : Queued s' l := by
  obtain ⟨hq, hi, hc⟩ := hlogs
  have hbuf' : ∀ q x, (s.pc q).request = some x → s'.buf x = s.buf x := by
    intro q x hx
    apply hbuf
    rintro rfl
    exact hb q hx
  have hmem : ∀ x ∈ l, s'.buf x = s.buf x := by
    intro x hx
    obtain ⟨q, hq, -⟩ := (h.mem x).mp hx
    exact hbuf' q x hq
  refine ⟨hqueue ▸ h.chain, fun x => ?_, fun q x hx => ?_, fun q x hx => ?_, ?_, ?_, ?_, ?_, ?_⟩
  · rw [h.mem, hpc]
    refine exists_congr fun q => and_congr_right fun hx => ?_
    rw [hbuf' q x hx]
  · rw [hpc] at hx
    rw [hbuf' q x (request_asleep hx)]
    exact h.asleep q x hx
  · rw [hpc] at hx
    rw [hholder x (by rintro rfl; exact hb q hx)]
    exact h.held q x hx
  · rw [hq, hc]
    exact h.queued
  · rw [hi, hc]
    exact h.issued
  · rw [hctl]
    exact h.idle
  · intro x hx
    have hsame := hmem x (mem_of_mem_head? hx)
    obtain ⟨hno, hwork⟩ := h.work x hx
    refine ⟨hsame ▸ hno, ?_⟩
    rw [hsame, hctl, hdisk]
    exact hwork
  · intro q x hx hs
    rw [hpc] at hx
    rw [hbuf' q x hx] at hs ⊢
    rw [hdisk]
    exact h.data q x hx hs

/-- The holder of a buffer is the only one that can have a request for it. -/
theorem Queued.not_requested (h : Queued s l) (hhas : s.Has q b) (x : P) :
    (s.pc x).request ≠ some b := by
  intro hx
  cases (h.held x b hx).symm.trans hhas.2
  rw [hhas.1] at hx
  cases hx

/-- A step on one buffer; no other is for its block then. -/
theorem Held.set (h : Held s) (hlinked : s'.cache.Linked)
    (hbuf : ∀ x, x ≠ b → s'.buf x = s.buf x ∧ s'.holder x = s.holder x)
    (hbusy : (s'.buf b).busy = (s'.holder b).isSome)
    (hdev : (s'.buf b).dev < 2 ∨ (s'.buf b).busy = false)
    (huniq : ∀ x, x ≠ b → (s.buf x).dev < 2 → (s.buf x).dev = (s'.buf b).dev →
      (s.buf x).blockno ≠ (s'.buf b).blockno) : Held s' := by
  refine ⟨hlinked, fun x => ?_, fun x => ?_, fun x y hx hd hn => ?_⟩
  · by_cases hx : x = b
    · exact hx ▸ hbusy
    · rw [(hbuf x hx).1, (hbuf x hx).2]
      exact h.busy x
  · by_cases hx : x = b
    · exact hx ▸ hdev
    · rw [(hbuf x hx).1]
      exact h.dev x
  · by_cases hxb : x = b <;> by_cases hyb : y = b
    · rw [hxb, hyb]
    · rw [hxb] at hx hd hn
      rw [(hbuf y hyb).1] at hd hn
      exact absurd hn.symm (huniq y hyb (hd ▸ hx) hd.symm)
    · rw [hyb] at hd hn
      rw [(hbuf x hxb).1] at hx hd hn
      exact absurd hn (huniq x hxb hx hd)
    · rw [(hbuf x hxb).1] at hx hd hn
      rw [(hbuf y hyb).1] at hd hn
      exact h.uniq x y hx hd hn

/-- A step on one buffer that keeps its block. -/
theorem Held.keep (h : Held s) (hlinked : s'.cache.Linked)
    (hbuf : ∀ x, x ≠ b → s'.buf x = s.buf x ∧ s'.holder x = s.holder x)
    (hdev : (s'.buf b).dev = (s.buf b).dev) (hno : (s'.buf b).blockno = (s.buf b).blockno)
    (hbusy : (s'.buf b).busy = (s'.holder b).isSome)
    (hfree : (s.buf b).busy = false → (s'.buf b).busy = false) : Held s' := by
  refine h.set hlinked hbuf hbusy ?_ fun x hx hlt hd hn => ?_
  · rw [hdev]
    exact (h.dev b).imp_right hfree
  · exact hx (h.uniq x b hlt (hd.trans hdev) (hn.trans hno))

theorem buf_set_self (c : Cache) (b : Fin NBUF) (y : Buf) : (c.set b y).buf b = y :=
  update_self ..

theorem buf_set_of_ne {x : Fin NBUF} (c : Cache) (y : Buf) (hx : x ≠ b) :
    (c.set b y).buf x = c.buf x := update_of_ne hx ..

/-- The holder changes the data or the flags of its buffer. -/
theorem has_step (hh : Held s) (hq : Queued s l) (hhas : s.Has q b) {y : Buf}
    (hdev : y.dev = (s.buf b).dev) (hno : y.blockno = (s.buf b).blockno)
    (hbusy : y.busy = (s.buf b).busy) :
    Held { s with cache := s.cache.set b y } ∧ Queued { s with cache := s.cache.set b y } l := by
  have hself : ({ s with cache := s.cache.set b y } : State P).buf b = y := buf_set_self ..
  constructor
  · refine hh.keep (b := b) hh.linked (fun x hx => ⟨buf_set_of_ne _ _ hx, rfl⟩) ?_ ?_ ?_ ?_
    all_goals rw [hself]
    · exact hdev
    · exact hno
    · rw [hbusy]
      exact hh.busy b
    · rw [hbusy]
      exact id
  · exact hq.outside (hq.not_requested hhas) (fun x hx => buf_set_of_ne _ _ hx) (fun x _ => rfl)
      rfl rfl rfl rfl ⟨rfl, rfl, rfl⟩

theorem brelse_step (hh : Held s) (hq : Queued s l) (hhas : s.Has q b) :
    Held { s with cache := brelse s.cache b, holder := update s.holder b none } ∧
    Queued { s with cache := brelse s.cache b, holder := update s.holder b none } l := by
  have hself : (brelse s.cache b).buf b = { s.buf b with busy := false } := update_self ..
  have hother : ∀ x, x ≠ b → (brelse s.cache b).buf x = s.buf x := fun x hx => update_of_ne hx ..
  constructor
  · refine hh.keep (b := b) (hh.linked.brelse b) (fun x hx => ⟨hother x hx, update_of_ne hx ..⟩)
      ?_ ?_ ?_ fun _ => ?_
    all_goals simp only [State.buf, hself]
    rw [update_self]
    rfl
  · exact hq.outside (hq.not_requested hhas) hother (fun x hx => update_of_ne hx ..)
      rfl rfl rfl rfl ⟨rfl, rfl, rfl⟩

theorem bget_step (hh : Held s) (hq : Queued s l) {dev blockno : Nat} {c : Cache} (hdev : dev < 2)
    (hget : bget s.cache dev blockno = .got b c) :
    Held { s with cache := c, holder := update s.holder b (some q) } ∧
    Queued { s with cache := c, holder := update s.holder b (some q) } l := by
  have hlooked := looked_bget hh.linked dev blockno
  rw [hget] at hlooked
  -- either way one buffer changes, which was free and is for the block now
  obtain ⟨y, rfl, hfree, hbusy, hyd, hyn, hmiss⟩ : ∃ y, c = s.cache.set b y ∧
      (s.buf b).busy = false ∧ y.busy = true ∧ y.dev = dev ∧ y.blockno = blockno ∧
      ∀ x, x ≠ b → (s.buf x).dev = dev → (s.buf x).blockno ≠ blockno := by
    cases hlooked with
    | hit hd hn hf =>
      refine ⟨_, rfl, hf, rfl, hd, hn, fun x hx hxd hxn => ?_⟩
      refine hx (hh.uniq x b (hxd ▸ hdev) (hxd.trans hd.symm) (hxn.trans hn.symm))
    | recycle hmiss hf _ => exact ⟨_, rfl, hf, rfl, rfl, rfl, fun x _ => hmiss x⟩
  have hnone : s.holder b = none := by
    have := hh.busy b
    rw [hfree] at this
    exact Option.isSome_eq_false_iff.mp this.symm |> Option.isNone_iff_eq_none.mp
  have hother : ∀ x, x ≠ b → (s.cache.set b y).buf x = s.buf x := fun x hx => buf_set_of_ne _ _ hx
  constructor
  · refine hh.set (b := b) hh.linked (fun x hx => ⟨hother x hx, update_of_ne hx ..⟩) ?_ (.inl ?_)
      fun x hx hlt hd => ?_
    all_goals simp only [State.buf, buf_set_self] at *
    · rw [update_self, hbusy]
      rfl
    · exact hyd ▸ hdev
    · rw [hyn]
      exact hmiss x hx (hd.trans hyd)
  · refine hq.outside (b := b) (fun x hx => ?_) hother (fun x hx => update_of_ne hx ..) rfl rfl rfl
      rfl ⟨rfl, rfl, rfl⟩
    have := hq.held x b hx
    rw [hnone] at this
    cases this

/-! ### Steps of the driver -/

/-- A process wakes up, or returns when its request is complete. -/
theorem Queued.move [DecidableEq P] (h : Queued s l)
    (hold : ∀ b, pc.request = some b → (s.pc q).request = some b)
    (hkeep : ∀ b, (s.pc q).request = some b → Buf.synced (s.buf b) = false → pc.request = some b)
    (hasleep : ∀ b, pc = .asleep b → Buf.synced (s.buf b) = false) :
    Queued { s with pc := update s.pc q pc } l := by
  have hold' : ∀ x b, (update s.pc q pc x).request = some b → (s.pc x).request = some b := by
    intro x b hx
    by_cases hxq : x = q
    · subst hxq
      rw [update_self] at hx
      exact hold b hx
    · rwa [update_of_ne hxq] at hx
  refine ⟨h.chain, fun b => ?_, fun x b hx => ?_, fun x b hx => h.held x b (hold' x b hx), h.queued,
    h.issued, h.idle, fun b hb => ?_, fun x b hx => h.data x b (hold' x b hx)⟩
  · rw [h.mem]
    constructor
    · rintro ⟨x, hx, hs⟩
      refine ⟨x, ?_, hs⟩
      by_cases hxq : x = q
      · subst hxq
        show (update s.pc x pc x).request = _
        rw [update_self]
        exact hkeep b hx hs
      · show (update s.pc q pc x).request = _
        rwa [update_of_ne hxq]
    · rintro ⟨x, hx, hs⟩
      exact ⟨x, hold' x b hx, hs⟩
  · have hx : update s.pc q pc x = .asleep b := hx
    by_cases hxq : x = q
    · subst hxq
      rw [update_self] at hx
      exact hasleep b hx
    · rw [update_of_ne hxq] at hx
      exact h.asleep x b hx
  · obtain ⟨hno, hctl⟩ := h.work b hb
    exact ⟨hno, hctl⟩

/-- A buffer with a request is for a block of a drive. -/
theorem Held.dev_lt (hh : Held s) (h : Queued s l) (hb : (s.pc q).request = some b) :
    (s.buf b).dev < 2 := by
  refine (hh.dev b).resolve_right fun hbusy => ?_
  have := hh.busy b
  rw [hbusy, h.held q b hb] at this
  cases this

/-- The controller finishes: other buffers are for other blocks. -/
theorem complete_step (hh : Held s) (h : Queued s l) (hs : complete s = some s') :
    Held s' ∧ Queued s' l ∧ s'.pc = s.pc ∧ s'.panicked = s.panicked := by
  cases l with
  | nil =>
    rw [complete, h.idle rfl] at hs
    cases hs
  | cons b l =>
    have hw := h.work b rfl
    obtain ⟨p, hp, hunsynced⟩ := (h.mem b).mp mem_cons_self
    obtain ⟨hdrive, hsector⟩ := cmd_place (hh.dev_lt h hp) hw.blockno
    -- the only block of the disk that may change is that of `b`
    obtain ⟨x, disk, rfl, hx, hother, hdirty⟩ : ∃ x disk,
        s' = { s with ctl := .done (.of (s.buf b)) x, disk := disk } ∧
        disk (s.buf b).dev (s.buf b).blockno = x ∧
        (∀ d n, (d, n) ≠ ((s.buf b).dev, (s.buf b).blockno) → disk d n = s.disk d n) ∧
        ((s.buf b).dirty = true → x = (s.buf b).data) := by
      rcases hw.ctl with hctl | ⟨x, hctl, -⟩
      · rw [complete, hctl] at hs
        cases hd : (s.buf b).dirty with
        | true =>
          have hdata : (Cmd.of (s.buf b)).data = some (s.buf b).data := by
            show (if (s.buf b).dirty = true then _ else _) = _
            rw [if_pos hd]
          simp only [hdata] at hs
          cases hs
          refine ⟨(s.buf b).data, _, rfl, ?_, fun d n hne => ?_, fun _ => rfl⟩
          · rw [hdrive, hsector, update_self, update_self]
          · rw [hdrive, hsector]
            by_cases hdd : d = (s.buf b).dev
            · subst hdd
              rw [update_self, update_of_ne fun hn => hne (by rw [hn])]
            · rw [update_of_ne hdd]
        | false =>
          have hdata : (Cmd.of (s.buf b)).data = none := by
            show (if (s.buf b).dirty = true then _ else _) = _
            rw [hd]
            rfl
          simp only [hdata] at hs
          cases hs
          refine ⟨_, s.disk, rfl, ?_, fun _ _ _ => rfl, fun hc => by cases hc⟩
          rw [hdrive, hsector]
      · rw [complete, hctl] at hs
        cases hs
    refine ⟨⟨hh.linked, hh.busy, hh.dev, hh.uniq⟩, ⟨h.chain, h.mem, h.asleep, h.held, h.queued,
      h.issued, fun hc => ?_, fun y hy => ?_, fun y c hy hsync => ?_⟩, rfl, rfl⟩
    · cases hc
    · cases hy
      exact ⟨hw.blockno, .inr ⟨x, rfl, hx, hdirty⟩⟩
    · -- a complete request is not at the head
      have hne : ((s.buf c).dev, (s.buf c).blockno) ≠ ((s.buf b).dev, (s.buf b).blockno) := by
        intro heq
        obtain ⟨hd, hn⟩ := Prod.mk.inj heq
        obtain rfl := hh.uniq c b (hh.dev_lt h hy) hd hn
        have hsync' : Buf.synced (s.buf c) = true := hsync
        rw [hunsynced] at hsync'
        cases hsync'
      exact (h.data y c hy hsync).trans (hother _ _ hne).symm

theorem idestart_panics (hno : FSSIZE ≤ (s.buf b).blockno) :
    idestart s b = some { s with panicked := true } := by
  rw [idestart, if_pos hno]

theorem idestart_issues (hno : (s.buf b).blockno < FSSIZE) (hctl : s.ctl.isBusy = false) :
    idestart s b = some { s with ctl := .busy (.of (s.buf b)), issued := s.issued ++ [b] } := by
  rw [idestart, if_neg (Nat.not_le_of_lt hno), hctl, if_neg Bool.false_ne_true]

variable [DecidableEq P]

theorem await_step (h : Queued s l) (hb : (s.pc q).request = some b) : Queued (await s q b) l := by
  refine h.move (fun y hy => ?_) (fun y hy hs => ?_) (fun y hy => ?_)
  · split at hy
    · cases hy
    · rw [hb]
      exact hy
  · cases hb.symm.trans hy
    rw [hs]
    rfl
  · split at hy
    · cases hy
    · next hs =>
      cases hy
      simpa using hs

theorem kill_step (h : Queued s l) (hb : s.pc q = .asleep b) :
    Queued { s with pc := update s.pc q (.woken b) } l := by
  refine h.move (fun y hy => ?_) (fun y hy _ => ?_) (fun y hy => ?_)
  · rw [hb]
    exact hy
  · rwa [hb] at hy
  · cases hy

/-- A request enters the queue; it is issued if it is the first. -/
theorem Queued.enter (h : Queued s l) (hhas : s.Has q b) (hsync : Buf.synced (s.buf b) = false)
    {c : Chain (Fin NBUF)} (hc : c.Is (l ++ [b]))
    (hact : (l ≠ [] ∧ ctl = s.ctl ∧ issued = s.issued) ∨
      (l = [] ∧ (s.buf b).blockno < FSSIZE ∧ ctl = .busy (.of (s.buf b)) ∧
        issued = s.issued ++ [b])) :
    Queued { s with
      idequeue := c
      queued := s.queued ++ [b]
      ctl := ctl
      issued := issued
      pc := update s.pc q (.asleep b) } (l ++ [b]) := by
  -- the request of `q` is new, the others stay
  have hreq : ∀ x y, (update s.pc q (.asleep b) x).request = some y ↔
      (x = q ∧ y = b) ∨ (x ≠ q ∧ (s.pc x).request = some y) := by
    intro x y
    by_cases hx : x = q
    · subst hx
      rw [update_self]
      simp [Pc.request, eq_comm]
    · rw [update_of_ne hx]
      simp [hx]
  have hout : (s.pc q).request = none := by
    rw [hhas.1]
    rfl
  refine ⟨hc, fun y => ?_, fun x y hx => ?_, fun x y hx => ?_, ?_, ?_, fun hl => ?_, fun y hy => ?_,
    fun x y hx hs => ?_⟩
  · simp only [mem_append, mem_singleton]
    constructor
    · rintro (hy | rfl)
      · obtain ⟨x, hx, hs⟩ := (h.mem y).mp hy
        refine ⟨x, (hreq x y).mpr (.inr ⟨?_, hx⟩), hs⟩
        rintro rfl
        rw [hout] at hx
        cases hx
      · exact ⟨q, (hreq q y).mpr (.inl ⟨rfl, rfl⟩), hsync⟩
    · rintro ⟨x, hx, hs⟩
      rcases (hreq x y).mp hx with ⟨-, rfl⟩ | ⟨-, hx⟩
      · exact .inr rfl
      · exact .inl ((h.mem y).mpr ⟨x, hx, hs⟩)
  · rcases (hreq x y).mp (request_asleep hx) with ⟨-, rfl⟩ | ⟨hne, -⟩
    · exact hsync
    · exact h.asleep x y ((update_of_ne hne _ _).symm.trans hx)
  · rcases (hreq x y).mp hx with ⟨rfl, rfl⟩ | ⟨-, hx⟩
    · exact hhas.2
    · exact h.held x y hx
  · show s.queued ++ [b] = s.completed ++ (l ++ [b])
    rw [h.queued, append_assoc]
  · rcases hact with ⟨hl, -, rfl⟩ | ⟨rfl, -, -, rfl⟩
    · show s.issued = _
      rw [h.issued]
      obtain ⟨y, l, rfl⟩ := exists_cons_of_ne_nil hl
      rfl
    · show s.issued ++ [b] = _
      rw [h.issued]
      simp
  · simp at hl
  · rcases hact with ⟨hl, rfl, -⟩ | ⟨rfl, hno, rfl, -⟩
    · obtain ⟨z, l, rfl⟩ := exists_cons_of_ne_nil hl
      obtain ⟨hno, hctl⟩ := h.work y hy
      exact ⟨hno, hctl⟩
    · cases hy
      exact ⟨hno, .inl rfl⟩
  · rcases (hreq x y).mp hx with ⟨-, rfl⟩ | ⟨-, hx⟩
    · have hs' : Buf.synced (s.buf y) = true := hs
      rw [hsync] at hs'
      cases hs'
    · exact h.data x y hx hs

/-- The end of `iderw` after a start that did not panic. -/
theorem await_asleep (hrun : s.panicked = false) (hsync : Buf.synced (s.buf b) = false) :
    (if s.panicked then s else await s q b) =
      { s with pc := update s.pc q (.asleep b) } := by
  have hgo : ¬ s.panicked = true := by simp [hrun]
  rw [if_neg hgo, await, hsync]
  rfl

/-- `iderw` never waits for the controller: it issues its request only if there is no other. -/
theorem iderw_step (hh : Held s) (h : Queued s l) (hrun : s.panicked = false) (hhas : s.Has q b) :
    ∃ s', iderw s q b = some s' ∧
      ((s'.panicked = true ∧ (Buf.synced (s.buf b) = true ∨
          ((s.buf b).dev ≠ 0 ∧ s.havedisk1 = false) ∨ FSSIZE ≤ (s.buf b).blockno) ∧ s'.pc = s.pc) ∨
        (s'.panicked = false ∧ s'.pc = update s.pc q (.asleep b) ∧ Held s' ∧
          Queued s' (l ++ [b]))) := by
  unfold iderw
  have hbusy : (s.buf b).busy = true := by
    rw [hh.busy, hhas.2]
    rfl
  by_cases hguard : (s.buf b).busy = false ∨ Buf.synced (s.buf b) = true ∨
      ((s.buf b).dev ≠ 0 ∧ s.havedisk1 = false)
  · rw [if_pos hguard]
    refine ⟨_, rfl, .inl ⟨rfl, ?_, rfl⟩⟩
    rcases hguard with hc | hc | hc
    · rw [hbusy] at hc
      cases hc
    · exact .inl hc
    · exact .inr (.inl hc)
  rw [if_neg hguard]
  obtain ⟨-, hsync, -⟩ := not_or.mp hguard |>.imp_right not_or.mp
  have hsync : Buf.synced (s.buf b) = false := by simpa using hsync
  have hbl : b ∉ l := by
    intro hmem
    obtain ⟨x, hx, -⟩ := (h.mem b).mp hmem
    exact h.not_requested hhas x hx
  have hlen : l.length < NBUF + 1 := by
    have hcard := List.Nodup.length_le_card h.chain.nodup
    rw [Fintype.card_fin] at hcard
    exact Nat.lt_succ_of_le hcard
  obtain ⟨c, hc, his⟩ := h.chain.append hbl hlen
  rw [hc]
  dsimp only [Option.bind_some]
  rw [show (s.enqueue c b).idequeue.first = _ from his.first_eq]
  cases l with
  | nil =>
    -- the queue was empty: `b` is issued at once
    rw [nil_append, head?_cons, if_pos rfl]
    rcases lt_or_ge (s.buf b).blockno FSSIZE with hno | hno
    · have hidle : (s.enqueue c b).ctl.isBusy = false := by
        show s.ctl.isBusy = false
        rw [h.idle rfl]
        rfl
      rw [idestart_issues (s := s.enqueue c b) hno hidle]
      refine ⟨_, congrArg some (await_asleep hrun hsync), .inr ?_⟩
      exact ⟨hrun, rfl, ⟨hh.linked, hh.busy, hh.dev, hh.uniq⟩,
        h.enter hhas hsync his (.inr ⟨rfl, hno, rfl, rfl⟩)⟩
    · rw [idestart_panics (s := s.enqueue c b) hno]
      exact ⟨_, rfl, .inl ⟨rfl, .inr (.inr hno), rfl⟩⟩
  | cons y l =>
    have hy : ¬ (y :: l ++ [b]).head? = some b := by
      intro heq
      cases heq
      exact hbl mem_cons_self
    rw [if_neg hy]
    refine ⟨_, congrArg some (await_asleep hrun hsync), .inr ?_⟩
    exact ⟨hrun, rfl, ⟨hh.linked, hh.busy, hh.dev, hh.uniq⟩,
      h.enter hhas hsync his (.inl ⟨cons_ne_nil _ _, rfl, rfl⟩)⟩

omit [DecidableEq P] in
theorem request_wake (pc : Pc) (b : Fin NBUF) : (pc.wake b).request = pc.request := by
  cases pc with
  | asleep x =>
    show (if x = b then Pc.woken x else .asleep x).request = _
    split <;> rfl
  | out | woken x => rfl

omit [DecidableEq P] in
theorem finished_same (s : State P) (b : Fin NBUF) :
    (finished s b).dev = (s.buf b).dev ∧ (finished s b).blockno = (s.buf b).blockno ∧
    (finished s b).busy = (s.buf b).busy ∧ Buf.synced (finished s b) = true := by
  unfold finished
  split <;> exact ⟨rfl, rfl, rfl, rfl⟩

omit [DecidableEq P] in
/-- The first request leaves the queue, and the next one is issued. -/
theorem Queued.leave (h : Queued s (b :: l)) (hidle : s.ctl.isBusy = false)
    (hact : (l = [] ∧ ctl = .idle ∧ issued = s.issued) ∨
      (∃ y, l.head? = some y ∧ (s.buf y).blockno < FSSIZE ∧ ctl = .busy (.of (s.buf y)) ∧
        issued = s.issued ++ [y])) :
    Queued { s.dequeue b with ctl := ctl, issued := issued } l := by
  obtain ⟨hdev, hno, -, hsync⟩ := finished_same s b
  obtain ⟨hbl, hnd⟩ := nodup_cons.mp h.chain.nodup
  -- what the controller read or wrote
  have hdata : (finished s b).data = s.disk (s.buf b).dev (s.buf b).blockno := by
    rcases (h.work b rfl).ctl with hctl | ⟨x, hctl, hx, hd⟩
    · rw [hctl] at hidle
      cases hidle
    · rw [finished, hx, hctl]
      split
      · next hdirty => exact (hd hdirty).symm
      · rfl
  have hself : (s.dequeue b).buf b = finished s b := buf_set_self ..
  have hbuf : ∀ y, y ≠ b → (s.dequeue b).buf y = s.buf y := fun y hy => buf_set_of_ne _ _ hy
  have hmem : ∀ y ∈ l, y ≠ b := by
    rintro y hy rfl
    exact hbl hy
  refine ⟨h.chain.pop, fun y => ?_, fun x y hx => ?_, fun x y hx => ?_, ?_, ?_, fun hl => ?_,
    fun y hy => ?_, fun x y hx hs => ?_⟩
  · show y ∈ l ↔ ∃ q, ((s.pc q).wake b).request = some y ∧ Buf.synced ((s.dequeue b).buf y) = false
    simp only [request_wake]
    by_cases hy : y = b
    · subst hy
      rw [hself, hsync]
      simpa using hbl
    · rw [hbuf y hy, ← h.mem, mem_cons]
      simp [hy]
  · -- those who slept on `b` are awake
    have hx' : (s.pc x).wake b = .asleep y := hx
    obtain ⟨hne, hpc⟩ : y ≠ b ∧ s.pc x = .asleep y := by
      cases hpc : s.pc x with
      | asleep z =>
        rw [hpc, Pc.wake] at hx'
        split at hx'
        · cases hx'
        · next hz =>
          obtain rfl : z = y := by cases hx'; rfl
          exact ⟨hz, rfl⟩
      | out | woken z =>
        rw [hpc] at hx'
        cases hx'
    show Buf.synced ((s.dequeue b).buf y) = false
    rw [hbuf y hne]
    exact h.asleep x y hpc
  · exact h.held x y ((request_wake _ b).symm.trans hx)
  · show s.queued = s.completed ++ [b] ++ l
    rw [h.queued, append_assoc]
    rfl
  · show issued = s.completed ++ [b] ++ l.take 1
    have hissued : s.issued = s.completed ++ [b] := h.issued
    rcases hact with ⟨rfl, -, rfl⟩ | ⟨y, hy, -, -, rfl⟩
    · rw [hissued]
      simp
    · obtain ⟨l, rfl⟩ : ∃ l', l = y :: l' := head?_eq_some_iff.mp hy
      rw [hissued]
      rfl
  · rcases hact with ⟨-, hctl, -⟩ | ⟨y, hy, -⟩
    · exact hctl
    · rw [hl] at hy
      cases hy
  · rcases hact with ⟨rfl, -⟩ | ⟨z, hz, hno, hctl, -⟩
    · cases hy
    · obtain rfl : z = y := Option.some.inj (hz.symm.trans hy)
      have hsame := hbuf z (hmem z (mem_of_mem_head? hy))
      refine ⟨?_, .inl ?_⟩
      · show ((s.dequeue b).buf z).blockno < FSSIZE
        rw [hsame]
        exact hno
      · show ctl = .busy (.of ((s.dequeue b).buf z))
        rw [hsame]
        exact hctl
  · show ((s.dequeue b).buf y).data =
      s.disk ((s.dequeue b).buf y).dev ((s.dequeue b).buf y).blockno
    by_cases hy : y = b
    · subst hy
      rw [hself, hdev, hno]
      exact hdata
    · have hs' : Buf.synced ((s.dequeue b).buf y) = true := hs
      rw [hbuf y hy] at hs' ⊢
      exact h.data x y ((request_wake _ b).symm.trans hx) hs'

omit [DecidableEq P] in
theorem Held.dequeue (hh : Held s) (b : Fin NBUF) : Held (s.dequeue b) := by
  obtain ⟨hdev, hno, hbusy, -⟩ := finished_same s b
  have hself : (s.dequeue b).buf b = finished s b := buf_set_self ..
  refine hh.keep (b := b) hh.linked (fun x hx => ⟨buf_set_of_ne _ _ hx, rfl⟩) ?_ ?_ ?_ ?_
  all_goals rw [hself]
  · exact hdev
  · exact hno
  · rw [hbusy]
    exact hh.busy b
  · rw [hbusy]
    exact id

omit [DecidableEq P] in
/-- The handler finds the controller free, and starts the next request. -/
theorem ideintr_step (hh : Held s) (h : Queued s l) (hrun : s.panicked = false)
    (hctl : s.ctl.isBusy = false) :
    ∃ s', ideintr s = some s' ∧ (∀ q, (s'.pc q).request = (s.pc q).request) ∧
      ((s'.panicked = true ∧ ∃ b ∈ l, FSSIZE ≤ (s.buf b).blockno) ∨
        (s'.panicked = false ∧ Held s' ∧ ∃ l', Queued s' l')) := by
  unfold ideintr
  rw [h.chain.first_eq]
  cases l with
  | nil =>
    refine ⟨_, rfl, fun q => rfl, .inr ⟨hrun, ⟨hh.linked, hh.busy, hh.dev, hh.uniq⟩, [], ?_⟩⟩
    refine ⟨h.chain, h.mem, h.asleep, h.held, h.queued, h.issued, fun _ => rfl, fun b hb => ?_,
      h.data⟩
    cases hb
  | cons b l =>
    dsimp only [head?_cons]
    have hreq : ∀ q, ((s.dequeue b).pc q).request = (s.pc q).request := fun q => request_wake _ b
    have hheld := hh.dequeue b
    rw [show (s.dequeue b).idequeue.first = _ from h.chain.pop.first_eq]
    cases l with
    | nil =>
      refine ⟨_, rfl, hreq, .inr ⟨hrun, hheld, [], ?_⟩⟩
      exact h.leave hctl (.inl ⟨rfl, rfl, rfl⟩)
    | cons y l =>
      dsimp only [head?_cons]
      have hy : (s.dequeue b).buf y = s.buf y := by
        refine buf_set_of_ne _ _ ?_
        rintro rfl
        exact (nodup_cons.mp h.chain.nodup).1 mem_cons_self
      rcases lt_or_ge (s.buf y).blockno FSSIZE with hno | hno
      · rw [idestart_issues (s := s.dequeue b) (hy ▸ hno) rfl, hy]
        refine ⟨_, rfl, hreq, .inr ⟨hrun, ?_, y :: l, ?_⟩⟩
        · exact ⟨hheld.linked, hheld.busy, hheld.dev, hheld.uniq⟩
        · exact h.leave hctl (.inr ⟨y, rfl, hno, rfl, rfl⟩)
      · rw [idestart_panics (s := s.dequeue b) (hy ▸ hno)]
        exact ⟨_, rfl, hreq, .inl ⟨rfl, y, by simp, hno⟩⟩

/-! ## Runs -/

/-- Why a step may panic: a request for a block that is not on the disk, with
    nothing to do or for a missing drive, or no buffer is left. -/
def MayPanic (s : State P) : Event P → Prop
  | .iderw _ b => Buf.synced (s.buf b) = true ∨ ((s.buf b).dev ≠ 0 ∧ s.havedisk1 = false) ∨
      FSSIZE ≤ (s.buf b).blockno
  | .ideintr => ∃ q b, (s.pc q).request = some b ∧ FSSIZE ≤ (s.buf b).blockno
  | .bget _ _ _ => ∀ b, (s.buf b).busy = true ∨ (s.buf b).dirty = true
  | _ => False

/-- What one step does to the invariant and to the call of `iderw` that each process is in. -/
structure Steps (s : State P) (e : Event P) (s' : State P) : Prop where
  inv   : s'.panicked = true ∨ (Held s' ∧ ∃ l, Queued s' l)
  panic : s'.panicked = true → MayPanic s e
  stay  : ∀ q b, (s.pc q).request = some b → (s'.pc q).request = some b ∨
    (s' = await s q b ∧ Buf.synced (s.buf b) = true)

theorem step_steps (hh : Held s) (h : Queued s l) (hrun : s.panicked = false) {e : Event P}
    (hs : step s e = some s') : Steps s e s' := by
  have hno : ∀ {s' : State P}, s'.panicked = s.panicked → s'.panicked = true → MayPanic s e := by
    intro s' heq hp
    rw [heq, hrun] at hp
    cases hp
  unfold step at hs
  rw [if_neg (show ¬ s.panicked = true by simp [hrun])] at hs
  cases e with
  | bget q dev blockno =>
    dsimp only at hs
    split at hs
    · next hok =>
      have hlooked := looked_bget hh.linked dev blockno
      split at hs
      · next b c hget =>
        cases hs
        obtain ⟨hh', h'⟩ := bget_step (q := q) hh h hok.2 hget
        exact ⟨.inr ⟨hh', l, h'⟩, hno rfl, fun _ _ hb => .inl hb⟩
      · cases hs
      · next hget =>
        cases hs
        rw [hget] at hlooked
        cases hlooked with
        | panic _ hfull => exact ⟨.inl rfl, fun _ => hfull, fun _ _ hb => .inl hb⟩
    · cases hs
  | store q b data =>
    dsimp only at hs
    split at hs
    · next hhas =>
      cases hs
      obtain ⟨hh', h'⟩ := has_step hh h hhas (y := { s.buf b with data := data }) rfl rfl rfl
      exact ⟨.inr ⟨hh', l, h'⟩, hno rfl, fun _ _ hb => .inl hb⟩
    · cases hs
  | dirty q b =>
    dsimp only at hs
    split at hs
    · next hhas =>
      cases hs
      obtain ⟨hh', h'⟩ := has_step hh h hhas (y := { s.buf b with dirty := true }) rfl rfl rfl
      exact ⟨.inr ⟨hh', l, h'⟩, hno rfl, fun _ _ hb => .inl hb⟩
    · cases hs
  | brelse q b =>
    dsimp only at hs
    split at hs
    · next hhas =>
      cases hs
      obtain ⟨hh', h'⟩ := brelse_step hh h hhas
      exact ⟨.inr ⟨hh', l, h'⟩, hno rfl, fun _ _ hb => .inl hb⟩
    · cases hs
  | iderw q b =>
    dsimp only at hs
    split at hs
    · next hhas =>
      obtain ⟨s1, hs1, hcase⟩ := iderw_step hh h hrun hhas
      cases hs1.symm.trans hs
      rcases hcase with ⟨hp, hwhy, hpc⟩ | ⟨hgo, hpc, hh', h'⟩
      · refine ⟨.inl hp, fun _ => hwhy, fun x y hx => .inl ?_⟩
        rw [hpc]
        exact hx
      · refine ⟨.inr ⟨hh', _, h'⟩, fun hp => ?_, fun x y hx => .inl ?_⟩
        · rw [hgo] at hp
          cases hp
        · have hne : x ≠ q := by
            rintro rfl
            rw [hhas.1] at hx
            cases hx
          rw [hpc, update_of_ne hne]
          exact hx
    · cases hs
  | resume q =>
    dsimp only at hs
    split at hs
    · next b hpc =>
      cases hs
      have hreq : (s.pc q).request = some b := by
        rw [hpc]
        rfl
      refine ⟨.inr ⟨⟨hh.linked, hh.busy, hh.dev, hh.uniq⟩, l, await_step h hreq⟩, hno rfl,
        fun x y hx => ?_⟩
      by_cases hxq : x = q
      · subst hxq
        cases hreq.symm.trans hx
        cases hsync : Buf.synced (s.buf b) with
        | true => exact .inr ⟨rfl, rfl⟩
        | false =>
          refine .inl ?_
          show (update s.pc x _ x).request = _
          rw [update_self, hsync]
          rfl
      · refine .inl ?_
        show (update s.pc q _ x).request = _
        rw [update_of_ne hxq]
        exact hx
    · cases hs
  | kill q =>
    dsimp only at hs
    split at hs
    · next b hpc =>
      cases hs
      refine ⟨.inr ⟨⟨hh.linked, hh.busy, hh.dev, hh.uniq⟩, l, kill_step h hpc⟩, hno rfl,
        fun x y hx => .inl ?_⟩
      by_cases hxq : x = q
      · subst hxq
        rw [hpc] at hx
        show (update s.pc x _ x).request = _
        rw [update_self]
        exact hx
      · show (update s.pc q _ x).request = _
        rw [update_of_ne hxq]
        exact hx
    · cases hs
  | complete =>
    obtain ⟨hh', h', hpc, hp⟩ := complete_step hh h hs
    refine ⟨.inr ⟨hh', l, h'⟩, hno hp, fun x y hx => .inl ?_⟩
    rw [hpc]
    exact hx
  | ideintr =>
    dsimp only at hs
    split at hs
    · cases hs
    · next hbusy =>
      obtain ⟨s1, hs1, hreq, hcase⟩ := ideintr_step hh h hrun (by simpa using hbusy)
      obtain rfl : s1 = s' := Option.some.inj (hs1.symm.trans hs)
      have hstay : ∀ q b, (s.pc q).request = some b → (s1.pc q).request = some b ∨
          (s1 = await s q b ∧ Buf.synced (s.buf b) = true) := by
        intro q b hb
        rw [hreq]
        exact .inl hb
      rcases hcase with ⟨hp, b, hb, hwhy⟩ | ⟨hgo, hh', l', h'⟩
      · obtain ⟨q, hq, -⟩ := (h.mem b).mp hb
        exact ⟨.inl hp, fun _ => ⟨q, b, hq, hwhy⟩, hstay⟩
      · refine ⟨.inr ⟨hh', l', h'⟩, fun hp => ?_, hstay⟩
        rw [hgo] at hp
        cases hp

end Steps

theorem boot_held (havedisk1 : Bool) (disk : Nat → Nat → Block)
    (next : Fin NBUF → Option (Fin NBUF)) : Held (boot (P := P) havedisk1 disk next) := by
  refine ⟨linked_binit, fun _ => rfl, fun _ => .inr rfl, fun b x hb => ?_⟩
  have hnodev : NODEV < 2 := hb
  exact absurd hnodev (by decide)

theorem boot_queued (havedisk1 : Bool) (disk : Nat → Nat → Block)
    (next : Fin NBUF → Option (Fin NBUF)) : Queued (boot (P := P) havedisk1 disk next) [] := by
  refine ⟨⟨nodup_nil, rfl⟩, fun b => ?_, fun q b hb => ?_, fun q b hb => ?_, rfl, rfl,
    fun _ => rfl, fun b hb => ?_, fun q b hb => ?_⟩
  · constructor
    · intro hb
      cases hb
    · rintro ⟨q, hq, -⟩
      cases hq
  all_goals cases hb

variable [DecidableEq P]

theorem reachable_queued {s : State P} (h : (system P).Reachable s) :
    s.panicked = true ∨ (Held s ∧ ∃ l, Queued s l) := by
  refine System.invariant (I := fun s => s.panicked = true ∨ (Held s ∧ ∃ l, Queued s l))
    ?_ (fun s e s' hs hstep => ?_) h
  · rintro s ⟨havedisk1, disk, next, rfl⟩
    exact .inr ⟨boot_held _ _ _, [], boot_queued _ _ _⟩
  · have hstep : step s e = some s' := hstep
    cases hrun : s.panicked with
    | true =>
      unfold step at hstep
      rw [if_pos hrun] at hstep
      cases hstep
    | false =>
      rcases hs with hp | ⟨hh, l, hq⟩
      · rw [hrun] at hp
        cases hp
      · exact (step_steps hh hq hrun hstep).inv

/-- The request queue, as long as the kernel has not panicked. It has each request that is not
    complete once and in the order of arrival, and just the first one has been issued, once. A
    process sleeps only as long as its request is not complete; a call of `iderw` returns with the
    buffer valid, clean, out of the queue and equal to its block. Neither `iderw` nor the handler
    waits for the controller, and it panics only for requests that are not good. -/
theorem ide_queue {s : State P} (h : (system P).Reachable s) (hrun : s.panicked = false) :
    ∃ l, s.idequeue.Is l ∧
      (∀ b, b ∈ l ↔ ∃ q, (s.pc q).request = some b ∧ Buf.synced (s.buf b) = false) ∧
      s.queued = s.completed ++ l ∧
      s.issued = s.completed ++ l.take 1 ∧
      (s.ctl = .idle ↔ l = []) ∧
      (∀ q b, s.pc q = .asleep b → Buf.synced (s.buf b) = false) ∧
      (∀ e s' q b, step s e = some s' → (s.pc q).request = some b → s'.pc q = .out →
        Buf.synced (s'.buf b) = true ∧ (∀ l', s'.idequeue.Is l' → b ∉ l') ∧
        (s'.buf b).data = s'.disk (s'.buf b).dev (s'.buf b).blockno) ∧
      (∀ q b, s.Has q b → (step s (.iderw q b)).isSome) ∧
      (s.ctl.isBusy = false → (step s .ideintr).isSome) ∧
      (∀ e s', step s e = some s' → s'.panicked = true → MayPanic s e) := by
  obtain ⟨hh, l, hq⟩ := (reachable_queued h).resolve_left (by simp [hrun])
  have hgo : ¬ s.panicked = true := by simp [hrun]
  refine ⟨l, hq.chain, hq.mem, hq.queued, hq.issued, ⟨fun hidle => ?_, hq.idle⟩, hq.asleep,
    fun e s' q b hs hb hout => ?_, fun q b hhas => ?_, fun hctl => ?_, fun e s' hs =>
    (step_steps hh hq hrun hs).panic⟩
  · -- the first request is at the controller
    cases l with
    | nil => rfl
    | cons b l =>
      rcases (hq.work b rfl).ctl with hctl | ⟨x, hctl, -⟩
      all_goals
        rw [hctl] at hidle
        cases hidle
  · rcases (step_steps hh hq hrun hs).stay q b hb with hstay | ⟨rfl, hsync⟩
    · rw [hout] at hstay
      cases hstay
    · refine ⟨hsync, fun l' hl' hmem => ?_, hq.data q b hb hsync⟩
      obtain rfl : l' = l := hl'.unique hq.chain
      obtain ⟨x, -, hno⟩ := (hq.mem b).mp hmem
      rw [hsync] at hno
      cases hno
  · obtain ⟨s', hs', -⟩ := iderw_step hh hq hrun hhas
    rw [step, if_neg hgo, if_pos hhas, hs']
    rfl
  · obtain ⟨s', hs', -⟩ := ideintr_step hh hq hrun hctl
    rw [step, if_neg hgo, if_neg (by simp [hctl]), hs']
    rfl

/-- Two processes read a block each; the interrupt for the first one comes. -/
def twoReads : List (Event (Fin 2)) :=
  [.bget 0 0 5, .bget 1 0 7, .iderw 0 0, .iderw 1 1, .complete, .ideintr]

theorem ide_queue_twoReads : ∃ s, (system (Fin 2)).Reachable s ∧ s.panicked = false ∧
    s.queued = [0, 1] ∧ s.completed = [0] ∧ s.issued = [0, 1] ∧
    ∃ l, s.idequeue.Is l ∧ s.queued = s.completed ++ l := by
  obtain ⟨s, hs, hq⟩ : ∃ s, (system (Fin 2)).Run (boot false (fun _ _ => .fill 1) fun _ => none)
      twoReads s ∧ decide (s.panicked = false ∧ s.queued = [0, 1] ∧ s.completed = [0] ∧
        s.issued = [0, 1]) = true :=
    System.exists_run_of_replay (by decide +kernel)
  obtain ⟨h1, h2, h3, h4⟩ := of_decide_eq_true hq
  have hreach : (system (Fin 2)).Reachable s := ⟨_, _, ⟨_, _, _, rfl⟩, hs⟩
  obtain ⟨l, hl, -, hq, -⟩ := ide_queue hreach h1
  exact ⟨s, hreach, h1, h2, h3, h4, l, hl, hq⟩

end Xv6.Ide
