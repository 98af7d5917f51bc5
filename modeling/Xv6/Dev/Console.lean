import Mathlib.Data.List.Induction
import Xv6.Framework.Ring
import Xv6.Framework.System
import Xv6.Param

/-! # The console line discipline

    `consoleintr` puts typed characters into a ring of `INPUT_BUF` cells with three `uint` indices:
    readers have taken the bytes before `r`, may take those before `w`, and the line being edited
    lies between `w` and `e`.

    A step is a critical section under `cons.lock`: a whole call of `consoleintr`, or a part of
    `consoleread` from `acquire`, or from the return of `sleep`, to the next `sleep` or `release`.
    The state remembers what no code reads: the bytes over which `w` and `r` have moved, and what
    was stored at the readers' `dst`.

    The two layers are the ring with its indices, `Input`, and a line editor with a queue and a
    line, `Editor`. `Rep` connects them.
-/

namespace Xv6.Console

open LTS Function List

/-! ## Model -/

abbrev INPUT_BUF : Nat := 128

/-- `C('P')`, `C('U')`, `C('H')` and `C('D')`. -/
abbrev ctrlP : UInt8 := 16
abbrev ctrlU : UInt8 := 21
abbrev ctrlH : UInt8 := 8
abbrev ctrlD : UInt8 := 4
abbrev del : UInt8 := 0x7f
abbrev newline : UInt8 := 10
abbrev return_ : UInt8 := 13

/-- `input` of `console.c`. -/
structure Input where
  buf : Nat → UInt8
  r   : Nat
  w   : Nat
  e   : Nat

/-- The bytes with the indices from `a` up to `b`. -/
def Input.span (i : Input) (a b : Nat) : List UInt8 :=
  (⟨i.buf, a, b⟩ : RingBuffer UInt8).contents INPUT_BUF (2 ^ 32)

/-- `b - a`, as a `uint`. -/
def dist (a b : Nat) : Nat := u32 (b + 2 ^ 32 - a)

/-- `input.e--`. -/
def Input.erase (i : Input) : Input := { i with e := u32 (i.e + 2 ^ 32 - 1) }

/-- `input.buf[input.e++ % INPUT_BUF] = c`. -/
def Input.store (i : Input) (c : UInt8) : Input :=
  { i with buf := update i.buf (i.e % INPUT_BUF) c, e := u32 (i.e + 1) }

/-- `input.w = input.e`. -/
def Input.commit (i : Input) : Input := { i with w := i.e }

/-- `input.r++`. -/
def Input.take (i : Input) : Input := { i with r := u32 (i.r + 1) }

/-- `input.r--`. -/
def Input.untake (i : Input) : Input := { i with r := u32 (i.r + 2 ^ 32 - 1) }

-- Each operation moves one index.

@[simp] theorem erase_r (i : Input) : i.erase.r = i.r := by cases i; rfl
@[simp] theorem erase_w (i : Input) : i.erase.w = i.w := by cases i; rfl
@[simp] theorem take_w (i : Input) : i.take.w = i.w := by cases i; rfl

/-- The loop at `C('U')`, for at most `m` rounds. -/
def killLine : Nat → Input → Input
  | 0, i => i
  | m + 1, i =>
      if i.e ≠ i.w ∧ i.buf (u32 (i.e + 2 ^ 32 - 1) % INPUT_BUF) ≠ newline then killLine m i.erase
      else i

/-- `(c == '\r') ? '\n' : c`. -/
def stored (c : UInt8) : UInt8 := if c = return_ then newline else c

/-- The `switch` of `consoleintr`, and if it calls `wakeup(&input.r)`. -/
def intrChar (i : Input) (c : UInt8) : Input × Bool :=
  if c = ctrlP then (i, false)
  else if c = ctrlU then
    -- the loop ends at `w` at the latest
    (killLine (dist i.w i.e) i, false)
  else if c = ctrlH ∨ c = del then
    (if i.e ≠ i.w then i.erase else i, false)
  else if c ≠ 0 ∧ dist i.r i.e < INPUT_BUF then
    let c := stored c
    let i := i.store c
    if c = newline ∨ c = ctrlD ∨ i.e = u32 (i.r + INPUT_BUF) then (i.commit, true)
    else (i, false)
  else (i, false)

/-- `consoleintr` when `getc` gives these characters and then -1. -/
def consoleintr : Input → List UInt8 → Input × Bool
  | i, [] => (i, false)
  | i, c :: cs =>
      let (i₁, wake) := intrChar i c
      let (i₂, wake') := consoleintr i₁ cs
      (i₂, wake || wake')

/-- The bytes over which `w` moves in `consoleintr`. -/
def commits : Input → List UInt8 → List UInt8
  | _, [] => []
  | i, c :: cs => (intrChar i c).1.span i.w (intrChar i c).1.w ++ commits (intrChar i c).1 cs

/-- How a critical section of `consoleread` ends. -/
inductive ReadExit where
  /-- `n` is 0. -/
  | full
  /-- After a newline. -/
  | newline
  /-- At a `C('D')` that is dropped. -/
  | eof
  /-- At a `C('D')` that is saved for the next time. -/
  | eofKept
  /-- With `return -1`. -/
  | killed
  /-- In `sleep(&input.r, &cons.lock)`. -/
  | sleep
  deriving DecidableEq

/-- What `consoleread` returns with `n` bytes to go. -/
def ReadExit.result (target n : Nat) : ReadExit → Option Int
  | .sleep => none
  | .killed => some (-1)
  | _ => some (target - n)

/-- The loop of `consoleread` with `n` bytes to go: the input, the new `n`, the
    exit, and the bytes stored at `dst`. -/
def readLoop (killed : Bool) (target : Nat) :
    Nat → Input → Input × Nat × ReadExit × List UInt8
  | 0, i => (i, 0, .full, [])
  | n + 1, i =>
      if i.r = i.w then (i, n + 1, if killed = true then .killed else .sleep, [])
      else
        let c := i.buf (i.r % INPUT_BUF)
        if c = ctrlD then
          if n + 1 < target then (i.take.untake, n + 1, .eofKept, [])
          else (i.take, n + 1, .eof, [])
        else if c = newline then (i.take, n, .newline, [c])
        else
          let (i', m, ex, bs) := readLoop killed target n i.take
          (i', m, ex, c :: bs)

/-- Where a process stands. -/
inductive Pc where
  /-- Not in `consoleread`. -/
  | out
  /-- In the `sleep`, with `left` bytes to go. -/
  | rsleep (n : Int) (left : Nat)
  /-- Woken from it, before the next test. -/
  | rready (n : Int) (left : Nat)

/-- `wakeup(&input.r)`. -/
def Pc.wake : Pc → Pc
  | .rsleep n left => .rready n left
  | pc => pc

/-- A call of `consoleread`: what it stored, where its last critical section
    ended, and what it returned. -/
structure Call where
  n      : Int
  bytes  : List UInt8
  exit   : ReadExit
  result : Option Int

structure State (P : Type) where
  input     : Input
  pc        : P → Pc
  killed    : P → Bool
  committed : List UInt8
  taken     : List (P × UInt8)
  delivered : List (P × UInt8)
  call      : P → Option Call

inductive Event (P : Type) where
  | consoleintr (cs : List UInt8)
  | consoleread (q : P) (n : Int)
  /-- A process that was woken goes on. -/
  | resume (q : P)
  | kill (q : P)
  /-- `kill` comes between the test of `proc->killed` and the `sleep`. -/
  | killAwake (q : P)

variable {P : Type} [DecidableEq P] {bs new q' : List UInt8} {i : Input} {killed : Bool}
  {ex : ReadExit} {s s' : State P} {q : P} {n : Int} {left m : Nat}

def intr (s : State P) (cs : List UInt8) : State P :=
  match consoleintr s.input cs with
  | (i, wake) => { s with
      input := i
      committed := s.committed ++ commits s.input cs
      pc := fun x => if wake then (s.pc x).wake else s.pc x }

/-- A critical section of `consoleread` with `left` bytes to go; `bs` was stored
    by the earlier ones of this call. -/
def consoleread (s : State P) (q : P) (n : Int) (left : Nat) (bs : List UInt8) : State P :=
  match readLoop (s.killed q) n.toNat left s.input with
  | (i, m, ex, new) => { s with
      input := i
      taken := s.taken ++ (s.input.span s.input.r i.r).map (Prod.mk q)
      delivered := s.delivered ++ new.map (Prod.mk q)
      pc := update s.pc q (if ex = .sleep then .rsleep n m else .out)
      call := update s.call q (some ⟨n, bs ++ new, ex, ex.result n.toNat m⟩) }

/-- The bytes that the call of `q` has stored. -/
def State.bytes (s : State P) (q : P) : List UInt8 :=
  match s.call q with
  | some c => c.bytes
  | none => []

def step (s : State P) (e : Event P) : Option (State P) :=
  match e with
  | .consoleintr cs => some (intr s cs)
  | .consoleread q n =>
      match s.pc q with
      | .out => some (consoleread s q n n.toNat [])
      | _ => none
  | .resume q =>
      match s.pc q with
      | .rready n left => some (consoleread s q n left (s.bytes q))
      | _ => none
  | .kill q => some { s with
      killed := update s.killed q true
      pc := update s.pc q (s.pc q).wake }
  | .killAwake q =>
      match s.pc q with
      | .rsleep _ _ => some { s with killed := update s.killed q true }
      | _ => none

/-- Nothing has been typed. The three indices start together: at 0 after the boot, but nothing
    depends on where. -/
def start (buf : Nat → UInt8) (k : Nat) : State P where
  input := ⟨buf, u32 k, u32 k, u32 k⟩
  pc := fun _ => .out
  killed := fun _ => false
  committed := []
  taken := []
  delivered := []
  call := fun _ => none

variable (P) in
def system : System (State P) (Event P) :=
  System.ofStep (fun s => ∃ buf k, s = start buf k) step

/-! ## The line editor -/

/-- What the console is for: committed bytes wait in a queue, and a line is
    edited until it is committed. -/
structure Editor where
  queue : List UInt8
  line  : List UInt8

/-- One more character is typed. -/
def Editor.type (a : Editor) (c : UInt8) : Editor :=
  if c = ctrlP then a
  else if c = ctrlU then { a with line := [] }
  else if c = ctrlH ∨ c = del then { a with line := a.line.dropLast }
  else if c ≠ 0 ∧ a.queue.length + a.line.length < INPUT_BUF then
    let c := stored c
    if c = newline ∨ c = ctrlD ∨ a.queue.length + a.line.length + 1 = INPUT_BUF then
      { queue := a.queue ++ a.line ++ [c], line := [] }
    else { a with line := a.line ++ [c] }
  else a

def Input.ring (i : Input) : RingBuffer UInt8 := ⟨i.buf, i.r, i.e⟩

/-- The ring holds the queue and then the line. A full ring has no line, and the line has no
    newline. -/
structure Rep (i : Input) (a : Editor) : Prop where
  ok       : i.ring.Ok INPUT_BUF (2 ^ 32)
  contents : i.ring.contents INPUT_BUF (2 ^ 32) = a.queue ++ a.line
  w        : i.w = u32 (i.r + a.queue.length)
  full     : a.queue.length + a.line.length = INPUT_BUF → a.line = []
  plain    : newline ∉ a.line

/-- No cell changes its place when an index wraps. -/
theorem inputBuf_dvd : INPUT_BUF ∣ 2 ^ 32 := ⟨2 ^ 25, rfl⟩

section Rep

variable {i i' : Input} {a : Editor} {q l : List UInt8} {c : UInt8}

section

variable (h : Rep i a)
include h

theorem Rep.count : i.ring.count (2 ^ 32) = a.queue.length + a.line.length := by
  rw [← RingBuffer.length_contents (N := INPUT_BUF), h.contents, length_append]

theorem Rep.le : a.queue.length + a.line.length ≤ INPUT_BUF := h.count ▸ h.ok.count

theorem Rep.r_lt : i.r < 2 ^ 32 := h.ok.nread

theorem Rep.empty_iff : i.r = i.w ↔ a.queue = [] := by
  have hw := h.w
  have hle := h.le
  have hr := h.r_lt
  rw [← length_eq_zero_iff]
  simp only [u32, INPUT_BUF] at hw hle
  omega

omit h in
theorem spans_of_contents (hok : i.ring.Ok INPUT_BUF (2 ^ 32))
    (hcontents : i.ring.contents INPUT_BUF (2 ^ 32) = q ++ l) (hw : i.w = u32 (i.r + q.length)) :
    i.span i.r i.w = q ∧ i.span i.w i.e = l := by
  have hcount : i.ring.count (2 ^ 32) = q.length + l.length := by
    rw [← RingBuffer.length_contents (N := INPUT_BUF), hcontents, length_append]
  have hle := hok.count
  have hsplit := RingBuffer.contents_split (by decide) inputBuf_dvd hok
    (show q.length ≤ i.ring.count (2 ^ 32) by omega)
  rw [hcontents, show (i.ring.nread + q.length) % 2 ^ 32 = i.w from hw.symm] at hsplit
  have hlen : (i.span i.r i.w).length = q.length := by
    rw [Input.span, RingBuffer.length_contents, hw]
    apply RingBuffer.count_add hok.nread
    simp only [INPUT_BUF] at hle
    omega
  obtain ⟨h1, h2⟩ := append_inj hsplit hlen.symm
  exact ⟨h1.symm, h2.symm⟩

theorem Rep.spans : i.span i.r i.w = a.queue ∧ i.span i.w i.e = a.line :=
  spans_of_contents h.ok h.contents h.w

omit h in
/-- Erase the last character of the line. -/
theorem Rep.erase (h : Rep i ⟨q, l ++ [c]⟩) :
    i.buf (u32 (i.e + 2 ^ 32 - 1) % INPUT_BUF) = c ∧
    Rep i.erase ⟨q, l⟩ := by
  have hne : i.ring.count (2 ^ 32) ≠ 0 := by
    rw [h.count]
    simp
  obtain ⟨hok, hcontents⟩ := RingBuffer.contents_unpush (by decide) inputBuf_dvd h.ok hne
  rw [h.contents, ← append_assoc] at hcontents
  obtain ⟨h1, h2⟩ := append_inj' hcontents rfl
  have hle := h.le
  refine ⟨(singleton_inj.mp h2).symm, hok, h1.symm, ?_, ?_, fun hmem => ?_⟩
  · rw [erase_w, erase_r]
    exact h.w
  · intro hfull
    simp only [length_append, length_singleton, INPUT_BUF] at hle hfull
    omega
  · exact h.plain (mem_append_left _ hmem)

omit h in
/-- Take the first byte of the queue. -/
theorem Rep.take (h : Rep i ⟨c :: q, l⟩) : i.buf (i.r % INPUT_BUF) = c ∧ Rep i.take ⟨q, l⟩ := by
  have hne : i.ring.count (2 ^ 32) ≠ 0 := by
    rw [h.count]
    simp
  have hcontents := RingBuffer.contents_pop inputBuf_dvd h.ok hne
  rw [h.contents] at hcontents
  obtain ⟨h1, h2⟩ := cons.inj hcontents
  have hle := h.le
  refine ⟨h1.symm, RingBuffer.Ok.pop (by decide) h.ok hne, h2.symm, ?_, ?_, h.plain⟩
  · show i.w = u32 (u32 (i.r + 1) + q.length)
    have hw := h.w
    simp only [u32, length_cons] at hw ⊢
    omega
  · intro hfull
    simp only [length_cons] at hle hfull
    omega

/-- `C('D')` goes back where it was. -/
theorem Rep.untake_take : i.take.untake = i := by
  have hr := h.r_lt
  have hback : u32 (u32 (i.r + 1) + 2 ^ 32 - 1) = i.r := by
    simp only [u32]
    omega
  calc i.take.untake = { i with r := u32 (u32 (i.r + 1) + 2 ^ 32 - 1) } := rfl
    _ = i := by rw [hback]

end

theorem Rep.taken {bs : List UInt8} (h : Rep i ⟨bs ++ q, l⟩) (h' : Rep i' ⟨q, l⟩) (hw : i'.w = i.w)
    : i.span i.r i'.r = bs := by
  have hr : i'.r = u32 (i.r + bs.length) := by
    have h1 := h.w
    have h2 := h'.w
    have h3 := h'.r_lt
    have hle := h.le
    simp only [u32, length_append, INPUT_BUF] at h1 h2 hle ⊢
    omega
  have hcontents := h.contents
  rw [append_assoc] at hcontents
  exact (spans_of_contents (i := { i with w := i'.r }) h.ok hcontents hr).1

/-- The bytes over which `w` moves are those that reach the queue. -/
theorem Rep.committed {new l' : List UInt8} (h : Rep i ⟨q, l⟩) (h' : Rep i' ⟨q ++ new, l'⟩)
    (hr : i'.r = i.r) : i'.span i.w i'.w = new := by
  have hw : i.w = u32 (i'.r + q.length) := by
    rw [hr]
    exact h.w
  -- what lies behind the old `w`
  obtain ⟨-, hrest⟩ := spans_of_contents (i := { i' with w := i.w }) h'.ok
    (h'.contents.trans (append_assoc _ _ _)) hw
  have hok : (⟨i'.buf, i.w, i'.e⟩ : RingBuffer UInt8).Ok INPUT_BUF (2 ^ 32) := by
    refine ⟨hw ▸ Nat.mod_lt _ (by decide), h'.ok.nwrite, ?_⟩
    have hle := h'.le
    rw [← RingBuffer.length_contents (N := INPUT_BUF)]
    refine (congrArg length hrest).trans_le ?_
    simp only [length_append, INPUT_BUF] at hle ⊢
    omega
  refine (spans_of_contents (i := { i' with r := i.w }) hok hrest ?_).1
  show i'.w = u32 (i.w + new.length)
  rw [h'.w, hw]
  simp only [u32, length_append]
  omega

end Rep

/-! ## Typing -/

variable {a : Editor}

/-- What a critical section of `consoleread` does that finds the editor `a` and
    leaves `q` in the queue. -/
structure Took (killed : Bool) (target n : Nat) (i : Input) (a : Editor) (i' : Input) (m : Nat)
    (ex : ReadExit) (bs q : List UInt8) : Prop where
  rep   : Rep i' ⟨q, a.line⟩
  w     : i'.w = i.w
  queue : a.queue = bs ++ (if ex = .eof then [ctrlD] else []) ++ q
  left  : bs.length + m = n
  data  : ctrlD ∉ bs
  lines : newline ∉ bs.dropLast
  full  : ex = .full → m = 0
  line  : ex = .newline → bs.getLast? = some newline
  eof   : ex = .eof → target ≤ m
  kept  : ex = .eofKept → m < target ∧ q.head? = some ctrlD
  sleep : ex = .sleep ∨ ex = .killed → q = [] ∧ 0 < m ∧ newline ∉ bs

theorem readLoop_spec {target : Nat} (n : Nat) :
    ∀ {i i' : Input} {a : Editor} {m : Nat} {bs : List UInt8}, Rep i a →
      readLoop killed target n i = (i', m, ex, bs) →
      ∃ q, Took killed target n i a i' m ex bs q := by
  induction n with
  | zero =>
    intro i i' a m bs h hr
    obtain ⟨rfl, rfl, rfl, rfl⟩ : i = i' ∧ 0 = m ∧ .full = ex ∧ [] = bs := by
      simpa [readLoop] using hr
    exact ⟨a.queue, h, rfl, by simp, rfl, by simp, by simp, by simp, by simp, by simp, by simp,
      by simp⟩
  | succ n ih =>
    intro i i' a m bs h hr
    rw [readLoop] at hr
    by_cases hempty : i.r = i.w
    · -- nothing to read
      have hq := h.empty_iff.mp hempty
      rw [if_pos hempty] at hr
      obtain ⟨rfl, rfl, rfl, rfl⟩ : i = i' ∧ n + 1 = m ∧
          (if killed = true then .killed else .sleep) = ex ∧ [] = bs := by
        simpa using hr
      refine ⟨a.queue, h, rfl, ?_, ?_, ?_, ?_, ?_, ?_, ?_, ?_, ?_⟩
      all_goals cases killed <;> simp [hq]
    rw [if_neg hempty] at hr
    obtain ⟨q, l⟩ := a
    obtain ⟨c, q, rfl⟩ := exists_cons_of_ne_nil fun hq => hempty (h.empty_iff.mpr hq)
    obtain ⟨hc, htake⟩ := h.take
    dsimp only at hr
    rw [hc] at hr
    by_cases hd : c = ctrlD
    · rw [if_pos hd] at hr
      subst hd
      by_cases hlt : n + 1 < target
      · rw [if_pos hlt, h.untake_take] at hr
        obtain ⟨rfl, rfl, rfl, rfl⟩ : i = i' ∧ n + 1 = m ∧ .eofKept = ex ∧ [] = bs := by
          simpa using hr
        exact ⟨ctrlD :: q, h, rfl, by simp, by simp, by simp, by simp, by simp, by simp, by simp,
          by simp [hlt], by simp⟩
      · rw [if_neg hlt] at hr
        obtain ⟨rfl, rfl, rfl, rfl⟩ : i.take = i' ∧ n + 1 = m ∧ .eof = ex ∧ [] = bs := by
          simpa using hr
        exact ⟨q, htake, take_w i, by simp, by simp, by simp, by simp, by simp, by simp,
          fun _ => Nat.le_of_not_lt hlt, by simp, by simp⟩
    rw [if_neg hd] at hr
    by_cases hnl : c = newline
    · rw [if_pos hnl] at hr
      obtain ⟨rfl, rfl, rfl, rfl⟩ : i.take = i' ∧ n = m ∧ .newline = ex ∧ [c] = bs := by
        simpa using hr
      refine ⟨q, htake, take_w i, by simp, by simp [add_comm], ?_, by simp, by simp,
        by simp [hnl], by simp, by simp, by simp⟩
      simpa using Ne.symm hd
    · rw [if_neg hnl] at hr
      rcases hr1 : readLoop killed target n i.take with ⟨i1, m1, ex1, bs1⟩
      rw [hr1] at hr
      obtain ⟨rfl, rfl, rfl, rfl⟩ : i1 = i' ∧ m1 = m ∧ ex1 = ex ∧ c :: bs1 = bs := by
        simpa using hr
      obtain ⟨q', hk⟩ := ih htake hr1
      refine ⟨q', hk.rep, hk.w.trans (take_w i), ?_, ?_, ?_, ?_, hk.full, ?_, hk.eof, hk.kept, ?_⟩
      · show c :: q = _
        rw [show q = _ from hk.queue]
        rfl
      · rw [length_cons, ← hk.left]
        omega
      · intro hmem
        rcases mem_cons.mp hmem with heq | hmem
        · exact hd heq.symm
        · exact hk.data hmem
      · intro hmem
        cases bs1 with
        | nil => simp at hmem
        | cons b bs1 =>
          rw [dropLast_cons_cons] at hmem
          rcases mem_cons.mp hmem with heq | hmem
          · exact hnl heq.symm
          · exact hk.lines hmem
      · intro hex
        rw [getLast?_cons, hk.line hex]
        rfl
      · intro hex
        obtain ⟨hq, hpos, hno⟩ := hk.sleep hex
        refine ⟨hq, hpos, fun hmem => ?_⟩
        rcases mem_cons.mp hmem with heq | hmem
        · exact hnl heq.symm
        · exact hno hmem

/-! ## Runs -/

/-- What a call of `consoleread` stored: a part of one line, without the
    `C('D')` that may have ended it. -/
structure Call.Ok (c : Call) : Prop where
  data   : ctrlD ∉ c.bytes
  lines  : newline ∉ c.bytes.dropLast
  fits   : c.bytes.length ≤ c.n.toNat
  full   : c.exit = .full → c.bytes.length = c.n.toNat
  line   : c.exit = .newline → c.bytes.getLast? = some newline
  eof    : c.exit = .eof → c.bytes = []
  kept   : c.exit = .eofKept → c.bytes ≠ []
  result : ∀ r, c.result = some r → c.exit ≠ .killed → r = c.bytes.length

/-- The bytes that went to `q`. -/
def State.read (s : State P) (q : P) : List UInt8 :=
  (s.delivered.filter fun x => x.1 = q).map Prod.snd

/-- The call of `consoleread` that a process is in. -/
def Pc.reads : Pc → Option (Int × Nat)
  | .rsleep n left | .rready n left => some (n, left)
  | .out => none

/-- What is known about the bytes `bs` of a call that sleeps. -/
structure Going (s : State P) (q : P) (n : Int) (left : Nat) (bs : List UInt8) : Prop where
  left  : bs.length + left = n.toNat
  data  : ctrlD ∉ bs
  lines : newline ∉ bs
  last  : bs <:+ s.read q

structure Disciplined (s : State P) : Prop where
  edit  : ∃ a, Rep s.input a ∧ s.committed = s.taken.map Prod.snd ++ a.queue
  data  : s.delivered = s.taken.filter fun x => x.2 ≠ ctrlD
  calls : ∀ q c, s.call q = some c → c.Ok ∧ c.bytes <:+ s.read q
  going : ∀ q n left, (s.pc q).reads = some (n, left) →
    ∃ c, s.call q = some c ∧ Going s q n left c.bytes

/-- A step that leaves the readers alone. -/
theorem Disciplined.keep (h : Disciplined s)
    (hedit : ∃ a, Rep s'.input a ∧ s'.committed = s'.taken.map Prod.snd ++ a.queue)
    (htaken : s'.taken = s.taken) (hdelivered : s'.delivered = s.delivered)
    (hcall : s'.call = s.call) (hpc : ∀ q, (s'.pc q).reads = (s.pc q).reads) : Disciplined s' := by
  have hread : ∀ q, s'.read q = s.read q := by
    intro q
    rw [State.read, hdelivered, State.read]
  refine ⟨hedit, by rw [hdelivered, htaken]; exact h.data, ?_, ?_⟩
  · intro q c hc
    rw [hread]
    exact h.calls q c (hcall ▸ hc)
  · intro q n left hpc'
    obtain ⟨c, hc, hg⟩ := h.going q n left (hpc q ▸ hpc')
    refine ⟨c, hcall ▸ hc, hg.left, hg.data, hg.lines, ?_⟩
    rw [hread]
    exact hg.last

omit [DecidableEq P] in
theorem map_snd_mk (q : P) (bs : List UInt8) : (bs.map (Prod.mk q)).map Prod.snd = bs := by
  rw [map_map]
  exact map_id bs

/-- The `C('D')` that a section takes without storing it. -/
def ReadExit.dropped (ex : ReadExit) : List UInt8 := if ex = .eof then [ctrlD] else []

/-- The state after a section of `consoleread` by `q` that stored `new`. -/
def State.took (s : State P) (q : P) (n : Int) (bs : List UInt8) (i : Input) (m : Nat)
    (ex : ReadExit) (new : List UInt8) : State P :=
  { s with
    input := i
    taken := s.taken ++ (new ++ ex.dropped).map (Prod.mk q)
    delivered := s.delivered ++ new.map (Prod.mk q)
    pc := update s.pc q (if ex = .sleep then .rsleep n m else .out)
    call := update s.call q (some ⟨n, bs ++ new, ex, ex.result n.toNat m⟩) }

omit [DecidableEq P] in
theorem Took.call_ok {i' : Input} [DecidableEq P] (hg : Going s q n left bs)
    (hk : Took killed n.toNat left i a i' m ex new q') :
    Call.Ok ⟨n, bs ++ new, ex, ex.result n.toNat m⟩ := by
  have hleft := hg.left
  have hnew := hk.left
  have hlen : (bs ++ new).length = bs.length + new.length := length_append
  constructor
  case data =>
    intro hmem
    rcases mem_append.mp hmem with hmem | hmem
    · exact hg.data hmem
    · exact hk.data hmem
  case lines =>
    intro hmem
    cases new with
    | nil =>
      rw [append_nil] at hmem
      exact hg.lines ((dropLast_sublist bs).subset hmem)
    | cons b new =>
      rw [dropLast_append_cons] at hmem
      rcases mem_append.mp hmem with hmem | hmem
      · exact hg.lines hmem
      · exact hk.lines hmem
  case fits =>
    show (bs ++ new).length ≤ n.toNat
    omega
  case full =>
    intro hex
    have := hk.full hex
    show (bs ++ new).length = n.toNat
    omega
  case line =>
    intro hex
    show (bs ++ new).getLast? = some newline
    rw [getLast?_append, hk.line hex]
    rfl
  case eof =>
    intro hex
    have := hk.eof hex
    exact length_eq_zero_iff.mp (show (bs ++ new).length = 0 by omega)
  case kept =>
    intro hex
    have := (hk.kept hex).1
    exact length_pos_iff.mp (show 0 < (bs ++ new).length by omega)
  case result =>
    intro r hr hex
    show r = ((bs ++ new).length : Int)
    cases ex with
    | sleep => cases hr
    | killed => exact absurd rfl hex
    | full | newline | eof | eofKept =>
      obtain rfl : ((n.toNat : Int) - m) = r := Option.some.inj hr
      omega

theorem read_took (s : State P) (q : P) (n : Int) (bs : List UInt8) (i : Input) (m : Nat)
    (ex : ReadExit) (new : List UInt8) (x : P) :
    (s.took q n bs i m ex new).read x = s.read x ++ if x = q then new else [] := by
  show ((s.delivered ++ new.map (Prod.mk q)).filter _).map Prod.snd = _
  rw [filter_append, map_append]
  congr 1
  by_cases hx : x = q
  · rw [if_pos hx, filter_eq_self.mpr, map_snd_mk]
    intro y hy
    obtain ⟨b, -, rfl⟩ := mem_map.mp hy
    simp [hx]
  · rw [if_neg hx, filter_eq_nil_iff.mpr]
    · rfl
    · intro y hy
      obtain ⟨b, -, rfl⟩ := mem_map.mp hy
      simp [Ne.symm hx]

omit [DecidableEq P] in
/-- Of what a section takes, all but the `C('D')` that ended it is stored. -/
theorem filter_took (q : P) (hnew : ctrlD ∉ new) (ex : ReadExit) :
    ((new ++ ex.dropped).map (Prod.mk q)).filter (fun x => decide (x.2 ≠ ctrlD)) =
      new.map (Prod.mk q) := by
  rw [map_append, filter_append, filter_eq_self.mpr, filter_eq_nil_iff.mpr, append_nil]
  · intro y hy
    obtain ⟨b, hb, rfl⟩ := mem_map.mp hy
    unfold ReadExit.dropped at hb
    split at hb
    · simp [mem_singleton.mp hb]
    · cases hb
  · intro y hy
    obtain ⟨b, hb, rfl⟩ := mem_map.mp hy
    have hne : b ≠ ctrlD := fun hc => hnew (hc ▸ hb)
    simpa using hne

theorem Disciplined.took (h : Disciplined s)
    (hcommitted : s.committed = s.taken.map Prod.snd ++ a.queue) (hg : Going s q n left bs)
    (hk : Took (s.killed q) n.toNat left s.input a i m ex new q') :
    Disciplined (s.took q n bs i m ex new) := by
  -- what the call has stored is the last that went to `q`
  have hlast : bs ++ new <:+ (s.took q n bs i m ex new).read q := by
    obtain ⟨pre, hpre⟩ := hg.last
    refine ⟨pre, ?_⟩
    rw [read_took, if_pos rfl, ← hpre, append_assoc]
  have hother : ∀ x, x ≠ q → (s.took q n bs i m ex new).read x = s.read x := by
    intro x hx
    rw [read_took, if_neg hx, append_nil]
  refine ⟨⟨⟨q', a.line⟩, hk.rep, ?_⟩, ?_, ?_, ?_⟩
  · show s.committed = (s.taken ++ (new ++ ex.dropped).map (Prod.mk q)).map Prod.snd ++ q'
    rw [hcommitted, map_append, map_snd_mk, append_assoc, hk.queue]
    rfl
  · show s.delivered ++ new.map (Prod.mk q) = filter _ (s.taken ++ _)
    rw [filter_append, filter_took q hk.data, ← h.data]
  · intro x c hc
    by_cases hx : x = q
    · subst hx
      cases (update_self x _ s.call).symm.trans hc
      exact ⟨hk.call_ok hg, hlast⟩
    · rw [hother x hx]
      exact h.calls x c ((update_of_ne hx _ s.call).symm.trans hc)
  · intro x n' left' hpc
    by_cases hx : x = q
    · subst hx
      refine ⟨_, update_self x _ s.call, ?_⟩
      have hpc' : (if ex = .sleep then Pc.rsleep n m else .out).reads = some (n', left') := by
        rw [← hpc]
        exact congrArg Pc.reads (update_self x _ s.pc).symm
      by_cases hex : ex = .sleep
      · rw [if_pos hex] at hpc'
        obtain ⟨rfl, rfl⟩ : n = n' ∧ m = left' := by simpa [Pc.reads] using hpc'
        obtain ⟨-, -, hno⟩ := hk.sleep (.inl hex)
        refine ⟨?_, (hk.call_ok hg).data, ?_, hlast⟩
        · have hleft := hg.left
          have hnew := hk.left
          rw [length_append]
          omega
        · intro hmem
          rcases mem_append.mp hmem with hmem | hmem
          · exact hg.lines hmem
          · exact hno hmem
      · rw [if_neg hex] at hpc'
        cases hpc'
    · have hpc' : (s.pc x).reads = some (n', left') := by
        rw [← hpc]
        exact congrArg Pc.reads (update_of_ne hx _ s.pc).symm
      obtain ⟨c, hc, hg'⟩ := h.going x n' left' hpc'
      refine ⟨c, (update_of_ne hx _ s.call).trans hc, hg'.left, hg'.data, hg'.lines, ?_⟩
      rw [hother x hx]
      exact hg'.last

/-- The process that reads in a step. -/
def Event.reader : Event P → Option P
  | .consoleread q _ | .resume q => some q
  | _ => none

/-- What the call has stored before the section that a step runs. -/
def State.before (s : State P) : Event P → List UInt8
  | .resume q => s.bytes q
  | _ => []

end Xv6.Console
