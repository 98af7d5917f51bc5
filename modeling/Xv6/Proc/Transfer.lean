import Xv6.Proc.Syscall

/-! # The buffers of `read` and `write`

    `sys_read` and `sys_write` on an open file with a regular inode. The count is an `int` for
    `argptr`, `fileread` and `filewrite` and a `uint` for `readi`, and there are negative counts
    that pass every check.

    Key theorem: `transfer_within_iff`.
-/

namespace Xv6.Kernel

open Mem List

/-! ## `file.c` and `sysfile.c` -/

/-- A `struct file` of type `FD_INODE`, with the contents of its inode. -/
structure OpenFile where
  readable : Bool
  writable : Bool
  off      : Nat
  ip       : Content

/-- What a call returns, the user addresses it has used, and the new offset. -/
structure Io where
  value : Int
  addrs : List Nat
  off   : Nat

def fileread (f : OpenFile) (addr : Nat) (n : Int) : Io :=
  if f.readable = false then ⟨-1, [], f.off⟩
  else
    let r := f.ip.readi f.off (toU32 n)
    ⟨r, range' addr r.toNat, if r > 0 then u32 (f.off + r.toNat) else f.off⟩

/-- The loop of `filewrite` from `i` on; the value is the last `i`. In the round at `i`, `writei`
    returns `w i`. -/
def writeRounds (w : Int → Int) (addr : Nat) (n : Int) : (fuel : Nat) → Int → Nat → Io
  | 0, i, off => ⟨i, [], off⟩
  | fuel + 1, i, off =>
    if i < n then
      let n1 := min (n - i) 6656 -- ((LOGSIZE-1-1-2) / 2) * 512
      if w i = n1 then
        let rest := writeRounds w addr n fuel (i + n1) (u32 (off + n1.toNat))
        { rest with addrs := range' (addr + i.toNat) n1.toNat ++ rest.addrs }
      else ⟨i, range' (addr + i.toNat) n1.toNat, off⟩ -- an error, or the panic
    else ⟨i, [], off⟩

def filewrite (w : Int → Int) (f : OpenFile) (addr : Nat) (n : Int) : Io :=
  if f.writable = false then ⟨-1, [], f.off⟩
  else
    let r := writeRounds w addr n n.toNat 0 f.off
    { r with value := if r.value = n then n else -1 }

/-- The arguments of both calls. -/
def withBuffer (k : State) (p : Slot) (f : OpenFile) (io : Nat → Int → Io) : Except Halt Io := do
  match ← argint k p 2 with
  | none => return ⟨-1, [], f.off⟩
  | some n =>
    match ← argptr k p 1 n with
    | none => return ⟨-1, [], f.off⟩
    | some addr => return io addr n

def sys_read (k : State) (p : Slot) (f : OpenFile) : Except Halt Io :=
  withBuffer k p f (fileread f)

def sys_write (k : State) (p : Slot) (w : Int → Int) (f : OpenFile) : Except Halt Io :=
  withBuffer k p f (filewrite w f)

/-! ## Which addresses are used -/

variable {k : State} {p : Slot} {f : OpenFile} {i n : Int} {addr a : Nat} {io : Nat → Int → Io}

/-- The addresses are in the buffer and in the process. -/
def Within (k : State) (p : Slot) (addr : Nat) (n : Int) (io : Io) : Prop :=
  ∀ a ∈ io.addrs, addr ≤ a ∧ (a : Int) < addr + n ∧ a < (k.proc p).sz

theorem within_nil {v : Int} {off : Nat} : Within k p addr n ⟨v, [], off⟩ :=
  fun _ ha => absurd ha not_mem_nil

theorem withBuffer_eq (hn : argint k p 2 = .ok (some n)) (hi : argint k p 1 = .ok (some i)) :
    withBuffer k p f io = .ok (if toU32 i ≥ (k.proc p).sz ∨
      u32 (toU32 i + toU32 n) > (k.proc p).sz then ⟨-1, [], f.off⟩ else io (toU32 i) n) := by
  unfold withBuffer argptr
  rw [hn]
  show (argint k p 1 >>= _) >>= _ = _
  rw [hi]
  by_cases h : toU32 i ≥ (k.proc p).sz ∨ u32 (toU32 i + toU32 n) > (k.proc p).sz
  · rw [if_pos h]
    show (if _ then _ else _) >>= _ = _
    rw [if_pos h]
    rfl
  · rw [if_neg h]
    show (if _ then _ else _) >>= _ = _
    rw [if_neg h]
    rfl

theorem writeRounds_addrs (w : Int → Int) (fuel : Nat) : ∀ (i : Int) off, 0 ≤ i →
    ∀ a ∈ (writeRounds w addr n fuel i off).addrs, addr + i ≤ a ∧ (a : Int) < addr + n := by
  induction fuel with
  | zero =>
    intro i off _ a ha
    cases ha
  | succ fuel ih =>
    intro i off h0 a ha
    have hround : a ∈ range' (addr + i.toNat) (min (n - i) 6656).toNat →
        addr + i ≤ a ∧ (a : Int) < addr + n := by
      intro hin
      have := mem_range'_1.mp hin
      omega
    rw [writeRounds] at ha
    by_cases hlt : i < n
    · simp only [if_pos hlt] at ha
      split at ha
      · rcases mem_append.mp ha with hin | hin
        · exact hround hin
        · have := ih _ _ (by omega) a hin
          omega
      · exact hround ha
    · rw [if_neg hlt] at ha
      cases ha

/-- How many bytes `readi` delivers for a negative count. -/
theorem readi_negative (ip : Content) {off : Nat} (h0 : n < 0) (h31 : -2 ^ 31 ≤ n)
    (hoff : off < 2 ^ 32) :
    0 < ip.readi off (toU32 n) ↔ off < -n ∧ off < ip.size := by
  have hsize := ip.size_le
  simp only [MAXFILE, NDIRECT, NINDIRECT, BSIZE] at hsize
  unfold Content.readi toU32 u32
  split
  · omega
  · split
    · omega
    · omega

/-- **Buffers**: `write` stays in its buffer. `read` does so exactly if the count is not negative,
    or is refused by `argptr` or `readi`, or there is nothing to read. -/
theorem transfer_within_iff (hsz : (k.proc p).sz < KERNBASE) (hn : argint k p 2 = .ok (some n))
    (hi : argint k p 1 = .ok (some i)) (h32 : -2 ^ 31 ≤ n ∧ n < 2 ^ 31) (hoff : f.off < 2 ^ 32) :
    ((∃ r, sys_read k p f = .ok r ∧ Within k p (toU32 i) n r) ↔
      ¬ (f.readable = true ∧ n < 0 ∧ -n ≤ toU32 i ∧ toU32 i < (k.proc p).sz ∧
        f.off < -n ∧ f.off < f.ip.size)) ∧
    ∀ w, ∃ r, sys_write k p w f = .ok r ∧ Within k p (toU32 i) n r := by
  have hsz' : (k.proc p).sz < 2 ^ 31 := hsz
  have hneg : n < 0 → (toU32 n : Int) = 2 ^ 32 + n := by
    unfold toU32
    omega
  have hpos : 0 ≤ n → (toU32 n : Int) = n := by
    unfold toU32
    omega
  unfold sys_read sys_write
  simp only [withBuffer_eq hn hi, Except.ok.injEq, exists_eq_left']
  unfold u32
  by_cases hbad : toU32 i ≥ (k.proc p).sz ∨ (toU32 i + toU32 n) % 2 ^ 32 > (k.proc p).sz
  · simp only [if_pos hbad]
    exact ⟨iff_of_true within_nil (by omega), fun _ => within_nil⟩
  simp only [if_neg hbad]
  -- a count that is not negative ends below the size
  have hfit : 0 ≤ n → toU32 i + n ≤ (k.proc p).sz := by omega
  refine ⟨?_, fun w => ?_⟩
  · unfold fileread
    by_cases hr : f.readable = false
    · rw [if_pos hr, hr]
      exact iff_of_true within_nil (by simp)
    rw [if_neg hr]
    by_cases h0 : 0 ≤ n
    · refine iff_of_true (fun a ha => ?_) (by omega)
      have := f.ip.toNat_readi_le f.off (toU32 n)
      have := mem_range'_1.mp ha
      omega
    · have hread := readi_negative f.ip (by omega) h32.1 hoff
      constructor
      · rintro hw ⟨-, -, -, -, hoff'⟩
        -- the first byte
        have := hread.mpr hoff'
        have := hw (toU32 i) (mem_range'_1.mpr (by omega))
        omega
      · intro hno a ha
        have := mem_range'_1.mp ha
        have := hread.mp (by omega)
        exact absurd ⟨by simpa using hr, by omega, by omega, by omega, this⟩ hno
  · unfold filewrite
    split
    · exact within_nil
    · intro a ha
      have := writeRounds_addrs w n.toNat 0 f.off (Int.le_refl 0) a ha
      omega

/-! ## A negative count -/

/-- The words `8199` and `-1`, in turns. -/
def words : ByteMem.Mem := fun a =>
  if a % 8 = 0 then 7 else if a % 8 = 1 then 0x20 else if a % 8 < 4 then 0 else 255

/-- The page table leads to the pages of the role map. -/
theorem translate_eq {L : Layout} {ρ : Nat → Role Tag} {fl : List Nat} {u m j : Nat}
    (h : Mem.Inv L k.phys ρ fl 0) (hu : ρ u = .user (k.proc p).pgdir m) (hj : j < 4096) :
    translate k p (4096 * m + j) = some (u + j) := by
  obtain ⟨hm, a, ha, hpage⟩ := h.trees.userOf u _ m hu
  obtain ⟨-, -, htab⟩ := h.trees.tabOf a _ _ ha
  unfold translate
  rw [show PDX (4096 * m + j) = m / 1024 by unfold PDX; omega,
    show PTX (4096 * m + j) = m % 1024 by unfold PTX; omega, htab]
  show (ptr k.phys.mem a (m % 1024) >>= _) = _
  rw [hpage, show j = (4096 * m + j) % PGSIZE by simp only [PGSIZE]; omega]
  simp

theorem loadUser_eq {m j len : Nat} {c : ByteMem.Mem}
    (h : ∀ j < 4096, loadByte k p (4096 * m + j) = .ok (c j)) (hj : j + len ≤ 4096) :
    loadUser k p (4096 * m + j) len = .ok (ByteMem.load c j len) := by
  induction len generalizing j with
  | zero => rfl
  | succ len ih =>
    rw [loadUser, h j (by omega)]
    show (loadUser k p (4096 * m + (j + 1)) len >>= _) = _
    rw [ih (by omega)]
    rfl

/-- The small program has filled its stack with the two words. -/
theorem exists_words : ∃ k p k', Execed smallLayout k p ∧ (k.proc p).state = .running ∧
    UserRan k k' p ∧ (k'.proc p).sz = 0x4000 ∧ argint k' p 1 = .ok (some 8199) ∧
    argint k' p 2 = .ok (some (-1)) := by
  obtain ⟨-, p, k, ρ, fl, -, -, -, h⟩ := exists_smallRuns smallLayout
  have hd := (h.inv.procs p).running h.running
  obtain ⟨u, hu⟩ : Maps ρ (k.proc p).pgdir 3 := ((h.inv.procs p).shape rfl h.execed.used hd 3).mpr
    ⟨by decide, by rw [h.sz]; decide⟩
  let mem : ByteMem.Mem := fun x =>
    if u ≤ x ∧ x < u + 4096 then words (x - u) else k.phys.mem x
  let k' := { k with phys := { k.phys with mem := mem } }.setProc p fun y =>
    { y with tf := { y.tf with esp := 0x3000 } }
  have hproc : k'.proc p = { k.proc p with tf := { (k.proc p).tf with esp := 0x3000 } } :=
    setProc_proc_self ..
  have hsz : (k'.proc p).sz = 0x4000 := by
    rw [hproc]
    exact h.sz
  have hmem : Mem.Inv smallLayout k'.phys ρ fl 0 := h.inv.mem.write (a := u) rfl (by simp [hu])
    (by simp [hu, Role.Structural]) fun x hx => if_neg (by omega)
  have hbyte : ∀ j < 4096, loadByte k' p (4096 * 3 + j) = .ok (words j) := by
    intro j hj
    unfold loadByte
    rw [translate_eq hmem (by rw [hproc]; exact hu) hj]
    show Except.ok (mem (u + j)) = _
    simp [mem, hj]
  have hargint : ∀ m, m < 3 → argint k' p m =
      .ok (some (toI32 (ByteMem.load words (4 + 4 * m) 4))) := by
    intro m hm
    have haddr : argAddr k' p m = 4096 * 3 + (4 + 4 * m) := by
      unfold argAddr u32
      rw [hproc]
      simp only
      omega
    unfold argint fetchint
    rw [haddr, hsz, if_neg (by unfold u32; omega), loadUser_eq hbyte (by omega)]
    rfl
  refine ⟨k, p, k', h.execed, h.running, ⟨⟨_, hproc⟩, fun a ha => ?_⟩, hsz, hargint 1 (by decide),
    hargint 2 (by decide)⟩
  have hin : u ≤ a ∧ a < u + 4096 := by
    by_contra hout
    exact ha (if_neg hout)
  refine ⟨4096 * 3 + (a - u), by simp only [KERNBASE]; omega, ?_⟩
  rw [translate_eq h.inv.mem hu (by omega), Nat.add_sub_cancel' hin.1]

theorem transfer_within_iff_endOfFile : ∃ k p k', Execed smallLayout k p ∧
    (k.proc p).state = .running ∧ UserRan k k' p ∧ argint k' p 2 = .ok (some (-1)) ∧
    ∃ r, sys_read k' p ⟨true, true, 5, ⟨5, fun _ => 0, by decide⟩⟩ = .ok r ∧
      Within k' p 8199 (-1) r := by
  obtain ⟨k, p, k', hexec, hrun, huser, hsz, hi, hn⟩ := exists_words
  refine ⟨k, p, k', hexec, hrun, huser, hn, ?_⟩
  refine (transfer_within_iff (by rw [hsz]; decide) hn hi (by decide) (by decide)).1.mpr ?_
  rintro ⟨-, -, -, -, hoff, -⟩
  exact absurd hoff (by decide)

/-- `read(fd, p, -1)` at the start of a file of five bytes stores all five. -/
theorem negative_count_reads : ∃ k p k', Execed smallLayout k p ∧
    (k.proc p).state = .running ∧ UserRan k k' p ∧ argint k' p 2 = .ok (some (-1)) ∧
    sys_read k' p ⟨true, true, 0, ⟨5, fun _ => 0, by decide⟩⟩ =
      .ok ⟨5, [8199, 8200, 8201, 8202, 8203], 5⟩ := by
  obtain ⟨k, p, k', hexec, hrun, huser, hsz, hi, hn⟩ := exists_words
  refine ⟨k, p, k', hexec, hrun, huser, hn, ?_⟩
  rw [sys_read, withBuffer_eq hn hi, hsz]
  rfl

end Xv6.Kernel
