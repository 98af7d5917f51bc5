import Xv6.Framework.Writes
import Xv6.Fs.Block

/-! # Crash atomicity of the redo log

    `commit` and `recover_from_log` of `log.c`, down to the single block writes they issue. A crash
    keeps a prefix of these writes and loses the buffer cache.

    The argument: on every disk that a crash of `commit` can leave, installing what the on-disk
    header lists gives the old or the new contents. Each write of a recovery keeps what an
    installation would give, so recovery can be cut off and restarted at will.
-/

namespace Xv6.Log

open Device Function List

/-! ## The model -/

abbrev Disk := Nat → Block

/-- The disk, the buffer cache, `struct log` and the writes issued. `lh.block[0..lh.n)` is the list
    `lh`. `bget` recycles only clean buffers, whose contents are those on the disk, so recycling is
    not visible here. -/
structure Machine where
  start  : Nat
  size   : Nat
  lh     : List Nat
  disk   : Disk
  cache  : Nat → Option Block
  writes : List (Nat × Block)

/-- `bread`: the cached contents, or those read from the disk. -/
def bread (m : Machine) (b : Nat) : Block × Machine :=
  match m.cache b with
  | some data => (data, m)
  | none => (m.disk b, { m with cache := update m.cache b (some (m.disk b)) })

/-- Put `data` in the buffer of block `b` and `bwrite` it. -/
def bwrite (m : Machine) (b : Nat) (data : Block) : Machine :=
  { m with disk := update m.disk b data,
           cache := update m.cache b (some data),
           writes := m.writes ++ [(b, data)] }

/-- The loop of `install_trans` from index `tail` on. -/
def installFrom (m : Machine) (tail : Nat) : List Nat → Machine
  | [] => m
  | b :: bs =>
      let (lbuf, m) := bread m (m.start + tail + 1)
      let (_, m) := bread m b
      installFrom (bwrite m b lbuf) (tail + 1) bs

def install_trans (m : Machine) : Machine := installFrom m 0 m.lh

/-- The loop of `write_log` from index `tail` on. -/
def logFrom (m : Machine) (tail : Nat) : List Nat → Machine
  | [] => m
  | b :: bs =>
      let (_, m) := bread m (m.start + tail + 1)
      let (data, m) := bread m b
      logFrom (bwrite m (m.start + tail + 1) data) (tail + 1) bs

def write_log (m : Machine) : Machine := logFrom m 0 m.lh

/-- The number of iterations of a loop up to the `int` stored in a word. -/
def iterations (w : Nat) : Nat := if w < 2 ^ 31 then w else 0

/-- The block numbers a header block lists. -/
def header (hb : Block) : List Nat :=
  (List.range (iterations (hb.word 0))).map fun i => hb.word (i + 1)

def read_head (m : Machine) : Machine :=
  let (buf, m) := bread m m.start
  { m with lh := header buf }

/-- Store the block numbers from `block[i]` on. -/
def putBlocks (hb : Block) (i : Nat) : List Nat → Block
  | [] => hb
  | b :: bs => putBlocks (hb.setWord (i + 1) b) (i + 1) bs

def write_head (m : Machine) : Machine :=
  let (buf, m) := bread m m.start
  bwrite m m.start (putBlocks (buf.setWord 0 m.lh.length) 0 m.lh)

def commit (m : Machine) : Machine :=
  if 0 < m.lh.length then
    let m := write_log m
    let m := write_head m
    let m := install_trans m
    write_head { m with lh := [] }
  else m

def recover_from_log (m : Machine) : Machine :=
  let m := read_head m
  let m := install_trans m
  write_head { m with lh := [] }

/-- The machine after power-on, before `recover_from_log`. -/
def powerOn (start size : Nat) (d : Disk) : Machine :=
  { start, size, lh := [], disk := d, cache := fun _ => none, writes := [] }

/-- The writes an operation issues. -/
def issued (op : Machine → Machine) (m : Machine) : List (Nat × Block) :=
  (op { m with writes := [] }).writes

/-- The writes of `recover_from_log` on a disk. -/
def recovery (start size : Nat) (d : Disk) : List (Nat × Block) :=
  issued recover_from_log (powerOn start size d)

/-- The disk after `recover_from_log` was cut off after each of `ks` writes
    and restarted, and then ran to its end. -/
def recovered (start size : Nat) (d : Disk) (ks : List Nat) : Disk :=
  (recover_from_log (powerOn start size (interrupted (recovery start size) d ks))).disk

/-! ## What each operation issues -/

/-- What `bread` returns for each block. -/
def Machine.view (m : Machine) : Disk := fun b => (m.cache b).getD (m.disk b)

/-- `m'` comes from `m` by issuing the writes `ws`. -/
structure Issues (m : Machine) (ws : List (Nat × Block)) (m' : Machine) : Prop where
  start  : m'.start = m.start
  writes : m'.writes = m.writes ++ ws
  disk   : m'.disk = apply m.disk ws
  view   : m'.view = apply m.view ws

theorem Issues.refl (m : Machine) : Issues m [] m := ⟨rfl, by simp, rfl, rfl⟩

variable {m m' : Machine} {ws : List (Nat × Block)}

theorem Issues.trans {m'' : Machine} {us : List (Nat × Block)} (h : Issues m ws m')
    (h' : Issues m' us m'') : Issues m (ws ++ us) m'' :=
  ⟨h'.start.trans h.start, by rw [h'.writes, h.writes, append_assoc],
    by rw [h'.disk, h.disk, apply_append], by rw [h'.view, h.view, apply_append]⟩

theorem Issues.setLh (h : Issues m ws m') (lh : List Nat) : Issues m ws { m' with lh := lh } :=
  ⟨h.start, h.writes, h.disk, h.view⟩

theorem bread_fst (m : Machine) (b : Nat) : (bread m b).1 = m.view b := by
  unfold bread Machine.view
  split <;> next h => simp [h]

theorem bread_issues (m : Machine) (b : Nat) : Issues m [] (bread m b).2 := by
  unfold bread
  split
  · exact Issues.refl m
  · next h =>
    refine ⟨rfl, by simp, rfl, ?_⟩
    funext x
    by_cases hx : x = b
    · subst hx; simp [Machine.view, h]
    · simp [Machine.view, hx]

@[simp] theorem bread_start (m : Machine) (b : Nat) : (bread m b).2.start = m.start :=
  (bread_issues m b).start

@[simp] theorem bread_lh (m : Machine) (b : Nat) : (bread m b).2.lh = m.lh := by
  unfold bread
  split <;> rfl

@[simp] theorem bread_view (m : Machine) (b : Nat) : (bread m b).2.view = m.view :=
  (bread_issues m b).view

theorem bwrite_issues (m : Machine) (b : Nat) (data : Block) :
    Issues m [(b, data)] (bwrite m b data) := by
  refine ⟨rfl, rfl, rfl, ?_⟩
  funext x
  by_cases hx : x = b
  · subst hx; simp [Machine.view, bwrite]
  · simp [Machine.view, bwrite, hx]

/-- The writes of `install_trans` for the home blocks `bs`, from index `tail`
    on, when the blocks of the log hold `d`. -/
def installs (d : Disk) (start tail : Nat) : List Nat → List (Nat × Block)
  | [] => []
  | b :: bs => (b, d (start + tail + 1)) :: installs d start (tail + 1) bs

/-- The writes of `write_log`. -/
def logs (d : Disk) (start tail : Nat) : List Nat → List (Nat × Block)
  | [] => []
  | b :: bs => (start + tail + 1, d b) :: logs d start (tail + 1) bs

/-- `b` is one of the `n` blocks of the log from index `tail` on. -/
def IsSlot (start tail n b : Nat) : Prop := start + tail < b ∧ b ≤ start + tail + n

variable {d d' : Disk} {start tail : Nat} {bs : List Nat}

theorem installs_congr (h : ∀ b, IsSlot start tail bs.length b → d b = d' b) :
    installs d start tail bs = installs d' start tail bs := by
  induction bs generalizing tail with
  | nil => rfl
  | cons b bs ih =>
    simp only [IsSlot, length_cons] at h
    rw [installs, installs, h _ (by omega), ih fun x hx => h x (by simp only [IsSlot] at hx; omega)]

/-- One iteration of either loop, which writes block `y`. -/
theorem copy_issues (m : Machine) (x b y : Nat) (data : Block) :
    Issues m [(y, data)] (bwrite (bread (bread m x).2 b).2 y data) :=
  (bread_issues m x).trans ((bread_issues _ b).trans (bwrite_issues _ y data))

/-- Installing changes no block of the log, so each iteration reads what was there at the start. -/
theorem installFrom_issues (h : ∀ b ∈ bs, ¬ IsSlot m.start tail bs.length b) :
    Issues m (installs m.view m.start tail bs) (installFrom m tail bs) := by
  induction bs generalizing m tail with
  | nil => exact Issues.refl m
  | cons b bs ih =>
    simp only [installFrom, bread_fst]
    have hstep := copy_issues m (m.start + tail + 1) b b (m.view (m.start + tail + 1))
    generalize bwrite _ b _ = m1 at hstep ⊢
    have hrest : Issues m1 (installs m1.view m1.start (tail + 1) bs)
        (installFrom m1 (tail + 1) bs) := by
      refine ih fun x hx hs => h x (mem_cons_of_mem _ hx) ?_
      simp only [IsSlot, hstep.start, length_cons] at hs ⊢
      omega
    have heq : installs m1.view m1.start (tail + 1) bs =
        installs m.view m.start (tail + 1) bs := by
      rw [hstep.start, hstep.view]
      refine installs_congr fun x hx => ?_
      have hxb : x ≠ b := by
        rintro rfl
        refine h x (by simp) ?_
        simp only [IsSlot, length_cons] at hx ⊢
        omega
      simp [hxb]
    rw [heq] at hrest
    exact hstep.trans hrest

/-- Writing the log changes no home block, so each iteration copies what was cached at the start. -/
theorem logFrom_issues (hd : ∀ b ∈ bs, m.view b = d b)
    (h : ∀ b ∈ bs, ¬ IsSlot m.start tail bs.length b) :
    Issues m (logs d m.start tail bs) (logFrom m tail bs) := by
  induction bs generalizing m tail with
  | nil => exact Issues.refl m
  | cons b bs ih =>
    simp only [logFrom, bread_fst, bread_start, bread_view, hd b mem_cons_self]
    have hstep := copy_issues m (m.start + tail + 1) b (m.start + tail + 1) (d b)
    generalize bwrite _ (m.start + tail + 1) _ = m1 at hstep ⊢
    have hslot : ∀ x ∈ bs, ¬ IsSlot m.start tail (bs.length + 1) x := fun x hx =>
      h x (mem_cons_of_mem _ hx)
    simp only [IsSlot] at hslot
    have hrest : Issues m1 (logs d m1.start (tail + 1) bs) (logFrom m1 (tail + 1) bs) := by
      refine ih (fun x hx => ?_) fun x hx hs => hslot x hx ?_
      · have hne : x ≠ m.start + tail + 1 := by
          have := hslot x hx
          omega
        rw [hstep.view, ← hd x (mem_cons_of_mem _ hx)]
        simp [hne]
      · simp only [IsSlot, hstep.start] at hs
        omega
    rw [hstep.start] at hrest
    exact hstep.trans hrest

/-! ## The header block -/

variable {hb : Block}

theorem putBlocks_word_of_le {i j : Nat} (hij : j ≤ i) (hfit : 4 * (i + bs.length) + 4 ≤ BSIZE) :
    (putBlocks hb i bs).word j = hb.word j := by
  induction bs generalizing hb i with
  | nil => rfl
  | cons b bs ih =>
    simp only [length_cons] at hfit
    rw [putBlocks, ih (by omega) (by omega), Block.word_setWord_of_ne (by omega) (by omega)]

theorem putBlocks_word (hb : Block) (i : Nat) {k : Nat} (hk : k < bs.length)
    (hfit : 4 * (i + bs.length) + 4 ≤ BSIZE) (hw : ∀ b ∈ bs, b < 2 ^ 32) :
    (putBlocks hb i bs).word (i + k + 1) = bs[k] := by
  induction bs generalizing hb i k with
  | nil => simp at hk
  | cons b bs ih =>
    simp only [length_cons] at hfit hk
    cases k with
    | zero =>
      rw [putBlocks, putBlocks_word_of_le (by omega) (by omega),
        Block.word_setWord_self (by omega) (hw b (by simp))]
      rfl
    | succ k =>
      have h := ih (hb.setWord (i + 1) b) (i + 1) (k := k) (by omega) (by omega)
        fun x hx => hw x (by simp [hx])
      rw [putBlocks, show i + (k + 1) + 1 = i + 1 + k + 1 by omega, h]
      rfl

/-- `read_head` reads back what `write_head` wrote. -/
theorem header_putBlocks (hlen : bs.length ≤ LOGSIZE) (hw : ∀ b ∈ bs, b < 2 ^ 32) :
    header (putBlocks (hb.setWord 0 bs.length) 0 bs) = bs := by
  simp only [LOGSIZE, MAXOPBLOCKS] at hlen
  have hn : (putBlocks (hb.setWord 0 bs.length) 0 bs).word 0 = bs.length := by
    rw [putBlocks_word_of_le (le_refl 0) (by simp only [BSIZE]; omega),
      Block.word_setWord_self (by decide) (by omega)]
  have hit : iterations bs.length = bs.length := by
    rw [iterations, if_pos (by omega)]
  refine ext_getElem (by simp [header, hn, hit]) fun k h1 h2 => ?_
  have h := putBlocks_word (hb.setWord 0 bs.length) 0 h2 (by simp only [BSIZE]; omega) hw
  rw [show 0 + k + 1 = k + 1 by omega] at h
  simpa [header] using h

theorem header_eq_nil (h : hb.word 0 = 0) : header hb = [] := by
  simp [header, h, iterations]

theorem write_head_issues (m : Machine) :
    Issues m [(m.start, putBlocks ((m.view m.start).setWord 0 m.lh.length) 0 m.lh)]
      (write_head m) := by
  have h := (bread_issues m m.start).trans (bwrite_issues (bread m m.start).2 m.start
    (putBlocks ((m.view m.start).setWord 0 m.lh.length) 0 m.lh))
  simpa [write_head, bread_fst] using h

/-- The header that clears the log. -/
theorem clear_issues (h : Issues m ws m') :
    ∃ hb : Block, hb.word 0 = 0 ∧
      Issues m (ws ++ [(m.start, hb)]) (write_head { m' with lh := [] }) := by
  refine ⟨(m'.view m.start).setWord 0 0, Block.word_setWord_self (by decide) (by decide), ?_⟩
  have h' := (h.setLh []).trans (write_head_issues { m' with lh := [] })
  simpa [putBlocks, h.start, Machine.view] using h'

/-! ## Recovery -/

/-- `b` lies in the log region. -/
def InLog (start size b : Nat) : Prop := start ≤ b ∧ b < start + size

/-- Installing what the header of `d` lists gives the home blocks `h`. -/
structure Recovers (start size : Nat) (d h : Disk) : Prop where
  short : (header (d start)).length < size
  home  : ∀ b ∈ header (d start), ¬ InLog start size b
  view  : ∀ b, ¬ InLog start size b →
    apply d (installs d start 0 (header (d start))) b = h b

variable {w : Nat × Block}

theorem mem_installs (h : w ∈ installs d start tail bs) : w.1 ∈ bs := by
  induction bs generalizing tail with
  | nil => simp [installs] at h
  | cons b bs ih =>
    rcases mem_cons.mp h with rfl | h
    · simp
    · exact mem_cons_of_mem _ (ih h)

theorem mem_logs (h : w ∈ logs d start tail bs) : IsSlot start tail bs.length w.1 := by
  induction bs generalizing tail with
  | nil => simp [logs] at h
  | cons b bs ih =>
    simp only [IsSlot, length_cons]
    rcases mem_cons.mp h with rfl | h
    · simp only
      omega
    · have := ih h
      simp only [IsSlot] at this
      omega

variable {size : Nat} {h : Disk}

section

variable (hr : Recovers start size d h)
include hr

/-- The writes a recovery issues: the installation, then a header with no blocks. -/
theorem recover_issues :
    ∃ hb : Block, hb.word 0 = 0 ∧
      Issues (powerOn start size d)
        (installs d start 0 (header (d start)) ++ [(start, hb)])
        (recover_from_log (powerOn start size d)) := by
  have hview : (powerOn start size d).view = d := by
    funext b
    simp [powerOn, Machine.view]
  have hread := (bread_issues (powerOn start size d) start).setLh (header (d start))
  have hhead : read_head (powerOn start size d) =
      { (bread (powerOn start size d) start).2 with lh := header (d start) } := by
    simp [read_head, powerOn, bread]
  rw [← hhead] at hread
  have hlh : (read_head (powerOn start size d)).lh = header (d start) := by rw [hhead]
  have hinst : Issues (read_head (powerOn start size d)) (installs d start 0 (header (d start)))
      (install_trans (read_head (powerOn start size d))) := by
    have hslot : ∀ b ∈ header (d start), ¬ IsSlot (read_head (powerOn start size d)).start 0
        (header (d start)).length b := by
      intro b hb hs
      have hshort := hr.short
      refine hr.home b hb ?_
      rw [hread.start] at hs
      simp only [IsSlot, InLog, powerOn] at hs ⊢
      omega
    have h := installFrom_issues hslot
    rw [hread.view, hread.start, apply_nil, hview] at h
    unfold install_trans
    rw [hlh]
    exact h
  obtain ⟨hb, hzero, hclear⟩ := clear_issues (hread.trans hinst)
  exact ⟨hb, hzero, hclear⟩

omit hr in
/-- With an empty header the home blocks are what they are. -/
theorem recovers_of_empty (hsize : 0 < size) (hzero : (d start).word 0 = 0)
    (heq : ∀ b, ¬ InLog start size b → d b = h b) : Recovers start size d h := by
  have hnil := header_eq_nil hzero
  refine ⟨by simpa [hnil] using hsize, by simp [hnil], fun b hb => ?_⟩
  rw [hnil]
  exact heq b hb

/-- Cutting off an installation and the clearing of the header anywhere keeps
    what recovery gives. -/
theorem Recovers.take (hzero : hb.word 0 = 0) (k : Nat) :
    Recovers start size
      (apply d ((installs d start 0 (header (d start)) ++ [(start, hb)]).take k)) h := by
  have hsize : 0 < size := lt_of_le_of_lt (Nat.zero_le _) hr.short
  have hstart : InLog start size start := by
    simp only [InLog]
    omega
  rcases lt_or_ge (installs d start 0 (header (d start))).length k with hk | hk
  · -- everything was written
    rw [take_of_length_le (by simp; omega), apply_append]
    refine recovers_of_empty hsize (by simpa using hzero) fun b hb => ?_
    have hne : b ≠ start := by
      rintro rfl
      exact hb hstart
    rw [← hr.view b hb]
    simp [hne]
  · -- only home blocks were written
    rw [take_append_of_le_length hk]
    have hmem : ∀ w ∈ (installs d start 0 (header (d start))).take k,
        w.1 ∈ header (d start) := fun w hw => mem_installs (mem_of_mem_take hw)
    have hlog : ∀ b, InLog start size b →
        apply d ((installs d start 0 (header (d start))).take k) b = d b := by
      intro b hb
      refine apply_of_notMem fun w hw hwb => hr.home w.1 (hmem w hw) ?_
      rw [hwb]
      exact hb
    generalize hd : apply d ((installs d start 0 (header (d start))).take k) = d' at hlog
    have hhead : header (d' start) = header (d start) := by rw [hlog start hstart]
    have hinst : installs d' start 0 (header (d start)) = installs d start 0 (header (d start)) :=
      installs_congr fun b hs => by
        refine hlog b ?_
        have hshort := hr.short
        simp only [IsSlot, InLog] at hs ⊢
        omega
    refine ⟨by rw [hhead]; exact hr.short, by rw [hhead]; exact hr.home, fun b hb => ?_⟩
    rw [hhead, hinst, ← hr.view b hb, ← hd]
    exact congrFun (apply_absorb fun u hu => ⟨u, mem_of_mem_take hu, rfl⟩) b

theorem recovers_interrupt (k : Nat) :
    Recovers start size (interrupt (recovery start size) d k) h := by
  obtain ⟨hb, hzero, hiss⟩ := recover_issues hr
  have hplan : recovery start size d =
      installs d start 0 (header (d start)) ++ [(start, hb)] := by
    simpa [recovery, issued, powerOn] using hiss.writes
  rw [interrupt, hplan]
  exact hr.take hzero k

/-- A recovery that completes empties the header and leaves the home blocks `h`. -/
theorem recovers_complete :
    ((recover_from_log (powerOn start size d)).disk start).word 0 = 0 ∧
      ∀ b, ¬ InLog start size b →
        (recover_from_log (powerOn start size d)).disk b = h b := by
  obtain ⟨hb, hzero, hiss⟩ := recover_issues hr
  have hsize : 0 < size := lt_of_le_of_lt (Nat.zero_le _) hr.short
  rw [hiss.disk, apply_append]
  refine ⟨by simpa using hzero, fun b hb => ?_⟩
  have hne : b ≠ start := by
    rintro rfl
    exact hb (by simp only [InLog]; omega)
  rw [← hr.view b hb]
  simp [hne, powerOn]

/-- However often recovery is cut off and restarted. -/
theorem recovered_eq (ks : List Nat) :
    (recovered start size d ks start).word 0 = 0 ∧
      ∀ b, ¬ InLog start size b → recovered start size d ks b = h b :=
  recovers_complete (interrupted_invariant (I := fun d => Recovers start size d h)
    (fun _ k hd => recovers_interrupt hd k) hr ks)

end

/-! ## The commit -/

/-- A transaction ready to commit: its blocks are home blocks, they fit in the log and in the
    `LOGSIZE` entries of the header, and the on-disk header is empty. -/
structure Transaction (m : Machine) : Prop where
  fits    : m.lh.length + 1 ≤ m.size
  entries : m.lh.length ≤ LOGSIZE
  uint    : ∀ b ∈ m.lh, b < 2 ^ 32
  home    : ∀ b ∈ m.lh, ¬ InLog m.start m.size b
  empty   : (m.disk m.start).word 0 = 0

/-- The home blocks after the transaction. -/
def Machine.new (m : Machine) : Disk := fun b => if b ∈ m.lh then m.view b else m.disk b

/-- The first `write_head` is among the first `k` writes of `commit`. -/
def HeadWritten (m : Machine) (k : Nat) : Prop :=
  ∃ w ∈ (issued commit m).take k, w.1 = m.start

/-- The log holds what `write_log` put there. -/
theorem installs_logs (d v : Disk) (start tail : Nat) (bs : List Nat) :
    installs (apply d (logs v start tail bs)) start tail bs = bs.map fun b => (b, v b) := by
  induction bs generalizing d tail with
  | nil => rfl
  | cons b bs ih =>
    have hfirst : apply d (logs v start tail (b :: bs)) (start + tail + 1) = v b := by
      rw [logs, apply_cons, apply_of_notMem fun w hw => ?_, update_self]
      have := mem_logs hw
      simp only [IsSlot] at this
      omega
    rw [installs, hfirst, map_cons]
    exact congrArg _ (ih _ _)

theorem installs_committed (d v : Disk) (start : Nat) (bs : List Nat) (hb : Block) :
    installs (apply d (logs v start 0 bs ++ [(start, hb)])) start 0 bs =
      bs.map fun b => (b, v b) := by
  rw [← installs_logs d v start 0 bs, apply_append]
  refine installs_congr fun x hx => update_of_ne ?_ _ _
  simp only [IsSlot] at hx
  omega

/-- The disk once the header is written: recovery gives the new contents. -/
theorem Transaction.recovers_new (h : Transaction m) (hhead : header hb = m.lh) :
    Recovers m.start m.size
      (apply m.disk (logs m.view m.start 0 m.lh ++ [(m.start, hb)])) m.new := by
  have hfits := h.fits
  have hat : apply m.disk (logs m.view m.start 0 m.lh ++ [(m.start, hb)]) m.start = hb := by
    simp [apply_append]
  refine ⟨?_, ?_, fun b hb' => ?_⟩
  · rw [hat, hhead]
    omega
  · rw [hat, hhead]
    exact h.home
  · rw [hat, hhead, installs_committed]
    unfold Machine.new
    by_cases hmem : b ∈ m.lh
    · rw [if_pos hmem]
      refine apply_eq ⟨(b, m.view b), by simpa using hmem, rfl⟩ ?_
      rintro w hw rfl
      obtain ⟨x, -, rfl⟩ := mem_map.mp hw
      rfl
    · rw [if_neg hmem, apply_of_notMem, apply_of_notMem]
      · rintro w hw rfl
        refine hb' ?_
        rcases mem_append.mp hw with hw | hw
        · have hs := mem_logs hw
          simp only [IsSlot, InLog] at hs ⊢
          omega
        · obtain rfl : w = (m.start, hb) := by simpa using hw
          simp only [InLog]
          omega
      · rintro w hw rfl
        obtain ⟨x, hx, rfl⟩ := mem_map.mp hw
        exact hmem hx

/-- While only the log was written, recovery gives the old contents. -/
theorem Transaction.recovers_old (h : Transaction m) (k : Nat) :
    Recovers m.start m.size (apply m.disk ((logs m.view m.start 0 m.lh).take k)) m.disk := by
  have hfits := h.fits
  have hslot : ∀ w ∈ (logs m.view m.start 0 m.lh).take k, m.start < w.1 ∧
      InLog m.start m.size w.1 := by
    intro w hw
    have hs := mem_logs (mem_of_mem_take hw)
    simp only [IsSlot, InLog] at hs ⊢
    omega
  refine recovers_of_empty (by omega) ?_ fun b hb => ?_
  · rw [apply_of_notMem fun w hw => (hslot w hw).1.ne']
    exact h.empty
  · refine apply_of_notMem ?_
    rintro w hw rfl
    exact hb (hslot w hw).2

@[simp] theorem logFrom_lh (m : Machine) (tail : Nat) (bs : List Nat) :
    (logFrom m tail bs).lh = m.lh := by
  induction bs generalizing m tail with
  | nil => rfl
  | cons b bs ih => simp [logFrom, ih, bwrite]

@[simp] theorem write_head_lh (m : Machine) : (write_head m).lh = m.lh := by
  simp [write_head, bwrite]

/-- The writes of `commit`: the log, a header that lists the transaction, the
    installation and a header that lists nothing. -/
theorem Transaction.commit_issues (h : Transaction m) (hn : 0 < m.lh.length) :
    ∃ hb hb' : Block, header hb = m.lh ∧ hb'.word 0 = 0 ∧
      issued commit m =
        logs m.view m.start 0 m.lh ++ [(m.start, hb)] ++
          (m.lh.map (fun b => (b, m.view b)) ++ [(m.start, hb')]) := by
  have hslot : ∀ b ∈ m.lh, ¬ IsSlot m.start 0 m.lh.length b := by
    intro b hb hs
    have hfits := h.fits
    refine h.home b hb ?_
    simp only [IsSlot, InLog] at hs ⊢
    omega
  have hlog : Issues { m with writes := [] } (logs m.view m.start 0 m.lh)
      (write_log { m with writes := [] }) := logFrom_issues (fun _ _ => rfl) hslot
  have hlh : (write_log { m with writes := [] }).lh = m.lh := logFrom_lh _ _ _
  have hcommit : commit { m with writes := [] } =
      write_head { install_trans (write_head (write_log { m with writes := [] })) with
        lh := [] } := if_pos hn
  generalize write_log { m with writes := [] } = m1 at hlog hlh hcommit
  obtain ⟨hb, hread, hto⟩ : ∃ hb : Block, header hb = m.lh ∧
      Issues { m with writes := [] } (logs m.view m.start 0 m.lh ++ [(m.start, hb)])
        (write_head m1) := by
    have hhead := write_head_issues m1
    rw [hlh, show m1.start = m.start from hlog.start] at hhead
    exact ⟨_, header_putBlocks h.entries h.uint, hlog.trans hhead⟩
  have hlh2 : (write_head m1).lh = m.lh := by rw [write_head_lh, hlh]
  generalize write_head m1 = m2 at hto hlh2 hcommit
  have hstart : m2.start = m.start := hto.start
  have hinst : Issues m2 (m.lh.map fun b => (b, m.view b)) (install_trans m2) := by
    have h' := installFrom_issues (m := m2) (hstart ▸ hslot)
    rw [hto.view, hstart] at h'
    unfold install_trans
    rw [hlh2]
    exact installs_committed m.view m.view m.start m.lh hb ▸ h'
  obtain ⟨hb', hzero, hiss⟩ := clear_issues (hto.trans hinst)
  refine ⟨hb, hb', hread, hzero, ?_⟩
  rw [issued, hcommit, hiss.writes]
  simp

/-- On every disk a crash of `commit` leaves, recovery gives the new contents
    if the header was written and the old contents if not. -/
theorem Transaction.recovers (h : Transaction m) (k : Nat) :
    (HeadWritten m k →
      Recovers m.start m.size (apply m.disk ((issued commit m).take k)) m.new) ∧
    (¬ HeadWritten m k →
      Recovers m.start m.size (apply m.disk ((issued commit m).take k)) m.disk) := by
  rcases Nat.eq_zero_or_pos m.lh.length with hn | hn
  · -- an empty transaction issues nothing
    have hnone : issued commit m = [] := by simp [issued, commit, hn]
    refine ⟨fun hw => ?_, fun _ => ?_⟩
    · obtain ⟨w, hw, -⟩ := hw
      simp [hnone] at hw
    · rw [hnone, take_nil, apply_nil]
      exact recovers_of_empty (by have := h.fits; omega) h.empty fun _ _ => rfl
  obtain ⟨hb, hb', hhead, hzero, hiss⟩ := h.commit_issues hn
  unfold HeadWritten
  rw [hiss]
  rcases lt_or_ge (logs m.view m.start 0 m.lh).length k with hk | hk
  · -- the log and the header were written
    obtain ⟨j, rfl⟩ : ∃ j, k = (logs m.view m.start 0 m.lh ++ [(m.start, hb)]).length + j :=
      ⟨k - ((logs m.view m.start 0 m.lh).length + 1), by simp; omega⟩
    rw [take_length_add_append]
    refine ⟨fun _ => ?_, fun hno => absurd ⟨(m.start, hb), by simp, rfl⟩ hno⟩
    have hnew := (h.recovers_new hhead).take hzero j
    have hat : apply m.disk (logs m.view m.start 0 m.lh ++ [(m.start, hb)]) m.start = hb := by
      simp [apply_append]
    rwa [hat, hhead, installs_committed, ← apply_append] at hnew
  · -- only blocks of the log were written
    rw [append_assoc, take_append_of_le_length hk]
    refine ⟨?_, fun _ => h.recovers_old k⟩
    rintro ⟨w, hw, hws⟩
    have hs := mem_logs (mem_of_mem_take hw)
    simp only [IsSlot] at hs
    omega

/-- **Crash atomicity.** After a crash anywhere in `commit` and any number of interrupted
    recoveries, a recovery that completes leaves an empty header, and every home block at its new
    contents if the first `write_head` reached the disk, at its old contents if not. -/
theorem crash_atomic {m : Machine} (h : Transaction m) (k : Nat) (ks : List Nat) :
    let final := recovered m.start m.size (apply m.disk ((issued commit m).take k)) ks
    (final m.start).word 0 = 0 ∧
      (HeadWritten m k → ∀ b, ¬ InLog m.start m.size b → final b = m.new b) ∧
      (¬ HeadWritten m k → ∀ b, ¬ InLog m.start m.size b → final b = m.disk b) := by
  intro final
  obtain ⟨hnew, hold⟩ := h.recovers k
  by_cases hw : HeadWritten m k
  · obtain ⟨hempty, heq⟩ := recovered_eq (hnew hw) ks
    exact ⟨hempty, fun _ => heq, fun hno => absurd hw hno⟩
  · obtain ⟨hempty, heq⟩ := recovered_eq (hold hw) ks
    exact ⟨hempty, fun hyes => absurd hyes hw, fun _ => heq⟩

/-- Two blocks changed in the cache of an empty disk, with the log where `mkfs` puts it. -/
def twoBlocks : Machine where
  start  := 2
  size   := LOGSIZE
  lh     := [100, 200]
  disk   := fun _ => Block.fill 0
  cache  := fun b => if b = 100 then some (.fill 7) else if b = 200 then some (.fill 9) else none
  writes := []

theorem twoBlocks_transaction : Transaction twoBlocks where
  fits := by decide
  entries := by decide
  uint := by decide
  home := by simp [twoBlocks, InLog, LOGSIZE, MAXOPBLOCKS]
  empty := by decide

/-- The crash comes after the header and one installation, and the first
    recovery stops after one write. -/
theorem crash_atomic_twoBlocks :
    Transaction twoBlocks ∧ HeadWritten twoBlocks 4 ∧
      recovered twoBlocks.start twoBlocks.size
        (apply twoBlocks.disk ((issued commit twoBlocks).take 4)) [1] 200 = .fill 9 := by
  have hw : HeadWritten twoBlocks 4 :=
    ⟨_, List.Mem.tail _ (List.Mem.tail _ (List.Mem.head _)), rfl⟩
  have hout : ¬ InLog twoBlocks.start twoBlocks.size 200 := by
    simp [twoBlocks, InLog, LOGSIZE, MAXOPBLOCKS]
  refine ⟨twoBlocks_transaction, hw, ?_⟩
  rw [(crash_atomic twoBlocks_transaction 4 [1]).2.1 hw 200 hout]
  rfl

end Xv6.Log
