import Xv6.Bio.Pool
import Xv6.Log.Crash
import Xv6.Log.Safety

/-! # The buffer cache under the log

    The processes of `Bio.Pool` together with the log of `log.c`. A process can read, change and
    release buffers at any time, as `fileread` does; it calls `log_write` between `begin_op` and
    `end_op`; and the process whose `end_op` was the last one runs `commit`.

    `commit` calls `bread`, `bwrite` and `brelse` like any other code. While it runs, `log.lh` does
    not change, so its loops are unrolled into the list of statements that the committing process
    still has to execute.
-/

namespace Xv6.Bio

open LTS Function Option

/-! ## `commit` -/

/-- A statement of `commit`. Its buffers are in two variables. -/
inductive Op where
  /-- `r = bread(log.dev, blockno)`. -/
  | bread (r : Fin 2) (blockno : Nat)
  /-- `memmove(dst->data, src->data, BSIZE)`. -/
  | memmove (dst src : Fin 2)
  /-- Store `log.lh` in the header block `r`. -/
  | fill (r : Fin 2)
  | bwrite (r : Fin 2)
  | brelse (r : Fin 2)
  /-- No statement: here the transaction is committed. -/
  | committed
  /-- `log.lh.n = 0`. -/
  | clear
  deriving DecidableEq

/-- The loop of `write_log` and of `install_trans` from index `tail` on; the block of the log is in
    variable 0 and the home block in variable 1. -/
def copyBlocks (dst src : Fin 2) (start : Nat) : Nat → List Nat → List Op
  | _, [] => []
  | tail, b :: bs =>
      [.bread 0 (start + tail + 1), .bread 1 b, .memmove dst src, .bwrite dst, .brelse src,
        .brelse dst] ++ copyBlocks dst src start (tail + 1) bs

def write_log (start : Nat) : Nat → List Nat → List Op := copyBlocks 0 1 start

def install_trans (start : Nat) : Nat → List Nat → List Op := copyBlocks 1 0 start

def write_head (start : Nat) : List Op := [.bread 0 start, .fill 0, .bwrite 0, .brelse 0]

/-- With `log.lh.n = 0`, clearing it changes nothing. -/
def commit (start : Nat) (lh : List Nat) : List Op :=
  if 0 < lh.length then
    write_log start 0 lh ++ (write_head start ++ (.committed ::
      (install_trans start 0 lh ++ (.clear :: write_head start))))
  else [.clear]

/-! ## Model -/

/-- The process executes its own code, in an operation or not. -/
def Runs : Log.Pc → Bool
  | .out => true
  | .inOp _ => true
  | _ => false

structure State (P : Type) extends Pool P where
  log       : Log.State P
  start     : Nat
  dev       : Nat
  todo      : P → List Op
  /-- The header of the transaction that is being committed is on the disk. -/
  committed : Bool

inductive Event (P : Type) where
  | begin_op (p : P)
  | test (p : P)
  | end_op (p : P)
  | finish (p : P)
  | bread (p : P) (r : Fin 2) (dev blockno : Nat)
  | bget (p : P)
  /-- `kill`, or the `wakeup(b)` of `ideintr`. -/
  | wake (p : P)
  | iderw (p : P)
  | modify (p : P) (b : Fin NBUF) (data : Block)
  | bwrite (p : P) (b : Fin NBUF)
  | brelse (p : P) (b : Fin NBUF)
  | log_write (p : P) (b : Fin NBUF)
  | append (p : P)
  | commit (p : P)

variable {P : Type} [DecidableEq P] {s : State P} {e : Event P}

/-- `brelse` comes after `log_write` or `bwrite`, if the data was changed. -/
def Releasable (s : Pool P) (p : P) (b : Fin NBUF) : Prop :=
  s.held p b = some .clean ∨ s.held p b = some .written

instance (s : Pool P) (p : P) (b : Fin NBUF) : Decidable (Releasable s p b) :=
  inferInstanceAs (Decidable (_ ∨ _))

/-- One statement of `commit`. -/
def exec (s : State P) (p : P) : Op → Option (State P)
  | .bread r blockno => some { s with toPool := s.move p (.getting r s.dev blockno) }
  | .memmove dst src =>
      if (s.held p (s.var p dst)).isSome ∧ (s.held p (s.var p src)).isSome then
        some { s with
          toPool := s.modify p (s.var p dst) (s.cache.buf (s.var p src)).data }
      else none
  | .fill r =>
      if (s.held p (s.var p r)).isSome then
        some { s with toPool := s.modify p (s.var p r) (Log.putBlocks
          ((s.cache.buf (s.var p r)).data.setWord 0 s.log.lh.length) 0 s.log.lh) }
      else none
  | .bwrite r =>
      if (s.held p (s.var p r)).isSome then
        some { s with toPool := s.toPool.bwrite p (s.var p r) }
      else none
  | .brelse r =>
      if Releasable s.toPool p (s.var p r) then
        some { s with toPool := s.toPool.brelse p (s.var p r) }
      else none
  | .committed => some { s with committed := true }
  | .clear =>
      (Log.step s.log (.commit p)).map fun log => { s with log := log, committed := false }

/-- One step. -/
def step (s : State P) (e : Event P) : Option (State P) :=
  if s.panicked ≠ none ∨ s.log.panicked ≠ none then none else
  match e with
  | .begin_op p =>
      if s.pc p = .idle then
        (Log.step s.log (.begin_op p)).map fun log => { s with log := log }
      else none
  | .test p => (Log.step s.log (.test p)).map fun log => { s with log := log }
  | .end_op p =>
      if s.pc p = .idle then
        (Log.step s.log (.end_op p)).map fun log => { s with
          log := log
          todo := if log.pc p = .ending then
            update s.todo p (Bio.commit s.start s.log.lh) else s.todo }
      else none
  | .finish p =>
      if s.pc p = .idle ∧ s.todo p = [] then
        (Log.step s.log (.finish p)).map fun log => { s with log := log }
      else none
  | .bread p r dev blockno =>
      if s.pc p = .idle ∧ Runs (s.log.pc p) ∧ dev ≠ NODEV then
        some { s with toPool := s.move p (.getting r dev blockno) }
      else none
  | .bget p =>
      match s.pc p with
      | .getting r dev blockno => some { s with toPool := s.look p r dev blockno }
      | _ => none
  | .wake p =>
      match s.pc p with
      | .asleep _ r dev blockno => some { s with toPool := s.move p (.getting r dev blockno) }
      | _ => none
  | .iderw p =>
      match s.pc p with
      | .io b => some { s with toPool := s.toPool.iderw p b }
      | _ => none
  | .modify p b data =>
      if s.pc p = .idle ∧ Runs (s.log.pc p) ∧ (s.held p b).isSome then
        some { s with toPool := s.toPool.modify p b data }
      else none
  | .bwrite p b =>
      if s.pc p = .idle ∧ Runs (s.log.pc p) ∧ (s.held p b).isSome then
        some { s with toPool := s.toPool.bwrite p b }
      else none
  | .brelse p b =>
      if s.pc p = .idle ∧ Runs (s.log.pc p) ∧ Releasable s.toPool p b then
        some { s with toPool := s.toPool.brelse p b }
      else none
  | .log_write p b =>
      if s.pc p = .idle ∧ (s.held p b).isSome then
        (Log.step s.log (.log_write p (s.cache.buf b).blockno)).map fun log => { s with
          log := log
          toPool := if log.panicked = none then s.move p (.logging b) else s.toPool }
      else none
  | .append p =>
      match s.pc p with
      | .logging b =>
          (Log.step s.log (.append p (s.cache.buf b).blockno)).map fun log => { s with
            log := log
            toPool := s.mark p b }
      | _ => none
  | .commit p =>
      if s.pc p = .idle ∧ (s.log.pc p).Commits then
        match s.todo p with
        | [] => none
        | op :: ops => (exec s p op).map fun s => { s with todo := update s.todo p ops }
      else none

/-- After `binit` and `initlog`, with an empty log at `start` on device `dev`. -/
def boot (disk : Nat → Nat → Block) (start dev : Nat) : State P where
  cache := binit
  disk := disk
  pc := fun _ => .idle
  held := fun _ _ => none
  var := fun _ _ => 0
  content := disk
  panicked := none
  log := Log.boot
  start := start
  dev := dev
  todo := fun _ => []
  committed := false

variable (P) in
def system : System (State P) (Event P) :=
  System.ofStep (fun s => ∃ disk start dev, dev ≠ NODEV ∧ s = boot disk start dev) step

/-! ## What a step can do -/

/-- Everything one step can do, with its guards. -/
inductive Fires (s : State P) : Event P → State P → Prop where
  | begin_op {p : P} {log : Log.State P} (hlog : Log.step s.log (.begin_op p) = some log) :
      Fires s (.begin_op p) { s with log := log }
  | test {p : P} {log : Log.State P} (hlog : Log.step s.log (.test p) = some log) :
      Fires s (.test p) { s with log := log }
  | end_op {p : P} {log : Log.State P} (hpc : s.pc p = .idle)
      (hlog : Log.step s.log (.end_op p) = some log) :
      Fires s (.end_op p) { s with
        log := log
        todo := if log.pc p = .ending then
          update s.todo p (Bio.commit s.start s.log.lh) else s.todo }
  | finish {p : P} {log : Log.State P} (hpc : s.pc p = .idle)
      (hlog : Log.step s.log (.finish p) = some log) : Fires s (.finish p) { s with log := log }
  | call {e : Event P} {p : P} {pool : Pool P} (hpc : s.pc p = .idle) (hruns : Runs (s.log.pc p))
      (hact : Acts s.toPool p pool) : Fires s e { s with toPool := pool }
  | goOn {e : Event P} {p : P} {pool : Pool P} (hpc : s.pc p ≠ .idle)
      (he : ∀ r dev blockno, s.pc p = .getting r dev blockno → e = .bget p)
      (hact : Acts s.toPool p pool) : Fires s e { s with toPool := pool }
  | bwrite {p : P} {b : Fin NBUF} (hpc : s.pc p = .idle) (hruns : Runs (s.log.pc p))
      (hheld : (s.held p b).isSome) :
      Fires s (.bwrite p b) { s with toPool := s.toPool.bwrite p b }
  | log_panic {p : P} {b : Fin NBUF} {log : Log.State P} (hpc : s.pc p = .idle)
      (hlog : Log.step s.log (.log_write p (s.cache.buf b).blockno) = some log) :
      Fires s (.log_write p b) { s with log := log }
  | log_write {p : P} {b : Fin NBUF} {log : Log.State P} (hpc : s.pc p = .idle)
      (hheld : (s.held p b).isSome)
      (hlog : Log.step s.log (.log_write p (s.cache.buf b).blockno) = some log) :
      Fires s (.log_write p b) { s with log := log, toPool := s.move p (.logging b) }
  | append {p : P} {b : Fin NBUF} {log : Log.State P} (hpc : s.pc p = .logging b)
      (hlog : Log.step s.log (.append p (s.cache.buf b).blockno) = some log) :
      Fires s (.append p) { s with log := log, toPool := s.mark p b }
  | op_bread {p : P} {r : Fin 2} {n : Nat} {ops : List Op} (hpc : s.pc p = .idle)
      (hc : (s.log.pc p).Commits) (htodo : s.todo p = .bread r n :: ops) :
      Fires s (.commit p) { s with
        toPool := s.move p (.getting r s.dev n), todo := update s.todo p ops }
  | op_modify {p : P} {op : Op} {r : Fin 2} {data : Block} {ops : List Op} (hpc : s.pc p = .idle)
      (hc : (s.log.pc p).Commits) (htodo : s.todo p = op :: ops)
      (hop : op = .fill r ∨ ∃ r', op = .memmove r r') (hheld : (s.held p (s.var p r)).isSome) :
      Fires s (.commit p) { s with
        toPool := s.modify p (s.var p r) data, todo := update s.todo p ops }
  | op_bwrite {p : P} {r : Fin 2} {ops : List Op} (hpc : s.pc p = .idle)
      (hc : (s.log.pc p).Commits) (htodo : s.todo p = .bwrite r :: ops)
      (hheld : (s.held p (s.var p r)).isSome) :
      Fires s (.commit p) { s with
        toPool := s.toPool.bwrite p (s.var p r), todo := update s.todo p ops }
  | op_brelse {p : P} {r : Fin 2} {ops : List Op} (hpc : s.pc p = .idle)
      (hc : (s.log.pc p).Commits) (htodo : s.todo p = .brelse r :: ops)
      (hrel : Releasable s.toPool p (s.var p r)) :
      Fires s (.commit p) { s with
        toPool := s.toPool.brelse p (s.var p r), todo := update s.todo p ops }
  | op_committed {p : P} {ops : List Op} (hpc : s.pc p = .idle) (hc : (s.log.pc p).Commits)
      (htodo : s.todo p = .committed :: ops) :
      Fires s (.commit p) { s with committed := true, todo := update s.todo p ops }
  | op_clear {p : P} {ops : List Op} {log : Log.State P} (hpc : s.pc p = .idle)
      (htodo : s.todo p = .clear :: ops) (hlog : Log.step s.log (.commit p) = some log) :
      Fires s (.commit p) { s with
        log := log, committed := false, todo := update s.todo p ops }

theorem exec_fires {t : State P} {p : P} {op : Op} {ops : List Op} (hpc : s.pc p = .idle)
    (hc : (s.log.pc p).Commits) (htodo : s.todo p = op :: ops) (h : exec s p op = some t) :
    Fires s (.commit p) { t with todo := update t.todo p ops } := by
  cases op with
  | bread r n =>
    cases h
    exact .op_bread hpc hc htodo
  | memmove dst src =>
    obtain ⟨hheld, h⟩ := ite_none_right_eq_some.mp h
    cases h
    exact .op_modify hpc hc htodo (.inr ⟨src, rfl⟩) hheld.1
  | fill r =>
    obtain ⟨hheld, h⟩ := ite_none_right_eq_some.mp h
    cases h
    exact .op_modify hpc hc htodo (.inl rfl) hheld
  | bwrite r =>
    obtain ⟨hheld, h⟩ := ite_none_right_eq_some.mp h
    cases h
    exact .op_bwrite hpc hc htodo hheld
  | brelse r =>
    obtain ⟨hrel, h⟩ := ite_none_right_eq_some.mp h
    cases h
    exact .op_brelse hpc hc htodo hrel
  | committed =>
    cases h
    exact .op_committed hpc hc htodo
  | clear =>
    obtain ⟨log, hlog, rfl⟩ := map_eq_some_iff.mp h
    exact .op_clear hpc htodo hlog

theorem step_fires {s' : State P} (h : step s e = some s') : s.panicked = none ∧ Fires s e s' := by
  unfold step at h
  split at h
  · cases h
  next hp =>
  refine ⟨by simpa using (not_or.mp hp).1, ?_⟩
  cases e with
  | begin_op p =>
    obtain ⟨-, h⟩ := ite_none_right_eq_some.mp h
    obtain ⟨log, hlog, rfl⟩ := map_eq_some_iff.mp h
    exact .begin_op hlog
  | test p =>
    obtain ⟨log, hlog, rfl⟩ := map_eq_some_iff.mp h
    exact .test hlog
  | end_op p =>
    obtain ⟨hpc, h⟩ := ite_none_right_eq_some.mp h
    obtain ⟨log, hlog, rfl⟩ := map_eq_some_iff.mp h
    exact .end_op hpc hlog
  | finish p =>
    obtain ⟨hpc, h⟩ := ite_none_right_eq_some.mp h
    obtain ⟨log, hlog, rfl⟩ := map_eq_some_iff.mp h
    exact .finish hpc.1 hlog
  | bread p r dev blockno =>
    obtain ⟨hg, h⟩ := ite_none_right_eq_some.mp h
    cases h
    exact .call hg.1 hg.2.1 (.bread hg.1 hg.2.2)
  | bget p =>
    dsimp only at h
    split at h
    · next hpc =>
      cases h
      exact .goOn (by simp [hpc]) (fun _ _ _ _ => rfl) (.look hpc)
    · cases h
  | wake p =>
    dsimp only at h
    split at h
    · next hpc =>
      cases h
      exact .goOn (by simp [hpc]) (by simp [hpc]) (.wake hpc)
    · cases h
  | iderw p =>
    dsimp only at h
    split at h
    · next hpc =>
      cases h
      exact .goOn (by simp [hpc]) (by simp [hpc]) (.iderw hpc)
    · cases h
  | modify p b data =>
    obtain ⟨hg, h⟩ := ite_none_right_eq_some.mp h
    cases h
    exact .call hg.1 hg.2.1 (.modify hg.1 hg.2.2 data)
  | bwrite p b =>
    obtain ⟨hg, h⟩ := ite_none_right_eq_some.mp h
    cases h
    exact .bwrite hg.1 hg.2.1 hg.2.2
  | brelse p b =>
    obtain ⟨hg, h⟩ := ite_none_right_eq_some.mp h
    cases h
    exact .call hg.1 hg.2.1 (.brelse hg.1 hg.2.2)
  | log_write p b =>
    obtain ⟨hg, h⟩ := ite_none_right_eq_some.mp h
    obtain ⟨log, hlog, rfl⟩ := map_eq_some_iff.mp h
    split
    · exact .log_write hg.1 hg.2 hlog
    · exact .log_panic hg.1 hlog
  | append p =>
    dsimp only at h
    split at h
    · next hpc =>
      obtain ⟨log, hlog, rfl⟩ := map_eq_some_iff.mp h
      exact .append hpc hlog
    · cases h
  | commit p =>
    obtain ⟨hg, h⟩ := ite_none_right_eq_some.mp h
    split at h
    · cases h
    · next op ops htodo =>
      obtain ⟨t, ht, rfl⟩ := map_eq_some_iff.mp h
      exact exec_fires hg.1 hg.2 htodo ht

/-! ## Coherence along runs -/

variable {s s' : State P}

/-- The log makes a step of its own, or none. -/
theorem log_of_fires (hf : Fires s e s') :
    s'.log = s.log ∨ ∃ le, Log.step s.log le = some s'.log := by
  cases hf with
  | begin_op hlog | test hlog | end_op _ hlog | finish _ hlog | log_panic _ hlog
  | log_write _ _ hlog | append _ hlog | op_clear _ _ hlog => exact .inr ⟨_, hlog⟩
  | call | goOn | bwrite | op_bread | op_modify | op_bwrite | op_brelse | op_committed =>
    exact .inl rfl

theorem reachable_log (h : (system P).Reachable s) : (Log.system P).Reachable s.log := by
  refine System.invariant (I := fun s => (Log.system P).Reachable s.log) ?_ ?_ h
  · rintro s ⟨disk, start, dev, -, rfl⟩
    exact .of_init rfl
  · intro s e s' hs hstep
    rcases log_of_fires (step_fires hstep).2 with heq | ⟨le, hlog⟩
    · exact heq ▸ hs
    · exact hs.step hlog

theorem coherent_fires (hdev : s.dev ≠ NODEV) (h : Coherent s.toPool) (hf : Fires s e s') :
    Coherent s'.toPool ∧ s'.dev ≠ NODEV := by
  cases hf with
  | begin_op | test | end_op | finish | log_panic | op_committed | op_clear => exact ⟨h, hdev⟩
  | call _ _ hact | goOn _ _ hact => exact ⟨coherent_acts h hact, hdev⟩
  | bwrite hpc _ hheld | op_bwrite hpc _ _ hheld => exact ⟨h.bwrite hpc hheld, hdev⟩
  | log_write hpc hheld => exact ⟨h.logging hpc hheld, hdev⟩
  | append hpc => exact ⟨h.mark hpc, hdev⟩
  | op_bread hpc => exact ⟨coherent_acts h (.bread hpc hdev), hdev⟩
  | op_modify hpc _ _ _ hheld => exact ⟨h.modify hpc hheld _, hdev⟩
  | op_brelse hpc _ _ hrel => exact ⟨h.brelse hpc hrel, hdev⟩

omit [DecidableEq P] in
theorem coherent_boot (disk : Nat → Nat → Block) (start dev : Nat) :
    Coherent (boot disk start dev : State P).toPool where
  linked := linked_binit
  unique := fun _ _ hi => absurd rfl hi
  bufs := by
    intro b
    constructor <;> simp [boot, binit]
  getting := by
    intro p r dev blockno hp
    simp [boot] at hp
  disk := fun _ _ _ => rfl

theorem reachable_coherent (h : (system P).Reachable s) : Coherent s.toPool ∧ s.dev ≠ NODEV := by
  refine System.invariant (I := fun s => Coherent s.toPool ∧ s.dev ≠ NODEV) ?_ ?_ h
  · rintro s ⟨disk, start, dev, hdev, rfl⟩
    exact ⟨coherent_boot disk start dev, hdev⟩
  · intro s e s' ⟨hs, hdev⟩ hstep
    exact coherent_fires hdev hs (step_fires hstep).2

end Xv6.Bio
