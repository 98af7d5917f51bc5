import Xv6.Proc.Boot
import Xv6.Proc.Ends

/-! # A pipe that two processes share

    When the calls on descriptors go through, and a run in which the first process makes a pipe,
    duplicates a descriptor and forks.
-/

namespace Xv6.Kernel

open Program Mem Function

section

variable {L : Layout} {ok sp : Prop} {sh : Slot → Prop} {k k' : State} {fl : List Nat}
  {ρ : Nat → Role Tag} {x : Fin NFILE → Int} {p q : Slot} {f g : Fin NFILE} {fd fd' : Fin NOFILE}
  {a : Nat} {r : Int}

/-! ## `close` -/

theorem total_pipeclose (ha : L.IsPage a) (k : State) (w : Bool) :
    ∃ k', Ends (pipeclose L a w) k () k' := by
  obtain ⟨k2, hwake⟩ : ∃ k2, Ends (wakeup1 (if w then nread a else nwrite a))
      { k with pipe := update k.pipe a ((k.pipe a).close w) } () k2 := ⟨_, ends_modify.mpr rfl⟩
  obtain ⟨k', hlast⟩ : ∃ k', Ends (if (k2.pipe a).readopen = false ∧ (k2.pipe a).writeopen = false
      then onPhys (kfree L a) else return ()) k2 () k' := by
    split
    · exact ⟨_, ends_onPhys.mpr ⟨_, ends_kfree ha, rfl⟩⟩
    · exact ⟨_, ends_pure.mpr ⟨rfl, rfl⟩⟩
  exact ⟨k', ends_bind.mpr ⟨(), _, ends_modify.mpr rfl, ends_bind.mpr ⟨(), _, hwake,
    ends_get_bind.mpr hlast⟩⟩⟩

/-- `fileclose` on a file in use. -/
theorem total_fileclose (h : Inv L ok sp sh k ρ fl x) (href : (k.file f).ref ≠ 0) :
    ∃ k', Ends (fileclose L f) k () k' := by
  have hlt : ¬ (k.file f).ref < 1 := by omega
  by_cases hmore : (k.file f).ref - 1 > 0
  · refine ⟨k.setFile f fun y => { y with ref := y.ref - 1 }, ends_get_bind.mpr ?_⟩
    rw [if_neg hlt, if_pos hmore]
    exact ends_modifyFile.mpr rfl
  show ∃ k', (fileclose L f).run k = .ok ((), k')
  unfold fileclose
  rw [run_bind_of_ends (ends_get.mpr ⟨rfl, rfl⟩)]
  dsimp only
  rw [if_neg hlt, if_neg hmore, run_bind_of_ends ((ends_modifyFile (r := ())).mpr rfl)]
  cases htype : (k.file f).type with
  | pipe =>
    have hrole := h.pipe (h.files.isOpen f htype)
    exact total_pipeclose (h.mem.isPage hrole (by simp)) _ _
  | inode | none => exact ⟨_, rfl⟩

/-- An open file is in use. -/
theorem Files.ref_pos (h : Files k fun _ => 0) (hfd : (k.proc p).ofile fd = some f) :
    (k.file f).ref ≠ 0 := by
  have hcount := h.count f
  have hpos := Refs.count_pos (g := ofiles k) (x := (p, fd)) hfd
  omega

/-- `p` has closed the descriptor `fd`, which referred to `f`. -/
structure FdClosed (p : Slot) (fd : Fin NOFILE) (f : Fin NFILE) (k k' : State) : Prop where
  ofile   : ∀ q fd', (k'.proc q).ofile fd' =
    if q = p ∧ fd' = fd then none else (k.proc q).ofile fd'
  running : (k'.proc p).state = .running
  /-- An end stays if it is another file, or if there are more references to it. -/
  ends    : ∀ g a, IsEnd k g a → (g = f → 1 < (k.file f).ref) → IsEnd k' g a

/-- A process that runs can close a descriptor. -/
theorem step_close (hreach : ((system L).restrict fun _ l => Fits l.event).Reachable k)
    (hp : (k.proc p).state = .running) (hfd : (k.proc p).ofile fd = some f) :
    ∃ k', step L k ⟨.close p fd, []⟩ = some k' ∧ FdClosed p fd f k k' := by
  obtain ⟨ρ, fl, hinv⟩ := reachable_inv False False (fun _ _ hC => hC) False.elim False.elim hreach
  have h1 := (hinv.withDeny []).takeFd (p := p) (not_closed hp) hfd
  generalize hk1 : (k.withDeny []).setProc p _ = k1 at h1
  have hproc : k1.proc p = { k.proc p with ofile := update (k.proc p).ofile fd none } := by
    rw [← hk1]
    exact setProc_proc_self ..
  have hfile : k1.file = k.file := by
    rw [← hk1]
    rfl
  obtain ⟨k', hc⟩ := total_fileclose (f := f) h1 (by rw [hfile]; exact hinv.files.ref_pos hfd)
  obtain ⟨-, -, -, hw, -, hother⟩ := fileclose_spec h1 hc
  refine ⟨k', step_of_ends hp (ends_bind.mpr ⟨0, k', ends_get_bind.mpr ?_, rfl⟩),
    fun q fd' => ?_, ?_, fun g a hg hmore => ?_⟩
  · have hfd0 : ((k.withDeny []).proc p).ofile fd = some f := hfd
    rw [hfd0]
    exact ends_bind.mpr ⟨(), k1, ends_setFd.mpr hk1.symm, ends_bind.mpr ⟨(), k', hc, rfl⟩⟩
  · rw [hw.ofile q]
    by_cases hq : q = p
    · rw [hq, hproc]
      by_cases hfd' : fd' = fd <;> simp [hfd']
    · rw [← hk1, setProc_proc_ne hq, if_neg fun hc => hq hc.1]
      rfl
  · rw [hw.awake (by simp [hproc, hp]), hproc]
    exact hp
  · have hg1 : IsEnd k1 g a := hg.of_file (by rw [hfile])
    by_cases hgf : g = f
    · -- only the count changes
      subst hgf
      have hlt := hmore rfl
      rw [← hfile] at hlt
      replace hc := ends_get_bind.mp hc
      rw [if_neg (by omega), if_pos (by omega)] at hc
      obtain rfl := ends_modifyFile.mp hc
      exact keepsEnds_setFile rfl rfl g a hg1
    · exact hg1.of_file (hother g hgf)

/-! ## `pipe` -/

theorem ends_filealloc (h : freeFile k = some f) :
    Ends filealloc k (some f) (k.setFile f fun y => { y with ref := 1 }) := by
  refine ends_get_bind.mpr ?_
  rw [h]
  exact ends_bind.mpr ⟨(), _, ends_modifyFile.mpr rfl, rfl⟩

theorem ends_fdalloc (h : freeFd k p = some fd) : Ends (fdalloc p f) k (some fd)
    (k.setProc p fun y => { y with ofile := update y.ofile fd (some f) }) := by
  refine ends_get_bind.mpr ?_
  rw [h]
  exact ends_bind.mpr ⟨(), _, ends_setFd.mpr rfl, rfl⟩

/-- Without a page for the pipe, `pipe` fails. -/
theorem sys_pipe_refused (h : Inv L ok sp sh k ρ fl fun _ => 0)
    (hdeny : k.phys.deny.head? = some true) (p : Slot) :
    ∃ k', Ends (sys_pipe L p) k (-1) k' := by
  obtain ⟨k', he⟩ : ∃ k', Ends (pipealloc L) k none k' := by
    cases hrf : freeFile k with
    | none =>
      refine ⟨k, ends_bind.mpr ⟨none, k, ends_get_bind.mpr ?_, rfl⟩⟩
      rw [hrf]
      rfl
    | some rf =>
      have ha := ends_filealloc hrf
      obtain ⟨hno, -⟩ | ⟨_, hrf', -, -, h1⟩ := filealloc_spec h ha
      · cases hno
      cases hrf'
      have href1 : ((k.setFile rf fun y => { y with ref := 1 }).file rf).ref ≠ 0 := by simp
      cases hwf : freeFile (k.setFile rf fun y => { y with ref := 1 }) with
      | none =>
        obtain ⟨k2, hc⟩ := total_fileclose h1 href1
        refine ⟨k2, ends_bind.mpr ⟨_, _, ha, ends_bind.mpr ⟨none, _, ends_get_bind.mpr ?_,
          ends_bind.mpr ⟨(), k2, hc, rfl⟩⟩⟩⟩
        rw [hwf]
        rfl
      | some wf =>
        have ha' := ends_filealloc hwf
        obtain ⟨hno, -⟩ | ⟨_, hwf', hzero, -, h2⟩ := filealloc_spec h1 ha'
        · cases hno
        cases hwf'
        have hne : rf ≠ wf := by
          rintro rfl
          exact href1 hzero
        have hk : Ends kalloc k.phys 0 { k.phys with deny := k.phys.deny.tail } := by
          show kalloc k.phys = _
          unfold kalloc
          rw [if_pos hdeny]
        have h3 := h2.withDeny k.phys.deny.tail
        obtain ⟨k4, hc⟩ := total_fileclose (f := rf) h3 (by simp [State.withDeny, hne])
        obtain ⟨ρ4, fl4, h4, -, -, hother⟩ := fileclose_spec h3 hc
        obtain ⟨k5, hc'⟩ := total_fileclose (f := wf) h4 (by
          rw [hother wf (Ne.symm hne)]
          simp [State.withDeny])
        refine ⟨k5, ends_bind.mpr ⟨_, _, ha, ends_bind.mpr ⟨_, _, ha', ends_bind.mpr ⟨0, _,
          ends_onPhys.mpr ⟨_, hk, rfl⟩, ?_⟩⟩⟩⟩
        exact ends_bind.mpr ⟨(), k4, hc, ends_bind.mpr ⟨(), k5, hc', rfl⟩⟩
  exact ⟨k', ends_bind.mpr ⟨none, k', he, rfl⟩⟩

theorem freeFile_eq (hi : (k.file f).ref = 0) (hlt : ∀ g < f, (k.file g).ref ≠ 0) :
    freeFile k = some f := by
  unfold freeFile
  rw [← Fin.find?_eq_find?_finRange, Fin.find?_eq_some_iff]
  exact ⟨by simpa using hi, fun g hg => by simpa using hlt g hg⟩

theorem freeFd_eq (hi : (k.proc p).ofile fd = none) (hlt : ∀ i < fd, (k.proc p).ofile i ≠ none) :
    freeFd k p = some fd := by
  unfold freeFd
  rw [← Fin.find?_eq_find?_finRange, Fin.find?_eq_some_iff]
  exact ⟨by simp [hi], fun i h => by simpa using Option.isSome_iff_ne_none.mpr (hlt i h)⟩

/-- `pipe` of a process without descriptors, when no file is open. -/
theorem sys_pipe_first (h : Inv L ok sp sh k ρ fl fun _ => 0) (hp : (k.proc p).state = .running)
    (hnone : ∀ q fd, (k.proc q).ofile fd = none) (hg : Grants k.phys fl 1) :
    ∃ a k' ρ' fl', Ends (sys_pipe L p) k 0 k' ∧ Inv L ok sp sh k' ρ' fl' (fun _ => 0) ∧
      Took k.phys fl k'.phys fl' 1 ∧ IsEnd k' 0 a ∧ IsEnd k' 1 a ∧
      (∀ q, q ≠ p → k'.proc q = k.proc q) ∧ k'.proc p = { k.proc p with
        ofile := update (update (k.proc p).ofile 0 (some 0)) 1 (some 1) } := by
  have href : ∀ f, (k.file f).ref = 0 := by
    intro f
    have hcount := h.files.count f
    have hof : ofiles k = fun _ => none := funext fun y => hnone y.1 y.2
    rw [hof] at hcount
    simpa [Refs.count] using hcount
  have h0 : freeFile k = some 0 := freeFile_eq (href 0) fun g hg => absurd hg (Fin.not_lt_zero g)
  have h1 : freeFile (k.setFile 0 fun y => { y with ref := 1 }) = some 1 := by
    refine freeFile_eq ?_ fun g hg => ?_
    · rw [setFile_file_ne (by decide)]
      exact href 1
    · obtain rfl : g = 0 := Fin.ext (Nat.lt_one_iff.mp hg)
      simp
  obtain ⟨a, s', hk⟩ := ends_kalloc k.phys
  rcases kalloc_spec .pipe h.mem hk with ⟨-, -, hno⟩ | ⟨fl', rfl, hpage, -, htook, hmem⟩
  · exact absurd hg hno
  have ha : a ≠ 0 := by
    have := hpage.gt
    omega
  have hopen : Ends (pipealloc L) k (some (0, 1)) (openedPipe { (k.setFile 0 fun y =>
      { y with ref := 1 }).setFile 1 fun y => { y with ref := 1 } with phys := s' } 0 1 a) := by
    refine ends_bind.mpr ⟨some 0, _, ends_filealloc h0, ends_bind.mpr ⟨some 1, _, ends_filealloc h1,
      ends_onPhys_bind.mpr ⟨a, s', hk, ?_⟩⟩⟩
    rw [if_neg ha]
    exact ends_bind.mpr ⟨(), _, ends_bind.mpr ⟨(), _, ends_modify.mpr rfl,
      ends_bind.mpr ⟨(), _, ends_modifyFile.mpr rfl, ends_modifyFile.mpr rfl⟩⟩, rfl⟩
  generalize hk2 : openedPipe _ 0 1 a = k2 at hopen
  have hproc : k2.proc = k.proc := by rw [← hk2]; rfl
  let k3 := k2.setProc p fun y => { y with ofile := update y.ofile 0 (some 0) }
  let k4 := k3.setProc p fun y => { y with ofile := update y.ofile 1 (some 1) }
  have hfd0 : freeFd k2 p = some 0 := by
    refine freeFd_eq ?_ fun i hi => absurd hi (Fin.not_lt_zero i)
    rw [hproc]
    exact hnone p 0
  have hp3 : k3.proc p = { k.proc p with ofile := update (k.proc p).ofile 0 (some 0) } := by
    simp [k3, hproc]
  have hfd1 : freeFd k3 p = some 1 := by
    refine freeFd_eq ?_ fun i hi => ?_
    · rw [hp3]
      show update (k.proc p).ofile 0 (some 0) 1 = none
      rw [update_of_ne (by decide)]
      exact hnone p 1
    · obtain rfl : i = 0 := Fin.ext (Nat.lt_one_iff.mp hi)
      simp [hp3]
  have he : Ends (sys_pipe L p) k 0 k4 := ends_bind.mpr ⟨some (0, 1), k2, hopen,
    ends_bind.mpr ⟨some 0, k3, ends_fdalloc hfd0,
    ends_bind.mpr ⟨some 1, k4, ends_fdalloc hfd1, rfl⟩⟩⟩
  obtain ⟨ρ', fl'', hinv, -⟩ := sys_pipe_spec h hp he
  have hphys : k4.phys = s' := by
    show k2.phys = s'
    rw [← hk2]
    rfl
  obtain rfl : fl'' = fl' := hinv.mem.list_unique (hphys ▸ hmem)
  refine ⟨a, k4, ρ', fl'', he, hinv, hphys ▸ htook, ?_, ?_, fun q hq => ?_, ?_⟩
  · show IsEnd k2 0 a
    rw [← hk2]
    exact ⟨by rw [openedPipe_rf (by decide)], by rw [openedPipe_rf (by decide)]⟩
  · show IsEnd k2 1 a
    rw [← hk2]
    exact ⟨by rw [openedPipe_wf], by rw [openedPipe_wf]⟩
  · simp [k4, k3, hq, hproc]
  · simp [k4, hp3]

/-- `dup` of an open descriptor. -/
theorem ends_sys_dup (h : Files k fun _ => 0) (hfd : (k.proc p).ofile fd = some f)
    (hfree : freeFd k p = some fd') : Ends (sys_dup p fd) k fd'.val
      ((k.setProc p fun y => { y with ofile := update y.ofile fd' (some f) }).setFile f fun y =>
        { y with ref := y.ref + 1 }) := by
  have href := h.ref_pos hfd
  refine ends_get_bind.mpr ?_
  rw [hfd]
  refine ends_bind.mpr ⟨some fd', _, ends_fdalloc hfree, ends_bind.mpr ⟨(), _,
    ends_get_bind.mpr ?_, rfl⟩⟩
  rw [if_neg (by rw [setProc_file]; omega)]
  exact ends_modifyFile.mpr rfl

end

/-! ## The run -/

section

variable {L : Layout} {C : State → Label → Prop}

/-- The two ends of the pipe. -/
def pipeEnds : Fin NOFILE → Option (Fin NFILE) :=
  update (update (fun _ => none) 0 (some 0)) 1 (some 1)

/-- Only `p` has descriptors, those of the pipe in page `a`. -/
structure PipeOpen (k : State) (p : Slot) (a : Nat) : Prop where
  running : (k.proc p).state = .running
  ofile   : ∀ q fd, (k.proc q).ofile fd = if q = p then pipeEnds fd else none
  reads   : IsEnd k 0 a
  writes  : IsEnd k 1 a

/-- The two ends of the pipe, and the read end again. -/
def pipeFds : Fin NOFILE → Option (Fin NFILE) := update pipeEnds 2 (some 0)

/-- `p` and its child `np` have the pipe in page `a` open. -/
structure PipeShared (k : State) (p np : Slot) (a : Nat) : Prop where
  running : (k.proc p).state = .running
  ne      : np ≠ p
  ofile   : ∀ q fd, (k.proc q).ofile fd = if q = p ∨ q = np then pipeFds fd else none
  reads   : IsEnd k 0 a
  writes  : IsEnd k 1 a

/-- The calls of the first process. -/
def shareRun (p : Slot) : List Label := [⟨.pipe p, []⟩, ⟨.dup p 0, []⟩, ⟨.fork p, []⟩]

/-- The first process makes a pipe and shares it with a child. -/
theorem exists_pipeShared (hcalls : ∀ k p, C k ⟨.dispatch p, []⟩ ∧ C k ⟨.pipe p, []⟩ ∧
      C k ⟨.dup p 0, []⟩)
    (hfork : ∀ k p, (k.proc p).sz = PGSIZE →
      granted (forkNeed PGSIZE) (k.withDeny []).phys = true → C k ⟨.fork p, []⟩) :
    ∃ k0 k1 k p np a, ((system L).restrict C).Reachable k0 ∧
      step L k0 ⟨.pipe p, []⟩ = some k1 ∧ PipeOpen k1 p a ∧
      ((system L).restrict C).Run k0 (shareRun p) k ∧ PipeShared k p np a := by
  obtain ⟨k0, p, ρ, fl, hreach, h⟩ := exists_firstRuns L (C := C) fun k p => (hcalls k p).1
  have hnil := withDeny_nil h.deny
  obtain ⟨a, k1, ρ1, fl1, he1, h1, htook, hreads, hwrites, hother1, hp1⟩ :=
    sys_pipe_first h.inv h.running h.ofile (h.grants (by decide))
  have hdeny1 := took_nil htook h.deny
  have hnil1 := withDeny_nil hdeny1
  have hrun1 : (k1.proc p).state = .running := by
    rw [hp1]
    exact h.running
  have hof1 : (k1.proc p).ofile = update (update (k0.proc p).ofile 0 (some 0)) 1 (some 1) := by
    rw [hp1]
  -- `dup`
  have hfree : freeFd k1 p = some 2 := by
    refine freeFd_eq ?_ fun i hi => ?_
    · rw [hof1, update_of_ne (by decide), update_of_ne (by decide)]
      exact h.ofile p 2
    · have hi2 : i.val = 0 ∨ i.val = 1 := by
        have : i.val < 2 := hi
        omega
      rcases hi2 with hi | hi
      · obtain rfl : i = 0 := Fin.ext hi
        rw [hof1, update_of_ne (by decide), update_self]
        simp
      · obtain rfl : i = 1 := Fin.ext hi
        rw [hof1, update_self]
        simp
  have hfd0 : (k1.proc p).ofile 0 = some 0 := by
    rw [hof1, update_of_ne (by decide), update_self]
  have he2 := ends_sys_dup h1.files hfd0 hfree
  obtain ⟨h2, hkeep, -⟩ := sys_dup_spec h1 (not_closed hrun1) he2
  generalize hk2 : (k1.setProc p fun y => { y with
    ofile := update y.ofile 2 (some 0) }).setFile 0 _ = k2 at he2 h2 hkeep
  have hproc2 : k2.proc =
      (k1.setProc p fun y => { y with ofile := update y.ofile 2 (some 0) }).proc := by
    rw [← hk2]
    rfl
  have hp2 : k2.proc p = { k0.proc p with ofile := pipeFds } := by
    have hnone : (k0.proc p).ofile = fun _ => none := funext (h.ofile p)
    rw [hproc2, setProc_proc_self, hp1, hnone]
    rfl
  have hphys2 : k2.phys = k1.phys := by
    rw [← hk2]
    rfl
  have hnil2 : k2.withDeny [] = k2 := withDeny_nil (hphys2 ▸ hdeny1)
  have hrun2 : (k2.proc p).state = .running := by
    rw [hp2]
    exact h.running
  have hsz : (k2.proc p).sz = PGSIZE := by
    rw [hp2]
    exact h.sz
  -- `fork`
  have hg : Grants k2.phys fl1 (forkNeed PGSIZE) := by
    rw [hphys2]
    exact (grants_add htook).mp (h.grants (by decide))
  have hwhole : Whole k2 p := by
    intro m hm hm'
    rw [hsz] at hm'
    simp only [pages, PGSIZE] at hm'
    omega
  have hweak : Inv L False False (fun _ => False) k2 ρ1 fl1 fun _ => 0 :=
    h2.forget False.elim False.elim fun _ => False.elim
  obtain ⟨r, k3, -, -, he3, -, hres⟩ := fork_spec hweak (fun _ => le_rfl) hrun2
    False.elim False.elim (.inr (.inr (.inl hwhole)))
  have hother2 : ∀ q, q ≠ p → k2.proc q = Proc.zero := by
    intro q hq
    rw [hproc2, setProc_proc_ne hq, hother1 q hq]
    exact h.other q hq
  rcases hres with ⟨-, hs | hno, -⟩ | ⟨np, -, -, hforked, hofile, -⟩
  · obtain ⟨q, hq⟩ := exists_ne p
    exact absurd hs (freeSlot_ne_none (by rw [hother2 q hq]; rfl))
  · exact absurd (hg.mono (by decide)) hno
  have hne : np ≠ p := by
    rintro rfl
    cases hrun2.symm.trans hforked.was
  have hstep1 : step L k0 ⟨.pipe p, []⟩ = some k1 :=
    step_of_ends h.running (ends_bind.mpr ⟨0, k1, hnil.symm ▸ he1, rfl⟩)
  have hstep2 : step L k1 ⟨.dup p 0, []⟩ = some k2 :=
    step_of_ends hrun1 (ends_bind.mpr ⟨_, k2, hnil1.symm ▸ he2, rfl⟩)
  have hstep3 : step L k2 ⟨.fork p, []⟩ = some k3 :=
    step_of_ends hrun2 (ends_bind.mpr ⟨r, k3, hnil2.symm ▸ he3, rfl⟩)
  have hgranted : granted (forkNeed PGSIZE) (k2.withDeny []).phys = true := by
    rw [hnil2]
    exact h2.mem.granted_iff.mpr hg
  have hopen : PipeOpen k1 p a := by
    refine ⟨hrun1, fun q fd => ?_, hreads, hwrites⟩
    by_cases hq : q = p
    · rw [if_pos hq, hq, hof1, show (k0.proc p).ofile = fun _ => none from funext (h.ofile p)]
      rfl
    · rw [if_neg hq, hother1 q hq, h.ofile]
  refine ⟨k0, k1, k3, p, np, a, hreach, hstep1, hopen, .cons ⟨hstep1, (hcalls k0 p).2.1⟩ (.cons
    ⟨hstep2, (hcalls k1 p).2.2⟩ (.single ⟨hstep3, hfork k2 p hsz hgranted⟩)), ?_⟩
  have hends : KeepsEnds k1 k3 := hkeep.trans (keeps_fork p _ _ _ he3)
  have hp3 : k3.proc p = k2.proc p := hforked.other p (Ne.symm hne)
  refine ⟨?_, hne, fun q fd => ?_, hends 0 a hreads, hends 1 a hwrites⟩
  · rw [hp3]
    exact hrun2
  · by_cases hq : q = p
    · rw [if_pos (.inl hq), hq, hp3, hp2]
    by_cases hqn : q = np
    · rw [if_pos (.inr hqn), hqn, hofile, hp2]
    · rw [if_neg (by simp [hq, hqn]), hforked.other q hqn, hother2 q hq]
      rfl

variable {k : State} {p : Slot} {a : Nat}

/-- The process closes both ends. -/
theorem PipeOpen.closes (h : PipeOpen k p a)
    (hreach : ((system L).restrict fun _ l => Fits l.event).Reachable k) : ∃ k' k'',
    step L k ⟨.close p 0, []⟩ = some k' ∧ step L k' ⟨.close p 1, []⟩ = some k'' ∧ IsEnd k' 1 a ∧
      ∀ q fd, (k''.proc q).ofile fd = none := by
  have hfd : ∀ fd, (k.proc p).ofile fd = pipeEnds fd := fun fd => by rw [h.ofile, if_pos rfl]
  obtain ⟨k', hstep, hc⟩ := step_close hreach h.running (hfd 0)
  have hfd1 : (k'.proc p).ofile 1 = some 1 := by
    rw [hc.ofile, if_neg (by simp), hfd]
    rfl
  obtain ⟨k'', hstep', hc'⟩ := step_close (hreach.step ⟨hstep, trivial⟩) hc.running hfd1
  refine ⟨k', k'', hstep, hstep', hc.ends 1 a h.writes (by simp), fun q fd => ?_⟩
  rw [hc'.ofile, hc.ofile, h.ofile]
  by_cases hq : q = p
  · by_cases h0 : fd = 0 <;> by_cases h1 : fd = 1 <;> simp [hq, h0, h1, pipeEnds]
  · simp [hq]

end

end Xv6.Kernel
