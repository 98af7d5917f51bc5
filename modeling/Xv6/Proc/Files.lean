import Xv6.Proc.Owned

/-! # Specification of `file.c` and `pipe.c`

    Each function keeps the invariant and moves references between the process table and the running
    code. The page of a pipe is freed when its second end is closed.
-/

namespace Xv6.Kernel

open Program Mem Function

variable {L : Layout} {ok sp : Prop} {sh : Slot → Prop} {k k' k'' : State} {fl : List Nat}
  {ρ : Nat → Role Tag} {x : Fin NFILE → Int} {f rf wf : Fin NFILE} {p : Slot} {r : Unit}
  {fd : Fin NOFILE} {a : Nat} {w : Bool} {s : Phys} {pr : Slot → Proc} {ip : Option (Fin NINODE)}

/-! ## References -/

/-- Code takes references to `f`, or gives them up. -/
def plus (x : Fin NFILE → Int) (f : Fin NFILE) (d : Int) : Fin NFILE → Int :=
  fun g => x g + if g = f then d else 0

@[simp] theorem plus_self (x : Fin NFILE → Int) (f : Fin NFILE) (d : Int) :
    plus x f d f = x f + d := by
  simp [plus]

@[simp] theorem plus_ne (x : Fin NFILE → Int) {g : Fin NFILE} (h : g ≠ f) (d : Int) :
    plus x f d g = x g := by
  simp [plus, h]

theorem plus_cancel (x : Fin NFILE → Int) (f : Fin NFILE) (d : Int) :
    plus (plus x f d) f (-d) = x := by
  funext g
  by_cases hg : g = f
  · subst hg
    simp
  · simp [hg]

theorem plus_comm (x : Fin NFILE → Int) (f g : Fin NFILE) (c d : Int) :
    plus (plus x f c) g d = plus (plus x g d) f c := by
  funext i
  unfold plus
  omega

/-- What a file says about pipes is what it said before. -/
def SameEnds (k k' : State) : Prop := ∀ g,
  ((k'.file g).type = .pipe ↔ (k.file g).type = .pipe) ∧
    ((k.file g).type = .pipe → (k'.file g).pipe = (k.file g).pipe ∧
      (k'.file g).writable = (k.file g).writable)

theorem Files.sameEnds {x' : Fin NFILE → Int} (h : Files k x) (he : SameEnds k k')
    (hproc : k'.proc = k.proc) (hpipe : k'.pipe = k.pipe)
    (hcount : ∀ g, ((k'.file g).ref : Int) = Refs.count (ofiles k) g + x' g)
    (hidle : ∀ g, (k'.file g).ref = 0 → (k'.file g).type = .none) : Files k' x' := by
  have hof : ofiles k' = ofiles k := by
    unfold ofiles
    rw [hproc]
  refine ⟨hof ▸ hcount, hidle, hproc ▸ h.empty, fun g hg => ?_, fun g g' hg hg' h1 h2 => ?_,
    fun a w hw => ?_⟩
  · have hg' := (he g).1.mp hg
    rw [hpipe, ((he g).2 hg').1, ((he g).2 hg').2]
    exact h.isOpen g hg'
  · have hg := (he g).1.mp hg
    have hg' := (he g').1.mp hg'
    rw [((he g).2 hg).1, ((he g').2 hg').1] at h1
    rw [((he g).2 hg).2, ((he g').2 hg').2] at h2
    exact h.inj g g' hg hg' h1 h2
  · obtain ⟨g, h1, h2, h3⟩ := h.ends a w (hpipe ▸ hw)
    exact ⟨g, (he g).1.mpr h1, ((he g).2 h1).1.trans h2, ((he g).2 h1).2.trans h3⟩

/-- The reference count of a file changes while the file stays in use. -/
theorem Files.setRef (h : Files k x) {n : Nat} (hn : n = 0 → (k.file f).type = .none) :
    Files (k.setFile f fun y => { y with ref := n }) (plus x f (n - (k.file f).ref)) := by
  refine h.sameEnds (fun g => ?_) rfl rfl (fun g => ?_) fun g hg0 => ?_
  · by_cases hg : g = f
    · subst hg
      simp
    · simp [hg]
  · have hcount := h.count g
    by_cases hg : g = f
    · subst hg
      simp only [setFile_file_self, plus_self]
      omega
    · simp only [setFile_file_ne hg, plus_ne x hg]
      exact hcount
  · by_cases hg : g = f
    · subst hg
      simp only [setFile_file_self] at hg0 ⊢
      exact hn hg0
    · rw [setFile_file_ne hg] at hg0 ⊢
      exact h.idle g hg0

theorem Files.setFd (h : Files k x) (hp : ¬ Closed (k.proc p)) (fd : Fin NOFILE)
    (o : Option (Fin NFILE)) : Files (k.setProc p fun y => { y with ofile := update y.ofile fd o })
      (fun g => x g + (if (k.proc p).ofile fd = some g then 1 else 0)
        - (if o = some g then 1 else 0)) := by
  have hof : ofiles (k.setProc p fun y => { y with ofile := update y.ofile fd o })
      = update (ofiles k) (p, fd) o := by
    funext ⟨q, fd'⟩
    unfold ofiles
    by_cases hq : q = p
    · subst hq
      by_cases hfd : fd' = fd
      · subst hfd
        simp
      · simp [hfd]
    · simp [hq]
  refine ⟨?_, h.idle, ?_, h.isOpen, h.inj, h.ends⟩
  · intro g
    have hcount := h.count g
    have hupd := Refs.count_update (ofiles k) (p, fd) o g
    rw [hof, hupd]
    show ((k.file g).ref : Int) = _
    have hval : ofiles k (p, fd) = (k.proc p).ofile fd := rfl
    rw [hval]
    omega
  · intro q hq
    by_cases hqp : q = p
    · subst hqp
      rw [setProc_proc_self] at hq
      exact absurd hq hp
    · rw [setProc_proc_ne hqp] at hq ⊢
      exact h.empty q hq

theorem filealloc_spec {r : Option (Fin NFILE)} (h : Inv L ok sp sh k ρ fl x)
    (he : Ends filealloc k r k') :
    (r = none ∧ k' = k) ∨ ∃ f, r = some f ∧ (k.file f).ref = 0 ∧
      k' = k.setFile f (fun y => { y with ref := 1 }) ∧ Inv L ok sp sh k' ρ fl (plus x f 1) := by
  replace he := ends_get_bind.mp he
  cases hf : freeFile k with
  | none =>
    rw [hf] at he
    obtain ⟨rfl, rfl⟩ := ends_pure.mp he
    exact .inl ⟨rfl, rfl⟩
  | some f =>
    rw [hf] at he
    obtain ⟨_, _, hm, he⟩ := ends_bind.mp he
    obtain rfl := ends_modifyFile.mp hm
    obtain ⟨rfl, rfl⟩ := ends_pure.mp he
    have href : (k.file f).ref = 0 := by simpa using List.find?_some hf
    refine .inr ⟨f, rfl, href, rfl, h.refile (same_setFile _ _) rfl (fun _ => rfl) ?_⟩
    have := h.files.setRef (f := f) (n := 1) (by simp)
    rwa [href] at this

theorem filedup_spec (h : Inv L ok sp sh k ρ fl x) (he : Ends (filedup f) k r k') :
    k' = k.setFile f (fun y => { y with ref := y.ref + 1 }) ∧
      Inv L ok sp sh k' ρ fl (plus x f 1) := by
  replace he := ends_get_bind.mp he
  by_cases href : (k.file f).ref < 1
  · rw [if_pos href] at he
    exact absurd he not_ends_panic
  rw [if_neg href] at he
  obtain rfl := ends_modifyFile.mp he
  refine ⟨rfl, h.refile (same_setFile _ _) rfl (fun _ => rfl) ?_⟩
  have hset := h.files.setRef (f := f) (n := (k.file f).ref + 1) (by simp)
  have hone : (((k.file f).ref + 1 : Nat) : Int) - ((k.file f).ref : Int) = 1 := by omega
  rwa [hone] at hset

/-- `filedup` on a file that a process has open. -/
theorem ends_filedup (h : Files k x) (hx : 0 ≤ x f) (hfd : (k.proc p).ofile fd = some f) :
    Ends (filedup f) k () (k.setFile f fun y => { y with ref := y.ref + 1 }) := by
  have hcount := h.count f
  have hpos := Refs.count_pos (g := ofiles k) (x := (p, fd)) hfd
  have href : ¬ (k.file f).ref < 1 := by omega
  unfold Ends filedup
  rw [run_bind_of_ends (ends_get.mpr ⟨rfl, rfl⟩), if_neg href]
  rfl

/-! ## Ends of pipes -/

/-- `f` is an end of the pipe in page `a`. -/
def IsEnd (k : State) (f : Fin NFILE) (a : Nat) : Prop :=
  (k.file f).type = .pipe ∧ (k.file f).pipe = a

/-- The page is on the free list. -/
def OnFreeList (k : State) (a : Nat) : Prop := ∃ i, freeAt i k.phys = some a

theorem Inv.onFreeList (h : Inv L ok sp sh k ρ fl x) : OnFreeList k a ↔ a ∈ fl := by
  unfold OnFreeList
  simp only [h.mem.freeAt_eq, List.mem_iff_getElem?]

theorem IsEnd.of_file (h : IsEnd k f a) (hfile : k'.file f = k.file f) : IsEnd k' f a := by
  unfold IsEnd
  rw [hfile]
  exact h

/-- No end is closed. -/
def KeepsEnds (k k' : State) : Prop := ∀ g a, IsEnd k g a → IsEnd k' g a

theorem KeepsEnds.refl (k : State) : KeepsEnds k k := fun _ _ => id

theorem KeepsEnds.trans {k1 k2 k3 : State} (h : KeepsEnds k1 k2) (h' : KeepsEnds k2 k3) :
    KeepsEnds k1 k3 := fun g a hg => h' g a (h g a hg)

theorem keepsEnds_of_file (h : k'.file = k.file) : KeepsEnds k k' :=
  fun g _ hg => hg.of_file (congrFun h g)

theorem keepsEnds_setFile {y : File → File} (htype : (y (k.file f)).type = (k.file f).type)
    (hpipe : (y (k.file f)).pipe = (k.file f).pipe) : KeepsEnds k (k.setFile f y) := by
  intro g a hg
  by_cases hgf : g = f
  · subst hgf
    unfold IsEnd
    rw [setFile_file_self, htype, hpipe]
    exact hg
  · exact hg.of_file (setFile_file_ne hgf _)

/-- An end is a file in use. -/
theorem Files.keepsEnds (h : Files k x)
    (hused : ∀ g, (k.file g).ref ≠ 0 → k'.file g = k.file g) : KeepsEnds k k' := by
  intro g a hg
  refine hg.of_file (hused g fun h0 => ?_)
  have htype := hg.1
  rw [h.idle g h0] at htype
  cases htype

/-- Pages are only added to the free list, and a pipe that loses its last end is among them. -/
structure Retires (k k' : State) : Prop where
  free : ∀ a, OnFreeList k a → OnFreeList k' a
  ends : ∀ a, (∃ g, IsEnd k g a) → (∃ g, IsEnd k' g a) ∨ OnFreeList k' a

theorem Retires.trans (h : Retires k k') (h' : Retires k' k'') : Retires k k'' := by
  refine ⟨fun a ha => h'.free a (h.free a ha), fun a ha => ?_⟩
  rcases h.ends a ha with hend | hfree
  · exact h'.ends a hend
  · exact .inr (h'.free a hfree)

theorem KeepsEnds.retires (h : KeepsEnds k k') (hphys : k'.phys = k.phys) : Retires k k' := by
  refine ⟨fun a ha => ?_, fun a ⟨g, hg⟩ => .inl ⟨g, h g a hg⟩⟩
  unfold OnFreeList
  rw [hphys]
  exact ha

theorem retires_setProc (k : State) (p : Slot) (y : Proc → Proc) : Retires k (k.setProc p y) :=
  KeepsEnds.retires (keepsEnds_of_file rfl) rfl

/-! ## Pipes -/

theorem isOpen_close {y : Pipe} {w' : Bool} : IsOpen (y.close w) w' ↔ IsOpen y w' ∧ w' ≠ w := by
  cases w <;> cases w' <;> simp [IsOpen, Pipe.close]

/-- Some processes were woken. -/
structure Woken (k k' : State) : Prop where
  proc : ∀ p, k'.proc p = k.proc p ∨
    ((k.proc p).state = .sleeping ∧ k'.proc p = { k.proc p with state := .runnable })
  initproc : k'.initproc = k.initproc

theorem Woken.refl (k : State) : Woken k k := ⟨fun _ => .inl rfl, rfl⟩

theorem Woken.trans (h : Woken k k') (h' : Woken k' k'') : Woken k k'' := by
  refine ⟨fun p => ?_, h'.initproc.trans h.initproc⟩
  rcases h.proc p with he | ⟨hs, he⟩
  · rw [← he]
    exact h'.proc p
  · rcases h'.proc p with he' | ⟨hs', -⟩
    · exact .inr ⟨hs, he'.trans he⟩
    · rw [he] at hs'
      cases hs'

theorem Woken.sameOwn (h : Woken k k') (p : Slot) : SameOwn (k.proc p) (k'.proc p) := by
  rcases h.proc p with he | ⟨hs, he⟩
  · rw [he]
    exact .refl _
  · rw [he]
    exact .of_state (by simp [Ready, hs]) (by simp [Closed]) (by simp) rfl rfl rfl

theorem Woken.ofile (h : Woken k k') (p : Slot) : (k'.proc p).ofile = (k.proc p).ofile := by
  rcases h.proc p with he | ⟨-, he⟩
  · rw [he]
  · rw [he]

theorem Woken.ofiles_eq (h : Woken k k') : ofiles k' = ofiles k := by
  funext y
  exact congrFun (h.ofile y.1) y.2

/-- A process that does not sleep is not changed. -/
theorem Woken.awake (h : Woken k k') (hp : (k.proc p).state ≠ .sleeping) :
    k'.proc p = k.proc p := (h.proc p).resolve_right fun hs => hp hs.1

theorem wakeup1_spec {chan : Nat} (he : Ends (wakeup1 chan) k r k') :
    Woken k k' ∧ k' = { k with proc := k'.proc } := by
  obtain rfl := ends_modify.mp he
  refine ⟨⟨fun p => ?_, rfl⟩, rfl⟩
  dsimp only [Ptable.wakeup1]
  split
  · next hs => exact .inr ⟨hs.1, rfl⟩
  · exact .inl rfl

/-- The last reference to `f` goes away, and with it the end of a pipe that `f` is. -/
theorem Files.retire (h : Files k x) (href : (k.file f).ref = 1)
    (hf : k'.file = (k.setFile f fun y => { y with ref := 0, type := .none }).file)
    (hproc : ∀ p, (Closed (k'.proc p) → Closed (k.proc p)) ∧ (k'.proc p).ofile = (k.proc p).ofile)
    (hkeep : ∀ g, g ≠ f → (k.file g).type = .pipe →
      IsOpen (k'.pipe (k.file g).pipe) (k.file g).writable)
    (hends : ∀ a w, IsOpen (k'.pipe a) w → IsOpen (k.pipe a) w ∧
      ¬ ((k.file f).type = .pipe ∧ (k.file f).pipe = a ∧ (k.file f).writable = w)) :
    Files k' (plus x f (-1)) := by
  have hself : (k'.file f).ref = 0 ∧ (k'.file f).type = .none := by
    rw [hf]
    simp
  have hne : ∀ g, g ≠ f → k'.file g = k.file g := by
    intro g hg
    rw [hf, setFile_file_ne hg]
  -- a file of type pipe after the change is not `f`
  have hpipe : ∀ g, (k'.file g).type = .pipe → g ≠ f ∧ (k.file g).type = .pipe := by
    intro g hg
    have hgf : g ≠ f := by
      rintro rfl
      rw [hself.2] at hg
      cases hg
    exact ⟨hgf, hne g hgf ▸ hg⟩
  have hof : ofiles k' = ofiles k := by
    funext y
    unfold ofiles
    rw [(hproc y.1).2]
  refine ⟨?_, ?_, ?_, ?_, ?_, ?_⟩
  · intro g
    have hcount := h.count g
    rw [hof]
    by_cases hg : g = f
    · subst hg
      rw [hself.1]
      rw [plus_self]
      omega
    · rw [hne g hg]
      rw [plus_ne x hg]
      exact hcount
  · intro g hg0
    by_cases hg : g = f
    · rw [hg]
      exact hself.2
    · rw [hne g hg] at hg0 ⊢
      exact h.idle g hg0
  · intro p hp
    rw [(hproc p).2]
    exact h.empty p ((hproc p).1 hp)
  · intro g hg
    obtain ⟨hgf, hg⟩ := hpipe g hg
    rw [hne g hgf]
    exact hkeep g hgf hg
  · intro g g' hg hg' h1 h2
    obtain ⟨hgf, hg⟩ := hpipe g hg
    obtain ⟨hgf', hg'⟩ := hpipe g' hg'
    rw [hne g hgf, hne g' hgf'] at h1 h2
    exact h.inj g g' hg hg' h1 h2
  · intro a w hw
    obtain ⟨hopen, hnot⟩ := hends a w hw
    obtain ⟨g, h1, h2, h3⟩ := h.ends a w hopen
    have hgf : g ≠ f := by
      rintro rfl
      exact hnot ⟨h1, h2, h3⟩
    refine ⟨g, ?_⟩
    rw [hne g hgf]
    exact ⟨h1, h2, h3⟩

/-- `pipeclose` closes one end and frees the page if the other is closed. -/
theorem ends_pipeclose (he : Ends (pipeclose L a w) k r k') : ∃ pr, Woken k { k with proc := pr } ∧
      ((¬ IsOpen (k.pipe a) (!w) ∧ ∃ s', Ends (kfree L a) k.phys () s' ∧
          k' = { k with phys := s', proc := pr,
                        pipe := update k.pipe a ((k.pipe a).close w) }) ∨
        (IsOpen (k.pipe a) (!w) ∧
          k' = { k with proc := pr,
                        pipe := update k.pipe a ((k.pipe a).close w) })) := by
  have he := ends_modify_bind.mp he
  obtain ⟨_, k2, hw, he⟩ := ends_bind.mp he
  obtain ⟨hwoken, hk2⟩ := wakeup1_spec hw
  replace he := ends_get_bind.mp he
  have hpipe : k2.pipe a = (k.pipe a).close w := by
    rw [hk2]
    simp
  have hboth : (k2.pipe a).readopen = false ∧ (k2.pipe a).writeopen = false ↔
      ¬ IsOpen (k.pipe a) (!w) := by
    rw [hpipe]
    cases w <;> simp [Pipe.close, IsOpen]
  refine ⟨k2.proc, ⟨hwoken.proc, rfl⟩, ?_⟩
  by_cases hc : (k2.pipe a).readopen = false ∧ (k2.pipe a).writeopen = false
  · rw [if_pos hc] at he
    obtain ⟨s', hkfree, rfl⟩ := ends_onPhys.mp he
    refine .inl ⟨hboth.mp hc, s', ?_, ?_⟩
    · rw [hk2] at hkfree
      exact hkfree
    · rw [hk2]
  · rw [if_neg hc] at he
    obtain ⟨-, rfl⟩ := ends_pure.mp he
    exact .inr ⟨not_not.mp fun hn => hc (hboth.mpr hn), hk2⟩

theorem Inv.pipe (h : Inv L ok sp sh k ρ fl x) (hw : IsOpen (k.pipe a) w) : ρ a = .held .pipe :=
  view_page.mp ((h.agree (.page .pipe) trivial a).mpr ⟨w, hw⟩)

/-- After the end `f` of a pipe is closed. -/
def closedEnd (k : State) (f : Fin NFILE) (s : Phys) (pr : Slot → Proc) : State :=
  { k with
    phys := s
    proc := pr
    file := (k.setFile f fun y => { y with ref := 0, type := .none }).file
    pipe := update k.pipe (k.file f).pipe
      ((k.pipe (k.file f).pipe).close (k.file f).writable) }

theorem closedEnd_pipe :
    IsOpen ((closedEnd k f s pr).pipe (k.file f).pipe) w ↔
      IsOpen (k.pipe (k.file f).pipe) w ∧ w ≠ (k.file f).writable := by
  unfold closedEnd
  dsimp only
  rw [update_self, isOpen_close]

theorem closedEnd_pipe_ne (ha : a ≠ (k.file f).pipe) :
    (closedEnd k f s pr).pipe a = k.pipe a := update_of_ne ha _ _

/-- What the closed end means for the file table. -/
theorem Files.closedEnd (h : Files k x) (href : (k.file f).ref = 1)
    (htype : (k.file f).type = .pipe) (hw : Woken k { k with proc := pr }) :
    Files (closedEnd k f s pr) (plus x f (-1)) := by
  refine h.retire href rfl (fun p => ⟨(hw.sameOwn p).closed, hw.ofile p⟩) ?_ ?_
  · intro g hgf hg
    have hgo := h.isOpen g hg
    by_cases hp : (k.file g).pipe = (k.file f).pipe
    · rw [hp] at hgo ⊢
      exact closedEnd_pipe.mpr ⟨hgo, fun hwr => hgf (h.inj g f hg htype hp hwr)⟩
    · rw [closedEnd_pipe_ne hp]
      exact hgo
  · intro a w ha
    by_cases hp : a = (k.file f).pipe
    · rw [hp] at ha ⊢
      obtain ⟨hopen, hne⟩ := closedEnd_pipe.mp ha
      exact ⟨hopen, fun hc => hne hc.2.2.symm⟩
    · rw [closedEnd_pipe_ne hp] at ha
      exact ⟨ha, fun hc => hp hc.2.1.symm⟩

section

variable (h : Inv L ok sp sh k ρ fl x)
include h

/-- The last reference to the end of a pipe is closed. -/
theorem closePipe_spec (href : (k.file f).ref = 1)
    (htype : (k.file f).type = .pipe)
    (he : Ends (pipeclose L (k.file f).pipe (k.file f).writable)
      (k.setFile f fun y => { y with ref := 0, type := .none }) r k') :
    ∃ ρ' fl', Inv L ok sp sh k' ρ' fl' (plus x f (-1)) ∧ Woken k k' ∧ Retires k k' ∧
      ∀ g, g ≠ f → k'.file g = k.file g := by
  have hopen := h.files.isOpen f htype
  have hrole := h.pipe hopen
  obtain ⟨pr, hwoken, hcase⟩ := ends_pipeclose he
  have hw : Woken k { k with proc := pr } := ⟨hwoken.proc, rfl⟩
  have hsame : ∀ s, Same k (closedEnd k f s pr) := fun s => ⟨rfl, rfl, rfl, hw.sameOwn⟩
  have hprocs : ∀ p, ProcOk sp (sh p) (pr p) ρ := fun p => (h.procs p).same (hw.sameOwn p)
  have hfile : ∀ s g, g ≠ f → (closedEnd k f s pr).file g = k.file g := by
    intro s g hg
    show (k.setFile f fun y => { y with ref := 0, type := .none }).file g = _
    exact setFile_file_ne hg _
  rcases hcase with ⟨hclosed, s', hkfree, rfl⟩ | ⟨hother, rfl⟩
  · -- the other end is closed: the page is freed
    obtain ⟨hmem, -⟩ := kfree_spec h.mem hrole hkfree
    have hinv : Inv L ok sp sh (closedEnd k f s' pr) (update ρ (k.file f).pipe .free)
        ((k.file f).pipe :: fl) (plus x f (-1)) := ?_
    · refine ⟨_, _, hinv, ⟨hw.proc, rfl⟩, ⟨fun b hb => ?_, fun b ⟨g, hg⟩ => ?_⟩, hfile s'⟩
      · exact hinv.onFreeList.mpr (List.mem_cons_of_mem _ (h.onFreeList.mp hb))
      · by_cases hgf : g = f
        · subst hgf
          exact .inr (hinv.onFreeList.mpr (hg.2 ▸ List.mem_cons_self))
        · exact .inl ⟨g, hg.of_file (hfile s' g hgf)⟩
    refine h.update hmem (views_update _ _) (by simp [Role.view]) (fun _ => by simp [Role.view]) ?_
      h.nodup (fun p => (hprocs p).maps ?_) (h.files.closedEnd href htype hw)
    · refine h.agree.give (view_page.mpr hrole) ?_ ?_
      · rintro ⟨w, hw'⟩
        obtain ⟨hwo, hne⟩ := closedEnd_pipe.mp hw'
        have : w = !(k.file f).writable := by
          cases w <;> cases hfw : (k.file f).writable <;> simp_all
        exact hclosed (this ▸ hwo)
      · intro w b _ hne
        exact (hsame s').claims fun hwp => closedEnd_pipe_ne (hne hwp)
    · intro _ _ m
      exact maps_update_plain (r := .free) (by rw [hrole]; trivial) trivial m
  · -- the pipe stays
    refine ⟨ρ, fl, ?_, ⟨hw.proc, rfl⟩, ⟨fun _ hb => hb, fun b ⟨g, hg⟩ => .inl ?_⟩, hfile k.phys⟩
    rotate_left
    · by_cases hgf : g = f
      · obtain ⟨g', ht, hp, hwr⟩ := h.files.ends _ _ hother
        have hne : g' ≠ f := by
          rintro rfl
          simp at hwr
        exact ⟨g', IsEnd.of_file ⟨ht, hp.trans (hgf ▸ hg.2)⟩ (hfile k.phys g' hne)⟩
      · exact ⟨g, hg.of_file (hfile k.phys g hgf)⟩
    show Inv L ok sp sh (closedEnd k f k.phys pr) _ _ _
    refine ⟨h.mem, h.all, ?_, h.noLost, h.nodup, hprocs, h.files.closedEnd href htype hw⟩
    · refine h.agree.frame fun w b _ => ?_
      by_cases hb : b = (k.file f).pipe
      · by_cases hwp : w = .page .pipe
        · subst hwp hb
          have hstill : IsOpen ((closedEnd k f k.phys pr).pipe (k.file f).pipe)
              (!(k.file f).writable) := closedEnd_pipe.mpr ⟨hother, by simp⟩
          exact ⟨fun _ => ⟨_, hopen⟩, fun _ => ⟨_, hstill⟩⟩
        · exact (hsame k.phys).claims fun he => absurd he hwp
      · exact (hsame k.phys).claims fun _ => closedEnd_pipe_ne hb

omit h in
theorem iput_spec (he : Ends (iput ip) k r k') : ∃ iref, k' = { k with iref := iref } := by
  obtain rfl := ends_modify.mp he
  cases ip with
  | none => exact ⟨k.iref, rfl⟩
  | some i => exact ⟨_, rfl⟩

omit h in
theorem idup_spec (he : Ends (idup ip) k r k') : ∃ iref, k' = { k with iref := iref } := by
  obtain rfl := ends_modify.mp he
  cases ip with
  | none => exact ⟨k.iref, rfl⟩
  | some i => exact ⟨_, rfl⟩

/-! ## `fileclose` -/

theorem fileclose_spec (he : Ends (fileclose L f) k r k') :
    ∃ ρ' fl', Inv L ok sp sh k' ρ' fl' (plus x f (-1)) ∧ Woken k k' ∧ Retires k k' ∧
      ∀ g, g ≠ f → k'.file g = k.file g := by
  replace he := ends_get_bind.mp he
  dsimp only at he
  by_cases hlt : (k.file f).ref < 1
  · rw [if_pos hlt] at he
    exact absurd he not_ends_panic
  rw [if_neg hlt] at he
  by_cases hmore : (k.file f).ref - 1 > 0
  · -- other references remain
    rw [if_pos hmore] at he
    obtain rfl := ends_modifyFile.mp he
    refine ⟨ρ, fl, h.refile (same_setFile _ _) rfl (fun _ => rfl) ?_, ⟨fun _ => .inl rfl, rfl⟩,
      (keepsEnds_setFile rfl rfl).retires rfl, fun g hg => setFile_file_ne hg _⟩
    have hset := h.files.setRef (f := f) (n := (k.file f).ref - 1) (by omega)
    have hone : (((k.file f).ref - 1 : Nat) : Int) - ((k.file f).ref : Int) = -1 := by omega
    rwa [hone] at hset
  rw [if_neg hmore] at he
  have href : (k.file f).ref = 1 := by omega
  obtain ⟨_, k1, hm, he⟩ := ends_bind.mp he
  obtain rfl := ends_modifyFile.mp hm
  -- the file was no end of a pipe: only its entry changes
  have hplain : ∀ iref, (k.file f).type ≠ .pipe →
      k' = { k.setFile f fun y => { y with ref := 0, type := .none } with iref := iref } →
      ∃ ρ' fl', Inv L ok sp sh k' ρ' fl' (plus x f (-1)) ∧ Woken k k' ∧ Retires k k' ∧
        ∀ g, g ≠ f → k'.file g = k.file g := by
    rintro iref hnp rfl
    have hfile : ∀ g, g ≠ f →
        (k.setFile f fun y => { y with ref := 0, type := .none }).file g = k.file g :=
      fun g hg => setFile_file_ne hg _
    refine ⟨ρ, fl, h.refile ⟨rfl, rfl, rfl, fun _ => .refl _⟩ rfl (fun a => rfl) ?_,
      ⟨fun _ => .inl rfl, rfl⟩, KeepsEnds.retires (fun g a hg => ?_) rfl, hfile⟩
    · exact h.files.retire href rfl (fun p => ⟨id, rfl⟩) (fun g _ hg => h.files.isOpen g hg)
        fun a w hw => ⟨hw, fun hc => hnp hc.1⟩
    · have hgf : g ≠ f := fun he => hnp (he ▸ hg.1)
      exact hg.of_file (hfile g hgf)
  cases htype : (k.file f).type with
  | pipe =>
    rw [htype] at he
    exact closePipe_spec h href htype he
  | inode =>
    rw [htype] at he
    obtain ⟨iref, hk'⟩ := iput_spec he
    exact hplain iref (by simp [htype]) hk'
  | none =>
    rw [htype] at he
    obtain ⟨-, rfl⟩ := ends_pure.mp he
    exact hplain k.iref (by simp [htype]) rfl

/-! ## Descriptors -/

omit h in
theorem not_closed (hp : (k.proc p).state = .running) : ¬ Closed (k.proc p) := by
  simp [Closed, hp]

theorem Inv.setFd (hp : ¬ Closed (k.proc p)) (o : Option (Fin NFILE))
    (hx : ∀ g, x g + (if (k.proc p).ofile fd = some g then 1 else 0)
      - (if o = some g then (1 : Int) else 0) = x' g) :
    Inv L ok sp sh (k.setProc p fun y => { y with ofile := Function.update y.ofile fd o })
      ρ fl x' := by
  refine h.refile (same_setProc ⟨.rfl, fun _ => rfl, fun _ => rfl, rfl, .inl, id, .inl⟩)
    rfl (fun _ => rfl) ?_
  rw [← funext hx]
  exact h.files.setFd hp fd o

theorem Inv.giveFd (hp : ¬ Closed (k.proc p)) (hfd : (k.proc p).ofile fd = none) (f : Fin NFILE) :
    Inv L ok sp sh (k.setProc p fun y => { y with ofile := Function.update y.ofile fd (some f) })
      ρ fl (plus x f (-1)) := by
  refine h.setFd hp (some f) fun g => ?_
  by_cases hg : f = g
  · subst hg
    simp [hfd]
    omega
  · simp [hfd, hg, Ne.symm hg]

/-- A descriptor gives its reference to the running code. -/
theorem Inv.takeFd (hp : ¬ Closed (k.proc p)) (hfd : (k.proc p).ofile fd = some f) :
    Inv L ok sp sh (k.setProc p fun y => { y with ofile := Function.update y.ofile fd none })
      ρ fl (plus x f 1) := by
  refine h.setFd hp none fun g => ?_
  by_cases hg : f = g
  · subst hg
    simp [hfd]
  · simp [hfd, hg, Ne.symm hg]

theorem fdalloc_spec {r : Option (Fin NOFILE)}
    (hp : ¬ Closed (k.proc p)) (he : Ends (fdalloc p f) k r k') :
    (r = none ∧ k' = k) ∨ ∃ fd, r = some fd ∧ (k.proc p).ofile fd = none ∧
      k' = k.setProc p (fun y => { y with ofile := update y.ofile fd (some f) }) ∧
      Inv L ok sp sh k' ρ fl (plus x f (-1)) := by
  replace he := ends_get_bind.mp he
  cases hfd : freeFd k p with
  | none =>
    rw [hfd] at he
    obtain ⟨rfl, rfl⟩ := ends_pure.mp he
    exact .inl ⟨rfl, rfl⟩
  | some fd =>
    rw [hfd] at he
    have he := ends_modifyProc_bind.mp he
    obtain ⟨rfl, rfl⟩ := ends_pure.mp he
    have hnone : (k.proc p).ofile fd = none := by simpa using List.find?_some hfd
    exact .inr ⟨fd, rfl, hnone, rfl, h.giveFd hp hnone f⟩

omit h in
theorem setFd_back (hfd : (k.proc p).ofile fd = none) :
    (k.setProc p fun y => { y with ofile := update y.ofile fd (some f) }).setProc p
      (fun y => { y with ofile := update y.ofile fd none }) = k := by
  have hof : update (k.proc p).ofile fd none = (k.proc p).ofile :=
    update_eq_self_iff.mpr hfd.symm
  have hproc : setProc (setProc k.proc p
      { k.proc p with ofile := update (k.proc p).ofile fd (some f) }) p (k.proc p)
        = k.proc := by
    funext q
    by_cases hq : q = p <;> simp [setProc, hq]
  simp [State.setProc, hof, hproc]

theorem sys_close_spec {r : Int} (hp : ¬ Closed (k.proc p)) (he : Ends (sys_close L p fd) k r k') :
    ∃ ρ' fl', Inv L ok sp sh k' ρ' fl' x ∧ Retires k k' := by
  replace he := ends_get_bind.mp he
  cases hfd : (k.proc p).ofile fd with
  | none =>
    rw [hfd] at he
    obtain ⟨-, rfl⟩ := ends_pure.mp he
    exact ⟨ρ, fl, h, (KeepsEnds.refl k).retires rfl⟩
  | some f =>
    rw [hfd] at he
    have he := ends_modifyProc_bind.mp he
    obtain ⟨_, k2, hc, he⟩ := ends_bind.mp he
    obtain ⟨-, rfl⟩ := ends_pure.mp he
    obtain ⟨ρ', fl', hinv, -, hret, -⟩ := fileclose_spec (h.takeFd hp hfd) hc
    rw [plus_cancel] at hinv
    exact ⟨ρ', fl', hinv, (retires_setProc k p _).trans hret⟩

theorem sys_dup_spec {r : Int} (hp : ¬ Closed (k.proc p)) (he : Ends (sys_dup p fd) k r k') :
    Inv L ok sp sh k' ρ fl x ∧ KeepsEnds k k' ∧ (r = -1 → ofiles k' = ofiles k) := by
  replace he := ends_get_bind.mp he
  cases hfd : (k.proc p).ofile fd with
  | none =>
    rw [hfd] at he
    obtain ⟨-, rfl⟩ := ends_pure.mp he
    exact ⟨h, .refl _, fun _ => rfl⟩
  | some f =>
    rw [hfd] at he
    obtain ⟨fd', k1, ha, he1⟩ := ends_bind.mp he
    rcases fdalloc_spec h hp ha with ⟨rfl, rfl⟩ | ⟨fd2, rfl, -, rfl, hinv⟩
    · obtain ⟨-, rfl⟩ := ends_pure.mp he1
      exact ⟨h, .refl _, fun _ => rfl⟩
    · obtain ⟨_, k2, hd, he2⟩ := ends_bind.mp he1
      obtain ⟨rfl, rfl⟩ := ends_pure.mp he2
      obtain ⟨hk2, hinv'⟩ := filedup_spec hinv hd
      have hx : plus (plus x f (-1)) f 1 = x := plus_cancel x f (-1)
      rw [hx] at hinv'
      have hkeep : KeepsEnds (k.setProc p fun y =>
          { y with ofile := update y.ofile fd2 (some f) }) k2 := by
        rw [hk2]
        exact keepsEnds_setFile rfl rfl
      exact ⟨hinv', fun g a hg => hkeep g a hg, fun hr => absurd hr (by omega)⟩

omit h in
theorem ends_idup (ip : Option (Fin NINODE)) (k : State) :
    ∃ iref, Ends (idup ip) k () { k with iref := iref } := by
  obtain ⟨iref, he⟩ := idup_spec (k := k) (r := ()) (ends_modify.mpr rfl)
  exact ⟨iref, ends_modify.mpr he.symm⟩

/-- The inode cache is not part of the invariant. -/
theorem Inv.iref (iref : Fin NINODE → Int) : Inv L ok sp sh { k with iref := iref } ρ fl x :=
  h.same ⟨rfl, rfl, rfl, fun _ => .refl _⟩ rfl rfl rfl fun _ => rfl

omit h in
/-- A file in use becomes an inode's. -/
theorem Files.setInode (h : Files k x) (href : (k.file f).ref ≠ 0)
    (htype : (k.file f).type ≠ .pipe) (ip : Option (Fin NINODE)) (rd wr : Bool) :
    Files (k.setFile f fun y =>
      { y with type := .inode, ip := ip, off := 0, readable := rd, writable := wr }) x := by
  refine h.sameEnds (fun g => ?_) rfl rfl (fun g => ?_) fun g hg => ?_
  · by_cases hgf : g = f
    · subst hgf
      simp [htype]
    · simp [hgf]
  · rw [← h.count g]
    by_cases hgf : g = f
    · subst hgf
      rw [setFile_file_self]
    · rw [setFile_file_ne hgf]
  · by_cases hgf : g = f
    · subst hgf
      rw [setFile_file_self] at hg
      exact absurd hg href
    · rw [setFile_file_ne hgf] at hg ⊢
      exact h.idle g hg

theorem sys_open_spec {r : Int} {ip : Fin NINODE} {rd wr : Bool}
    (hp : ¬ Closed (k.proc p)) (he : Ends (sys_open L p ip rd wr) k r k') :
    ∃ ρ' fl', Inv L ok sp sh k' ρ' fl' x ∧ KeepsEnds k k' ∧ (r = -1 → ofiles k' = ofiles k) := by
  obtain ⟨_, k1, hi, he1⟩ := ends_bind.mp he
  obtain ⟨iref, rfl⟩ := idup_spec hi
  have h1 := h.iref iref
  obtain ⟨r2, k2, ha, he2⟩ := ends_bind.mp he1
  rcases filealloc_spec h1 ha with ⟨rfl, rfl⟩ | ⟨f, rfl, href, rfl, h2⟩
  · obtain ⟨_, k3, hi, he3⟩ := ends_bind.mp he2
    obtain ⟨iref', rfl⟩ := iput_spec hi
    obtain ⟨-, rfl⟩ := ends_pure.mp he3
    exact ⟨ρ, fl, h1.iref iref', keepsEnds_of_file rfl, fun _ => rfl⟩
  -- only an entry that was free is written
  have hne : ∀ g, (k.file g).ref ≠ 0 → g ≠ f := fun g hg he => hg (he ▸ href)
  have hset : ∀ g, (k.file g).ref ≠ 0 →
      (k.setFile f fun y => { y with ref := 1 }).file g = k.file g :=
    fun g hg => setFile_file_ne (hne g hg) _
  obtain ⟨r3, k3, hfd, he3⟩ := ends_bind.mp he2
  rcases fdalloc_spec h2 hp hfd with ⟨rfl, rfl⟩ | ⟨fd, rfl, -, rfl, h3⟩
  · -- no descriptor: the file is closed again
    obtain ⟨_, k4, hc, he4⟩ := ends_bind.mp he3
    obtain ⟨ρ', fl', h4, hw, -, hother⟩ := fileclose_spec h2 hc
    rw [plus_cancel] at h4
    obtain ⟨_, k5, hi, he5⟩ := ends_bind.mp he4
    obtain ⟨iref', rfl⟩ := iput_spec hi
    obtain ⟨-, rfl⟩ := ends_pure.mp he5
    exact ⟨ρ', fl', h4.iref iref',
      h.files.keepsEnds fun g hg => (hother g (hne g hg)).trans (hset g hg), fun _ => hw.ofiles_eq⟩
  · rw [plus_cancel] at h3
    obtain ⟨_, k4, hm, he4⟩ := ends_bind.mp he3
    obtain rfl := ends_modifyFile.mp hm
    obtain ⟨rfl, rfl⟩ := ends_pure.mp he4
    refine ⟨ρ, fl, h3.refile (same_setFile _ _) rfl (fun _ => rfl) (h3.files.setInode ?_ ?_ _ _ _),
      h.files.keepsEnds fun g hg => (setFile_file_ne (hne g hg) _).trans (hset g hg),
      fun hr => absurd hr (by omega)⟩
    · simp
    · have hidle : (k.file f).type = .none := h1.files.idle f href
      simp [hidle]

end

/-! ## Creating a pipe -/

/-- After the files `rf` and `wf` became the ends of a pipe in page `a`. -/
def openedPipe (k : State) (rf wf : Fin NFILE) (a : Nat) : State :=
  ({ k with pipe := update k.pipe a ⟨true, true⟩ }.setFile rf fun y =>
      { y with type := .pipe, readable := true, writable := false, pipe := a }).setFile wf fun y =>
    { y with type := .pipe, readable := false, writable := true, pipe := a }

theorem ends_openPipe (he : Ends (openPipe rf wf a) k r k') : k' = openedPipe k rf wf a := by
  have he := ends_modify_bind.mp he
  obtain ⟨_, _, hm, he⟩ := ends_bind.mp he
  obtain rfl := ends_modifyFile.mp hm
  exact ends_modifyFile.mp he

section Opened

variable {rf wf g : Fin NFILE} {a : Nat}

theorem openedPipe_wf : (openedPipe k rf wf a).file wf =
    { (openedPipe k rf wf a).file wf with type := .pipe, writable := true, pipe := a } := by
  simp [openedPipe]

theorem openedPipe_rf (hne : rf ≠ wf) : (openedPipe k rf wf a).file rf =
    { (openedPipe k rf wf a).file rf with type := .pipe, writable := false, pipe := a } := by
  simp [openedPipe, hne]

theorem openedPipe_ne (hr : g ≠ rf) (hw : g ≠ wf) : (openedPipe k rf wf a).file g = k.file g := by
  simp [openedPipe, hr, hw]

theorem openedPipe_ref : ((openedPipe k rf wf a).file g).ref = (k.file g).ref := by
  unfold openedPipe
  by_cases hw : g = wf
  · subst hw
    by_cases hr : g = rf
    · subst hr
      simp
    · simp [hr]
  · by_cases hr : g = rf
    · subst hr
      simp [hw]
    · simp [hr, hw]

/-- A file of type pipe is one of the new ends, or was of type pipe before. -/
theorem openedPipe_cases (hne : rf ≠ wf) (hg : ((openedPipe k rf wf a).file g).type = .pipe) :
    (((openedPipe k rf wf a).file g).pipe = a ∧
      g = if ((openedPipe k rf wf a).file g).writable then wf else rf) ∨
      ((openedPipe k rf wf a).file g = k.file g ∧ (k.file g).type = .pipe) := by
  by_cases hw : g = wf
  · subst hw
    rw [openedPipe_wf]
    simp
  · by_cases hr : g = rf
    · subst hr
      rw [openedPipe_rf hne]
      simp
    · rw [openedPipe_ne hr hw] at hg ⊢
      exact .inr ⟨rfl, hg⟩

theorem Files.openedPipe (h : Files k x) (hne : rf ≠ wf)
    (hrf : (k.file rf).ref ≠ 0 ∧ (k.file rf).type = .none)
    (hwf : (k.file wf).ref ≠ 0 ∧ (k.file wf).type = .none)
    (ha : ∀ w, ¬ IsOpen (k.pipe a) w) : Files (openedPipe k rf wf a) x := by
  have hpipe : (Kernel.openedPipe k rf wf a).pipe = update k.pipe a ⟨true, true⟩ := rfl
  -- an older end is in another page
  have hold : ∀ g, (k.file g).type = .pipe → (k.file g).pipe ≠ a := by
    intro g hg he
    exact ha _ (he ▸ h.isOpen g hg)
  refine ⟨?_, ?_, h.empty, ?_, ?_, ?_⟩
  · intro g
    rw [openedPipe_ref]
    exact h.count g
  · intro g hg
    rw [openedPipe_ref] at hg
    have hr : g ≠ rf := by
      rintro rfl
      exact hrf.1 hg
    have hw : g ≠ wf := by
      rintro rfl
      exact hwf.1 hg
    rw [openedPipe_ne hr hw]
    exact h.idle g hg
  · intro g hg
    rw [hpipe]
    rcases openedPipe_cases hne hg with ⟨he, -⟩ | ⟨he, hg⟩
    · rw [he, update_self]
      cases ((Kernel.openedPipe k rf wf a).file g).writable <;> rfl
    · rw [he, update_of_ne (hold g hg)]
      exact h.isOpen g hg
  · intro g g' hg hg' h1 h2
    rcases openedPipe_cases hne hg with ⟨he, hw⟩ | ⟨he, hg⟩
    · rcases openedPipe_cases hne hg' with ⟨he', hw'⟩ | ⟨he', hg'⟩
      · rw [hw, hw', h2]
      · rw [he, he'] at h1
        exact absurd h1.symm (hold g' hg')
    · rcases openedPipe_cases hne hg' with ⟨he', -⟩ | ⟨he', hg'⟩
      · rw [he, he'] at h1
        exact absurd h1 (hold g hg)
      · rw [he, he'] at h1 h2
        exact h.inj g g' hg hg' h1 h2
  · intro b w hw
    rw [hpipe] at hw
    by_cases hb : b = a
    · cases w with
      | true => exact ⟨wf, by rw [openedPipe_wf]; simp [hb]⟩
      | false => exact ⟨rf, by rw [openedPipe_rf hne]; simp [hb]⟩
    · rw [update_of_ne hb] at hw
      obtain ⟨g, h1, h2, h3⟩ := h.ends b w hw
      refine ⟨g, ?_⟩
      rw [openedPipe_ne]
      · exact ⟨h1, h2, h3⟩
      · rintro rfl
        rw [hrf.2] at h1
        cases h1
      · rintro rfl
        rw [hwf.2] at h1
        cases h1

end Opened

/-- A free page becomes the buffer of a new pipe. -/
theorem Inv.openedPipe {s' : Phys} {fl' : List Nat} (h : Inv L ok sp sh k ρ fl x)
    (hfree : ρ a = .free) (hmem : Mem.Inv L s' (Function.update ρ a (.held .pipe)) fl' 0)
    (hne : rf ≠ wf) (hrf : (k.file rf).ref ≠ 0 ∧ (k.file rf).type = .none)
    (hwf : (k.file wf).ref ≠ 0 ∧ (k.file wf).type = .none) :
    Inv L ok sp sh (openedPipe { k with phys := s' } rf wf a)
      (Function.update ρ a (.held .pipe)) fl' x := by
  have hsame : Same k (Kernel.openedPipe { k with phys := s' } rf wf a) :=
    ⟨rfl, rfl, rfl, fun _ => .refl _⟩
  have hclosed : ∀ w, ¬ IsOpen (k.pipe a) w := by
    intro w hw
    have := h.pipe hw
    rw [hfree] at this
    cases this
  have hfiles : Files { k with phys := s' } x := h.files.congr rfl rfl fun _ => ⟨id, rfl⟩
  refine h.update hmem (views_update a _) (by simp [Role.view]) (fun _ => by simp [Role.view]) ?_
    h.nodup (fun p => (h.procs p).maps ?_) (hfiles.openedPipe hne hrf hwf hclosed)
  · refine h.agree.take (views_free hfree) ⟨true, ?_⟩ fun w b _ hwb => ?_
    · show (Function.update k.pipe a ⟨true, true⟩ a).writeopen = true
      rw [update_self]
    · exact hsame.claims fun hw => update_of_ne (hwb hw) _ _
  · intro _ _ m
    exact maps_update_held hfree m

theorem pipealloc_spec {r : Option (Fin NFILE × Fin NFILE)} (h : Inv L ok sp sh k ρ fl x)
    (he : Ends (pipealloc L) k r k') :
    ∃ ρ' fl', Woken k k' ∧ (∀ g, (k.file g).ref ≠ 0 → k'.file g = k.file g) ∧
      ((r = none ∧ Inv L ok sp sh k' ρ' fl' x) ∨
        ∃ rf wf, r = some (rf, wf) ∧ (k.file rf).ref = 0 ∧ (k.file wf).ref = 0 ∧
          Inv L ok sp sh k' ρ' fl' (plus (plus x rf 1) wf 1)) := by
  obtain ⟨r1, k1, ha1, he1⟩ := ends_bind.mp he
  rcases filealloc_spec h ha1 with ⟨rfl, rfl⟩ | ⟨rf, rfl, href, rfl, h1⟩
  · obtain ⟨rfl, rfl⟩ := ends_pure.mp he1
    exact ⟨ρ, fl, .refl _, fun _ _ => rfl, .inl ⟨rfl, h⟩⟩
  have hw1 : Woken k (k.setFile rf fun y => { y with ref := 1 }) := ⟨fun _ => .inl rfl, rfl⟩
  have hner : ∀ g, (k.file g).ref ≠ 0 → g ≠ rf := fun g hg he => hg (he ▸ href)
  have hset : ∀ g, (k.file g).ref ≠ 0 →
      (k.setFile rf fun y => { y with ref := 1 }).file g = k.file g :=
    fun g hg => setFile_file_ne (hner g hg) _
  obtain ⟨r2, k2, ha2, he2⟩ := ends_bind.mp he1
  rcases filealloc_spec h1 ha2 with ⟨rfl, rfl⟩ | ⟨wf, rfl, hwref, rfl, h2⟩
  · -- no second file
    obtain ⟨_, k3, hc, he3⟩ := ends_bind.mp he2
    obtain ⟨rfl, rfl⟩ := ends_pure.mp he3
    obtain ⟨ρ', fl', hinv, hw, -, hother⟩ := fileclose_spec h1 hc
    rw [plus_cancel] at hinv
    exact ⟨ρ', fl', hw1.trans hw, fun g hg => (hother g (hner g hg)).trans (hset g hg),
      .inl ⟨rfl, hinv⟩⟩
  have hne : rf ≠ wf := by
    rintro rfl
    simp at hwref
  have hwref0 : (k.file wf).ref = 0 := by
    rwa [setFile_file_ne (Ne.symm hne)] at hwref
  have hnew : ∀ g, (k.file g).ref ≠ 0 → g ≠ wf := fun g hg he => hg (he ▸ hwref0)
  have hset2 : ∀ g, (k.file g).ref ≠ 0 → ((k.setFile rf fun y => { y with ref := 1 }).setFile wf
      fun y => { y with ref := 1 }).file g = k.file g :=
    fun g hg => (setFile_file_ne (hnew g hg) _).trans (hset g hg)
  obtain ⟨a, s', hkalloc, he3⟩ := ends_onPhys_bind.mp he2
  rcases kalloc_spec .pipe h2.mem hkalloc with ⟨rfl, rfl, -⟩ | ⟨fl', rfl, hpage, -, -, hmem⟩
  · -- no page
    have h3 := h2.withDeny k.phys.deny.tail
    rw [if_pos rfl] at he3
    obtain ⟨_, k4, hc, he4⟩ := ends_bind.mp he3
    obtain ⟨ρ4, fl4, h4, hw4, -, hother4⟩ := fileclose_spec h3 hc
    rw [plus_comm, plus_cancel] at h4
    obtain ⟨_, k5, hc, he5⟩ := ends_bind.mp he4
    obtain ⟨ρ5, fl5, h5, hw5, -, hother5⟩ := fileclose_spec h4 hc
    rw [plus_cancel] at h5
    obtain ⟨rfl, rfl⟩ := ends_pure.mp he5
    refine ⟨ρ5, fl5, ?_, fun g hg => ?_, .inl ⟨rfl, h5⟩⟩
    · have hw3 : Woken k (((k.setFile rf fun y => { y with ref := 1 }).setFile wf
          fun y => { y with ref := 1 }).withDeny k.phys.deny.tail) := ⟨fun _ => .inl rfl, rfl⟩
      exact (hw3.trans hw4).trans hw5
    · rw [hother5 g (hnew g hg), hother4 g (hner g hg)]
      exact hset2 g hg
  · have hgt := hpage.gt
    rw [if_neg (by omega)] at he3
    obtain ⟨_, k4, ho, he4⟩ := ends_bind.mp he3
    obtain rfl := ends_openPipe ho
    obtain ⟨rfl, rfl⟩ := ends_pure.mp he4
    have hfree : ρ a = .free := (h2.mem.free a).mp (by simp)
    refine ⟨_, fl', ⟨fun _ => .inl rfl, rfl⟩, fun g hg => (openedPipe_ne (hner g hg) (hnew g
      hg)).trans (hset2 g hg), .inr ⟨rf, wf, rfl, href, hwref0, h2.openedPipe hfree hmem hne ?_ ?_⟩⟩
    · have hidle := h.files.idle rf href
      simp [hne, hidle]
    · have hidle := h.files.idle wf hwref0
      simp [Ne.symm hne, hidle]

theorem sys_pipe_spec {r : Int} (h : Inv L ok sp sh k ρ fl x) (hp : (k.proc p).state = .running)
    (he : Ends (sys_pipe L p) k r k') :
    ∃ ρ' fl', Inv L ok sp sh k' ρ' fl' x ∧ KeepsEnds k k' ∧ (r = -1 → ofiles k' = ofiles k) := by
  obtain ⟨r1, k1, ha, he1⟩ := ends_bind.mp he
  obtain ⟨ρ1, fl1, hw, hused, ⟨rfl, h1⟩ | ⟨rf, wf, rfl, hrf, hwf, h1⟩⟩ := pipealloc_spec h ha
  · obtain ⟨-, rfl⟩ := ends_pure.mp he1
    exact ⟨ρ1, fl1, h1, h.files.keepsEnds hused, fun _ => hw.ofiles_eq⟩
  have hproc : k1.proc p = k.proc p := hw.awake (by simp [hp])
  have hopen : ¬ Closed (k1.proc p) := by
    rw [hproc]
    exact not_closed hp
  -- the two files are closed again
  have hundo : ∀ {k2 ρ2 fl2 k3 k4}, Inv L ok sp sh k2 ρ2 fl2 (plus (plus x rf 1) wf 1) →
      k2.file = k1.file → Ends (fileclose L rf) k2 () k3 → Ends (fileclose L wf) k3 () k4 →
      ∃ ρ' fl', Inv L ok sp sh k4 ρ' fl' x ∧ KeepsEnds k k4 ∧ ofiles k4 = ofiles k2 := by
    intro k2 ρ2 fl2 k3 k4 h2 hfile hc hc'
    obtain ⟨ρ3, fl3, h3, hw3, -, hother3⟩ := fileclose_spec h2 hc
    rw [plus_comm, plus_cancel] at h3
    obtain ⟨ρ4, fl4, h4, hw4, -, hother4⟩ := fileclose_spec h3 hc'
    rw [plus_cancel] at h4
    refine ⟨ρ4, fl4, h4, h.files.keepsEnds fun g hg => ?_, (hw3.trans hw4).ofiles_eq⟩
    rw [hother4 g fun he => hg (he ▸ hwf), hother3 g fun he => hg (he ▸ hrf), hfile]
    exact hused g hg
  obtain ⟨r2, k2, hfd, he2⟩ := ends_bind.mp he1
  rcases fdalloc_spec h1 hopen hfd with ⟨rfl, rfl⟩ | ⟨fd, rfl, hnone, rfl, h2⟩
  · -- no descriptor for the read end
    obtain ⟨_, k3, hc, he3⟩ := ends_bind.mp he2
    obtain ⟨_, k4, hc', he4⟩ := ends_bind.mp he3
    obtain ⟨-, rfl⟩ := ends_pure.mp he4
    obtain ⟨ρ', fl', h', hkeep, hof⟩ := hundo h1 rfl hc hc'
    exact ⟨ρ', fl', h', hkeep, fun _ => hof.trans hw.ofiles_eq⟩
  have hopen2 : ¬ Closed ((k1.setProc p fun y =>
      { y with ofile := update y.ofile fd (some rf) }).proc p) := by
    rw [setProc_proc_self]
    exact hopen
  obtain ⟨r3, k3, hfd', he3⟩ := ends_bind.mp he2
  rcases fdalloc_spec h2 hopen2 hfd' with ⟨rfl, rfl⟩ | ⟨fd', rfl, -, rfl, h3⟩
  · -- no descriptor for the write end: the first one is taken back
    have he4 := ends_modifyProc_bind.mp he3
    rw [setFd_back hnone] at he4
    obtain ⟨_, k5, hc, he5⟩ := ends_bind.mp he4
    obtain ⟨_, k6, hc', he6⟩ := ends_bind.mp he5
    obtain ⟨-, rfl⟩ := ends_pure.mp he6
    obtain ⟨ρ', fl', h', hkeep, hof⟩ := hundo h1 rfl hc hc'
    exact ⟨ρ', fl', h', hkeep, fun _ => hof.trans hw.ofiles_eq⟩
  · rw [plus_comm, plus_cancel, plus_cancel] at h3
    obtain ⟨rfl, rfl⟩ := ends_pure.mp he3
    exact ⟨ρ1, fl1, h3, h.files.keepsEnds hused, fun hr => absurd hr (by omega)⟩

end Xv6.Kernel
