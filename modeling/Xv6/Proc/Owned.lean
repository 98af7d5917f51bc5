import Mathlib.Data.Fintype.Prod
import Xv6.Framework.Refs
import Xv6.Mem.BuildImage
import Xv6.Proc.Kernel

/-! # Who owns which page

    The invariant of the kernel. Every page of the allocator is free, part of a page table, or has
    one owner that the kernel's records name: a kernel stack, a page directory, a pipe, the stack of
    a processor.

    `Role.view` is what the records can see of a page's role. The operations of `vm.c` change the
    view of at most one page, which is how their specifications are used here.
-/

namespace Xv6.Mem

open ByteMem Program Function

variable {τ : Type} {L : Layout} {s : Phys} {ρ ρ' : Nat → Role τ} {fl : List Nat} {d : Nat}
  {r : Role τ} {t leak : τ}

/-! ## Views -/

/-- A role without the inside of page tables. -/
inductive View (τ : Type) where
  | other
  /-- Free, or below some page directory. -/
  | loose
  | page (t : τ)
  | dir (t : τ)

def Role.view : Role τ → View τ
  | .other => .other
  | .held t => .page t
  | .dir t => .dir t
  | .free | .table _ _ | .user _ _ => .loose

def views (ρ : Nat → Role τ) : Nat → View τ := fun a => (ρ a).view

theorem view_page : r.view = .page t ↔ r = .held t := by
  cases r <;> simp [Role.view]

theorem view_dir : r.view = .dir t ↔ r = .dir t := by
  cases r <;> simp [Role.view]

theorem view_other : r.view = .other ↔ r = .other := by
  cases r <;> simp [Role.view]

theorem Loose.view (h : Loose d r) : r.view = .loose := by
  rcases h with rfl | ⟨i, rfl⟩ | ⟨m, rfl⟩ <;> rfl

theorem views_free {a : Nat} (h : ρ a = .free) : views ρ a = .loose := by
  unfold views
  rw [h]
  rfl

theorem views_update (a : Nat) (r : Role τ) : views (update ρ a r) = update (views ρ) a r.view := by
  funext x
  unfold views
  by_cases hx : x = a
  · subst hx
    simp
  · simp [hx]

/-- Work on one directory is not seen. -/
theorem Local.views (h : Local d ρ ρ') : views ρ' = views ρ := by
  funext x
  unfold Mem.views
  rcases h x with he | ⟨h1, h2⟩
  · rw [he]
  · rw [h1.view, h2.view]

theorem NewSpace.views (h : NewSpace ρ d t ρ') : views ρ' = update (views ρ) d (.dir t) := by
  funext x
  by_cases hx : x = d
  · subst hx
    rw [update_self]
    unfold Mem.views
    rw [h.dir]
    rfl
  · rw [update_of_ne hx]
    unfold Mem.views
    rcases h.roles x hx with he | ⟨hf, hl⟩
    · rw [he]
    · rw [hl.view, hf]
      rfl

theorem views_dropTree (hd : ρ d = .dir t) : views (dropTree ρ d) = update (views ρ) d .loose := by
  funext x
  by_cases hx : x = d
  · subst hx
    rw [update_self]
    unfold views
    rw [dropTree_of_inTree (.inl rfl)]
    rfl
  · rw [update_of_ne hx]
    unfold views
    by_cases ht : InTree ρ d x
    · rw [dropTree_of_inTree ht]
      rcases ht with ht | ⟨i, ht⟩ | ⟨m, ht⟩
      · exact absurd ht hx
      · rw [ht]
        rfl
      · rw [ht]
        rfl
    · rw [dropTree_of_not ht]

/-- What is lost is seen as one page of `leak`. -/
theorem Lost.views (h : Lost leak ρ ρ') :
    ∃ u v, ρ u = .free ∧ (v = .page leak ∨ v = .dir leak) ∧
      views ρ' = update (views ρ) u v := by
  rcases h with ⟨d, hd⟩ | ⟨u, hu, rfl⟩
  · exact ⟨d, .dir leak, hd.was, .inr rfl, hd.newSpace.views⟩
  · exact ⟨u, .page leak, hu, .inl rfl, views_update u _⟩

/-- Other directories map what they mapped. -/
theorem Lost.maps (h : Lost leak ρ ρ') (hd : ρ d = .dir t) (m : Nat) :
    Maps ρ' d m ↔ Maps ρ d m := by
  rcases h with ⟨d', hd'⟩ | ⟨u, hu, rfl⟩
  · exact hd'.newSpace.maps (ne_of_role hd hd'.was (by simp)) m
  · exact maps_update_held hu m

theorem dropTree_maps {d' : Nat} (hne : d' ≠ d) (hd : ρ d = .dir t) (m : Nat) :
    Maps (dropTree ρ d) d' m ↔ Maps ρ d' m := by
  constructor
  · intro ⟨u, hu⟩
    by_cases ht : InTree ρ d u
    · rw [dropTree_of_inTree ht] at hu
      cases hu
    · exact ⟨u, by rw [← dropTree_of_not ht, hu]⟩
  · intro ⟨u, hu⟩
    refine ⟨u, ?_⟩
    rw [dropTree_of_not, hu]
    rintro (rfl | ⟨i, hi⟩ | ⟨i, hi⟩)
    · rw [hd] at hu
      cases hu
    · rw [hu] at hi
      cases hi
    · rw [hu] at hi
      cases hi
      exact hne rfl

end Xv6.Mem

namespace Xv6.Kernel

open Program Mem

variable {L : Layout} {ok sp c : Prop} {sh sh' : Slot → Prop} {k k' : State} {fl : List Nat}
  {a : Nat} {α : Type} {e : Halt} {p : Slot} {f : Proc → Proc} {r : Unit} {i : Fin NFILE}
  {y z : Proc}

/-! ## Running kernel code -/

theorem run_onPhys (x : VM α) (k : State) :
    (onPhys x).run k = (x.run k.phys).map fun r => (r.1, { k with phys := r.2 }) := by
  show onPhys x k = _
  unfold onPhys
  cases x.run k.phys with
  | error e => rfl
  | ok r => rfl

theorem run_onPhys_error {y : VM α} (h : y.run k.phys = .error e) :
    (onPhys y).run k = .error e := by
  rw [run_onPhys, h]
  rfl

theorem run_onPhys_ne_error {y : VM α} (h : y.run k.phys ≠ .error e) :
    (onPhys y).run k ≠ .error e := by
  rw [run_onPhys]
  cases hr : y.run k.phys with
  | error e' =>
    intro he
    cases he
    exact h hr
  | ok r =>
    intro he
    cases he

theorem ends_onPhys {x : VM α} {a : α} :
    Ends (onPhys x) k a k' ↔ ∃ s', Ends x k.phys a s' ∧ k' = { k with phys := s' } := by
  unfold Ends
  rw [run_onPhys]
  cases x.run k.phys with
  | error e => simp [Except.map]
  | ok r =>
    obtain ⟨b, s⟩ := r
    simp only [Except.map, Except.ok.injEq, Prod.mk.injEq]
    constructor
    · rintro ⟨rfl, rfl⟩
      exact ⟨s, ⟨rfl, rfl⟩, rfl⟩
    · rintro ⟨s', ⟨rfl, rfl⟩, rfl⟩
      exact ⟨rfl, rfl⟩

theorem ends_modifyProc : Ends (modifyProc p f) k r k' ↔ k' = k.setProc p f := ends_modify

theorem ends_onPhys_bind {β : Type} {x : VM α} {g : α → K β} {b : β} :
    Ends (onPhys x >>= g) k b k' ↔
      ∃ a s', Ends x k.phys a s' ∧ Ends (g a) { k with phys := s' } b k' := by
  simp only [ends_bind, ends_onPhys]
  constructor
  · rintro ⟨a, _, ⟨s', hx, rfl⟩, hg⟩
    exact ⟨a, s', hx, hg⟩
  · rintro ⟨a, s', hx, hg⟩
    exact ⟨a, _, ⟨s', hx, rfl⟩, hg⟩

theorem ends_modifyProc_bind {g : Unit → K α} {a : α} :
    Ends (modifyProc p f >>= g) k a k' ↔ Ends (g ()) (k.setProc p f) a k' := ends_modify_bind

theorem ends_setFd {fd : Fin NOFILE} {o : Option (Fin NFILE)} :
    Ends (setFd p fd o) k r k' ↔
      k' = k.setProc p fun y => { y with ofile := Function.update y.ofile fd o } := ends_modify

theorem ends_modifyFile {f : File → File} :
    Ends (modifyFile i f) k r k' ↔ k' = k.setFile i f := ends_modify

theorem not_ends_panic {msg : String} {a : α} : ¬ Ends (panic msg : K α) k a k' :=
  not_ends_throw

@[simp] theorem setProc_proc_self (p : Slot) (f : Proc → Proc) :
    (k.setProc p f).proc p = f (k.proc p) := by
  simp [State.setProc]

@[simp] theorem setProc_proc_ne {q : Slot} (h : q ≠ p) (f : Proc → Proc) :
    (k.setProc p f).proc q = k.proc q := by
  simp [State.setProc, h]

@[simp] theorem setProc_file (p : Slot) (f : Proc → Proc) : (k.setProc p f).file = k.file := rfl

@[simp] theorem setFile_proc (i : Fin NFILE) (f : File → File) : (k.setFile i f).proc = k.proc :=
  rfl

@[simp] theorem setFile_file_self (i : Fin NFILE) (f : File → File) :
    (k.setFile i f).file i = f (k.file i) := by
  simp [State.setFile]

@[simp] theorem setFile_file_ne {j : Fin NFILE} (h : j ≠ i) (f : File → File) :
    (k.setFile i f).file j = k.file j := by
  simp [State.setFile, h]

/-! ## The invariant -/

/-- The owners. -/
inductive Tag where
  | kstack (p : Slot)
  | space (p : Slot)
  | kernel
  | detached
  | cpu
  | pipe
  /-- Nobody. -/
  | lost
  deriving DecidableEq

/-- The slot is in use. -/
def Live (k : State) (p : Slot) : Prop := (k.proc p).state ≠ .unused

/-- A slot without open files. -/
def Closed (y : Proc) : Prop := y.state = .unused ∨ y.state = .zombie

def IsOpen (x : Pipe) (writable : Bool) : Prop :=
  (if writable then x.writeopen else x.readopen) = true

/-- What the kernel's records say about page `a`. -/
def Claims (k : State) : View Tag → Nat → Prop
  | .page (.kstack p), a => Live k p ∧ (k.proc p).kstack = a
  | .dir (.space p), a => Live k p ∧ (k.proc p).pgdir = a ∧ a ≠ 0
  | .dir .kernel, a => k.kpgdir = a
  | .dir .detached, a => a ∈ k.detached
  | .page .cpu, a => a ∈ k.cpuStack
  | .page .pipe, a => ∃ w, IsOpen (k.pipe a) w
  | _, _ => False

/-- Views that the records determine. -/
def Firm : View Tag → Prop
  | .other | .loose | .page .lost | .dir .lost => False
  | _ => True

/-- The records and the views agree. -/
def Agree (k : State) (σ : Nat → View Tag) : Prop :=
  ∀ v, Firm v → ∀ a, σ a = v ↔ Claims k v a

/-- The open files of all processes. -/
def ofiles (k : State) : Slot × Fin NOFILE → Option (Fin NFILE) := fun x => (k.proc x.1).ofile x.2

/-- The file table. `x f` is the number of references to `f` that running code holds, apart from
    those in the process table. -/
structure Files (k : State) (x : Fin NFILE → Int) : Prop where
  count : ∀ f, ((k.file f).ref : Int) = Refs.count (ofiles k) f + x f
  idle  : ∀ f, (k.file f).ref = 0 → (k.file f).type = .none
  empty : ∀ p, Closed (k.proc p) → ∀ fd, (k.proc p).ofile fd = none
  isOpen : ∀ f, (k.file f).type = .pipe → IsOpen (k.pipe (k.file f).pipe) (k.file f).writable
  inj   : ∀ f g, (k.file f).type = .pipe → (k.file g).type = .pipe →
    (k.file f).pipe = (k.file g).pipe → (k.file f).writable = (k.file g).writable → f = g
  ends  : ∀ a w, IsOpen (k.pipe a) w →
    ∃ f, (k.file f).type = .pipe ∧ (k.file f).pipe = a ∧ (k.file f).writable = w

/-- A slot that `fork` or `userinit` has finished with. -/
def Ready (y : Proc) : Prop := y.state ≠ .unused ∧ y.state ≠ .embryo

/-- A process. It has an address space if it runs, or if `sp` holds and it is ready. If `shaped`
    holds, its address space maps the page numbers from 1 up to its size. -/
structure ProcOk (sp shaped : Prop) (y : Proc) (ρ : Nat → Role Tag) : Prop where
  size    : y.sz < 0x80000000
  running : y.state = .running → y.pgdir ≠ 0
  spaced  : sp → Ready y → y.pgdir ≠ 0
  pos     : y.state ≠ .unused → y.pgdir ≠ 0 → 0 < y.sz
  shape   : shaped → y.state ≠ .unused → y.pgdir ≠ 0 → Shape ρ y.pgdir y.sz

/-- The invariant of the kernel. No page is lost if `ok` holds; processes have address spaces if
    `sp` holds; the slots in `sh` are shaped. -/
structure Inv (L : Layout) (ok sp : Prop) (sh : Slot → Prop) (k : State) (ρ : Nat → Role Tag)
    (fl : List Nat) (x : Fin NFILE → Int) : Prop where
  mem    : Mem.Inv L k.phys ρ fl 0
  all    : ∀ a, L.IsPage a → views ρ a ≠ .other
  agree  : Agree k (views ρ)
  noLost : ok → ∀ a, views ρ a ≠ .page .lost ∧ views ρ a ≠ .dir .lost
  nodup  : k.detached.Nodup ∧ k.cpuStack.Nodup
  procs  : ∀ p, ProcOk sp (sh p) (k.proc p) ρ
  files  : Files k x

variable {ρ ρ' : Nat → Role Tag} {fl' : List Nat} {σ : Nat → View Tag} {x x' : Fin NFILE → Int}
  {p : Slot} {v : View Tag}

theorem Inv.space (h : Inv L ok sp sh k ρ fl x) (hp : Live k p) (hd : (k.proc p).pgdir ≠ 0) :
    ρ (k.proc p).pgdir = .dir (.space p) :=
  view_dir.mp ((h.agree (.dir (.space p)) trivial _).mpr ⟨hp, rfl, hd⟩)

theorem Inv.kstack (h : Inv L ok sp sh k ρ fl x) (hp : Live k p) :
    ρ (k.proc p).kstack = .held (.kstack p) :=
  view_page.mp ((h.agree (.page (.kstack p)) trivial _).mpr ⟨hp, rfl⟩)

/-! ## Changing the views -/

theorem Agree.take (h : Agree k σ) (ha : σ a = .loose) (hyes : Claims k' v a)
    (hk : ∀ w b, Firm w → (w = v → b ≠ a) → (Claims k' w b ↔ Claims k w b)) :
    Agree k' (Function.update σ a v) := by
  intro w hw b
  by_cases hb : b = a
  · subst hb
    rw [Function.update_self]
    by_cases hwv : w = v
    · subst hwv
      exact ⟨fun _ => hyes, fun _ => rfl⟩
    · rw [hk w b hw fun he => absurd he hwv, ← h w hw b, ha]
      constructor
      · intro he
        exact absurd he.symm hwv
      · rintro rfl
        exact absurd hw id
  · rw [Function.update_of_ne hb, hk w b hw fun _ => hb, h w hw b]

theorem Agree.give (h : Agree k σ) (ha : σ a = v) (hno : ¬ Claims k' v a)
    (hk : ∀ w b, Firm w → (w = v → b ≠ a) → (Claims k' w b ↔ Claims k w b)) :
    Agree k' (Function.update σ a .loose) := by
  intro w hw b
  by_cases hb : b = a
  · subst hb
    rw [Function.update_self]
    constructor
    · rintro rfl
      exact absurd hw id
    · intro hc
      by_cases hwv : w = v
      · subst hwv
        exact absurd hc hno
      · rw [hk w b hw fun he => absurd he hwv, ← h w hw b, ha] at hc
        exact absurd hc.symm hwv
  · rw [Function.update_of_ne hb, hk w b hw fun _ => hb, h w hw b]

theorem Agree.lose (h : Agree k σ) (ha : σ a = .loose) (hv : ¬ Firm v) :
    Agree k (Function.update σ a v) := by
  intro w hw b
  by_cases hb : b = a
  · subst hb
    rw [Function.update_self, ← h w hw b, ha]
    constructor
    · rintro rfl
      exact absurd hw hv
    · rintro rfl
      exact absurd hw id
  · rw [Function.update_of_ne hb, h w hw b]

theorem Agree.frame (h : Agree k σ) (hk : ∀ w b, Firm w → (Claims k' w b ↔ Claims k w b)) :
    Agree k' σ := by
  intro w hw b
  rw [hk w b hw, h w hw b]

/-! ## What the invariant does not see -/

/-- The fields that ownership depends on are the same. -/
structure SameOwn (y z : Proc) : Prop where
  unused : z.state = .unused ↔ y.state = .unused
  kstack : y.state ≠ .unused → z.kstack = y.kstack
  pgdir  : y.state ≠ .unused → z.pgdir = y.pgdir
  sz     : z.sz = y.sz
  running : z.state = .running → y.state = .running ∨ z.pgdir ≠ 0
  closed : Closed z → Closed y
  ready  : Ready z → Ready y ∨ z.pgdir ≠ 0

theorem SameOwn.refl (y : Proc) : SameOwn y y :=
  ⟨.rfl, fun _ => rfl, fun _ => rfl, rfl, fun h => .inl h, id, .inl⟩

/-- Only the state changed, between states in use. -/
theorem SameOwn.of_state (hy : Ready y) (hz : ¬ Closed z) (hr : z.state = .running → z.pgdir ≠ 0)
    (hk : z.kstack = y.kstack) (hp : z.pgdir = y.pgdir) (hs : z.sz = y.sz) : SameOwn y z :=
  ⟨⟨fun h => absurd (.inl h) hz, fun h => absurd h hy.1⟩, fun _ => hk, fun _ => hp, hs,
    fun h => .inr (hr h), fun h => absurd h hz, fun _ => .inl hy⟩

theorem ProcOk.same (h : ProcOk sp c y ρ) (hs : SameOwn y z) : ProcOk sp c z ρ := by
  have hlive : z.state ≠ .unused → y.state ≠ .unused := fun hz hy => hz (hs.unused.mpr hy)
  refine ⟨?_, ?_, ?_, ?_, ?_⟩
  · rw [hs.sz]
    exact h.size
  · intro hz
    rcases hs.running hz with hr | hd
    · rw [hs.pgdir (by simp [hr])]
      exact h.running hr
    · exact hd
  · intro hsp hz
    rcases hs.ready hz with hy | hd
    · rw [hs.pgdir hy.1]
      exact h.spaced hsp hy
    · exact hd
  · intro hz
    rw [hs.pgdir (hlive hz), hs.sz]
    exact h.pos (hlive hz)
  · intro hc hz
    rw [hs.pgdir (hlive hz), hs.sz]
    exact h.shape hc (hlive hz)

/-- The address space is not touched. -/
theorem ProcOk.maps (h : ProcOk sp c y ρ)
    (hm : y.state ≠ .unused → y.pgdir ≠ 0 → ∀ m, Maps ρ' y.pgdir m ↔ Maps ρ y.pgdir m) :
    ProcOk sp c y ρ' :=
  ⟨h.size, h.running, h.spaced, h.pos,
    fun hc hl hd m => (hm hl hd m).trans (h.shape hc hl hd m)⟩

theorem ProcOk.weaken {c' : Prop} (h : ProcOk sp c y ρ) (hc : c' → c) : ProcOk sp c' y ρ :=
  ⟨h.size, h.running, h.spaced, h.pos, fun hs => h.shape (hc hs)⟩

/-- The two states have the same owners, pipes apart. -/
structure Same (k k' : State) : Prop where
  kpgdir   : k'.kpgdir = k.kpgdir
  cpuStack : k'.cpuStack = k.cpuStack
  detached : k'.detached = k.detached
  proc     : ∀ p, SameOwn (k.proc p) (k'.proc p)

theorem Same.live (h : Same k k') (p : Slot) : Live k' p ↔ Live k p := not_congr (h.proc p).unused

theorem Same.claims (h : Same k k') (hpipe : v = .page .pipe → k'.pipe a = k.pipe a) :
    Claims k' v a ↔ Claims k v a := by
  unfold Claims
  split
  · rw [h.live]
    exact and_congr_right fun hp => by rw [(h.proc _).kstack hp]
  · rw [h.live]
    exact and_congr_right fun hp => by rw [(h.proc _).pgdir hp]
  · rw [h.kpgdir]
  · rw [h.detached]
  · rw [h.cpuStack]
  · rw [hpipe rfl]
  · rfl

/-- One process changed, but not in what ownership depends on. -/
theorem same_setProc (h : SameOwn (k.proc p) (f (k.proc p))) : Same k (k.setProc p f) := by
  refine ⟨rfl, rfl, rfl, fun q => ?_⟩
  by_cases hq : q = p
  · subst hq
    rw [setProc_proc_self]
    exact h
  · rw [setProc_proc_ne hq]
    exact .refl _

theorem same_setFile (i : Fin NFILE) (f : File → File) : Same k (k.setFile i f) :=
  ⟨rfl, rfl, rfl, fun _ => .refl _⟩

section

variable (h : Inv L ok sp sh k ρ fl x)
include h

/-- The file table may change on its own. -/
theorem Inv.refile (hk : Same k k') (hphys : k'.phys = k.phys)
    (hpipe : ∀ a, k'.pipe a = k.pipe a) (hf : Files k' x') : Inv L ok sp sh k' ρ fl x' := by
  refine ⟨?_, h.all, h.agree.frame fun w b _ => hk.claims fun _ => hpipe b, h.noLost, ?_,
    fun p => (h.procs p).same (hk.proc p), hf⟩
  · rw [hphys]
    exact h.mem
  · rw [hk.detached, hk.cpuStack]
    exact h.nodup

omit h in
theorem Files.congr (h : Files k x) (hfile : k'.file = k.file) (hpipe : k'.pipe = k.pipe)
    (hproc : ∀ p, (Closed (k'.proc p) → Closed (k.proc p)) ∧ (k'.proc p).ofile = (k.proc p).ofile) :
    Files k' x := by
  have hof : ofiles k' = ofiles k := by
    funext y
    unfold ofiles
    rw [(hproc y.1).2]
  refine ⟨?_, ?_, ?_, ?_, ?_, ?_⟩
  · rw [hof, hfile]
    exact h.count
  · rw [hfile]
    exact h.idle
  · intro p hp
    rw [(hproc p).2]
    exact h.empty p ((hproc p).1 hp)
  · rw [hfile, hpipe]
    exact h.isOpen
  · rw [hfile]
    exact h.inj
  · rw [hfile, hpipe]
    exact h.ends

/-- Neither owners nor files changed. -/
theorem Inv.same (hk : Same k k') (hphys : k'.phys = k.phys)
    (hpipe : k'.pipe = k.pipe) (hfile : k'.file = k.file)
    (hof : ∀ p, (k'.proc p).ofile = (k.proc p).ofile) : Inv L ok sp sh k' ρ fl x :=
  h.refile hk hphys (fun a => by rw [hpipe])
    (h.files.congr hfile hpipe fun p => ⟨(hk.proc p).closed, hof p⟩)

theorem Inv.update (hmem : Mem.Inv L k'.phys ρ' fl' 0)
    (hv : views ρ' = Function.update (views ρ) a v) (hother : v ≠ .other)
    (hlost : ok → v ≠ .page .lost ∧ v ≠ .dir .lost)
    (hagree : Agree k' (Function.update (views ρ) a v))
    (hnodup : k'.detached.Nodup ∧ k'.cpuStack.Nodup)
    (hprocs : ∀ p, ProcOk sp (sh' p) (k'.proc p) ρ') (hfiles : Files k' x') :
    Inv L ok sp sh' k' ρ' fl' x' := by
  refine ⟨hmem, ?_, hv ▸ hagree, ?_, hnodup, hprocs, hfiles⟩
  · intro b hb
    rw [hv]
    by_cases hba : b = a
    · rw [hba, Function.update_self]
      exact hother
    · rw [Function.update_of_ne hba]
      exact h.all b hb
  · intro hok b
    rw [hv]
    by_cases hba : b = a
    · rw [hba, Function.update_self]
      exact hlost hok
    · rw [Function.update_of_ne hba]
      exact h.noLost hok b

/-- Memory changed below the directories. -/
theorem Inv.remap (hm : Mem.Inv L k'.phys ρ' fl' 0) (hv : views ρ' = views ρ)
    (hagree : Agree k' (views ρ)) (hnodup : k'.detached.Nodup ∧ k'.cpuStack.Nodup)
    (hprocs : ∀ p, ProcOk sp (sh' p) (k'.proc p) ρ') (hfiles : Files k' x') :
    Inv L ok sp sh' k' ρ' fl' x' :=
  ⟨hm, by rw [hv]; exact h.all, by rw [hv]; exact hagree, by rw [hv]; exact h.noLost, hnodup,
    hprocs, hfiles⟩

/-- Memory changed, but nothing the role map depends on. -/
theorem Inv.phys {s' : Phys} (hm : Mem.Inv L s' ρ fl' 0) :
    Inv L ok sp sh { k with phys := s' } ρ fl' x :=
  h.remap hm rfl (h.agree.frame fun _ _ _ => Same.claims ⟨rfl, rfl, rfl, fun _ => .refl _⟩
    fun _ => rfl) h.nodup h.procs (h.files.congr rfl rfl fun _ => ⟨id, rfl⟩)

theorem Inv.withDeny (deny : List Bool) : Inv L ok sp sh (k.withDeny deny) ρ fl x :=
  h.phys (h.mem.congr rfl fun _ _ _ _ _ => rfl)

end

end Xv6.Kernel
