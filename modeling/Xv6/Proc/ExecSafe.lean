import Xv6.Mem.LoadSafe
import Xv6.Proc.ForkClean

/-! # Safe loading

    `exec` of any inode by a running process: it returns, with 0 or -1, and breaks no rule of
    loading, exactly when it does not get to a segment at address 0 with bytes in the file and
    `readi` did not fail on the ELF header.
-/

namespace Xv6.Kernel

open Program Mem ByteMem

variable {L : Layout} {k k' : State} {p : Slot} {path : CStr} {src : Source} {argv : List CStr}
  {ρ : Nat → Role Tag} {fl : List Nat}

/-! ## `exec` of any inode -/

/-- `exec`; `src` says what `readi` gives for the inode that `namei` finds. -/
def execFrom (L : Layout) (strict : Bool) (p : Slot) (path : CStr) (src : Option Source)
    (argv : List CStr) : K Int := do
  match src with
  | none => return -1
  | some src => do
      let r ← onPhys (src.buildImage L strict argv)
      match r with
      | none => return -1
      | some img => commitImage L p path img

/-- On a regular file this is `exec`. -/
theorem execFrom_ofContent (ip : Content) (stale : ByteMem.Mem) :
    execFrom L false p path (some (.ofContent ip stale)) argv =
      exec L p path (some ip) argv := by
  unfold execFrom
  simp only [Source.buildImage_ofContent]
  rfl

theorem onPhys_stricter {α : Type} {x y : VM α} (h : Stricter x y) :
    Stricter (onPhys x) (onPhys y) := by
  intro k a k' he
  obtain ⟨s', hx, rfl⟩ := ends_onPhys.mp he
  exact ends_onPhys.mpr ⟨s', h hx, rfl⟩

theorem execFrom_stricter (ip : Option Source) :
    Stricter (execFrom L true p path ip argv) (execFrom L false p path ip argv) := by
  cases ip with
  | none => exact .refl _
  | some src => exact .bind (onPhys_stricter (src.buildImage_stricter argv)) fun _ => .refl _

/-- `exec` returns 0 or -1 and breaks no rule of loading. -/
def LoadsSafely (L : Layout) (k : State) (p : Slot) (path : CStr) (src : Source)
    (argv : List CStr) : Prop :=
  ∃ r k', (r = 0 ∨ r = -1) ∧ Ends (execFrom L false p path (some src) argv) k r k' ∧
    Ends (execFrom L true p path (some src) argv) k r k'

/-- The part of `exec` after the image is built. -/
theorem execFrom_commit (path : CStr) {s1 : Phys} {ρ1 : Nat → Role Tag} {fl1 : List Nat}
    {img : Image} (h : Inv L False False (fun _ => False) k ρ fl fun _ => 0)
    (hp : (k.proc p).state = .running)
    (hbuild : Ends (src.buildImage L true argv) k.phys (some img) s1) (hmem : Mem.Inv L s1 ρ1 fl1 0)
    (hspace : NewSpace ρ img.pgdir (.space p) ρ1) :
    ∃ k', Ends (execFrom L true p path (some src) argv) k 0 k' := by
  obtain ⟨s2, ns, us, hfree, -⟩ := freevm_spec hmem (h.oldSpace hp hspace)
  exact ⟨_, ends_onPhys_bind.mpr ⟨_, s1, hbuild, ends_commitImage.mpr
    ⟨hmem.dir_ne_zero hspace.dir, s2, hfree, rfl, rfl⟩⟩⟩

theorem loadsSafely_iff (h : Sound L k) (hp : (k.proc p).state = .running)
    (hfits : FitsStack 0 argv) : LoadsSafely L k p path src argv ↔ ¬ src.Breaks k.phys := by
  obtain ⟨ρ, fl, h⟩ := h
  constructor
  · rintro ⟨r, k', -, -, he⟩ hbreak
    obtain ⟨r1, k1, he1, -⟩ := ends_bind.mp he
    obtain ⟨s1, hbuild, -⟩ := ends_onPhys.mp he1
    exact src.not_buildImage (.space p) h.mem hbreak hbuild
  · intro hno
    obtain ⟨r, s1, ρ1, fl1, hbuild, hmem, hres⟩ := src.buildImage_ends (.space p) h.mem hfits hno
    cases r with
    | none =>
      have he : Ends (execFrom L true p path (some src) argv) k (-1) { k with phys := s1 } := by
        unfold Ends execFrom
        dsimp only
        rw [run_bind_of_ends (ends_onPhys.mpr ⟨s1, hbuild, rfl⟩)]
        rfl
      exact ⟨-1, _, .inr rfl, execFrom_stricter _ he, he⟩
    | some img =>
      obtain ⟨k', he⟩ := execFrom_commit path h hp hbuild hmem (hres img rfl)
      exact ⟨0, k', .inl rfl, execFrom_stricter _ he, he⟩

/-! ## In every run -/

/-- In every state that the kernel reaches with arguments that fit, and however
    `kalloc` answers: a running process can load an inode safely exactly when
    the calls of `readi` do not bring it to break a rule. -/
theorem exec_loads_iff (h : ((system L).restrict fun _ l => Fits l.event).Reachable k)
    (hp : (k.proc p).state = .running) (hfits : FitsStack 0 argv) (deny : List Bool) :
    LoadsSafely L (k.withDeny deny) p path src argv ↔ ¬ src.Breaks (k.withDeny deny).phys := by
  obtain ⟨ρ, fl, hinv⟩ := reachable_inv False False (fun _ _ hC => hC) False.elim False.elim h
  exact loadsSafely_iff ⟨ρ, fl, hinv.withDeny deny⟩ hp hfits

/-- A file whose headers hit nothing. -/
theorem smallFile_not_breaks (s : Phys) : ¬ (Source.ofContent smallFile fun _ => 0).Breaks s := by
  rintro (hr | ⟨-, -, -, hhit⟩)
  · exact absurd hr (by decide)
  · have hn : (Source.ofContent smallFile fun _ => 0).elfhdr.phnum = 1 := by decide
    rw [hn] at hhit
    obtain ⟨-, hhit⟩ := hhit
    rw [if_neg (by decide)] at hhit
    rcases hhit.2 with hz | hz
    · exact absurd hz.1 (by decide)
    · exact hz.2

theorem exec_loads_smallFile : ∃ k p,
    ((system smallLayout).restrict fun _ l => Fits l.event).Reachable k ∧
    (k.proc p).state = .running ∧
    LoadsSafely smallLayout (k.withDeny []) p ⟨[], by simp⟩
      (.ofContent smallFile fun _ => 0) [] := by
  obtain ⟨k, p, ρ, fl, hreach, h⟩ := exists_firstRuns smallLayout
    (C := fun _ l => Fits l.event) fun _ _ => trivial
  exact ⟨k, p, hreach, h.running,
    (exec_loads_iff hreach h.running (show FitsStack 0 [] from trivial) []).mpr
      (smallFile_not_breaks _)⟩

/-! ## A segment at address 0 -/

/-- An ELF file with one segment: a byte at address 0. -/
def zeroFile : Content where
  size := 85
  data
    | 0 => 0x7F
    | 1 => 0x45
    | 2 => 0x4C
    | 3 => 0x46
    | 28 => 52
    | 44 => 1
    | 52 => 1
    | 56 => 84
    | 68 => 1
    | 72 => 1
    | _ => 0
  size_le := by decide

theorem zeroFile_panics {s : Phys} (h : Mem.Inv L s ρ fl 0) (hg : Grants s fl KVMPAGES) :
    ((Source.ofContent zeroFile fun _ => 0).buildImage L false argv).run s =
      .error (.panic "loaduvm: address should exist") := by
  obtain ⟨d, s1, ρ1, fl1, hset, h1, hres⟩ := setupkvm_spec .lost h
  rcases hres with ⟨-, -, -, hno⟩ | ⟨-, -, hno, -⟩ | ⟨hd, htook, hnew, htabs⟩
  · exact absurd (hg.mono (by decide)) hno
  · exact absurd hg hno
  have hload := hnew.loading h h1 htook htabs
  have htab : ¬ HasTab ρ1 d 0 := by
    rw [htabs]
    unfold KernTab
    omega
  -- the segment ends below the size, so nothing is mapped
  have halloc : Ends (allocuvm L d PGSIZE 1) s1 PGSIZE s1 :=
    allocuvm_keeps (by decide) (by decide)
  rw [Source.buildImage_fill false (by decide) (by decide) hset hd]
  refine run_bind_of_error (run_bind_of_error ?_)
  have hn : (Source.ofContent zeroFile fun _ => 0).elfhdr.phnum = 0 + 1 := by decide
  rw [hn, Source.loadSegments_load false (by decide) (by decide) (by decide) (by decide)]
  refine (run_bind_of_ends halloc).trans ?_
  rw [if_neg (by decide), if_neg (by decide)]
  exact run_bind_of_error (hload.loaduvm_panics htab (by decide) false)

/-- The first process executes the file, and the kernel panics. -/
theorem zero_segment_panics : ∃ k p, (system smallLayout).Reachable k ∧
    (k.proc p).state = .running ∧
    (exec smallLayout p ⟨[], by simp⟩ (some zeroFile) []).run k =
      .error (.panic "loaduvm: address should exist") ∧
    ¬ LoadsSafely smallLayout k p ⟨[], by simp⟩ (.ofContent zeroFile fun _ => 0) [] := by
  obtain ⟨k, p, ρ, fl, ⟨k0, ls, hinit, hrun⟩, h⟩ :=
    exists_firstRuns smallLayout (C := fun _ _ => True) fun _ _ => trivial
  have hpanic : (exec smallLayout p ⟨[], by simp⟩ (some zeroFile) []).run k =
      .error (.panic "loaduvm: address should exist") := by
    rw [← execFrom_ofContent zeroFile fun _ => 0]
    exact run_bind_of_error (run_onPhys_error (zeroFile_panics h.inv.mem (h.grants (by decide))))
  refine ⟨k, p, ⟨k0, ls, hinit, hrun.of_restrict⟩, h.running, hpanic, ?_⟩
  rintro ⟨r, k', -, he, -⟩
  rw [execFrom_ofContent] at he
  exact he.ne_error hpanic

end Xv6.Kernel
