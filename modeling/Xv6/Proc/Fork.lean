import Xv6.Proc.Alloc

/-! # Specification of `fork`

    `fork` gives the child a stack, a copy of the parent's address space and references to its
    files. It asks for a stack first; what happens when the copy is refused a page is part of the
    specification.
-/

namespace Xv6.Kernel

open Program Mem

variable {L : Layout} {ok sp : Prop} {sh : Slot → Prop} {k k' : State} {fl : List Nat}
  {ρ : Nat → Role Tag} {x : Fin NFILE → Int} {p np : Slot}

/-! ## The open files -/

/-- Only the descriptors of `np` and the file table changed. -/
structure Dups (np : Slot) (k k' : State) : Prop where
  rest  : k' = { k with proc := k'.proc, file := k'.file }
  other : ∀ q, q ≠ np → k'.proc q = k.proc q
  self  : k'.proc np = { k.proc np with ofile := (k'.proc np).ofile }

theorem Dups.refl (np : Slot) (k : State) : Dups np k k := ⟨rfl, fun _ _ => rfl, rfl⟩

theorem Dups.trans {k'' : State} (h : Dups np k k') (h' : Dups np k' k'') : Dups np k k'' := by
  refine ⟨?_, fun q hq => (h'.other q hq).trans (h.other q hq), ?_⟩
  · rw [h'.rest, h.rest]
  · rw [h'.self, h.self]

theorem dupFiles_spec (hne : p ≠ np) (hx : ∀ f, 0 ≤ x f) (fds : List (Fin NOFILE)) :
    ∀ {k : State}, Inv L ok sp sh k ρ fl x → ¬ Closed (k.proc np) → fds.Nodup →
      (∀ fd ∈ fds, (k.proc np).ofile fd = none) →
      ∃ k', Ends (dupFiles p np fds) k () k' ∧ Inv L ok sp sh k' ρ fl x ∧ Dups np k k' ∧
        ∀ fd, (k'.proc np).ofile fd =
          if fd ∈ fds then (k.proc p).ofile fd else (k.proc np).ofile fd := by
  induction fds with
  | nil =>
    intro k h _ _ _
    exact ⟨k, rfl, h, .refl np k, fun _ => rfl⟩
  | cons fd fds ih =>
    intro k h hnp hnd hnone
    obtain ⟨hfd, hnd⟩ := List.nodup_cons.mp hnd
    cases hof : (k.proc p).ofile fd with
    | none =>
      obtain ⟨k', he, hinv, hdups, hfds⟩ := ih h hnp hnd fun fd' h' => hnone fd' (by simp [h'])
      refine ⟨k', ?_, hinv, hdups, fun fd' => ?_⟩
      · unfold Ends dupFiles
        rw [run_bind_of_ends (ends_get.mpr ⟨rfl, rfl⟩)]
        simp only [hof]
        exact he
      · rw [hfds fd']
        by_cases hfd' : fd' = fd
        · simp [hfd', hfd, hof, hnone fd]
        · simp [hfd']
    | some f =>
      have hdup := ends_filedup h.files (hx f) hof
      obtain ⟨-, h1⟩ := filedup_spec h hdup
      -- the new descriptor takes the reference over
      have h2 := h1.giveFd (p := np) hnp (hnone fd (by simp)) f
      have hx' : plus (plus x f 1) f (-1) = x := plus_cancel x f 1
      rw [hx'] at h2
      obtain ⟨k', he, hinv, hdups, hfds⟩ := ih h2 (by
          rw [setProc_proc_self]
          exact hnp) hnd (by
        intro fd' h'
        rw [setProc_proc_self]
        have hfd' : fd' ≠ fd := by
          rintro rfl
          exact hfd h'
        show Function.update (k.proc np).ofile fd (some f) fd' = none
        rw [Function.update_of_ne hfd']
        exact hnone fd' (by simp [h']))
      refine ⟨k', ?_, hinv, Dups.trans ⟨rfl, fun q hq => ?_, ?_⟩ hdups, fun fd' => ?_⟩
      · unfold Ends dupFiles
        rw [run_bind_of_ends (ends_get.mpr ⟨rfl, rfl⟩)]
        simp only [hof]
        rw [run_bind_of_ends hdup, run_bind_of_ends ((ends_setFd (r := ())).mpr rfl)]
        exact he
      · rw [setProc_proc_ne hq]
        rfl
      · rw [setProc_proc_self]
        rfl
      · rw [hfds fd', setProc_proc_self, setProc_proc_ne hne]
        by_cases hfd' : fd' = fd
        · simp [hfd', hfd, hof]
        · simp [hfd']

/-! ## `fork` -/

/-- What `fork` writes to the child before it copies the files. -/
def childOf (parent : Proc) (p : Slot) (d : Nat) (y : Proc) : Proc :=
  { y with pgdir := d, sz := parent.sz, parent := some p, tf := { parent.tf with eax := 0 } }

/-- The child, as `fork` leaves it. -/
structure Forked (np : Slot) (k : State) (r : Int) (k' : State) : Prop where
  was    : (k.proc np).state = .unused
  pid    : r = (k'.proc np).pid
  state  : (k'.proc np).state = .runnable
  kstack : (k'.proc np).kstack ≠ 0
  other  : ∀ q, q ≠ np → k'.proc q = k.proc q

/-- From the copy of the address space on. -/
theorem forkInto_spec (k1 : State) {s' : Phys} {d : Nat} {ρ' : Nat → Role Tag} {fl' : List Nat}
    (hne : p ≠ np) (hx : ∀ f, 0 ≤ x f) (hnp : (k1.proc np).state = .embryo)
    (hnone : ∀ fd, (k1.proc np).ofile fd = none) (hd : d ≠ 0x1000) (hsp : sp → d ≠ 0)
    (hcopy : Ends (copyuvm L (k1.proc p).pgdir (k1.proc p).sz) k1.phys d s')
    (h : Inv L ok sp sh ({ k1 with phys := s' }.setProc np (childOf (k1.proc p) p d)) ρ' fl' x) :
    ∃ k', Ends (forkInto L p np) k1 (k1.proc np).pid k' ∧
      Inv L ok sp sh k' ρ' fl' x ∧ (∀ q, q ≠ np → k'.proc q = k1.proc q) ∧
      (k'.proc np).pid = (k1.proc np).pid ∧ (k'.proc np).kstack = (k1.proc np).kstack ∧
      (k'.proc np).pgdir = d ∧ (k'.proc np).state = .runnable ∧
      (k'.proc np).ofile = (k1.proc p).ofile := by
  have hopen : ¬ Closed
      (({ k1 with phys := s' }.setProc np (childOf (k1.proc p) p d)).proc np) := by
    rw [setProc_proc_self]
    show ¬ Closed (k1.proc np)
    simp [Closed, hnp]
  obtain ⟨k2, hdup, h2, hdups, hfds⟩ := dupFiles_spec hne hx (List.finRange NOFILE) h hopen
    (List.nodup_finRange _) (by
      intro fd _
      rw [setProc_proc_self]
      exact hnone fd)
  have hself := hdups.self
  rw [setProc_proc_self] at hself
  obtain ⟨iref, hidup⟩ := ends_idup (k1.proc p).cwd k2
  have h3 := h2.iref iref
  have hstate : (k2.proc np).state = .embryo := by
    rw [hself]
    exact hnp
  have hok := h3.procs np
  have hlive : Live { k2 with iref := iref } np := by
    show (k2.proc np).state ≠ .unused
    simp [hstate]
  have h4 := h3.setProc (p := np) (f := fun y => { y with
      cwd := (k1.proc p).cwd, name := (k1.proc p).name, state := .runnable })
    hlive (by simp) rfl rfl
    ⟨hok.size, fun hr => by simp at hr,
      fun hs _ => by show (k2.proc np).pgdir ≠ 0; rw [hself]; exact hsp hs,
      fun _ => hok.pos hlive, fun hs _ => hok.shape hs hlive⟩ rfl
    (by simp [Closed])
  refine ⟨_, ?_, h4, fun q hq => ?_, ?_, ?_, ?_, ?_, funext fun fd => ?_⟩
  · unfold Ends forkInto
    rw [run_bind_of_ends (ends_get.mpr ⟨rfl, rfl⟩), run_bind_of_ends (ends_onPhys.mpr ⟨s', hcopy,
      rfl⟩), run_bind_of_ends ((ends_modifyProc (r := ())).mpr rfl), if_neg hd, run_bind_of_ends
      ((ends_modifyProc (r := ())).mpr rfl), setProc_setProc]
    refine (run_bind_of_ends hdup).trans ?_
    rw [run_bind_of_ends hidup, run_bind_of_ends ((ends_modifyProc (r := ())).mpr rfl)]
    rfl
  · rw [setProc_proc_ne hq]
    show k2.proc q = _
    rw [hdups.other q hq, setProc_proc_ne hq]
  · rw [setProc_proc_self]
    show (k2.proc np).pid = _
    rw [hself]
    rfl
  · rw [setProc_proc_self]
    show (k2.proc np).kstack = _
    rw [hself]
    rfl
  · rw [setProc_proc_self]
    show (k2.proc np).pgdir = _
    rw [hself]
    rfl
  · rw [setProc_proc_self]
  · rw [setProc_proc_self]
    show (k2.proc np).ofile fd = _
    rw [hfds fd, if_pos (List.mem_finRange fd), setProc_proc_ne hne]

/-- The number of pages a successful `fork` takes. -/
def forkNeed (sz : Nat) : Nat := 1 + (KVMPAGES + copyNeed (pages sz - 1))

/-- Every page of the address space is present. -/
def Whole (k : State) (p : Slot) : Prop :=
  ∀ m, 1 ≤ m → m < pages (k.proc p).sz → Present k.phys.mem (k.proc p).pgdir m

theorem Inv.whole_iff (h : Inv L ok sp sh k ρ fl x) (hp : (k.proc p).state = .running) :
    Whole k p ↔ ∀ m, 1 ≤ m → m < pages (k.proc p).sz → Maps ρ (k.proc p).pgdir m := by
  have hsize := (h.procs p).size
  have hrole := h.space (by unfold Live; simp [hp]) ((h.procs p).running hp)
  refine forall_congr' fun m => forall_congr' fun _ => forall_congr' fun hm => ?_
  refine h.mem.present_iff hrole ?_
  unfold pages at hm
  omega

/-- `fork` of a running process. It fails before it has a stack, or makes a child; the child has an
    address space if the copy got all its pages. -/
theorem fork_spec (h : Inv L ok sp sh k ρ fl x) (hx : ∀ f, 0 ≤ x f)
    (hp : (k.proc p).state = .running)
    (hok : ok → freeSlot k ≠ none → ∀ s1 fl1, Took k.phys fl s1 fl1 1 →
      ¬ CopyTorn s1 fl1 (k.proc p).sz)
    (hsp : sp → freeSlot k ≠ none → Grants k.phys fl 1 → Grants k.phys fl (forkNeed (k.proc p).sz))
    (hpar : freeSlot k = none ∨ ¬ Grants k.phys fl 1 ∨ Whole k p ∨ ∃ r k', Ends (fork L p) k r k') :
    ∃ r k' ρ' fl', Ends (fork L p) k r k' ∧ Inv L ok sp sh k' ρ' fl' x ∧
      ((r = -1 ∧ (freeSlot k = none ∨ ¬ Grants k.phys fl 1) ∧ Untouched k k') ∨
        ∃ np, freeSlot k = some np ∧ Grants k.phys fl 1 ∧ Forked np k r k' ∧
          (k'.proc np).ofile = (k.proc p).ofile ∧
          (((k'.proc np).pgdir ≠ 0 ∧ Grants k.phys fl (forkNeed (k.proc p).sz) ∧ Whole k p) ∨
            ((k'.proc np).pgdir = 0 ∧ ¬ Grants k.phys fl (forkNeed (k.proc p).sz)))) := by
  obtain ⟨r1, k1, ha⟩ := total_allocproc k
  rcases allocproc_spec h ha with ⟨rfl, h₁, hfail, hsame⟩ |
    ⟨np, a, s1, fl1, rfl, hslot, rfl, hfree, htook, h₁⟩
  · have he : Ends (fork L p) k (-1) k1 := ends_bind.mpr ⟨none, k1, ha, rfl⟩
    exact ⟨-1, k1, ρ, fl, he, h₁, .inl ⟨rfl, hfail, hsame⟩⟩
  have hrun : (fork L p).run k = (forkInto L p np).run (allocated k np a s1) := by
    unfold fork
    rw [run_bind_of_ends ha]
  have hnp := freeSlot_some hslot
  have hne : p ≠ np := by
    rintro rfl
    rw [hp] at hnp
    cases hnp
  have hpa : (allocated k np a s1).proc p = k.proc p := setProc_proc_ne hne _
  have hpb : (allocatedBare k np a s1).proc p = k.proc p := by
    rw [allocatedBare_eq]
    exact setProc_proc_ne hne _
  have hself : (allocated k np a s1).proc np =
      { k.proc np with state := .embryo, pid := k.nextpid, kstack := a }.initSched :=
    setProc_proc_self _ _
  have hlive : Live k p := by
    unfold Live
    simp [hp]
  have hpos := (h.procs p).pos hlive ((h.procs p).running hp)
  have hsize := (h.procs p).size
  -- the parent's address space, seen after `allocproc`
  have hrole : Function.update ρ a (.held (.kstack np)) (k.proc p).pgdir = .dir (.space p) :=
    update_role (h.space hlive ((h.procs p).running hp)) hfree (by simp)
  have hpar1 : (∀ m, 1 ≤ m → m < pages (k.proc p).sz →
      Maps (Function.update ρ a (.held (.kstack np))) (k.proc p).pgdir m) ∨
      ∃ r s', Ends (copyuvm L (k.proc p).pgdir (k.proc p).sz) s1 r s' := by
    rcases hpar with hno | hno | hpar | ⟨r, k', he⟩
    · simp [hslot] at hno
    · exact absurd htook.grants hno
    · exact .inl fun m h1 h2 =>
        (maps_update_held hfree m).mpr ((h.whole_iff hp).mp hpar m h1 h2)
    · unfold Ends at he
      rw [hrun] at he
      replace he := ends_get_bind.mp he
      obtain ⟨d, k2, hc, -⟩ := ends_bind.mp he
      obtain ⟨s', hcopy, -⟩ := ends_onPhys.mp hc
      rw [hpa] at hcopy
      exact .inr ⟨d, s', hcopy⟩
  obtain ⟨d, s2, ρ2, fl2, hcopy, hmem2, hres⟩ := copyuvm_spec (.space np) .lost h₁.mem hrole
    (by omega) hpar1
  have hd : d ≠ 0x1000 := by
    rcases hres with ⟨hd0, hspace, -⟩ | ⟨rfl, -⟩
    · have := (hmem2.isPage hspace.dir (by simp)).gt
      omega
    · decide
  -- the state in which the files are copied
  have hstate : { allocated k np a s1 with phys := s2 }.setProc np (childOf (k.proc p) p d) =
      { allocatedBare k np a s1 with phys := s2 }.setProc np (childOf (k.proc p) p d) :=
    (setProc_setProc (k := { allocated k np a s1 with phys := s2 })
      (fun y => { y with pgdir := 0 }) (childOf (k.proc p) p d)).symm
  have hbare : (allocatedBare k np a s1).proc np =
      { (allocated k np a s1).proc np with pgdir := 0 } := setProc_proc_self _ _
  have hbl : Live (allocatedBare k np a s1) np := by
    unfold Live
    rw [hbare, hself]
    simp [Proc.initSched]
  have hchild : ((allocatedBare k np a s1).proc np).state = .embryo := by
    rw [hbare, hself]
    rfl
  have hbo : ¬ Closed ((allocatedBare k np a s1).proc np) := by simp [Closed, hchild]
  have hidle : ∀ d', (childOf (k.proc p) p d' ((allocatedBare k np a s1).proc np)).state
      ≠ .running := by
    intro d'
    show ((allocatedBare k np a s1).proc np).state ≠ .running
    rw [hchild]
    simp
  have h₂ : Inv L ok sp sh ({ allocated k np a s1 with phys := s2 }.setProc np
      (childOf (k.proc p) p d)) ρ2 fl2 x := by
    rw [hstate]
    rcases hres with ⟨hd0, hspace, -, hmaps, -⟩ | ⟨rfl, -, hlost⟩
    · refine h₁.giveSpace hbl (by rw [hbare]) (fun _ hs _ => hs) hmem2 hspace hd0 ?_ rfl rfl rfl ?_
      · exact hbo
      · exact ⟨hsize, fun hr => absurd hr (hidle d), fun _ _ => hd0, fun _ _ => hpos,
          fun _ _ _ => hmaps⟩
    · have h3 : Inv L ok sp sh { allocatedBare k np a s1 with phys := s2 } ρ2 fl2 x := by
        rcases hlost with rfl | ⟨htorn, hlost⟩
        · exact h₁.phys hmem2
        · exact h₁.lose hmem2 hlost fun ho => hok ho (by simp [hslot]) s1 fl1 htook htorn
      refine h3.setProc hbl (fun hu => hbo (.inl hu)) rfl ?_ ?_ rfl fun hc => absurd hc hbo
      · show 0 = ((allocatedBare k np a s1).proc np).pgdir
        rw [hbare]
      · exact ⟨hsize, fun hr => absurd hr (hidle 0), fun _ hr => absurd hchild hr.2,
          fun _ hd => absurd rfl hd, fun _ _ hd => absurd rfl hd⟩
  have hspaced : sp → d ≠ 0 := by
    intro hs
    have hg := hsp hs (by simp [hslot]) htook.grants
    rcases hres with ⟨hd0, -⟩ | ⟨-, hno, -⟩
    · exact hd0
    · exact absurd ((grants_add htook).mp hg) hno
  obtain ⟨k', he, h3, hother, hpid, hkst, hpgd, hst, hofile⟩ := forkInto_spec (L := L) (p := p)
    (allocated k np a s1) hne hx (by rw [hself]; rfl)
    (by
      intro fd
      rw [hself]
      exact h.files.empty np (.inl hnp) fd) hd hspaced (by rw [hpa]; exact hcopy)
    (by rw [hpa]; exact h₂)
  refine ⟨_, k', ρ2, fl2, hrun.trans he, h3,
    .inr ⟨np, hslot, htook.grants, ⟨hnp, hpid.symm, hst, ?_,
    fun q hq => ?_⟩, ?_, ?_⟩⟩
  · rw [hkst, hself]
    have hpage := h.mem.isPage hfree (by simp)
    have := hpage.gt
    show a ≠ 0
    omega
  · rw [hother q hq]
    exact setProc_proc_ne hq _
  · rw [hofile, hpa]
  · rw [hpgd]
    unfold forkNeed
    rw [grants_add htook, h.whole_iff hp]
    rcases hres with ⟨hd0, -, htook2, -, hall⟩ | ⟨rfl, hg, -⟩
    · exact .inl ⟨hd0, htook2.grants, fun m h1 h2 => (maps_update_held hfree m).mp (hall m h1 h2)⟩
    · exact .inr ⟨rfl, hg⟩

end Xv6.Kernel
