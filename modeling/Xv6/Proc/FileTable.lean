import Xv6.Proc.Isolation

/-! # The file table

    `f->ref` counts the descriptors that refer to `f`, a call that fails leaves no trace, and the
    page of a pipe is freed by the call that closes the last file structure of its two ends.
-/

namespace Xv6.Kernel

open Program Mem Function

variable {L : Layout} {ok sp : Prop} {sh : Slot → Prop} {k k' : State} {fl : List Nat}
  {ρ : Nat → Role Tag} {x : Fin NFILE → Int} {p : Slot} {f g : Fin NFILE} {a : Nat} {α : Type}

/-! ## Ends of pipes -/

/-- The page of an open pipe is in use. -/
theorem Inv.end_not_free (h : Inv L ok sp sh k ρ fl x) (hf : IsEnd k f a) : ¬ OnFreeList k a := by
  intro hfree
  have hrole := (h.mem.free a).mp (h.onFreeList.mp hfree)
  obtain ⟨htype, rfl⟩ := hf
  rw [h.pipe (h.files.isOpen f htype)] at hrole
  cases hrole

/-- A page is on the free list at most once. -/
theorem Inv.free_unique (h : Inv L ok sp sh k ρ fl x) (hfree : OnFreeList k a) :
    ∃! i, freeAt i k.phys = some a := by
  obtain ⟨i, hi⟩ := hfree
  refine ⟨i, hi, fun j hj => ?_⟩
  have hj : Holds k (.free j) a := hj
  have hi : Holds k (.free i) a := hi
  injection h.place_unique hj hi

/-! ## Runs -/

/-- What the table of open files and that of descriptors have to do with each other. -/
structure FileTable (k : State) : Prop where
  /-- `ref` is the number of descriptors. -/
  ref    : ∀ f, ((k.file f).ref : Int) = Refs.count (ofiles k) f
  unused : ∀ p, (k.proc p).state = .unused → ∀ fd, (k.proc p).ofile fd = none
  idle   : ∀ f, (k.file f).ref = 0 → (k.file f).type = .none

theorem Files.fileTable (h : Files k fun _ => 0) : FileTable k := by
  refine ⟨fun f => ?_, fun p hp => h.empty p (.inl hp), h.idle⟩
  rw [h.count f, add_zero]

/-- Without a change of the descriptors the counts do not change. -/
theorem Files.ref_eq (h : Files k fun _ => 0) (h' : Files k' fun _ => 0)
    (ho : ofiles k' = ofiles k) (f : Fin NFILE) : (k'.file f).ref = (k.file f).ref := by
  have hc := h.count f
  have hc' := h'.count f
  rw [ho] at hc'
  omega

/-- Along every run in which the arguments of `exec` fit its stack page: the counts are those of the
    descriptors; a call that leaves a pipe with an end does not free its page, and one that closes
    its last end frees it once; and `dup`, `pipe` and `open` change nothing when they fail. -/
theorem file_table (h : ((system L).restrict fun _ l => Fits l.event).Reachable k) :
    FileTable k ∧
    (∀ l k', Fits l.event → step L k l = some k' → ∀ a, (∃ f, IsEnd k f a) →
      ((∃ f, IsEnd k' f a) ∧ ¬ OnFreeList k' a) ∨
      ((∀ f, ¬ IsEnd k' f a) ∧ ∃! i, freeAt i k'.phys = some a)) ∧
    ∀ p deny k', (k.proc p).state = .running →
      ((∃ fd, Ends (sys_dup p fd) (k.withDeny deny) (-1) k') ∨
        Ends (sys_pipe L p) (k.withDeny deny) (-1) k' ∨
        ∃ ip rd wr, Ends (sys_open L p ip rd wr) (k.withDeny deny) (-1) k') →
      (∀ q fd, (k'.proc q).ofile fd = (k.proc q).ofile fd) ∧
        ∀ f, (k'.file f).ref = (k.file f).ref := by
  obtain ⟨ρ, fl, hinv⟩ := reachable_inv False False (fun _ _ hC => hC) False.elim False.elim h
  refine ⟨hinv.files.fileTable, fun l k' hfits hs a hend => ?_, fun p deny k' hp hfail => ?_⟩
  · obtain ⟨ρ', fl', hinv'⟩ := step_inv hinv hs hfits False.elim False.elim
    have hends := step_ends hinv hs
    by_cases hend' : ∃ f, IsEnd k' f a
    · obtain ⟨f, hf⟩ := hend'
      exact .inl ⟨⟨f, hf⟩, hinv'.end_not_free hf⟩
    · refine .inr ⟨fun f hf => hend' ⟨f, hf⟩, hinv'.free_unique ?_⟩
      rcases hends with hkeep | hret
      · obtain ⟨f, hf⟩ := hend
        exact absurd ⟨f, hkeep f a hf⟩ hend'
      · exact (hret.ends a hend).resolve_left hend'
  · have h0 := hinv.withDeny deny
    have hp0 : ((k.withDeny deny).proc p).state = .running := hp
    -- the descriptors are the same, and the counts follow
    have hboth : ofiles k' = ofiles (k.withDeny deny) ∧ Files k' fun _ => 0 := by
      rcases hfail with ⟨fd, he⟩ | he | ⟨ip, rd, wr, he⟩
      · obtain ⟨hinv', -, hof⟩ := sys_dup_spec h0 (not_closed hp0) he
        exact ⟨hof rfl, hinv'.files⟩
      · obtain ⟨ρ', fl', hinv', -, hof⟩ := sys_pipe_spec h0 hp0 he
        exact ⟨hof rfl, hinv'.files⟩
      · obtain ⟨ρ', fl', hinv', -, hof⟩ := sys_open_spec h0 (not_closed hp0) he
        exact ⟨hof rfl, hinv'.files⟩
    refine ⟨fun q fd => congrFun hboth.1 (q, fd), fun f => ?_⟩
    exact h0.files.ref_eq hboth.2 hboth.1 f

/-- The descriptors of the two processes, one by one. -/
theorem PipeShared.ofiles_eq {np : Slot} (h : PipeShared k p np a) : ofiles k =
    update (update (update (update (update (update (fun _ => none) (p, 0) (some 0)) (p, 1) (some 1))
      (p, 2) (some 0)) (np, 0) (some 0)) (np, 1) (some 1)) (np, 2) (some 0) := by
  funext ⟨q, fd⟩
  have hne := h.ne
  show (k.proc q).ofile fd = _
  rw [h.ofile q fd]
  simp only [pipeFds, pipeEnds, update_apply, Prod.mk.injEq]
  by_cases hq : q = np
  · subst hq
    simp [hne]
  · by_cases hqp : q = p <;> simp [hq, hqp, Ne.symm hne]

theorem PipeShared.refs {np : Slot} (h : PipeShared k p np a) (ht : FileTable k) :
    (k.file 0).ref = 4 ∧ (k.file 1).ref = 2 := by
  have hne := h.ne
  have hnone : ∀ f, Refs.count (fun _ : Slot × Fin NOFILE => (none : Option (Fin NFILE))) f = 0 :=
    fun f => by simp [Refs.count]
  have h0 := ht.ref 0
  have h1 := ht.ref 1
  rw [h.ofiles_eq] at h0 h1
  simp only [Refs.count_update, hnone] at h0 h1
  simp [hne] at h0 h1
  omega

/-- The first process shares a pipe with its child, and the page stays when it closes a descriptor.
    Without the child, the page is freed when it closes both ends. -/
theorem file_table_pipeShared : ∃ k0 k1 k2 k3 p a,
    ((system smallLayout).restrict fun _ l => Fits l.event).Reachable k0 ∧
    ((system smallLayout).restrict fun _ l => Fits l.event).Run k0 (shareRun p) k1 ∧
    (FileTable k1 ∧ (k1.file 0).ref = 4 ∧ (k1.file 1).ref = 2) ∧
    (∃ k', Ends (sys_pipe smallLayout p) (k1.withDeny [true]) (-1) k' ∧
      (∀ q fd, (k'.proc q).ofile fd = (k1.proc q).ofile fd) ∧
      ∀ f, (k'.file f).ref = (k1.file f).ref) ∧
    step smallLayout k1 ⟨.close p 0, []⟩ = some k2 ∧
    ((∃ f, IsEnd k2 f a) ∧ ¬ OnFreeList k2 a) ∧
    ((system smallLayout).restrict fun _ l => Fits l.event).Run k0
      [⟨.pipe p, []⟩, ⟨.close p 0, []⟩, ⟨.close p 1, []⟩] k3 ∧
    (∀ f, ¬ IsEnd k3 f a) ∧ ∃! i, freeAt i k3.phys = some a := by
  obtain ⟨k0, kp, k1, p, np, a, hreach0, hpipe, hopen, hrun, hs⟩ := exists_pipeShared
    (L := smallLayout) (C := fun _ l => Fits l.event) (fun _ _ => ⟨trivial, trivial, trivial⟩)
    fun _ _ _ _ => trivial
  have hreach := hreach0.run hrun
  obtain ⟨htable, hpage, hfail⟩ := file_table hreach
  have hrefs := hs.refs htable
  -- a call that fails
  obtain ⟨ρ, fl, hinv⟩ := reachable_inv False False (fun _ _ hC => hC) False.elim False.elim hreach
  obtain ⟨k', hrefused⟩ := sys_pipe_refused (hinv.withDeny [true]) rfl p
  -- the parent closes one of four
  obtain ⟨k2, hstep, hclosed⟩ := step_close hreach hs.running
    (show (k1.proc p).ofile 0 = some 0 by rw [hs.ofile, if_pos (.inl rfl)]; rfl)
  have hkept : (∃ f, IsEnd k2 f a) ∧ ¬ OnFreeList k2 a := by
    have hend := hclosed.ends 0 a hs.reads fun _ => by omega
    rcases hpage ⟨.close p 0, []⟩ k2 trivial hstep a ⟨0, hs.reads⟩ with hend' | ⟨hno, -⟩
    · exact hend'
    · exact absurd hend (hno 0)
  -- the process closes both ends before it forks
  have hreachp := hreach0.step ⟨hpipe, trivial⟩
  obtain ⟨k3', k3, hclose0, hclose1, hwrites, hnone⟩ := hopen.closes hreachp
  have hreach3' := hreachp.step ⟨hclose0, trivial⟩
  have htable3 := (file_table (hreach3'.step ⟨hclose1, trivial⟩)).1
  have hgone : ∀ f, ¬ IsEnd k3 f a := by
    intro f hf
    have href := htable3.ref f
    rw [show ofiles k3 = fun _ => none from funext fun y => hnone y.1 y.2] at href
    have hidle := htable3.idle f (by simpa [Refs.count] using href)
    rw [hf.1] at hidle
    cases hidle
  refine ⟨k0, k1, k2, k3, p, a, hreach0, hrun, ⟨htable, hrefs⟩,
    ⟨k', hrefused, hfail p [true] k' hs.running (.inr (.inl hrefused))⟩, hstep, hkept,
    .cons ⟨hpipe, trivial⟩ (.cons ⟨hclose0, trivial⟩ (.single ⟨hclose1, trivial⟩)), hgone, ?_⟩
  rcases (file_table hreach3').2.1 ⟨.close p 1, []⟩ k3 trivial hclose1 a ⟨1, hwrites⟩ with
    ⟨⟨f, hf⟩, -⟩ | hfree
  · exact absurd hf (hgone f)
  · exact hfree.2

end Xv6.Kernel
