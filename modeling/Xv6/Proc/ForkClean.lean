import Xv6.Proc.Boot

/-! # `fork` fails cleanly

    `fork` compares what `copyuvm` returns with `0x1000`, but `copyuvm` returns the null pointer
    when it fails. A child whose copy was refused a page stays `RUNNABLE` without an address space,
    and the scheduler panics when it reaches it. `fork` is clean exactly when its pages are granted,
    or when it fails before the copy.
-/

namespace Xv6.Kernel

open Program Mem

variable {L : Layout} {k k' : State} {p np : Slot} {r : Int}

/-! ## One call -/

/-- Memory and the kernel's records agree. -/
def Sound (L : Layout) (k : State) : Prop :=
  ∃ ρ fl, Inv L False False (fun _ => False) k ρ fl fun _ => 0

/-- What a caller of `fork` may rely on. -/
def CleanFork (k : State) (r : Int) (k' : State) : Prop :=
  (∃ np, Forked np k r k' ∧ (k'.proc np).pgdir ≠ 0) ∨ (r = -1 ∧ Untouched k k')

/-- There is no slot or no stack, or the whole copy can be made. -/
def ForkOk (k : State) (p : Slot) : Prop :=
  freeSlot k = none ∨ granted 1 k.phys = false ∨
    (granted (forkNeed (k.proc p).sz) k.phys = true ∧ Whole k p)

theorem Forked.unique {np' : Slot} {r' : Int} (h : Forked np k r k') (h' : Forked np' k r' k') :
    np' = np := by
  by_contra hne
  have hst := h'.state
  rw [h.other np' hne, h'.was] at hst
  cases hst

theorem Forked.not_untouched (h : Forked np k r k') : ¬ Untouched k k' := by
  intro hu
  rcases hu.slot np with he | ⟨-, he⟩
  · have := h.state
    rw [he, h.was] at this
    cases this
  · rw [h.state] at he
    cases he

theorem fork_clean (h : Sound L k) (hp : (k.proc p).state = .running) :
    (∃ r k', Ends (fork L p) k r k' ∧ CleanFork k r k') ↔ ForkOk k p := by
  obtain ⟨ρ, fl, h⟩ := h
  unfold ForkOk
  rw [granted_false h.mem, h.mem.granted_iff]
  constructor
  · rintro ⟨r, k', he, hclean⟩
    obtain ⟨r', k1, ρ', fl', he', -, hres⟩ := fork_spec h (fun _ => le_rfl) hp False.elim False.elim
      (.inr (.inr (.inr ⟨r, k', he⟩)))
    obtain ⟨rfl, rfl⟩ := he.unique he'
    rcases hres with ⟨-, hs | hg, -⟩ | ⟨np, -, -, hforked, -, hspace⟩
    · exact .inl hs
    · exact .inr (.inl hg)
    -- a child was made: it has an address space if the call is clean
    rcases hclean with ⟨np', hforked', hd⟩ | ⟨-, hu⟩
    · obtain rfl := hforked.unique hforked'
      rcases hspace with ⟨-, hg, hw⟩ | ⟨hz, -⟩
      · exact .inr (.inr ⟨hg, hw⟩)
      · exact absurd hz hd
    · exact absurd hu hforked.not_untouched
  · intro hok
    obtain ⟨r, k', ρ', fl', he, -, hres⟩ := fork_spec h (fun _ => le_rfl) hp False.elim False.elim
      (by
        rcases hok with hs | hg | ⟨-, hw⟩
        · exact .inl hs
        · exact .inr (.inl hg)
        · exact .inr (.inr (.inl hw)))
    refine ⟨r, k', he, ?_⟩
    rcases hres with ⟨rfl, -, hu⟩ | ⟨np, hs, hg1, hforked, -, hspace⟩
    · exact .inr ⟨rfl, hu⟩
    · refine .inl ⟨np, hforked, ?_⟩
      rcases hspace with ⟨hd, -⟩ | ⟨-, hg⟩
      · exact hd
      · rcases hok with hs' | hg' | ⟨hg', -⟩
        · simp [hs] at hs'
        · exact absurd hg1 hg'
        · exact absurd hg' hg

/-! ## Runs -/

/-- The arguments of `exec` fit, and `fork` is called as above. -/
def ForksOk (k : State) (l : Label) : Prop :=
  Fits l.event ∧ ∀ p, l.event = .fork p → ForkOk (k.withDeny l.deny) p

theorem ForksOk.copies {l : Label} (h : ForksOk k l) : Copies (k.withDeny l.deny) l.event := by
  intro p he hs hg
  rcases h.2 p he with hs' | hg' | hg'
  · exact absurd hs' hs
  · rw [hg] at hg'
    cases hg'
  · exact hg'.1

/-- `fork` is clean exactly when it is called as `ForkOk` says. In every run in which it is, every
    process that can run has an address space, and the scheduler can switch to it. -/
theorem fork_clean_iff (L : Layout) :
    (∀ k p, Sound L k → (k.proc p).state = .running →
      ((∃ r k', Ends (fork L p) k r k' ∧ CleanFork k r k') ↔ ForkOk k p)) ∧
    ∀ k, ((system L).restrict ForksOk).Reachable k → ∀ p,
      (k.proc p).state = .runnable ∨ (k.proc p).state = .running →
        (k.proc p).pgdir ≠ 0 ∧ ∃ k', Ends (dispatch p) k () k' := by
  refine ⟨fun k p h hp => fork_clean h hp, fun k h p hp => ?_⟩
  obtain ⟨ρ, fl, hinv⟩ := reachable_inv False True (fun _ _ hC => hC.1) False.elim
    (fun _ _ _ hC => hC.copies) h
  have hd : (k.proc p).pgdir ≠ 0 := by
    refine (hinv.procs p).spaced trivial ?_
    unfold Ready
    rcases hp with hp | hp <;> simp [hp]
  exact ⟨hd, _, ends_dispatch hd⟩

theorem firstRuns_sound {ρ : Nat → Role Tag} {fl : List Nat} (h : FirstRuns L k p ρ fl)
    (deny : List Bool) : Sound L (k.withDeny deny) :=
  ⟨ρ, fl, (h.inv.forget False.elim False.elim fun _ => id).withDeny deny⟩

theorem fork_clean_iff_firstRuns : ∃ k p, Sound smallLayout k ∧ (k.proc p).state = .running ∧
    (∃ r k', Ends (fork smallLayout p) k r k' ∧ CleanFork k r k') ∧
    ((system smallLayout).restrict ForksOk).Reachable k ∧ (k.proc p).pgdir ≠ 0 := by
  obtain ⟨k, p, ρ, fl, hreach, h⟩ := exists_firstRuns smallLayout (C := ForksOk)
    fun _ _ => ⟨trivial, fun _ he => by cases he⟩
  have hnil := withDeny_nil h.deny
  have hsound : Sound smallLayout k := hnil ▸ firstRuns_sound h []
  have hok : ForkOk k p := by
    refine .inr (.inr ⟨h.inv.mem.granted_iff.mpr (h.grants ?_), hnil ▸ h.whole []⟩)
    rw [h.sz]
    decide
  exact ⟨k, p, hsound, h.running, ((fork_clean_iff smallLayout).1 k p hsound h.running).mpr hok,
    hreach, ((fork_clean_iff smallLayout).2 k hreach p (.inr h.running)).1⟩

/-- The first process forks and `kalloc` refuses the page directory of the child. -/
theorem refused_copy_panics : ∃ k p np k', (system smallLayout).Reachable k ∧
    step smallLayout k ⟨.fork p, [false, true]⟩ = some k' ∧
    (∀ r, ¬ CleanFork (k.withDeny [false, true]) r k') ∧
    (k'.proc np).state = .runnable ∧ (k'.proc np).pgdir = 0 ∧
    (dispatch np).run k' = .error (.panic "switchuvm: no pgdir") := by
  obtain ⟨k, p, ρ, fl, ⟨k0, ls, hinit, hrun⟩, h⟩ :=
    exists_firstRuns smallLayout (C := fun _ _ => True) fun _ _ => trivial
  have hinv : Inv smallLayout False False (fun _ => False)
      (k.withDeny [false, true]) ρ fl fun _ => 0 :=
    (h.inv.forget False.elim False.elim fun _ => id).withDeny _
  have hp : ((k.withDeny [false, true]).proc p).state = .running := h.running
  have hg1 : Grants (k.withDeny [false, true]).phys fl 1 :=
    ⟨(h.grants (n := 1) (by decide)).1, by simp [State.withDeny]⟩
  have hno : ¬ Grants (k.withDeny [false, true]).phys fl
      (forkNeed ((k.withDeny [false, true]).proc p).sz) := by
    have hsz : ((k.withDeny [false, true]).proc p).sz = PGSIZE := h.sz
    rw [hsz]
    intro hg
    have := hg.2 true (by show true ∈ List.take (forkNeed PGSIZE) [false, true]; decide)
    cases this
  obtain ⟨r, k', ρ', fl', he, -, hres⟩ := fork_spec hinv (fun _ => le_rfl) hp False.elim False.elim
    (.inr (.inr (.inl (h.whole _))))
  rcases hres with ⟨-, hs | hg, -⟩ | ⟨np, -, -, hforked, -, ⟨-, hg, -⟩ | ⟨hz, -⟩⟩
  · exact absurd hs h.freeSlot
  · exact absurd hg1 hg
  · exact absurd hg hno
  refine ⟨k, p, np, k', ⟨k0, ls, hinit, hrun.of_restrict⟩,
    step_of_ends (l := ⟨.fork p, [false, true]⟩) h.running ?_, fun r' hclean => ?_,
    hforked.state, hz, ?_⟩
  · exact ends_bind.mpr ⟨r, k', he, rfl⟩
  · rcases hclean with ⟨np', hforked', hd⟩ | ⟨-, hu⟩
    · rw [hforked.unique hforked'] at hd
      exact hd hz
    · exact hforked.not_untouched hu
  · have hsw : (switchuvm np).run k' = .error (.panic "switchuvm: no pgdir") := by
      unfold switchuvm
      rw [run_bind_of_ends (ends_get.mpr ⟨rfl, rfl⟩), if_pos hz]
      rfl
    unfold dispatch
    rw [StateT.run_bind, hsw]
    rfl

end Xv6.Kernel
