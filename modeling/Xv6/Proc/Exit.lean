import Xv6.Proc.Space

/-! # Specification of `exit`, `wait` and the scheduler

    `exit` closes the files and leaves a zombie, which has a stack and an address space but no open
    file. `wait` frees both pages' owners at once and the slot with them. The other functions only
    move a process between states in which it owns the same pages.
-/

namespace Xv6.Kernel

open Program Mem Function

variable {L : Layout} {ok sp : Prop} {sh : Slot → Prop} {k k' : State} {fl fl' : List Nat}
  {ρ ρ' : Nat → Role Tag} {x : Fin NFILE → Int} {p c : Slot} {f : Proc → Proc} {chan : Nat}
  {r : Unit}

/-! ## `wait` -/

/-- A slot becomes free, with its stack and its directory. -/
theorem Inv.reap {s' : Phys} (h : Inv L ok sp sh k ρ fl x) (hc : (k.proc c).state = .zombie)
    (hd : (k.proc c).pgdir ≠ 0)
    (hmem : Mem.Inv L s' (dropTree (Function.update ρ (k.proc c).kstack .free) (k.proc c).pgdir)
      fl' 0) (hst : (f (k.proc c)).state = .unused) (hsz : (f (k.proc c)).sz = (k.proc c).sz)
    (hof : (f (k.proc c)).ofile = (k.proc c).ofile) :
    Inv L ok sp sh ({ k with phys := s' }.setProc c f)
      (dropTree (Function.update ρ (k.proc c).kstack .free) (k.proc c).pgdir) fl' x := by
  have hl : Live k c := by
    unfold Live
    simp [hc]
  have hks := h.kstack hl
  have hrole := h.space hl hd
  have hrole' : Function.update ρ (k.proc c).kstack .free (k.proc c).pgdir = .dir (.space c) := by
    rw [update_of_ne (ne_of_role hrole hks (by simp))]
    exact hrole
  have hviews : views (dropTree (Function.update ρ (k.proc c).kstack .free) (k.proc c).pgdir) =
      Function.update (Function.update (views ρ) (k.proc c).kstack .loose) (k.proc c).pgdir
        .loose := by
    rw [views_dropTree hrole', views_update]
    rfl
  refine h.slot hmem ?_ (fun b => ?_) (fun b => ?_) ?_ (fun _ hs _ => hs) (fun q b hq hb m => ?_)
    hof fun _ => h.files.empty c (.inr hc)
  · rw [hviews]
    refine Moved.update (Moved.update (fun _ => .inl rfl) ?_ (.inl rfl)) ?_ (.inl rfl)
    · exact .inr (.inl (view_page.mpr hks))
    · rw [update_of_ne (ne_of_role hrole hks (by simp))]
      exact .inr (.inr (view_dir.mpr hrole))
  · rw [hviews]
    refine ⟨fun hb => ?_, fun hb => absurd hst hb.1⟩
    obtain ⟨hbk, hb⟩ := role_of_update (role_of_update hb (by simp)).2 (by simp)
    exact absurd (h.kstack_iff.mp hb).2.symm hbk
  · rw [hviews]
    refine ⟨fun hb => ?_, fun hb => absurd hst hb.1⟩
    obtain ⟨hbd, hb⟩ := role_of_update hb (by simp)
    exact absurd (h.space_iff.mp (role_of_update hb (by simp)).2).2.1.symm hbd
  · exact ⟨by rw [hsz]; exact (h.procs c).size, fun hr => by simp [hst] at hr,
      fun _ hr => absurd hst hr.1, fun hu => absurd hst hu, fun _ hu => absurd hst hu⟩
  · rw [dropTree_maps (ne_of_role hb hrole (by simpa using hq)) hrole']
    exact maps_update_plain (r := .free) (by rw [hks]; trivial) trivial m

/-- A process changes its state, its owners stay. -/
theorem Inv.setState (h : Inv L ok sp sh k ρ fl x) (hf : SameOwn (k.proc p) (f (k.proc p)))
    (hof : (f (k.proc p)).ofile = (k.proc p).ofile) : Inv L ok sp sh (k.setProc p f) ρ fl x := by
  refine h.same (same_setProc hf) rfl rfl rfl fun q => ?_
  by_cases hq : q = p
  · subst hq
    rw [setProc_proc_self]
    exact hof
  · rw [setProc_proc_ne hq]

theorem sleep_spec (h : Inv L ok sp sh k ρ fl x) (hp : (k.proc p).state = .running)
    (he : Ends (sleep p chan) k r k') : Inv L ok sp sh k' ρ fl x := by
  obtain rfl := ends_modifyProc.mp he
  exact h.setState (.of_state (by simp [Ready, hp]) (by simp [Closed]) (by simp) rfl rfl rfl) rfl

/-- `wait` frees the slot of a zombie, or goes to sleep. -/
theorem wait_spec {r : Option Int} (h : Inv L ok sp sh k ρ fl x) (hp : (k.proc p).state = .running)
    (he : Ends (wait L p) k r k') : ∃ ρ' fl', Inv L ok sp sh k' ρ' fl' x := by
  replace he := ends_get_bind.mp he
  cases hz : zombieChild k p with
  | none =>
    rw [hz] at he
    dsimp only at he
    split at he
    · obtain ⟨-, rfl⟩ := ends_pure.mp he
      exact ⟨ρ, fl, h⟩
    · obtain ⟨_, k1, hs, he1⟩ := ends_bind.mp he
      obtain ⟨-, rfl⟩ := ends_pure.mp he1
      exact ⟨ρ, fl, sleep_spec h hp hs⟩
  | some c =>
    rw [hz] at he
    have hc : (k.proc c).state = .zombie := (Ptable.zombieChild_some hz).2
    have hl : Live k c := by
      unfold Live
      simp [hc]
    obtain ⟨_, s1, hkfree, he1⟩ := ends_onPhys_bind.mp he
    obtain ⟨hmem1, -⟩ := kfree_spec h.mem (h.kstack hl) hkfree
    obtain ⟨_, s2, hfree, he2⟩ := ends_onPhys_bind.mp he1
    have he3 := ends_modifyProc_bind.mp he2
    obtain ⟨-, rfl⟩ := ends_pure.mp he3
    -- `freevm` panics on a null pointer
    have hd : (k.proc c).pgdir ≠ 0 := by
      intro hd
      rw [hd] at hfree
      exact absurd hfree not_ends_throw
    have hrole : update ρ (k.proc c).kstack .free (k.proc c).pgdir
        = .dir (.space c) := by
      rw [update_of_ne (ne_of_role (h.space hl hd) (h.kstack hl) (by simp))]
      exact h.space hl hd
    obtain ⟨s2', ns, us, hfree', hmem2, -⟩ := freevm_spec hmem1 hrole
    obtain ⟨-, rfl⟩ := hfree.unique hfree'
    exact ⟨_, _, h.reap (c := c) (f := fun y => { y with
      kstack := 0, pid := 0, parent := none, name := [], killed := false, state := .unused })
      hc hd hmem2 rfl rfl rfl⟩

/-! ## `exit` -/

theorem closeFiles_spec (fds : List (Fin NOFILE)) : ∀ {k : State} {ρ : Nat → Role Tag}
    {fl : List Nat} {r : Unit}, Inv L ok sp sh k ρ fl x → (k.proc p).state = .running →
      Ends (closeFiles L p fds) k r k' →
      ∃ ρ' fl', Inv L ok sp sh k' ρ' fl' x ∧ (k'.proc p).state = .running ∧ Retires k k' ∧
        ∀ fd, (fd ∈ fds ∨ (k.proc p).ofile fd = none) → (k'.proc p).ofile fd = none := by
  induction fds with
  | nil =>
    intro k ρ fl r h hp he
    obtain ⟨-, rfl⟩ := ends_pure.mp he
    exact ⟨ρ, fl, h, hp, (KeepsEnds.refl k).retires rfl, fun fd hfd => hfd.resolve_left (by simp)⟩
  | cons fd fds ih =>
    intro k ρ fl r h hp he
    replace he := ends_get_bind.mp he
    cases hof : (k.proc p).ofile fd with
    | none =>
      rw [hof] at he
      obtain ⟨ρ', fl', hinv, hst, hret, hnone⟩ := ih h hp he
      refine ⟨ρ', fl', hinv, hst, hret, fun fd' hfd' => hnone fd' ?_⟩
      rcases hfd' with hmem | hfd'
      · rcases List.mem_cons.mp hmem with rfl | hmem
        · exact .inr hof
        · exact .inl hmem
      · exact .inr hfd'
    | some f =>
      rw [hof] at he
      obtain ⟨_, k1, hc, he1⟩ := ends_bind.mp he
      obtain ⟨ρ1, fl1, h1, hw, hclose, -⟩ := fileclose_spec h hc
      obtain ⟨_, _, hm, he2⟩ := ends_bind.mp he1
      obtain rfl := ends_setFd.mp hm
      have hproc : k1.proc p = k.proc p := hw.awake (by simp [hp])
      have hp1 : (k1.proc p).state = .running := by rw [hproc, hp]
      -- the descriptor gives up the reference that `fileclose` dropped
      have hof1 : (k1.proc p).ofile fd = some f := by rw [hproc, hof]
      have h2 := h1.takeFd (not_closed hp1) hof1
      have hx : plus (plus x f (-1)) f 1 = x := plus_cancel x f (-1)
      rw [hx] at h2
      obtain ⟨ρ', fl', hinv, hst, hret, hnone⟩ := ih h2 (by rw [setProc_proc_self]; exact hp1) he2
      refine ⟨ρ', fl', hinv, hst, (hclose.trans (retires_setProc k1 p _)).trans hret,
        fun fd' hfd' => hnone fd' ?_⟩
      by_cases hfd : fd' = fd
      · subst hfd
        exact .inr (by simp)
      · rcases hfd' with hmem | hfd'
        · exact .inl ((List.mem_cons.mp hmem).resolve_left hfd)
        · refine .inr ?_
          rw [setProc_proc_self, hproc]
          simp [hfd, hfd']

/-- Owners and open files are the same, and who runs still runs. -/
structure Calm (k k' : State) : Prop where
  ofile   : ∀ q, (k'.proc q).ofile = (k.proc q).ofile
  running : ∀ q, (k.proc q).state = .running → (k'.proc q).state = .running

theorem Calm.trans {k'' : State} (h : Calm k k') (h' : Calm k' k'') : Calm k k'' :=
  ⟨fun q => (h'.ofile q).trans (h.ofile q), fun q hq => h'.running q (h.running q hq)⟩

section

variable (h : Inv L ok sp sh k ρ fl x)
include h

theorem wakeup1_inv (he : Ends (wakeup1 chan) k r k') : Inv L ok sp sh k' ρ fl x ∧ Calm k k' := by
  obtain ⟨hw, hk'⟩ := wakeup1_spec he
  refine ⟨?_, hw.ofile, fun q hq => ?_⟩
  · rw [hk']
    exact h.same ⟨rfl, rfl, rfl, hw.sameOwn⟩ rfl rfl rfl hw.ofile
  · rw [hw.awake (by simp [hq]), hq]

theorem wakeupProc_inv {o : Option Slot}
    (he : Ends (wakeupProc o) k r k') : Inv L ok sp sh k' ρ fl x ∧ Calm k k' := by
  cases o <;> exact wakeup1_inv h he

omit h in
theorem reparent_spec (cs : List Slot) : ∀ {k : State} {r : Unit}, Inv L ok sp sh k ρ fl x →
    Ends (reparent p cs) k r k' → Inv L ok sp sh k' ρ fl x ∧ Calm k k' := by
  induction cs with
  | nil =>
    intro k r h he
    obtain ⟨-, rfl⟩ := ends_pure.mp he
    exact ⟨h, fun _ => rfl, fun _ => id⟩
  | cons c cs ih =>
    intro k r h he
    replace he := ends_get_bind.mp he
    by_cases hpar : (k.proc c).parent = some p
    · rw [if_pos hpar] at he
      have he1 := ends_modifyProc_bind.mp he
      have h1 := h.setState (p := c) (f := fun y => { y with parent := k.initproc })
        ⟨.rfl, fun _ => rfl, fun _ => rfl, rfl, .inl, id, .inl⟩ rfl
      have hcalm : Calm k (k.setProc c fun y => { y with parent := k.initproc }) := by
        constructor
        · intro q
          by_cases hq : q = c
          · subst hq
            rw [setProc_proc_self]
          · rw [setProc_proc_ne hq]
        · intro q hr
          by_cases hq : q = c
          · subst hq
            rw [setProc_proc_self]
            exact hr
          · rw [setProc_proc_ne hq, hr]
      by_cases hz : (k.proc c).state = .zombie
      · rw [if_pos hz] at he1
        obtain ⟨_, k2, hw, he2⟩ := ends_bind.mp he1
        obtain ⟨h2, hcalm2⟩ := wakeupProc_inv h1 hw
        obtain ⟨h3, hcalm3⟩ := ih h2 he2
        exact ⟨h3, (hcalm.trans hcalm2).trans hcalm3⟩
      · rw [if_neg hz] at he1
        obtain ⟨h2, hcalm2⟩ := ih h1 he1
        exact ⟨h2, hcalm.trans hcalm2⟩
    · rw [if_neg hpar] at he
      exact ih h he

theorem Inv.zombie (hp : (k.proc p).state = .running) (hnone : ∀ fd, (k.proc p).ofile fd = none) :
    Inv L ok sp sh (k.setProc p fun y => { y with state := .zombie }) ρ fl x := by
  have hl := live_of_running hp
  have hok := h.procs p
  exact h.setProc hl (by simp) rfl rfl
    ⟨hok.size, fun hr => by simp at hr, fun _ _ => hok.running hp, fun _ => hok.pos hl,
      fun hs _ => hok.shape hs hl⟩ rfl fun _ => hnone

theorem exit_spec (hp : (k.proc p).state = .running)
    (he : Ends (exit L p) k r k') : ∃ ρ' fl', Inv L ok sp sh k' ρ' fl' x := by
  replace he := ends_get_bind.mp he
  by_cases hinit : k.initproc = some p
  · rw [if_pos hinit] at he
    exact absurd he not_ends_panic
  rw [if_neg hinit] at he
  obtain ⟨_, k1, hc, he1⟩ := ends_bind.mp he
  obtain ⟨ρ', fl', h1, hp1, -, hnone⟩ := closeFiles_spec (List.finRange NOFILE) h hp hc
  obtain ⟨_, _, hi, he2⟩ := ends_bind.mp he1
  obtain ⟨iref, rfl⟩ := iput_spec hi
  have he3 := ends_modifyProc_bind.mp he2
  have h2 := (h1.iref iref).setState (p := p) (f := fun y => { y with cwd := none })
    ⟨.rfl, fun _ => rfl, fun _ => rfl, rfl, .inl, id, .inl⟩ rfl
  obtain ⟨_, k3, hw, he4⟩ := ends_bind.mp he3
  obtain ⟨h3, hcalm⟩ := wakeupProc_inv h2 hw
  obtain ⟨_, k4, hrep, he5⟩ := ends_bind.mp he4
  obtain ⟨h4, hcalm'⟩ := reparent_spec _ h3 hrep
  obtain rfl := ends_modifyProc.mp he5
  have hcalm2 := hcalm.trans hcalm'
  refine ⟨ρ', fl', h4.zombie (hcalm2.running p ?_) fun fd => ?_⟩
  · rw [setProc_proc_self]
    exact hp1
  · rw [hcalm2.ofile p, setProc_proc_self]
    exact hnone fd (.inl (List.mem_finRange fd))

/-! ## Scheduling -/

theorem dispatch_spec (hp : (k.proc p).state = .runnable)
    (he : Ends (dispatch p) k r k') : Inv L ok sp sh k' ρ fl x := by
  obtain ⟨_, _, hsw, he1⟩ := ends_bind.mp he
  obtain ⟨hd, rfl⟩ := ends_switchuvm.mp hsw
  obtain rfl := ends_modifyProc.mp he1
  exact h.setState (.of_state (by simp [Ready, hp]) (by simp [Closed])
    (fun _ => hd) rfl rfl rfl) rfl

theorem yield_spec (hp : (k.proc p).state = .running)
    (he : Ends (yield p) k r k') : Inv L ok sp sh k' ρ fl x := by
  obtain rfl := ends_modifyProc.mp he
  exact h.setState (.of_state (by simp [Ready, hp]) (by simp [Closed]) (by simp) rfl rfl rfl) rfl

theorem kill_spec {pid r : Int} (he : Ends (kill pid) k r k') : Inv L ok sp sh k' ρ fl x := by
  replace he := ends_get_bind.mp he
  split at he
  · obtain ⟨-, rfl⟩ := ends_pure.mp he
    exact h
  · next q _ =>
    have he1 := ends_modifyProc_bind.mp he
    obtain ⟨-, rfl⟩ := ends_pure.mp he1
    refine h.setState ?_ rfl
    by_cases hs : (k.proc q).state = .sleeping
    · exact .of_state (by simp [Ready, hs]) (by simp [Closed, hs]) (by simp [hs]) rfl rfl rfl
    · simp only [if_neg hs]
      exact ⟨.rfl, fun _ => rfl, fun _ => rfl, rfl, .inl, id, .inl⟩

end

end Xv6.Kernel
