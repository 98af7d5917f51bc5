import Xv6.Proc.Run

/-! # The ends of pipes

    Only `close` and `exit` close an end of a pipe, and they free the page with the last one.
-/

namespace Xv6.Kernel

open Program Mem

variable {L : Layout} {ok sp : Prop} {sh : Slot → Prop} {k k' : State} {fl : List Nat}
  {ρ : Nat → Role Tag} {x : Fin NFILE → Int} {p : Slot} {α : Type}

/-! ## Calls that close no file -/

section Keeps

theorem keeps_pure (r : α) : Respects KeepsEnds (pure r : K α) :=
  respects_pure KeepsEnds.refl r

theorem keeps_bind {β : Type} {y : K α} {z : α → K β} (hy : Respects KeepsEnds y)
    (hz : ∀ r, Respects KeepsEnds (z r)) : Respects KeepsEnds (y >>= z) :=
  hy.bind KeepsEnds.trans hz

theorem keeps_onPhys (y : VM α) : Respects KeepsEnds (onPhys y) := by
  intro k r k' h
  obtain ⟨s', -, rfl⟩ := ends_onPhys.mp h
  exact keepsEnds_of_file rfl

theorem keeps_modifyProc (p : Slot) (y : Proc → Proc) : Respects KeepsEnds (modifyProc p y) :=
  respects_modify fun _ => keepsEnds_of_file rfl

theorem keeps_panic (msg : String) : Respects KeepsEnds (panic msg : K α) :=
  respects_throw _

theorem keeps_switchuvm (p : Slot) : Respects KeepsEnds (switchuvm p) :=
  .get_bind fun _ => (keeps_panic _).ite (keeps_pure _)

theorem keeps_idup (ip : Option (Fin NINODE)) : Respects KeepsEnds (idup ip) :=
  respects_modify fun _ => keepsEnds_of_file (by cases ip <;> rfl)

theorem keeps_filedup (f : Fin NFILE) : Respects KeepsEnds (filedup f) :=
  .get_bind fun _ => (keeps_panic _).ite (respects_modify fun _ => keepsEnds_setFile rfl rfl)

theorem keeps_keepDir (d : Nat) : Respects KeepsEnds (keepDir d) :=
  respects_modify fun _ => keepsEnds_of_file (by split <;> rfl)

theorem keeps_allocproc : Respects KeepsEnds allocproc := by
  refine .get_bind fun k => ?_
  cases freeSlot k with
  | none => exact keeps_pure _
  | some np =>
    refine keeps_bind (keeps_modifyProc _ _) fun _ => keeps_bind
      (respects_modify fun _ => keepsEnds_of_file rfl) fun _ => keeps_bind (keeps_onPhys _) fun _ =>
      keeps_bind (keeps_modifyProc _ _) fun _ => .ite ?_ ?_
    · exact keeps_bind (keeps_modifyProc _ _) fun _ => keeps_pure _
    · exact keeps_bind (keeps_modifyProc _ _) fun _ => keeps_pure _

theorem keeps_dupFiles (p np : Slot) (fds : List (Fin NOFILE)) :
    Respects KeepsEnds (dupFiles p np fds) := by
  induction fds with
  | nil => exact keeps_pure _
  | cons fd fds ih =>
    refine .get_bind fun k => ?_
    cases (k.proc p).ofile fd with
    | none => exact ih
    | some f =>
      exact keeps_bind (keeps_filedup f) fun _ => keeps_bind (keeps_modifyProc _ _) fun _ => ih

theorem keeps_fork (p : Slot) : Respects KeepsEnds (fork L p) := by
  refine keeps_bind keeps_allocproc fun r => ?_
  cases r with
  | none => exact keeps_pure _
  | some np =>
    refine .get_bind fun k => keeps_bind (keeps_onPhys _) fun d =>
      keeps_bind (keeps_modifyProc _ _) fun _ => .ite ?_ ?_
    · exact keeps_bind (keeps_onPhys _) fun _ => keeps_bind (keeps_modifyProc _ _) fun _ =>
        keeps_pure _
    · exact keeps_bind (keeps_modifyProc _ _) fun _ => keeps_bind (keeps_dupFiles _ _ _) fun _ =>
        keeps_bind (keeps_idup _) fun _ => keeps_bind (keeps_modifyProc _ _) fun _ => keeps_pure _

theorem keeps_growproc (p : Slot) (n : Int) : Respects KeepsEnds (growproc L p n) := by
  have hrest : ∀ sz, Respects KeepsEnds (if sz = 0 then (return -1 : K Int)
      else do
        modifyProc p fun x => { x with sz := sz }
        switchuvm p
        return 0) := fun sz => (keeps_pure _).ite (keeps_bind (keeps_modifyProc _ _) fun _ =>
          keeps_bind (keeps_switchuvm p) fun _ => keeps_pure _)
  exact .get_bind fun k => .ite (keeps_bind (keeps_onPhys _) hrest)
    (.ite (keeps_bind (keeps_onPhys _) hrest)
    (keeps_bind (keeps_switchuvm p) fun _ => keeps_pure _))

theorem keeps_exec (p : Slot) (path : CStr) (ip : Option Content) (argv : List CStr) :
    Respects KeepsEnds (exec L p path ip argv) := by
  cases ip with
  | none => exact keeps_pure _
  | some c =>
    refine keeps_bind (keeps_onPhys _) fun r => ?_
    cases r with
    | none => exact keeps_pure _
    | some img =>
      exact .get_bind fun k => keeps_bind (keeps_modifyProc _ _) fun _ =>
        keeps_bind (keeps_switchuvm p) fun _ => keeps_bind (keeps_onPhys _) fun _ => keeps_pure _

theorem keeps_wait (p : Slot) : Respects KeepsEnds (wait L p) := by
  refine .get_bind fun k => ?_
  cases zombieChild k p with
  | some c =>
    exact keeps_bind (keeps_onPhys _) fun _ => keeps_bind (keeps_onPhys _) fun _ =>
      keeps_bind (keeps_modifyProc _ _) fun _ => keeps_pure _
  | none => exact (keeps_pure _).ite (keeps_bind (keeps_modifyProc _ _) fun _ => keeps_pure _)

theorem keeps_kill (pid : Int) : Respects KeepsEnds (kill pid) := by
  refine .get_bind fun k => ?_
  split
  · exact keeps_pure _
  · exact keeps_bind (keeps_modifyProc _ _) fun _ => keeps_pure _

end Keeps

/-! ## `exit` -/

/-- What `exit` does after the files are closed. -/
def SameMem (k k' : State) : Prop := k'.file = k.file ∧ k'.phys = k.phys

theorem SameMem.trans {k1 k2 k3 : State} (h : SameMem k1 k2) (h' : SameMem k2 k3) :
    SameMem k1 k3 := ⟨h'.1.trans h.1, h'.2.trans h.2⟩

theorem sameMem_bind {α β : Type} {y : K α} {z : α → K β} (hy : Respects SameMem y)
    (hz : ∀ r, Respects SameMem (z r)) : Respects SameMem (y >>= z) :=
  hy.bind SameMem.trans hz

theorem sameMem_modifyProc (p : Slot) (y : Proc → Proc) : Respects SameMem (modifyProc p y) :=
  respects_modify fun _ => ⟨rfl, rfl⟩

theorem sameMem_wakeupProc (o : Option Slot) : Respects SameMem (wakeupProc o) := by
  cases o <;> exact respects_modify fun _ => ⟨rfl, rfl⟩

theorem sameMem_reparent (p : Slot) (cs : List Slot) : Respects SameMem (reparent p cs) := by
  induction cs with
  | nil => exact respects_pure (fun _ => ⟨rfl, rfl⟩) _
  | cons c cs ih =>
    exact .get_bind fun k => .ite (sameMem_bind (sameMem_modifyProc _ _) fun _ =>
      .ite (sameMem_bind (sameMem_wakeupProc _) fun _ => ih) ih) ih

theorem exit_retires {r : Unit} (h : Inv L ok sp sh k ρ fl x) (hp : (k.proc p).state = .running)
    (he : Ends (exit L p) k r k') : Retires k k' := by
  replace he := ends_get_bind.mp he
  by_cases hinit : k.initproc = some p
  · rw [if_pos hinit] at he
    exact absurd he not_ends_panic
  rw [if_neg hinit] at he
  obtain ⟨_, k1, hc, he1⟩ := ends_bind.mp he
  obtain ⟨-, -, -, -, hret, -⟩ := closeFiles_spec _ h hp hc
  obtain ⟨_, _, hi, he2⟩ := ends_bind.mp he1
  obtain ⟨iref, rfl⟩ := iput_spec hi
  have hrest : SameMem k1 k' := by
    have hprog := sameMem_bind (sameMem_modifyProc p fun x => { x with cwd := none }) fun _ =>
      sameMem_bind (sameMem_wakeupProc (k.proc p).parent) fun _ =>
        sameMem_bind (sameMem_reparent p (List.finRange NPROC)) fun _ =>
          sameMem_modifyProc p fun x => { x with state := .zombie }
    have hmem := hprog _ r k' he2
    exact ⟨hmem.1, hmem.2⟩
  exact hret.trans ((keepsEnds_of_file hrest.1).retires hrest.2)

/-! ## One step -/

/-- A call closes no end, or it is `close` or `exit` and frees what it should. -/
theorem step_ends {l : Label} (h : Inv L ok sp sh k ρ fl fun _ => 0) (hs : step L k l = some k') :
    KeepsEnds k k' ∨ Retires k k' := by
  obtain ⟨hen, he⟩ := ends_of_step hs
  have h0 := h.withDeny l.deny
  have hkeep : KeepsEnds (k.withDeny l.deny) k' → KeepsEnds k k' := id
  have hret : Retires (k.withDeny l.deny) k' → Retires k k' := fun hr =>
    ⟨fun a ha => hr.free a (by rw [h0.onFreeList]; exact h.onFreeList.mp ha), hr.ends⟩
  obtain ⟨e, deny⟩ := l
  dsimp only at he hen hkeep hret h0
  cases e with
  | setupkvm | copyuvm d sz =>
    exact .inl (hkeep (keeps_bind (keeps_onPhys _) (fun d => keeps_keepDir d) _ _ _ he))
  | allocuvm d oldsz newsz | deallocuvm d oldsz newsz =>
    obtain ⟨_, he⟩ := ends_discard he
    exact .inl (hkeep (keeps_onPhys _ _ _ _ he))
  | freevm d =>
    obtain ⟨_, k1, hf, hm⟩ := ends_bind.mp he
    obtain rfl := ends_modify.mp hm
    have hk1 := keeps_onPhys _ _ _ _ hf
    exact .inl (hkeep fun g a hg => hk1 g a hg)
  | dispatch p =>
    exact .inl (hkeep (keeps_bind (keeps_switchuvm p) (fun _ => keeps_modifyProc _ _) _ _ _ he))
  | yield p | sleep p chan => exact .inl (hkeep (keeps_modifyProc _ _ _ _ _ he))
  | wakeup chan => exact .inl (hkeep (respects_modify (fun _ => keepsEnds_of_file rfl) _ _ _ he))
  | kill pid =>
    obtain ⟨_, he⟩ := ends_discard he
    exact .inl (hkeep (keeps_kill pid _ _ _ he))
  | fork p =>
    obtain ⟨_, he⟩ := ends_discard he
    exact .inl (hkeep (keeps_fork p _ _ _ he))
  | exec p path ip argv =>
    obtain ⟨_, he⟩ := ends_discard he
    exact .inl (hkeep (keeps_exec p path ip argv _ _ _ he))
  | growproc p n =>
    obtain ⟨_, he⟩ := ends_discard he
    exact .inl (hkeep (keeps_growproc p n _ _ _ he))
  | exit p => exact .inr (hret (exit_retires h0 hen he))
  | wait p =>
    obtain ⟨_, he⟩ := ends_discard he
    exact .inl (hkeep (keeps_wait p _ _ _ he))
  | open_ p ip rd wr =>
    obtain ⟨_, he⟩ := ends_discard he
    obtain ⟨_, _, -, hends, -⟩ := sys_open_spec h0 (not_closed hen) he
    exact .inl (hkeep hends)
  | pipe p =>
    obtain ⟨_, he⟩ := ends_discard he
    obtain ⟨_, _, -, hends, -⟩ := sys_pipe_spec h0 hen he
    exact .inl (hkeep hends)
  | close p fd =>
    obtain ⟨_, he⟩ := ends_discard he
    obtain ⟨_, _, -, hends⟩ := sys_close_spec h0 (not_closed hen) he
    exact .inr (hret hends)
  | dup p fd =>
    obtain ⟨_, he⟩ := ends_discard he
    exact .inl (hkeep (sys_dup_spec h0 (not_closed hen) he).2.1)

end Xv6.Kernel
