import Xv6.Proc.Files

/-! # Specification of `proc.c` and `exec.c`

    Each function keeps the invariant. `fork`, `exec` and `wait` move whole address spaces;
    everything else touches no page or one address space.
-/

namespace Xv6.Kernel

open Program Mem

variable {L : Layout} {ok sp : Prop} {sh : Slot → Prop} {k k' : State} {fl fl' : List Nat}
  {ρ ρ' : Nat → Role Tag} {x : Fin NFILE → Int} {p np : Slot} {s s' : Phys} {n : Int}
  {f : Proc → Proc} {r : Option Slot} {a d : Nat} {sh' : Slot → Prop} {σ σ' : Nat → View Tag}
  {v : View Tag}

/-! ## One slot changes -/

/-- A page that is free to take, or that the slot `p` owns. -/
def Mine (p : Slot) (v : View Tag) : Prop :=
  v = .loose ∨ v = .page (.kstack p) ∨ v = .dir (.space p)

/-- Only pages of the slot `p` changed hands. -/
def Moved (p : Slot) (σ σ' : Nat → View Tag) : Prop :=
  ∀ a, σ' a = σ a ∨ Mine p (σ a) ∧ Mine p (σ' a)

theorem Moved.update (h : Moved p σ σ') (ha : Mine p (σ' a)) (hv : Mine p v) :
    Moved p σ (Function.update σ' a v) := by
  intro b
  by_cases hb : b = a
  · subst hb
    rw [Function.update_self]
    refine .inr ⟨?_, hv⟩
    rcases h b with hs | hs
    · exact hs ▸ ha
    · exact hs.1
  · rw [Function.update_of_ne hb]
    exact h b

theorem Moved.iff (h : Moved p σ σ') (hv : ¬ Mine p v) : σ' a = v ↔ σ a = v := by
  rcases h a with hs | hs
  · rw [hs]
  · constructor
    · rintro rfl
      exact absurd hs.2 hv
    · rintro rfl
      exact absurd hs.1 hv

theorem claims_setProc (hks : v ≠ .page (.kstack p)) (hsp : v ≠ .dir (.space p)) :
    Claims ({ k with phys := s, nextpid := n }.setProc p f) v a ↔ Claims k v a := by
  unfold Claims Live
  split
  · next q =>
    rw [setProc_proc_ne fun hq => hks (by rw [hq])]
  · next q =>
    rw [setProc_proc_ne fun hq => hsp (by rw [hq])]
  all_goals rfl

theorem Files.setProc (h : Files k x) (hof : (f (k.proc p)).ofile = (k.proc p).ofile)
    (hnone : Closed (f (k.proc p)) → ∀ fd, (k.proc p).ofile fd = none) :
    Files ({ k with phys := s, nextpid := n }.setProc p f) x := by
  have hsame : ∀ q, (({ k with phys := s, nextpid := n }.setProc p f).proc q).ofile =
      (k.proc q).ofile := by
    intro q
    by_cases hq : q = p
    · subst hq
      rw [setProc_proc_self]
      exact hof
    · rw [setProc_proc_ne hq]
  refine ⟨fun g => ?_, h.idle, fun q hq => ?_, h.isOpen, h.inj, h.ends⟩
  · have hofiles : ofiles ({ k with phys := s, nextpid := n }.setProc p f) = ofiles k :=
      funext fun y => congrFun (hsame y.1) y.2
    rw [hofiles]
    exact h.count g
  · rw [hsame]
    by_cases hqp : q = p
    · subst hqp
      rw [setProc_proc_self] at hq
      exact hnone hq
    · rw [setProc_proc_ne hqp] at hq
      exact h.empty q hq

section

variable (h : Inv L ok sp sh k ρ fl x)
include h

theorem Inv.kstack_iff : views ρ a = .page (.kstack p) ↔ Live k p ∧ (k.proc p).kstack = a :=
  h.agree (.page (.kstack p)) trivial a

theorem Inv.space_iff : views ρ a = .dir (.space p) ↔ Live k p ∧ (k.proc p).pgdir = a ∧ a ≠ 0 :=
  h.agree (.dir (.space p)) trivial a

/-- The slot `p` changes, and the views say so. -/
theorem Inv.slot (hmem : Mem.Inv L s' ρ' fl' 0) (hmoved : Moved p (views ρ) (views ρ'))
    (hks : ∀ a, views ρ' a = .page (.kstack p) ↔
      (f (k.proc p)).state ≠ .unused ∧ (f (k.proc p)).kstack = a)
    (hpg : ∀ a, views ρ' a = .dir (.space p) ↔
      (f (k.proc p)).state ≠ .unused ∧ (f (k.proc p)).pgdir = a ∧ a ≠ 0)
    (hproc : ProcOk sp (sh' p) (f (k.proc p)) ρ') (hsh : ∀ q, sh' q → q ≠ p → sh q)
    (hmaps : ∀ q b, q ≠ p → ρ b = .dir (.space q) → ∀ m, Maps ρ' b m ↔ Maps ρ b m)
    (hof : (f (k.proc p)).ofile = (k.proc p).ofile)
    (hnone : Closed (f (k.proc p)) → ∀ fd, (k.proc p).ofile fd = none) :
    Inv L ok sp sh' ({ k with phys := s', nextpid := n }.setProc p f) ρ' fl' x := by
  have hself : ({ k with phys := s', nextpid := n }.setProc p f).proc p = f (k.proc p) :=
    setProc_proc_self ..
  refine ⟨hmem, fun a ha => ?_, fun w hw a => ?_, fun ho a => ⟨?_, ?_⟩, h.nodup, fun q => ?_,
    h.files.setProc hof hnone⟩
  · exact mt (hmoved.iff (by simp [Mine])).mp (h.all a ha)
  · by_cases hwks : w = .page (.kstack p)
    · subst hwks
      rw [hks a, ← hself]
      rfl
    by_cases hwpg : w = .dir (.space p)
    · subst hwpg
      rw [hpg a, ← hself]
      rfl
    rw [claims_setProc hwks hwpg, ← h.agree w hw a]
    refine hmoved.iff ?_
    rintro (rfl | hm | hm)
    · exact hw
    · exact hwks hm
    · exact hwpg hm
  · exact mt (hmoved.iff (by simp [Mine])).mp (h.noLost ho a).1
  · exact mt (hmoved.iff (by simp [Mine])).mp (h.noLost ho a).2
  · by_cases hq : q = p
    · subst hq
      rw [setProc_proc_self]
      exact hproc
    · rw [setProc_proc_ne hq]
      exact ((h.procs q).weaken fun hs => hsh q hs hq).maps fun hl hd =>
        hmaps q _ hq (h.space hl hd)

/-- The slot keeps its stack and its directory. -/
theorem Inv.slotKeeps (hp : Live k p) (hmem : Mem.Inv L s' ρ' fl' 0) (hviews : views ρ' = views ρ)
    (hused : (f (k.proc p)).state ≠ .unused) (hks : (f (k.proc p)).kstack = (k.proc p).kstack)
    (hpg : (f (k.proc p)).pgdir = (k.proc p).pgdir)
    (hproc : ProcOk sp (sh' p) (f (k.proc p)) ρ') (hsh : ∀ q, sh' q → q ≠ p → sh q)
    (hmaps : ∀ q b, q ≠ p → ρ b = .dir (.space q) → ∀ m, Maps ρ' b m ↔ Maps ρ b m)
    (hof : (f (k.proc p)).ofile = (k.proc p).ofile)
    (hnone : Closed (f (k.proc p)) → ∀ fd, (k.proc p).ofile fd = none) :
    Inv L ok sp sh' ({ k with phys := s' }.setProc p f) ρ' fl' x := by
  refine h.slot hmem (fun a => .inl (by rw [hviews])) (fun a => ?_) (fun a => ?_) hproc hsh hmaps
    hof hnone
  · rw [hviews, h.kstack_iff, hks]
    exact and_congr_left fun _ => ⟨fun _ => hused, fun _ => hp⟩
  · rw [hviews, h.space_iff, hpg]
    exact and_congr_left fun _ => ⟨fun _ => hused, fun _ => hp⟩

/-- A slot changes in what is not owned. -/
theorem Inv.setProc (hp : Live k p) (hused : (f (k.proc p)).state ≠ .unused)
    (hks : (f (k.proc p)).kstack = (k.proc p).kstack)
    (hpg : (f (k.proc p)).pgdir = (k.proc p).pgdir) (hproc : ProcOk sp (sh p) (f (k.proc p)) ρ)
    (hof : (f (k.proc p)).ofile = (k.proc p).ofile)
    (hnone : Closed (f (k.proc p)) → ∀ fd, (k.proc p).ofile fd = none) :
    Inv L ok sp sh (k.setProc p f) ρ fl x :=
  h.slotKeeps hp h.mem rfl hused hks hpg hproc (fun _ hs _ => hs) (fun _ _ _ _ _ => .rfl) hof hnone

/-- A slot without an address space gets a new one. -/
theorem Inv.giveSpace (hp : Live k p)
    (hz : (k.proc p).pgdir = 0) (hsh : ∀ q, sh' q → q ≠ p → sh q) (hmem : Mem.Inv L s' ρ' fl' 0)
    (hspace : NewSpace ρ d (.space p) ρ') (hd : d ≠ 0) (hlive : ¬ Closed (f (k.proc p)))
    (hks : (f (k.proc p)).kstack = (k.proc p).kstack) (hpg : (f (k.proc p)).pgdir = d)
    (hof : (f (k.proc p)).ofile = (k.proc p).ofile) (hproc : ProcOk sp (sh' p) (f (k.proc p)) ρ') :
    Inv L ok sp sh' ({ k with phys := s' }.setProc p f) ρ' fl' x := by
  have hused : (f (k.proc p)).state ≠ .unused := fun hu => hlive (.inl hu)
  have hloose := views_free hspace.was
  refine h.slot hmem ?_ (fun b => ?_) (fun b => ?_) hproc hsh
    (fun q b _ hb => hspace.maps (ne_of_role hb hspace.was (by simp))) hof fun hc => absurd hc hlive
  · rw [hspace.views]
    exact Moved.update (fun _ => .inl rfl) (.inl hloose) (.inr (.inr rfl))
  · rw [hspace.views, hks]
    refine Iff.trans ?_ (h.kstack_iff.trans
      (and_congr_left fun _ => ⟨fun _ => hused, fun _ => hp⟩))
    by_cases hb : b = d
    · simp [hb, hloose]
    · rw [Function.update_of_ne hb]
  · rw [hspace.views, hpg]
    by_cases hb : b = d
    · simp [hb, hused, hd]
    · rw [Function.update_of_ne hb, h.space_iff]
      refine ⟨fun hc => ?_, fun hc => absurd hc.2.1.symm hb⟩
      exact absurd (hc.2.1.symm.trans hz) hc.2.2

end

/-! ## `allocproc` -/

theorem setProc_setProc (f g : Proc → Proc) :
    (k.setProc p f).setProc p g = k.setProc p fun y => g (f y) := by
  unfold State.setProc
  congr 1
  funext q
  by_cases hq : q = p
  · subst hq
    simp
  · simp [hq]

/-- After `allocproc` gave the slot `np` the stack `kstack`. -/
def allocated (k : State) (np : Slot) (kstack : Nat) (s : Phys) : State :=
  { k with phys := s, nextpid := incInt k.nextpid }.setProc np fun y =>
    { y with state := .embryo, pid := k.nextpid, kstack := kstack }.initSched

theorem freeSlot_some (h : freeSlot k = some np) : (k.proc np).state = .unused :=
  Ptable.freeSlot_some h

theorem freeSlot_ne_none (h : (k.proc q).state = .unused) : freeSlot k ≠ none := by
  intro hno
  exact List.find?_eq_none.mp hno q (List.mem_finRange q) (decide_eq_true h)

/-- A free slot may keep old values. -/
theorem Inv.unused (h : Inv L ok sp sh k ρ fl x) (hnp : (k.proc np).state = .unused)
    (hmem : Mem.Inv L s ρ fl 0) (hf : (f (k.proc np)).state = .unused)
    (hsz : (f (k.proc np)).sz = (k.proc np).sz) (hof : (f (k.proc np)).ofile = (k.proc np).ofile) :
    Inv L ok sp sh ({ k with phys := s, nextpid := n }.setProc np f) ρ fl x := by
  have h1 := h.phys hmem
  refine h1.same ⟨rfl, rfl, rfl, fun q => ?_⟩ rfl rfl rfl fun q => ?_
  · by_cases hq : q = np
    · subst hq
      rw [setProc_proc_self]
      exact ⟨by simp [hf, hnp], fun hl => absurd hnp hl, fun hl => absurd hnp hl, hsz,
        fun hr => by simp [hf] at hr, fun _ => .inl hnp, fun hr => absurd hf hr.1⟩
    · rw [setProc_proc_ne hq]
      exact .refl _
  · by_cases hq : q = np
    · subst hq
      rw [setProc_proc_self]
      exact hof
    · rw [setProc_proc_ne hq]

theorem ends_allocproc (he : Ends allocproc k r k') :
    (r = none ∧ freeSlot k = none ∧ k' = k) ∨
      ∃ np a s', freeSlot k = some np ∧ Ends kalloc k.phys a s' ∧
        ((a = 0 ∧ r = none ∧ k' = { k with phys := s', nextpid := incInt k.nextpid }.setProc np
            fun y => { y with state := .unused, pid := k.nextpid, kstack := 0 }) ∨
          (a ≠ 0 ∧ r = some np ∧ k' = allocated k np a s')) := by
  replace he := ends_get_bind.mp he
  cases hs : freeSlot k with
  | none =>
    rw [hs] at he
    obtain ⟨rfl, rfl⟩ := ends_pure.mp he
    exact .inl ⟨rfl, rfl, rfl⟩
  | some np =>
    rw [hs] at he
    have he1 := ends_modifyProc_bind.mp he
    have he2 := ends_modify_bind.mp he1
    obtain ⟨a, s', hkalloc, he3⟩ := ends_onPhys_bind.mp he2
    have he4 := ends_modifyProc_bind.mp he3
    refine .inr ⟨np, a, s', rfl, hkalloc, ?_⟩
    by_cases ha : a = 0
    · subst ha
      rw [if_pos rfl] at he4
      have he5 := ends_modifyProc_bind.mp he4
      obtain ⟨rfl, rfl⟩ := ends_pure.mp he5
      refine .inl ⟨rfl, rfl, ?_⟩
      rw [setProc_setProc]
      exact setProc_setProc (k := { k with phys := s', nextpid := incInt k.nextpid })
        (fun y => { y with state := .embryo, pid := k.nextpid })
        fun y => { y with kstack := 0, state := .unused }
    · rw [if_neg ha] at he4
      have he5 := ends_modifyProc_bind.mp he4
      obtain ⟨rfl, rfl⟩ := ends_pure.mp he5
      refine .inr ⟨ha, rfl, ?_⟩
      rw [setProc_setProc]
      exact setProc_setProc (k := { k with phys := s', nextpid := incInt k.nextpid })
        (fun y => { y with state := .embryo, pid := k.nextpid })
        fun y => { y with kstack := a }.initSched

/-- The slot has a stack and no address space. -/
def allocatedBare (k : State) (np : Slot) (kstack : Nat) (s : Phys) : State :=
  (allocated k np kstack s).setProc np fun y => { y with pgdir := 0 }

theorem allocatedBare_eq (a : Nat) (s : Phys) : allocatedBare k np a s =
    { k with phys := s, nextpid := incInt k.nextpid }.setProc np fun y =>
      { { y with state := .embryo, pid := k.nextpid, kstack := a }.initSched with pgdir := 0 } :=
  setProc_setProc _ _

theorem Inv.allocated (h : Inv L ok sp sh k ρ fl x) (hnp : (k.proc np).state = .unused)
    (hfree : ρ a = .free) (hmem : Mem.Inv L s' (Function.update ρ a (.held (.kstack np))) fl' 0) :
    Inv L ok sp sh (allocatedBare k np a s') (Function.update ρ a (.held (.kstack np))) fl' x := by
  have hviews := views_update (ρ := ρ) a (.held (.kstack np))
  rw [allocatedBare_eq]
  refine h.slot hmem ?_ (fun b => ?_) (fun b => ?_) ?_ (fun _ hs _ => hs)
    (fun _ _ _ _ m => maps_update_held hfree m) rfl fun _ => h.files.empty np (.inl hnp)
  · rw [hviews]
    exact Moved.update (fun _ => .inl rfl) (.inl (views_free hfree)) (.inr (.inl rfl))
  · rw [hviews]
    by_cases hb : b = a
    · simp [hb, Role.view, Proc.initSched]
    · rw [Function.update_of_ne hb]
      exact ⟨fun hk => absurd hnp (h.kstack_iff.mp hk).1, fun hk => absurd hk.2.symm hb⟩
  · rw [hviews]
    refine ⟨fun hk => ?_, fun hk => absurd hk.2.1.symm hk.2.2⟩
    by_cases hb : b = a
    · simp [hb, Role.view] at hk
    · rw [Function.update_of_ne hb] at hk
      exact absurd hnp (h.space_iff.mp hk).1
  · exact ⟨(h.procs np).size, fun hr => by simp [Proc.initSched] at hr,
      fun _ hr => by simp [Ready, Proc.initSched] at hr, fun _ hd => absurd rfl hd,
      fun _ _ hd => absurd rfl hd⟩

/-- Slots in use, files, inodes and the free list are as before. -/
structure Untouched (k k' : State) : Prop where
  slot : ∀ q, k'.proc q = k.proc q ∨ ((k.proc q).state = .unused ∧ (k'.proc q).state = .unused)
  file : k'.file = k.file
  iref : k'.iref = k.iref
  free : ∀ i, freeAt i k'.phys = freeAt i k.phys

theorem total_allocproc : Total allocproc := by
  refine total_get.bind fun k => ?_
  cases freeSlot k with
  | none => exact total_pure none
  | some np =>
    refine (total_modify _).bind fun _ => (total_modify _).bind fun _ => ?_
    refine Total.bind (fun k => ?_) fun a => (total_modify _).bind fun _ => ?_
    · obtain ⟨a, s', hk⟩ := ends_kalloc k.phys
      exact ⟨a, _, ends_onPhys.mpr ⟨s', hk, rfl⟩⟩
    · split
      · exact (total_modify _).bind fun _ => total_pure none
      · exact (total_modify _).bind fun _ => total_pure (some np)

theorem allocproc_spec (h : Inv L ok sp sh k ρ fl x) (he : Ends allocproc k r k') :
    (r = none ∧ Inv L ok sp sh k' ρ fl x ∧ (freeSlot k = none ∨ ¬ Grants k.phys fl 1) ∧
        Untouched k k') ∨
      ∃ np a s' fl', r = some np ∧ freeSlot k = some np ∧ k' = allocated k np a s' ∧
        ρ a = .free ∧ Took k.phys fl s' fl' 1 ∧
        Inv L ok sp sh (allocatedBare k np a s')
        (Function.update ρ a (.held (.kstack np))) fl' x := by
  rcases ends_allocproc he with ⟨rfl, hs, rfl⟩ | ⟨np, a, s', hs, hk, hres⟩
  · exact .inl ⟨rfl, h, .inl hs, fun _ => .inl rfl, rfl, rfl, fun _ => rfl⟩
  have hnp := freeSlot_some hs
  rcases kalloc_spec (.kstack np) h.mem hk with ⟨rfl, rfl, hg⟩ | ⟨fl', rfl, hpage, -, htook, hmem⟩
  · rcases hres with ⟨-, rfl, rfl⟩ | ⟨ha, -⟩
    · have hmem : Mem.Inv L { k.phys with deny := k.phys.deny.tail } ρ fl 0 :=
        h.mem.congr rfl fun _ _ _ _ _ => rfl
      refine .inl ⟨rfl, h.unused hnp hmem rfl rfl rfl, .inr hg, fun q => ?_, rfl, rfl, fun i => ?_⟩
      · by_cases hq : q = np
        · subst hq
          exact .inr ⟨hnp, by rw [setProc_proc_self]⟩
        · exact .inl (setProc_proc_ne hq _)
      · rw [h.mem.freeAt_eq]
        exact hmem.freeAt_eq i
    · exact absurd rfl ha
  · have hgt := hpage.gt
    rcases hres with ⟨ha, -⟩ | ⟨-, rfl, rfl⟩
    · omega
    · have hfree : ρ a = .free := (h.mem.free a).mp (by simp)
      exact .inr ⟨np, a, s', fl', rfl, hs, rfl, hfree, htook, h.allocated hnp hfree hmem⟩

theorem Inv.lose (h : Inv L ok sp sh k ρ fl x) (hmem : Mem.Inv L s' ρ' fl' 0)
    (hlost : Lost .lost ρ ρ') (hok : ¬ ok) : Inv L ok sp sh { k with phys := s' } ρ' fl' x := by
  obtain ⟨u, v, hu, hv, hviews⟩ := hlost.views
  have hsame : Same k { k with phys := s' } := ⟨rfl, rfl, rfl, fun _ => .refl _⟩
  refine h.update hmem hviews ?_ (fun ho => absurd ho hok) ?_ h.nodup (fun q => ?_)
    (h.files.congr rfl rfl fun _ => ⟨id, rfl⟩)
  · rcases hv with rfl | rfl <;> simp
  · refine Agree.frame (h.agree.lose (views_free hu) ?_) fun w b _ => hsame.claims fun _ => rfl
    rcases hv with rfl | rfl <;> exact id
  · exact (h.procs q).maps fun hl hd => hlost.maps (h.space hl hd)

end Xv6.Kernel
