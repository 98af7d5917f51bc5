import Xv6.Mem.Remap
import Xv6.Mem.SmallImage
import Xv6.Proc.Boot

/-! # The shape of an address space

    After `exec` the pages of a process below `KERNBASE` are those from `PGSIZE` to its size.
    `growproc` and `fork` keep this, except for a `growproc` that takes the whole size away: it
    frees the pages, finds the size `0` that `deallocuvm` returns, and reports a failure with `sz`
    as it was.
-/

namespace Xv6.Kernel

open Program Mem

variable {L : Layout} {k k' : State} {p q : Slot} {ok sp : Prop} {sh : Slot → Prop}
  {ρ : Nat → Role Tag} {fl : List Nat} {x : Fin NFILE → Int}

/-! ## Processes that called `exec` -/

/-- The arguments of `exec` fit, and `growproc` does not take all of the size. -/
def KeepsShape (k : State) (l : Label) : Prop :=
  Fits l.event ∧ ∀ p n, l.event = .growproc p n → ¬ FreesAll k p n

/-- Some run of the kernel with such calls ends in `k`, and in it `p` called
    `exec` with success, or was forked by a process that had. -/
inductive Execed (L : Layout) : State → Slot → Prop where
  | exec {k k' : State} {l : Label} {p : Slot} (h : ((system L).restrict KeepsShape).Reachable k)
      (hl : KeepsShape k l) (hs : step L k l = some k') (he : Execs L k l p) : Execed L k' p
  | fork {k k' : State} {l : Label} {p q : Slot} (h : Execed L k p) (hl : KeepsShape k l)
      (hs : step L k l = some k') (he : l.event = .fork p) (hq : (k.proc q).state = .unused)
      (hq' : (k'.proc q).state ≠ .unused) : Execed L k' q
  | stay {k k' : State} {l : Label} {p : Slot} (h : Execed L k p) (hl : KeepsShape k l)
      (hs : step L k l = some k') (hp : (k'.proc p).state ≠ .unused) : Execed L k' p

theorem KeepsShape.not_frees {l : Label} (h : KeepsShape k l) : ¬ Frees k l p := by
  intro ⟨n, he, hf⟩
  exact h.2 p n he hf

/-- What the later calls need to know. -/
theorem Execed.inv (h : Execed L k p) :
    ∃ ρ fl, Inv L False False (fun q => q = p) k ρ fl fun _ => 0 := by
  induction h with
  | exec hr hl hs he =>
    obtain ⟨ρ, fl, hinv⟩ := reachable_inv False False (fun _ _ hC => hC.1) False.elim False.elim hr
    obtain ⟨ρ', fl', hinv'⟩ := step_inv hinv hs hl.1 False.elim False.elim
    refine ⟨ρ', fl', hinv'.weaken fun q hq => ?_⟩
    subst hq
    exact ⟨.inr he, hl.not_frees⟩
  | fork _ hl hs _ hq _ ih =>
    obtain ⟨ρ, fl, hinv⟩ := ih
    obtain ⟨ρ', fl', hinv'⟩ := step_inv hinv.fresh hs hl.1 False.elim False.elim
    refine ⟨ρ', fl', hinv'.weaken fun q' hq' => ?_⟩
    subst hq'
    exact ⟨.inl (.inr hq), hl.not_frees⟩
  | stay _ hl hs _ ih =>
    obtain ⟨ρ, fl, hinv⟩ := ih
    obtain ⟨ρ', fl', hinv'⟩ := step_inv hinv hs hl.1 False.elim False.elim
    refine ⟨ρ', fl', hinv'.weaken fun q hq => ?_⟩
    exact ⟨.inl hq, hl.not_frees⟩

theorem exec_state {path : CStr} {ip : Option Content} {argv : List CStr} {r : Int}
    (he : Ends (exec L p path ip argv) k r k') : (k'.proc p).state = (k.proc p).state := by
  cases ip with
  | none =>
    obtain ⟨-, rfl⟩ := ends_pure.mp he
    rfl
  | some ip =>
    obtain ⟨img, s1, -, he1⟩ := ends_onPhys_bind.mp he
    cases img with
    | none =>
      obtain ⟨-, rfl⟩ := ends_pure.mp he1
      rfl
    | some img =>
      obtain ⟨-, s2, -, -, rfl⟩ := ends_commitImage.mp he1
      rw [setProc_proc_self]
      rfl

theorem Execed.used (h : Execed L k p) : (k.proc p).state ≠ .unused := by
  cases h with
  | exec _ _ hs he =>
    obtain ⟨path, ip, argv, k1, hev, hends⟩ := he
    obtain ⟨hen, hperf⟩ := ends_of_step hs
    rw [hev] at hen hperf
    obtain ⟨r, hr⟩ := ends_discard hperf
    rw [exec_state hr]
    intro hun
    cases hun.symm.trans hen
  | fork _ _ _ _ _ hq' => exact hq'
  | stay _ _ _ hp => exact hp

/-! ## The shape -/

/-- The pages below `KERNBASE` are those from `PGSIZE` to the size. -/
def Shaped (k : State) (p : Slot) : Prop :=
  ∀ a < KERNBASE, a % PGSIZE = 0 →
    (Present k.phys.mem (k.proc p).pgdir (a / PGSIZE) ↔ PGSIZE ≤ a ∧ a < (k.proc p).sz)

theorem Execed.shape (h : Execed L k p) (hd : (k.proc p).pgdir ≠ 0) : Shaped k p := by
  obtain ⟨ρ, fl, hinv⟩ := h.inv
  intro a ha hmod
  have hshape := (hinv.procs p).shape rfl h.used hd
  simp only [KERNBASE, PGSIZE] at ha hmod ⊢
  rw [hinv.mem.present_iff (hinv.space h.used hd) (by omega)]
  refine (hshape (a / 4096)).trans ?_
  unfold pages
  omega

theorem ends_growproc (h : Inv L ok sp sh k ρ fl x) (hp : (k.proc p).state = .running) (hs : sh p)
    (n : Int) : ∃ r k', Ends (growproc L p n) k r k' := by
  have hl := live_of_running hp
  have hd := (h.procs p).running hp
  have hrole := h.space hl hd
  -- whichever size the helper returns, `growproc` ends
  have hend : ∀ {sz s'}, _ → ∃ r k', Ends (growproc L p n) k r k' := fun {sz s'} he => by
    by_cases hz : sz = 0
    · exact ⟨_, _, (ends_growproc_iff hd).mpr (.inr ⟨sz, s', he, .inl ⟨hz, rfl, rfl⟩⟩)⟩
    · exact ⟨_, _, (ends_growproc_iff hd).mpr (.inr ⟨sz, s', he, .inr ⟨hz, rfl, rfl⟩⟩)⟩
  rcases Int.lt_trichotomy n 0 with hn | hn | hn
  · obtain ⟨sz, s', -, -, he, -⟩ := deallocuvm_local (k.proc p).sz
      (u32 ((k.proc p).sz + toU32 n)) h.mem hrole (le_of_lt (h.procs p).size)
    exact hend (.inr ⟨hn, he⟩)
  · exact ⟨0, k, (ends_growproc_iff hd).mpr (.inl ⟨hn, rfl, rfl⟩)⟩
  · obtain ⟨sz, s', he⟩ := ((h.procs p).shape hs hl hd).ends_allocuvm
      (u32 ((k.proc p).sz + toU32 n)) h.mem hrole
    exact hend (.inl ⟨hn, he⟩)

theorem ends_fork (h : Inv L ok sp sh k ρ fl fun _ => 0) (hp : (k.proc p).state = .running)
    (hs : sh p) : ∃ r k', Ends (fork L p) k r k' := by
  have hl := live_of_running hp
  have hd := (h.procs p).running hp
  have hw : Whole k p := by
    intro m h1 h2
    have hsize := (h.procs p).size
    have hm : m < 524288 := by
      unfold pages at h2
      omega
    rw [h.mem.present_iff (h.space hl hd) hm]
    exact ((h.procs p).shape hs hl hd m).mpr ⟨h1, h2⟩
  have hweak : Inv L False False sh k ρ fl fun _ => 0 :=
    h.forget False.elim False.elim fun _ => id
  obtain ⟨r, k', -, -, he, -⟩ := fork_spec hweak (fun _ => le_rfl) hp False.elim False.elim
    (.inr (.inr (.inl hw)))
  exact ⟨r, k', he⟩

theorem exec_ne_remap (h : Inv L ok sp sh k ρ fl x) (path : CStr) (ip : Option Content)
    (argv : List CStr) : (exec L p path ip argv).run k ≠ .error remap := by
  have : Inhabited Tag := ⟨.lost⟩
  cases ip with
  | none => exact avoids_pure _ k
  | some ip =>
    refine run_bind_ne_error (run_onPhys_ne_error (buildImage_ne_remap h.mem)) fun img k1 _ => ?_
    cases img with
    | none => exact avoids_pure _ k1
    | some img =>
      refine (total_get.avoids.bind fun k2 => (total_modify _).avoids.bind fun _ => ?_) k1
      refine Avoids.bind ?_ fun _ => Avoids.bind ?_ fun _ => avoids_pure _
      · exact total_get.avoids.bind fun k3 => (avoids_throw (by simp)).ite (avoids_pure _)
      · exact fun k3 => run_onPhys_ne_error (avoids_freevm _)

/-- The shape of the address space of a process that called `exec`, in every run in which the
    arguments of `exec` fit and no `growproc` takes all of the size; `fork`, `growproc` and `exec`
    do not reach the panics of `copyuvm` and `mappages` from there. -/
theorem space_shaped (h : Execed L k p) (hd : (k.proc p).pgdir ≠ 0) :
    Shaped k p ∧ ((k.proc p).state = .running → ∀ deny,
      (∃ r k', Ends (fork L p) (k.withDeny deny) r k') ∧
      (∀ n, ∃ r k', Ends (growproc L p n) (k.withDeny deny) r k') ∧
      ∀ path ip argv,
        (exec L p path ip argv).run (k.withDeny deny) ≠ .error (.panic "remap")) := by
  refine ⟨h.shape hd, fun hp deny => ?_⟩
  obtain ⟨ρ, fl, hinv⟩ := h.inv
  have h0 := hinv.withDeny deny
  exact ⟨ends_fork h0 hp rfl, ends_growproc h0 hp rfl, fun path ip argv =>
    exec_ne_remap h0 path ip argv⟩

/-! ## The first process runs a small program -/

/-- The first process calls `exec`. -/
def execSmall (p : Slot) : Label := ⟨.exec p ⟨[], zero_notMem_nil⟩ (some smallFile) [], []⟩

/-- The first process runs the small program. -/
structure SmallRuns (L : Layout) (k : State) (p : Slot) (ρ : Nat → Role Tag) (fl : List Nat) :
    Prop where
  execed  : Execed L k p
  inv     : Inv L False False (fun q => q = p) k ρ fl fun _ => 0
  running : (k.proc p).state = .running
  sz      : (k.proc p).sz = 0x4000
  other   : ∀ q, q ≠ p → k.proc q = Proc.zero
  free    : 56000 ≤ fl.length

theorem FirstRuns.ends_exec (h : FirstRuns L k p ρ fl) (path : CStr) :
    ∃ k' fl' ρ', Ends (exec L p path (some smallFile) []) k 0 k' ∧
      (k'.proc p).sz = 0x4000 ∧ (∀ q, q ≠ p → k'.proc q = k.proc q) ∧
      Mem.Inv L k'.phys (ρ' : Nat → Role Tag) fl' 0 ∧ 56000 ≤ fl'.length := by
  have hlen : 56252 ≤ fl.length := (h.grants le_rfl).1
  obtain ⟨d, s1, ρ1, hbuild, hmem1, hspace⟩ :=
    exec_small (.space p) h.inv.mem h.deny (le_trans (by decide) hlen)
  obtain ⟨s2, ns, us, hfree, hmem2, -⟩ := freevm_spec hmem1 (h.inv.oldSpace h.running hspace)
  refine ⟨_, _, _, ends_onPhys_bind.mpr ⟨_, s1, hbuild, ends_commitImage.mpr
    ⟨hmem1.dir_ne_zero hspace.dir, s2, hfree, rfl, rfl⟩⟩, ?_, ?_, hmem2, ?_⟩
  · rw [setProc_proc_self]
    rfl
  · intro q hq
    rw [setProc_proc_ne hq]
  · simp only [List.length_cons, List.length_append, List.length_reverse, List.length_drop]
    omega

/-- The small program comes up. -/
theorem exists_smallRuns (L : Layout) : ∃ k0 p k ρ fl,
    ((system L).restrict KeepsShape).Reachable k0 ∧ step L k0 (execSmall p) = some k ∧
      Execs L k0 (execSmall p) p ∧ SmallRuns L k p ρ fl := by
  obtain ⟨k0, p, ρ0, fl0, hreach, h⟩ := exists_firstRuns L (C := KeepsShape)
    fun _ _ => ⟨trivial, fun _ _ he => by cases he⟩
  obtain ⟨k, fl, ρ, he, hsz, hother, hmem, hlen⟩ := h.ends_exec ⟨[], by simp⟩
  have hnil := withDeny_nil h.deny
  have hstep : step L k0 (execSmall p) = some k := by
    refine step_of_ends h.running (ends_bind.mpr ⟨0, k, ?_, rfl⟩)
    show Ends (exec L p ⟨[], by simp⟩ (some smallFile) []) (k0.withDeny []) 0 k
    rw [hnil]
    exact he
  have hexecs : Execs L k0 (execSmall p) p := by
    refine ⟨⟨[], by simp⟩, some smallFile, [], k, rfl, ?_⟩
    show Ends _ (k0.withDeny []) 0 k
    rw [hnil]
    exact he
  have hexeced : Execed L k p := by
    refine .exec hreach ⟨?_, fun _ _ hev => by cases hev⟩ hstep hexecs
    show FitsStack 0 []
    decide
  obtain ⟨ρ', fl', hinv⟩ := hexeced.inv
  obtain rfl := hinv.mem.list_unique hmem
  refine ⟨k0, p, k, ρ', fl', hreach, hstep, hexecs, hexeced, hinv, ?_, hsz, fun q hq => ?_, hlen⟩
  · rw [exec_state he]
    exact h.running
  · rw [hother q hq]
    exact h.other q hq

theorem space_shaped_smallRuns : ∃ k p, Execed smallLayout k p ∧ (k.proc p).pgdir ≠ 0 ∧
    (k.proc p).sz = 0x4000 ∧ Shaped k p ∧ ∃ r k',
    Ends (fork smallLayout p) (k.withDeny []) r k' := by
  obtain ⟨-, p, k, ρ, fl, -, -, -, h⟩ := exists_smallRuns smallLayout
  have hd := (h.inv.procs p).running h.running
  have hs := space_shaped h.execed hd
  exact ⟨k, p, h.execed, hd, h.sz, hs.1, (hs.2 h.running []).1⟩

/-- `fork` of a process that has a size and a table, but no page. -/
theorem fork_missing (h : Inv L ok sp sh k ρ fl x) (hp : (k.proc p).state = .running)
    (hfree : freeSlot k ≠ none) (hg : Grants k.phys fl (1 + KVMPAGES))
    (htab : HasTab ρ (k.proc p).pgdir 0) (hno : ¬ Maps ρ (k.proc p).pgdir 1)
    (hsz : PGSIZE < (k.proc p).sz) :
    (fork L p).run k = .error (.panic "copyuvm: page not present") := by
  obtain ⟨r1, k1, ha⟩ := total_allocproc k
  rcases allocproc_spec h ha with ⟨-, -, hnone | hg1, -⟩ |
    ⟨np, a, s1, fl1, rfl, hslot, rfl, hafree, htook, h1⟩
  · exact absurd hnone hfree
  · exact absurd (hg.mono (by decide)) hg1
  have hne : p ≠ np := by
    rintro rfl
    cases hp.symm.trans (freeSlot_some hslot)
  have hpa : (allocated k np a s1).proc p = k.proc p := setProc_proc_ne hne _
  have hrole := h.space (live_of_running hp) ((h.procs p).running hp)
  -- a free page became the stack of the child
  have hkeep : ∀ {b r}, ρ b = r → r ≠ .free →
      Function.update ρ a (.held (.kstack np)) b = r := by
    intro b r hb hr
    rw [Function.update_of_ne, hb]
    rintro rfl
    exact hr (hb.symm.trans hafree)
  have hmiss : (copyuvm L (k.proc p).pgdir (k.proc p).sz).run s1 =
      .error (.panic "copyuvm: page not present") := copyuvm_missing .lost h1.mem
    (hkeep hrole (by simp)) ((grants_add htook).mp hg) ?_ ?_ hsz
  · unfold fork
    rw [run_bind_of_ends ha]
    dsimp only
    unfold forkInto
    rw [run_bind_of_ends (ends_get.mpr ⟨rfl, rfl⟩), hpa]
    exact run_bind_of_error (run_onPhys_error hmiss)
  · obtain ⟨b, hb⟩ := htab
    exact ⟨b, hkeep hb (by simp)⟩
  · rintro ⟨u, hu⟩
    by_cases hua : u = a
    · rw [hua, Function.update_self] at hu
      cases hu
    · rw [Function.update_of_ne hua] at hu
      exact hno ⟨u, hu⟩

/-- The first process calls `exec` and then `growproc` with minus its size. The call fails and
    leaves a size without pages, and the next `fork` panics. -/
theorem shrunk_fork_panics : ∃ k₀ p k k', (system smallLayout).Reachable k₀ ∧
    step smallLayout k₀ (execSmall p) = some k ∧ Execs smallLayout k₀ (execSmall p) p ∧
    step smallLayout k ⟨.growproc p (-0x4000), []⟩ = some k' ∧ ¬ Shaped k' p ∧
    (fork smallLayout p).run k' = .error (.panic "copyuvm: page not present") := by
  obtain ⟨k₀, p, k, ρ, fl, ⟨k1, ls, hinit, hrun⟩, hstep, hexecs, h⟩ := exists_smallRuns smallLayout
  have hl := live_of_running h.running
  have hinv := h.inv.withDeny []
  have hd := (h.inv.procs p).running h.running
  have hrole := h.inv.space hl hd
  have hshape := (h.inv.procs p).shape rfl hl hd
  rw [h.sz] at hshape
  obtain ⟨s', ns, us, hdealloc, hmem, hdeny, -, hfreed, hall⟩ :=
    deallocuvm_spec 0x4000 0 hinv.mem hrole (by decide) (by decide)
  have hk' : Inv smallLayout False False (fun _ => False) { k with phys := s' } (freeAll ρ us)
      (us.reverse ++ fl) fun _ => 0 := by
    have hno : ∀ q, (fun _ => False : Slot → Prop) q → (fun q => q = p) q := fun _ => False.elim
    have := hinv.resize hl hd hmem (local_freeAll hfreed)
      ⟨(h.inv.procs p).pos hl hd, (h.inv.procs p).size⟩ hno False.elim
    rwa [setProc_id (k := { (k.withDeny []) with phys := s' }) rfl] at this
  have hno : ¬ Maps (freeAll ρ us) (k.proc p).pgdir 1 := by
    rw [hfreed.maps hinv.mem.trees]
    intro ⟨hm, hns⟩
    exact hns ((hall 1 (by decide) (by decide) hm).mpr (not_skipped (.inl rfl)))
  have htab : HasTab (freeAll ρ us) (k.proc p).pgdir 0 := by
    obtain ⟨u, hu⟩ := (hshape 1).mpr ⟨Nat.le_refl 1, by decide⟩
    obtain ⟨-, a, ha, -⟩ := h.inv.mem.trees.userOf u _ 1 hu
    refine ⟨a, ?_⟩
    unfold freeAll
    rw [if_neg, ha]
    intro hin
    obtain ⟨m, -, hm⟩ := hfreed.mem hin
    cases ha.symm.trans hm
  refine ⟨k₀, p, k, { k with phys := s' }, ⟨k1, ls, hinit, hrun.of_restrict⟩, hstep, hexecs,
    step_of_ends h.running (ends_bind.mpr ⟨-1, _, ends_get_bind.mpr ?_, rfl⟩), ?_, ?_⟩
  · dsimp only
    rw [if_neg (by decide), if_pos (by decide)]
    refine ends_onPhys_bind.mpr ⟨0, s', ?_, rfl⟩
    have hsz : ((k.withDeny []).proc p).sz = 0x4000 := h.sz
    rw [hsz]
    exact hdealloc
  · intro hs
    have hpres := (hs 0x1000 (by decide) (by decide)).mpr ⟨by decide, by rw [h.sz]; decide⟩
    rw [hmem.present_iff (hk'.space hl hd) (by decide)] at hpres
    exact hno hpres
  · refine fork_missing hk' h.running ?_ (grants_of_nil hdeny ?_) htab hno (by rw [h.sz]; decide)
    · obtain ⟨q, hq⟩ := exists_ne p
      exact freeSlot_ne_none (show (k.proc q).state = .unused by rw [h.other q hq]; rfl)
    · have := h.free
      rw [List.length_append]
      simp only [KVMPAGES]
      omega

end Xv6.Kernel
