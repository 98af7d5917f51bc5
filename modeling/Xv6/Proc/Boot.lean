import Xv6.Mem.Boot
import Xv6.Proc.Run

/-! # The state after boot

    `main` ends, and the invariant holds when it does. Until `kinit2` the pages above 4 MB belong to
    nobody, so that the invariant is first proved with lost pages and then without.
-/

namespace Xv6.Kernel

open Program Mem Function List

variable {L : Layout} {sp : Prop} {sh : Slot → Prop} {k k' : State} {fl fl' : List Nat}
  {ρ ρ' : Nat → Role Tag} {p : Slot} {a n d e : Nat} {m : ByteMem.Mem} {s s' : Phys}
  {C : State → Label → Prop}

/-! ## Enough pages -/

/-- The last `j` pages of a run are taken first. -/
theorem drop_pageRun {j : Nat} (hj : j ≤ n) (tl : List Nat) :
    ((pageRun a n).reverse ++ tl).drop j = (pageRun a (n - j)).reverse ++ tl := by
  have hsplit : pageRun a n = pageRun a (n - j) ++ pageRun (a + 4096 * (n - j)) j := by
    unfold pageRun
    rw [show n = (n - j) + j by omega, range_add, map_append, map_map,
      show n - j + j - j = n - j by omega]
    refine congrArg _ (map_congr_left fun i _ => ?_)
    simp only [Function.comp]
    omega
  rw [hsplit, reverse_append, append_assoc]
  refine drop_left' ?_
  rw [length_reverse, length_pageRun]

/-! ## `kvmalloc` and `startothers` -/

/-- The records after `kvmalloc`: there is one directory. -/
def withKvm (m : ByteMem.Mem) (s : Phys) (d : Nat) : State :=
  { start m with phys := s, kpgdir := d }

theorem withKvm_claims {v : View Tag} : Claims (withKvm m s d) v a ↔ v = .dir .kernel ∧ a = d := by
  cases v with
  | other | loose => simp [Claims]
  | page t => cases t <;> simp [Claims, withKvm, start, Live, Proc.zero, IsOpen]
  | dir t => cases t <;> simp [Claims, withKvm, start, Live, Proc.zero, eq_comm]

theorem start_files (m : ByteMem.Mem) : Files (start m) fun _ => 0 := by
  refine ⟨fun f => ?_, fun _ _ => rfl, fun _ _ _ => rfl, ?_, ?_, ?_⟩
  · have hnone : Refs.count (ofiles (start m)) f = 0 := by
      simp [Refs.count, ofiles, start, Proc.zero]
    rw [hnone]
    rfl
  · intro f hf
    cases hf
  · intro f g hf
    cases hf
  · intro a w hw
    cases w <;> cases hw

theorem procOk_zero {c : Prop} : ProcOk sp c Proc.zero ρ :=
  ⟨by decide, fun hr => (by cases hr), fun _ hr => absurd rfl hr.1, fun hu => absurd rfl hu,
    fun _ hu => absurd rfl hu⟩

/-- The pages from `KERNBASE + 4 MB` on are the lost ones. -/
def LostAbove (L : Layout) (ρ : Nat → Role Tag) : Prop :=
  ∀ a, (views ρ a = .page .lost ↔ L.IsPage a ∧ 0x80400000 ≤ a) ∧ views ρ a ≠ .dir .lost

/-- The invariant, from the state of memory after `kvmalloc`. -/
theorem inv_withKvm (hmem : Mem.Inv L s ρ' fl 0)
    (hnew : NewDir (freeAll (allHeld L Tag.lost) (pageRun e n)) d .kernel KernTab ρ') :
    Inv L False True (fun _ => False) (withKvm m s d) ρ' fl fun _ => 0 := by
  have hviews := hnew.newSpace.views
  -- before the directory, pages are free or lost
  have hbefore : ∀ a, (L.IsPage a → views (freeAll (allHeld L Tag.lost) (pageRun e n)) a ≠ .other) ∧
      ¬ Firm (views (freeAll (allHeld L Tag.lost) (pageRun e n)) a) := by
    intro a
    unfold views freeAll
    split
    · exact ⟨fun _ => by simp [Role.view], fun hf => hf⟩
    · rcases allHeld_cases L Tag.lost a with ⟨-, he⟩ | ⟨hp, he⟩
      · rw [he]
        exact ⟨fun _ => by simp [Role.view], fun hf => hf⟩
      · rw [he]
        exact ⟨fun ha => absurd ha hp, fun hf => hf⟩
  refine ⟨hmem, fun a ha => ?_, fun v hv a => ?_, False.elim, ⟨nodup_nil, nodup_nil⟩,
    fun _ => procOk_zero, (start_files m).congr rfl rfl fun _ => ⟨id, rfl⟩⟩
  · rw [hviews]
    by_cases had : a = d
    · simp [had]
    · rw [update_of_ne had]
      exact (hbefore a).1 ha
  · rw [hviews, withKvm_claims]
    by_cases had : a = d
    · subst had
      rw [update_self]
      simp [eq_comm]
    · rw [update_of_ne had]
      constructor
      · rintro rfl
        exact absurd hv (hbefore a).2
      · intro h
        exact absurd h.2 had

theorem pageRun_end (he : PGROUNDUP L.end_ = e) (hn : e + 4096 * n = 0x80400000) (ha : L.IsPage a) :
    a ∈ pageRun e n ↔ a < 0x80400000 := by
  have hmod := ha.mod
  have hge := ha.2.1
  have hend := L.end_le
  have hgt := Layout.kernlink_lt_end (L := L)
  simp only [PGROUNDUP, u32, PGSIZE, KERNBASE, KERNLINK, EXTMEM] at he hend hgt
  rw [Nat.mod_eq_of_lt (by omega)] at he
  rw [mem_pageRun]
  constructor
  · rintro ⟨i, hi, rfl⟩
    omega
  · intro hlt
    exact ⟨(a - e) / 4096, by omega, by omega⟩

theorem lostAbove_withKvm (he : PGROUNDUP L.end_ = e) (hn : e + 4096 * n = 0x80400000)
    (hnew : NewDir (freeAll (allHeld L Tag.lost) (pageRun e n)) d .kernel KernTab ρ') :
    LostAbove L ρ' := by
  intro a
  rw [hnew.newSpace.views]
  by_cases had : a = d
  · -- the directory was free, so it lies below
    have hmem : d ∈ pageRun e n := by
      by_contra hno
      have hwas := hnew.was
      unfold freeAll at hwas
      rw [if_neg hno] at hwas
      rcases allHeld_cases L Tag.lost d with ⟨-, h⟩ | ⟨-, h⟩ <;> rw [h] at hwas <;> cases hwas
    subst had
    rw [update_self]
    refine ⟨⟨fun h => by simp at h, fun ⟨hp, hge⟩ => ?_⟩, by simp⟩
    have := (pageRun_end he hn hp).mp hmem
    omega
  · rw [update_of_ne had]
    unfold views freeAll
    rcases allHeld_cases L Tag.lost a with ⟨hp, h⟩ | ⟨hp, h⟩
    · have hiff := pageRun_end he hn hp
      by_cases hin : a ∈ pageRun e n
      · rw [if_pos hin]
        have := hiff.mp hin
        refine ⟨⟨fun h => by simp [Role.view] at h, fun ⟨_, hge⟩ => ?_⟩, by simp [Role.view]⟩
        omega
      · rw [if_neg hin, h]
        rw [hiff] at hin
        exact ⟨⟨fun _ => ⟨hp, by omega⟩, fun _ => rfl⟩, by simp [Role.view]⟩
    · refine ⟨⟨fun hl => ?_, fun hc => absurd hc.1 hp⟩, ?_⟩
      · split at hl
        · simp [Role.view] at hl
        · rw [h] at hl
          simp [Role.view] at hl
      · split
        · simp [Role.view]
        · rw [h]
          simp [Role.view]

/-- A stack for another processor. -/
theorem Inv.cpuStack (h : Inv L False True sh k ρ fl fun _ => 0) (hfree : ρ a = .free)
    (hmem : Mem.Inv L s' (Function.update ρ a (.held .cpu)) fl' 0) :
    Inv L False True sh { k with phys := s', cpuStack := a :: k.cpuStack }
      (Function.update ρ a (.held .cpu)) fl' fun _ => 0 := by
  have hnot : a ∉ k.cpuStack := by
    intro ha
    have := view_page.mp ((h.agree (.page .cpu) trivial a).mpr ha)
    rw [hfree] at this
    cases this
  refine h.update hmem (views_update a _) (by simp [Role.view]) (fun hf => False.elim hf) ?_
    ⟨h.nodup.1, nodup_cons.mpr ⟨hnot, h.nodup.2⟩⟩ (fun q => ?_)
    (h.files.congr rfl rfl fun _ => ⟨id, rfl⟩)
  · refine h.agree.take (views_free hfree) (by show a ∈ a :: _; simp) fun w b hw hwb => ?_
    unfold Claims
    split <;> first | rfl | simp [hwb rfl]
  · exact (h.procs q).maps fun _ _ m => maps_update_held hfree m

theorem startothers_spec (n : Nat) : ∀ {k : State} {ρ : Nat → Role Tag} {fl : List Nat},
    Inv L False True sh k ρ fl (fun _ => 0) → LostAbove L ρ → k.phys.deny = [] → n ≤ fl.length →
      ∃ s' cs ρ', Ends (startothers n) k () { k with phys := s', cpuStack := cs } ∧
        Inv L False True sh { k with phys := s', cpuStack := cs } ρ' (fl.drop n) (fun _ => 0) ∧
        LostAbove L ρ' ∧ s'.deny = [] := by
  induction n with
  | zero =>
    intro k ρ fl h hlost hdeny _
    exact ⟨k.phys, k.cpuStack, ρ, rfl, h, hlost, hdeny⟩
  | succ n ih =>
    intro k ρ fl h hlost hdeny hlen
    obtain ⟨a, s1, hk⟩ := ends_kalloc k.phys
    rcases kalloc_spec .cpu h.mem hk with ⟨-, -, hg⟩ | ⟨fl1, rfl, -, -, htook, hmem⟩
    · exact absurd (grants_of_nil hdeny (by omega)) hg
    have hfree : ρ a = .free := (h.mem.free a).mp (by simp)
    have h1 := h.cpuStack hfree hmem
    have hlost1 : LostAbove L (update ρ a (.held .cpu)) := by
      intro b
      rw [views_update]
      by_cases hb : b = a
      · subst hb
        rw [update_self]
        have hb' := (hlost b).1
        rw [views_free hfree] at hb'
        exact ⟨⟨fun hc => by simp [Role.view] at hc, fun hc => absurd (hb'.mpr hc) (by simp)⟩,
          by simp [Role.view]⟩
      · rw [update_of_ne hb]
        exact hlost b
    obtain ⟨s', cs, ρ', he, h2, hlost2, hdeny2⟩ := ih h1 hlost1 (took_nil htook hdeny)
      (by simpa using hlen)
    refine ⟨s', cs, ρ', ?_, h2, hlost2, hdeny2⟩
    unfold Ends startothers
    rw [run_bind_of_ends (ends_onPhys.mpr ⟨s1, hk, rfl⟩),
      run_bind_of_ends ((ends_modify (r := ())).mpr rfl)]
    exact he

/-! ## `kinit2` -/

theorem pageRun_top : a ∈ pageRun 0x80400000 56320 ↔
    a % 4096 = 0 ∧ 0x80400000 ≤ a ∧ a < 0x8E000000 := by
  rw [mem_pageRun]
  constructor
  · rintro ⟨i, hi, rfl⟩
    omega
  · intro h
    exact ⟨(a - 0x80400000) / 4096, by omega, by omega⟩

/-- Lost pages become free. -/
theorem Inv.find {us : List Nat} (h : Inv L False True sh k ρ fl fun _ => 0)
    (hlost : ∀ a, views ρ a = .page .lost ↔ a ∈ us) (hdir : ∀ a, views ρ a ≠ .dir .lost)
    (hmem : Mem.Inv L s' (freeAll ρ us) fl' 0) :
    Inv L True True sh { k with phys := s' } (freeAll ρ us) fl' fun _ => 0 := by
  have hviews : ∀ a, (a ∈ us ∧ views (freeAll ρ us) a = .loose) ∨
      (a ∉ us ∧ views (freeAll ρ us) a = views ρ a) := by
    intro a
    unfold views freeAll
    by_cases ha : a ∈ us
    · exact .inl ⟨ha, by rw [if_pos ha]; rfl⟩
    · exact .inr ⟨ha, by rw [if_neg ha]⟩
  have hsame : Same k { k with phys := s' } := ⟨rfl, rfl, rfl, fun _ => .refl _⟩
  refine ⟨hmem, fun a ha => ?_, fun v hv a => ?_, fun _ a => ?_, h.nodup, fun q => ?_,
    h.files.congr rfl rfl fun _ => ⟨id, rfl⟩⟩
  · rcases hviews a with ⟨-, he⟩ | ⟨-, he⟩ <;> rw [he]
    · simp
    · exact h.all a ha
  · rw [hsame.claims fun _ => rfl, ← h.agree v hv a]
    rcases hviews a with ⟨ha, he⟩ | ⟨-, he⟩ <;> rw [he]
    rw [(hlost a).mpr ha]
    constructor
    · rintro rfl
      exact absurd hv id
    · rintro rfl
      exact absurd hv id
  · rcases hviews a with ⟨-, he⟩ | ⟨ha, he⟩ <;> rw [he]
    · simp
    · exact ⟨fun hc => ha ((hlost a).mp hc), hdir a⟩
  · refine (h.procs q).maps fun _ _ m => ?_
    constructor
    · intro ⟨u, hu⟩
      refine ⟨u, ?_⟩
      unfold freeAll at hu
      split at hu
      · cases hu
      · exact hu
    · intro ⟨u, hu⟩
      refine ⟨u, ?_⟩
      unfold freeAll
      rw [if_neg, hu]
      intro hin
      have := (hlost u).mpr hin
      unfold views at this
      rw [hu] at this
      cases this

/-! ## `userinit` -/

/-- The kernel after boot: one process, which can run. -/
structure AtBoot (L : Layout) (k : State) (ρ : Nat → Role Tag) (fl : List Nat) : Prop where
  inv      : Inv L True True (fun _ => False) k ρ fl fun _ => 0
  init     : ∃ p, k.initproc = some p ∧ (k.proc p).state = .runnable ∧
    (k.proc p).sz = PGSIZE ∧ (k.proc p).pgdir ≠ 0 ∧ (∀ q, q ≠ p → k.proc q = Proc.zero) ∧
    (∀ m, Maps ρ (k.proc p).pgdir m ↔ m = 0) ∧ ∀ fd, (k.proc p).ofile fd = none
  detached : k.detached = []
  deny     : k.phys.deny = []
  free     : ∃ tl, fl = (pageRun 0x80400000 56252).reverse ++ tl

theorem userinit_spec {size : Nat} {tl : List Nat} (initcode : ByteMem.Mem) (root : Fin NINODE)
    (h : Inv L True True (fun _ => False) k ρ ((pageRun 0x80400000 56320).reverse ++ tl) fun _ => 0)
    (hzero : ∀ q, k.proc q = Proc.zero) (hdet : k.detached = []) (hdeny : k.phys.deny = [])
    (hsize : size < PGSIZE) :
    ∃ k' ρ' fl', Ends (userinit L initcode size root) k () k' ∧ AtBoot L k' ρ' fl' := by
  have hlen : ∀ n ≤ 56320, n ≤ ((pageRun 0x80400000 56320).reverse ++ tl).length := by
    intro n hn
    rw [length_append, length_reverse, length_pageRun]
    omega
  obtain ⟨r, k1, ha⟩ := total_allocproc k
  rcases allocproc_spec h ha with ⟨-, -, hfail, -⟩ |
    ⟨np, a, s1, fl1, rfl, hslot, rfl, hfree, htook1, h₁⟩
  · -- there is a slot and a page
    rcases hfail with hslot | hg
    · exact absurd hslot (freeSlot_ne_none (q := 0) (by rw [hzero]; rfl))
    · exact absurd (grants_of_nil hdeny (hlen 1 (by decide))) hg
  have hd1 := took_nil htook1 hdeny
  obtain ⟨d, s2, ρ2, fl2, hset, hmem2, ⟨-, -, -, hg⟩ | ⟨-, -, hg, -⟩ |
    ⟨hd0, htook2, hnew, htabs⟩⟩ :=
    setupkvm_spec (.space np) h₁.mem
  · exact absurd ((grants_add htook1).mp (grants_of_nil hdeny (hlen (1 + 1) (by decide)))) hg
  · exact absurd ((grants_add htook1).mp (grants_of_nil hdeny (hlen (1 + 65) (by decide)))) hg
  have hg2 : Grants s2 fl2 2 := (grants_add (htook1.trans htook2)).mp
    (grants_of_nil hdeny (hlen (1 + 65 + 2) (by decide)))
  obtain ⟨s3, ρ3, fl3, hinit, hmem3, hloc, htook3, hmaps⟩ := inituvm_spec initcode hmem2 hnew.dir
    (hnew.not_maps h₁.mem 0) (fun hc => by have := (htabs 0).mp hc; unfold KernTab at this; omega)
    hsize hg2
  have hspace : NewSpace _ d (.space np) ρ3 := hnew.newSpace.local h₁.mem hloc
  -- the state before the last assignments
  let base : State := { allocated k np a s1 with phys := s3, initproc := some np }
  let k2 := base.setProc np fun y => { y with pgdir := d }
  obtain ⟨iref, hidup⟩ := ends_idup (some root) k2
  let f : Proc → Proc := fun y => { y with
    sz := PGSIZE, tf := { eax := 0, eip := 0, esp := PGSIZE }, name := initName,
    cwd := some root, state := .runnable }
  refine ⟨{ k2 with iref := iref }.setProc np f, ρ3, fl3, ?_, ?_⟩
  · unfold Ends userinit
    rw [run_bind_of_ends ha]
    dsimp only
    rw [run_bind_of_ends ((ends_modify (r := ())).mpr rfl)]
    refine (run_bind_of_ends ((ends_onPhys (k := { allocated k np a s1 with
      initproc := some np })).mpr ⟨s2, hset, rfl⟩)).trans ?_
    rw [run_bind_of_ends ((ends_modifyProc (r := ())).mpr rfl), if_neg hd0]
    refine (run_bind_of_ends (ends_onPhys.mpr ⟨s3, hinit, rfl⟩)).trans ?_
    refine (run_bind_of_ends hidup).trans ?_
    exact ends_modifyProc.mpr rfl
  have hself : (allocatedBare k np a s1).proc np = { k.proc np with
      state := .embryo, pid := k.nextpid, kstack := a, priority := 1, timecpu := 0,
      pgdir := 0 } := by
    rw [allocatedBare_eq]
    exact setProc_proc_self _ _
  have hinv : Inv L True True (fun _ => False)
      { allocatedBare k np a s1 with initproc := some np, iref := iref } _ fl1 fun _ => 0 :=
    h₁.same ⟨rfl, rfl, rfl, fun _ => .refl _⟩ rfl rfl rfl fun _ => rfl
  have hfinal := hinv.giveSpace (p := np) (d := d) (f := fun y => f { y with pgdir := d })
    (by show ((allocatedBare k np a s1).proc np).state ≠ _; rw [hself]; simp)
    (by show ((allocatedBare k np a s1).proc np).pgdir = 0; rw [hself])
    (fun _ hs _ => hs) hmem3 hspace hd0 (by simp [Closed, f]) rfl rfl rfl
    ⟨by show PGSIZE < _; decide, fun hr => (by cases hr), fun _ _ => hd0, fun _ _ => by
      show 0 < PGSIZE; decide,
      fun hs => False.elim hs⟩
  have hstate : ({ k2 with iref := iref }.setProc np f : State) =
      { { allocatedBare k np a s1 with initproc := some np, iref := iref } with
        phys := s3 }.setProc np fun y => f { y with pgdir := d } := by
    have h1 := setProc_setProc (k := { base with iref := iref }) (p := np)
      (fun y => { y with pgdir := d }) f
    have h2 := setProc_setProc (k := { base with iref := iref }) (p := np)
      (fun y => { y with pgdir := 0 }) fun y => f { y with pgdir := d }
    exact h1.trans h2.symm
  have htook := (htook1.trans htook2).trans htook3
  refine ⟨hstate ▸ hfinal, ⟨np, rfl, ?_, ?_, ?_, fun q hq => ?_, fun m => ?_, fun fd => ?_⟩, hdet,
    took_nil htook hdeny, tl, ?_⟩
  · rw [setProc_proc_self]
  · rw [setProc_proc_self]
  · rw [hstate, setProc_proc_self]
    exact hd0
  · refine (setProc_proc_ne hq _).trans ?_
    have h1 : k2.proc q = base.proc q := setProc_proc_ne hq _
    have h2 : (allocated k np a s1).proc q = k.proc q := setProc_proc_ne hq _
    exact h1.trans (h2.trans (hzero q))
  · rw [hstate, setProc_proc_self]
    show Maps ρ3 d m ↔ m = 0
    rw [hmaps m]
    exact ⟨fun hm => hm.resolve_left (hnew.not_maps h₁.mem m), .inr⟩
  · rw [hstate, setProc_proc_self]
    show ((allocatedBare k np a s1).proc np).ofile fd = none
    rw [hself, hzero np]
    rfl
  · rw [htook.list, drop_pageRun (by decide), show 56320 - (1 + KVMPAGES + 2) = 56252 from rfl]

/-! ## `main` -/

theorem main_spec (c : Machine) :
    ∃ k ρ fl, Ends (main L c.ncpu c.initcode c.size c.root) (start c.mem) () k ∧
      AtBoot L k ρ fl := by
  obtain ⟨e, he⟩ : ∃ e, PGROUNDUP L.end_ = e := ⟨_, rfl⟩
  obtain ⟨n, hn, hlen⟩ : ∃ n, e + 4096 * n = 0x80400000 ∧ 512 ≤ n := by
    have hend := L.end_le
    have hgt := Layout.kernlink_lt_end (L := L)
    simp only [PGROUNDUP, u32, PGSIZE, KERNBASE, KERNLINK, EXTMEM] at he hend hgt
    rw [Nat.mod_eq_of_lt (by omega)] at he
    exact ⟨(0x80400000 - e) / 4096, by omega, by omega⟩
  have hbelow : ∀ u ∈ pageRun e n, allHeld L Tag.lost u = .held .lost := by
    intro u hu
    obtain ⟨i, hi, rfl⟩ := mem_pageRun.mp hu
    have hgt := Layout.kernlink_lt_end (L := L)
    have hend := L.end_le
    refine allHeld_page ⟨?_, ?_, ?_⟩
    all_goals
      simp only [PGROUNDUP, u32, PGSIZE, KERNBASE, KERNLINK, EXTMEM, PHYSTOP] at he hend hgt ⊢
      rw [Nat.mod_eq_of_lt (by omega)] at he
      omega
  -- `kinit1`
  obtain ⟨s1, hfree1, hmem1, hdeny1⟩ := freerange_spec L.end_
    (Mem.Inv.start (L := L) (s := (start c.mem).phys) Tag.lost rfl) he (by omega) hbelow
  rw [hn] at hfree1
  rw [append_nil] at hmem1
  -- `kvmalloc`
  have hlen1 : (pageRun e n).reverse.length = n := by rw [length_reverse, length_pageRun]
  obtain ⟨d, s2, ρ2, fl2, hset, hmem2, ⟨-, -, -, hg⟩ | ⟨-, -, hg, -⟩ | ⟨hd, htook2, hnew, -⟩⟩ :=
    setupkvm_spec Tag.kernel hmem1
  · exact absurd (grants_of_nil hdeny1 (by omega)) hg
  · exact absurd (grants_of_nil hdeny1 (by simp only [KVMPAGES]; omega)) hg
  have h2 := inv_withKvm (m := c.mem) hmem2 hnew
  have hlost2 := lostAbove_withKvm he hn hnew
  -- `startothers`
  have hcpu := c.ncpu_le
  obtain ⟨s3, cs, ρ3, hothers, h3, hlost3, hdeny3⟩ := startothers_spec (c.ncpu - 1) h2 hlost2
    (took_nil htook2 hdeny1) (by
      rw [htook2.list, length_drop, hlen1]
      simp only [KVMPAGES, NCPU] at hcpu ⊢
      omega)
  -- `kinit2`
  have hpages : ∀ a, L.IsPage a ∧ 0x80400000 ≤ a ↔ a ∈ pageRun 0x80400000 56320 := by
    intro a
    rw [pageRun_top]
    constructor
    · rintro ⟨hp, hge⟩
      have := hp.lt
      exact ⟨hp.mod, hge, by omega⟩
    · rintro ⟨hmod, hge, hlt⟩
      have hend := L.end_le
      simp only [KERNBASE] at hend
      exact ⟨⟨hmod, by omega, by simp only [KERNBASE, PHYSTOP]; omega⟩, hge⟩
  obtain ⟨s4, hfree4, hmem4, hdeny4⟩ := freerange_spec (KERNBASE + 0x400000)
    (a := 0x80400000) (n := 56320) h3.mem (by decide) (by decide) fun u hu =>
      view_page.mp (((hlost3 u).1).mpr ((hpages u).mpr hu))
  have h4 := h3.find (fun a => (hlost3 a).1.trans (hpages a)) (fun a => (hlost3 a).2) hmem4
  -- `userinit`
  obtain ⟨k', ρ', fl', huser, hboot⟩ :=
    userinit_spec c.initcode c.root h4 (fun _ => rfl) rfl (hdeny4.trans hdeny3) c.size_lt
  refine ⟨k', ρ', fl', ?_, hboot⟩
  have hkinit1 : Ends (kinit1 L L.end_ (KERNBASE + 0x400000)) (start c.mem).phys () s1 := hfree1
  have hkinit2 : Ends (kinit2 L (KERNBASE + 0x400000) (KERNBASE + PHYSTOP)) s3 () s4 := hfree4
  have hkvm : Ends (kvmalloc L) { start c.mem with phys := s1 } () (withKvm c.mem s2 d) := by
    unfold Ends kvmalloc
    rw [run_bind_of_ends (ends_onPhys.mpr ⟨s2, hset, rfl⟩)]
    rfl
  unfold Ends main
  rw [run_bind_of_ends (ends_onPhys.mpr ⟨s1, hkinit1, rfl⟩)]
  refine (run_bind_of_ends hkvm).trans ?_
  rw [run_bind_of_ends hothers]
  exact (run_bind_of_ends (ends_onPhys.mpr ⟨s4, hkinit2, rfl⟩)).trans huser

/-- Every boot ends in one of these states. -/
theorem Booted.atBoot (h : Booted L k) : ∃ ρ fl, AtBoot L k ρ fl := by
  obtain ⟨c, he⟩ := h
  obtain ⟨k', ρ, fl, he', hboot⟩ := main_spec c
  obtain ⟨-, rfl⟩ := he.unique he'
  exact ⟨ρ, fl, hboot⟩

/-! ## Runs -/

theorem Inv.forget {ok ok' sp' : Prop} {sh' : Slot → Prop} {x : Fin NFILE → Int}
    (h : Inv L ok sp sh k ρ fl x) (hok : ok' → ok) (hsp : sp' → sp) (hsh : ∀ q, sh' q → sh q) :
    Inv L ok' sp' sh' k ρ fl x := by
  refine ⟨h.mem, h.all, h.agree, fun ho => h.noLost (hok ho), h.nodup, fun q => ?_, h.files⟩
  have hq := h.procs q
  exact ⟨hq.size, hq.running, fun hs => hq.spaced (hsp hs), hq.pos, fun hs => hq.shape (hsh q hs)⟩

/-- The run lemma of the kernel. -/
theorem reachable_inv (ok sp : Prop) (hfits : ∀ k l, C k l → Fits l.event)
    (hok : ok → ∀ k l, C k l → NotTorn (k.withDeny l.deny) l.event)
    (hsp : sp → ∀ k l, C k l → Copies (k.withDeny l.deny) l.event)
    (h : ((system L).restrict C).Reachable k) :
    ∃ ρ fl, Inv L ok sp (fun _ => False) k ρ fl fun _ => 0 := by
  refine LTS.System.invariant
    (I := fun k => ∃ ρ fl, Inv L ok sp (fun _ => False) k ρ fl fun _ => 0) ?_ ?_ h
  · intro k hk
    obtain ⟨ρ, fl, hboot⟩ := Booted.atBoot hk
    exact ⟨ρ, fl, hboot.inv.forget (fun _ => trivial) (fun _ => trivial) fun _ => id⟩
  · intro k l k' ⟨ρ, fl, hinv⟩ ⟨hstep, hC⟩
    obtain ⟨ρ', fl', hinv'⟩ := step_inv hinv hstep (hfits k l hC) (fun ho => hok ho k l hC)
      fun hs => hsp hs k l hC
    exact ⟨ρ', fl', hinv'.forget id id fun _ hf => False.elim hf⟩

/-- The first process runs, and nothing else happened since boot. -/
structure FirstRuns (L : Layout) (k : State) (p : Slot) (ρ : Nat → Role Tag) (fl : List Nat) :
    Prop where
  inv      : Inv L True True (fun _ => False) k ρ fl fun _ => 0
  running  : (k.proc p).state = .running
  sz       : (k.proc p).sz = PGSIZE
  other    : ∀ q, q ≠ p → k.proc q = Proc.zero
  detached : k.detached = []
  deny     : k.phys.deny = []
  free     : ∃ tl, fl = (pageRun 0x80400000 56252).reverse ++ tl
  maps     : ∀ m, Maps ρ (k.proc p).pgdir m ↔ m = 0
  ofile    : ∀ q fd, (k.proc q).ofile fd = none

/-- A machine with one processor. -/
def plainMachine : Machine where
  mem := fun _ => 0
  ncpu := 1
  initcode := fun _ => 0
  size := 44
  root := 0
  ncpu_le := by decide
  size_lt := by decide

/-- A kernel that ends after 84 pages. -/
def smallLayout : Layout where
  data := 0x80108000
  end_ := 0x80154000
  data_aligned := data_aligned_400K
  text_lt := text_lt_400K
  data_le := by decide
  end_le := by decide

theorem withDeny_nil (h : k.phys.deny = []) : k.withDeny [] = k := by
  unfold State.withDeny
  rw [← h]

theorem step_of_ends {l : Label} (hen : Enabled k l.event)
    (he : Ends (perform L l.event) (k.withDeny l.deny) () k') : step L k l = some k' := by
  unfold step
  rw [if_pos hen]
  unfold Ends at he
  rw [he]

theorem ends_dispatch (hd : (k.proc p).pgdir ≠ 0) : Ends (dispatch p) k ()
    (k.setProc p fun y => { y with state := .running, chan := 0 }) := by
  exact ends_bind.mpr ⟨(), k, ends_switchuvm.mpr ⟨hd, rfl⟩, rfl⟩

/-- The kernel comes up. -/
theorem exists_firstRuns (L : Layout) (hC : ∀ k p, C k ⟨.dispatch p, []⟩) :
    ∃ k p ρ fl, ((system L).restrict C).Reachable k ∧ FirstRuns L k p ρ fl := by
  obtain ⟨k, ρ, fl, hmain, hboot⟩ := main_spec (L := L) plainMachine
  obtain ⟨p, -, hst, hsz, hd, hother, hmaps, hofile⟩ := hboot.init
  have hnil := withDeny_nil hboot.deny
  have hdispatch := ends_dispatch hd
  refine ⟨_, p, ρ, fl, LTS.System.Reachable.step (.of_init ⟨plainMachine, hmain⟩)
    ⟨step_of_ends (l := ⟨.dispatch p, []⟩) hst ?_, hC k p⟩, dispatch_spec hboot.inv hst hdispatch,
    ?_, ?_, fun q hq => ?_, hboot.detached, hboot.deny, hboot.free, fun m => ?_, fun q fd => ?_⟩
  · rw [hnil]
    exact hdispatch
  · rw [setProc_proc_self]
  · rw [setProc_proc_self]
    exact hsz
  · rw [setProc_proc_ne hq]
    exact hother q hq
  · rw [setProc_proc_self]
    exact hmaps m
  · by_cases hq : q = p
    · rw [hq, setProc_proc_self]
      exact hofile fd
    · rw [setProc_proc_ne hq, hother q hq]
      rfl

theorem FirstRuns.freeSlot (h : FirstRuns L k p ρ fl) : freeSlot k ≠ none := by
  obtain ⟨q, hq⟩ := exists_ne p
  exact freeSlot_ne_none (by rw [h.other q hq]; rfl)

theorem FirstRuns.grants (h : FirstRuns L k p ρ fl) (hn : n ≤ 56252) : Grants k.phys fl n := by
  obtain ⟨tl, htl⟩ := h.free
  refine grants_of_nil h.deny (le_trans hn ?_)
  rw [htl, length_append, length_reverse, length_pageRun]
  exact Nat.le_add_right _ _

theorem FirstRuns.whole (h : FirstRuns L k p ρ fl) (deny : List Bool) :
    Whole (k.withDeny deny) p := by
  intro m h1 h2
  have hsz : ((k.withDeny deny).proc p).sz = PGSIZE := h.sz
  rw [hsz] at h2
  simp only [pages, PGSIZE] at h2
  omega

end Xv6.Kernel
