import Xv6.Mem.Overrun
import Xv6.Proc.ForkClean
import Xv6.Proc.SharedPipe

/-! # No page is in two places, and none is lost

    A place is where the kernel keeps a page: a position of the free list, a field of a process, an
    entry of a page table, a pipe, a processor's stack. Which page a place holds is read off the
    bytes of memory and the kernel's tables, as the code would read it.
-/

namespace Xv6.Kernel

open Program Mem List

variable {L : Layout} {ok sp : Prop} {sh : Slot → Prop} {k k' : State} {fl : List Nat}
  {ρ : Nat → Role Tag} {x : Fin NFILE → Int} {a i : Nat}

/-! ## Places -/

inductive Place where
  /-- Position `i` of the free list. -/
  | free (i : Nat)
  | kstack (p : Slot)
  | pgdir (p : Slot)
  | kpgdir
  | detached (i : Nat)
  /-- The table at index `i` of directory `d`. -/
  | table (d i : Nat)
  /-- Page number `n` below `KERNBASE` of directory `d`. -/
  | user (d n : Nat)
  /-- The buffer of the pipe that file `f` is an end of. -/
  | pipe (f : Fin NFILE)
  | cpu (i : Nat)

/-- `d` is a page directory in use. -/
def IsDir (k : State) (d : Nat) : Prop :=
  (∃ p, Live k p ∧ (k.proc p).pgdir = d ∧ d ≠ 0) ∨ k.kpgdir = d ∨ d ∈ k.detached

/-- The page at address `a` is in this place. A pipe is named by its write end while that is open.
    -/
def Holds (k : State) : Place → Nat → Prop
  | .free i, a => freeAt i k.phys = some a
  | .kstack p, a => Live k p ∧ (k.proc p).kstack = a
  | .pgdir p, a => Live k p ∧ (k.proc p).pgdir = a ∧ a ≠ 0
  | .kpgdir, a => k.kpgdir = a
  | .detached i, a => k.detached[i]? = some a
  | .table d i, a => IsDir k d ∧ i < 1024 ∧ ptr k.phys.mem d i = some a
  | .user d n, a => IsDir k d ∧ n < 524288 ∧
      ∃ t, ptr k.phys.mem d (n / 1024) = some t ∧ ptr k.phys.mem t (n % 1024) = some a
  | .pipe f, a => (k.file f).type = .pipe ∧ (k.file f).pipe = a ∧
      ((k.file f).writable = true ∨ (k.pipe a).writeopen = false)
  | .cpu i, a => k.cpuStack[i]? = some a

/-- Pages in two places do not overlap. -/
def Isolated (k : State) : Prop :=
  ∀ pl pl' a a', Holds k pl a → Holds k pl' a' → pl ≠ pl' → a + 4096 ≤ a' ∨ a' + 4096 ≤ a

/-- The role of a page in a place. -/
def Place.role : Place → Role Tag
  | .free _ => .free
  | .kstack p => .held (.kstack p)
  | .pgdir p => .dir (.space p)
  | .kpgdir => .dir .kernel
  | .detached _ => .dir .detached
  | .table d i => .table d i
  | .user d n => .user d n
  | .pipe _ => .held .pipe
  | .cpu _ => .held .cpu

theorem Inv.isDir (h : Inv L ok sp sh k ρ fl x) {d : Nat} (hd : IsDir k d) : ∃ t, ρ d = .dir t := by
  rcases hd with ⟨p, hp, rfl, h0⟩ | hk | hdet
  · exact ⟨_, h.space hp h0⟩
  · exact ⟨_, view_dir.mp ((h.agree (.dir .kernel) trivial d).mpr hk)⟩
  · exact ⟨_, h.detached hdet⟩

variable {pl : Place}

theorem Inv.role_of_holds (h : Inv L ok sp sh k ρ fl x) (ha : Holds k pl a) : ρ a = pl.role := by
  cases pl with
  | free i =>
    have hi : fl[i]? = some a := (h.mem.freeAt_eq i).symm.trans ha
    exact (h.mem.free a).mp (mem_of_getElem? hi)
  | kstack p =>
    obtain ⟨hp, rfl⟩ := ha
    exact h.kstack hp
  | pgdir p =>
    obtain ⟨hp, rfl, h0⟩ := ha
    exact h.space hp h0
  | kpgdir => exact view_dir.mp ((h.agree (.dir .kernel) trivial a).mpr ha)
  | detached i => exact h.detached (mem_of_getElem? ha)
  | table d i =>
    obtain ⟨hd, hi, hp⟩ := ha
    obtain ⟨t, ht⟩ := h.isDir hd
    exact h.mem.trees.tab d t ht i hi a hp
  | user d n =>
    obtain ⟨hd, hn, b, hb, hp⟩ := ha
    obtain ⟨t, ht⟩ := h.isDir hd
    have htab := h.mem.trees.tab d t ht (n / 1024) (by omega) b hb
    have hu := h.mem.trees.user b d _ htab (by omega) (n % 1024) (by omega) a hp
    rwa [show 1024 * (n / 1024) + n % 1024 = n by omega] at hu
  | pipe f =>
    obtain ⟨htype, rfl, -⟩ := ha
    exact h.pipe (h.files.isOpen f htype)
  | cpu i => exact view_page.mp ((h.agree (.page .cpu) trivial a).mpr (mem_of_getElem? ha))

/-- Two positions of a list without duplicates. -/
theorem getElem?_unique {l : List Nat} {j : Nat} (hl : l.Nodup) (hi : l[i]? = some a)
    (hj : l[j]? = some a) : i = j := by
  have hlt : i < l.length := (List.getElem?_eq_some_iff.mp hi).1
  exact (getElem?_inj hlt hl).mp (hi.trans hj.symm)

theorem Inv.place_unique (h : Inv L ok sp sh k ρ fl x) {pl' : Place} (ha : Holds k pl a)
    (ha' : Holds k pl' a) : pl = pl' := by
  have hrole : pl.role = pl'.role := (h.role_of_holds ha).symm.trans (h.role_of_holds ha')
  cases pl with
  | free i =>
    cases pl' <;> simp only [Place.role, reduceCtorEq] at hrole
    next j =>
    have hi : fl[i]? = some a := (h.mem.freeAt_eq i).symm.trans ha
    have hj : fl[j]? = some a := (h.mem.freeAt_eq j).symm.trans ha'
    rw [getElem?_unique h.mem.nodup hi hj]
  | kstack p | pgdir p | kpgdir | table d i | user d n => cases pl' <;> simp_all [Place.role]
  | detached i =>
    cases pl' <;> simp only [Place.role, reduceCtorEq, Role.dir.injEq] at hrole
    next j => rw [getElem?_unique h.nodup.1 ha ha']
  | pipe f =>
    cases pl' <;> simp only [Place.role, reduceCtorEq, Role.held.injEq] at hrole
    next g =>
    obtain ⟨hf, rfl, hfw⟩ := ha
    obtain ⟨hg, hgp, hgw⟩ := ha'
    -- the write end is open, or both files are the read end
    have hw : (k.file f).writable = (k.file g).writable := by
      have hof := h.files.isOpen f hf
      have hog := h.files.isOpen g hg
      rw [hgp] at hog
      unfold IsOpen at hof hog
      cases hf' : (k.file f).writable <;> cases hg' : (k.file g).writable <;> simp_all
    rw [h.files.inj f g hf hg hgp.symm hw]
  | cpu i =>
    cases pl' <;> simp only [Place.role, reduceCtorEq, Role.held.injEq] at hrole
    next j => rw [getElem?_unique h.nodup.2 ha ha']

theorem Inv.isolated (h : Inv L ok sp sh k ρ fl x) : Isolated k := by
  intro pl pl' a a' ha ha' hne
  have hpage : ∀ {pl a}, Holds k pl a → L.IsPage a := by
    intro pl a ha
    refine h.mem.page a ?_
    rw [h.role_of_holds ha]
    cases pl <;> simp [Place.role]
  refine (hpage ha).disjoint (hpage ha') ?_
  rintro rfl
  exact hne (h.place_unique ha ha')

/-- Every page has a place if none is lost. -/
theorem Inv.placed (h : Inv L ok sp sh k ρ fl x) (hok : ok) (ha : L.IsPage a) :
    ∃ pl, Holds k pl a := by
  have hall := h.all a ha
  have hlost := h.noLost hok a
  -- the directory of a table or of a user page is in use
  have hdir : ∀ {d t}, ρ d = .dir t → IsDir k d := by
    intro d t hd
    have hag := h.agree (.dir t)
    cases t with
    | space p => exact .inl ⟨p, (hag trivial d).mp (view_dir.mpr hd)⟩
    | kernel => exact .inr (.inl ((hag trivial d).mp (view_dir.mpr hd)))
    | detached => exact .inr (.inr ((hag trivial d).mp (view_dir.mpr hd)))
    | lost => exact absurd (view_dir.mpr hd) (h.noLost hok d).2
    | kstack p | cpu | pipe => exact ((hag trivial d).mp (view_dir.mpr hd)).elim
  cases hrole : ρ a with
  | other => exact absurd (view_other.mpr hrole) hall
  | free =>
    obtain ⟨i, hi⟩ := mem_iff_getElem?.mp ((h.mem.free a).mpr hrole)
    exact ⟨.free i, (h.mem.freeAt_eq i).trans hi⟩
  | held t =>
    have hag := h.agree (.page t)
    cases t with
    | kstack p => exact ⟨.kstack p, (hag trivial a).mp (view_page.mpr hrole)⟩
    | cpu =>
      obtain ⟨i, hi⟩ := mem_iff_getElem?.mp ((hag trivial a).mp (view_page.mpr hrole))
      exact ⟨.cpu i, hi⟩
    | pipe =>
      obtain ⟨w, hw⟩ := (hag trivial a).mp (view_page.mpr hrole)
      by_cases hwo : (k.pipe a).writeopen = true
      · obtain ⟨f, h1, h2, h3⟩ := h.files.ends a true hwo
        exact ⟨.pipe f, h1, h2, .inl h3⟩
      · obtain ⟨f, h1, h2, -⟩ := h.files.ends a w hw
        exact ⟨.pipe f, h1, h2, .inr (by simpa using hwo)⟩
    | lost => exact absurd (view_page.mpr hrole) hlost.1
    | space p | kernel | detached => exact ((hag trivial a).mp (view_page.mpr hrole)).elim
  | dir t =>
    rcases hdir hrole with ⟨p, hp⟩ | hk | hdet
    · exact ⟨.pgdir p, hp⟩
    · exact ⟨.kpgdir, hk⟩
    · obtain ⟨i, hi⟩ := mem_iff_getElem?.mp hdet
      exact ⟨.detached i, hi⟩
  | table d i =>
    obtain ⟨⟨t, ht⟩, hi, hp⟩ := h.mem.trees.tabOf a d i hrole
    exact ⟨.table d i, hdir ht, hi, hp⟩
  | user d n =>
    obtain ⟨hn, b, hb, hp⟩ := h.mem.trees.userOf a d n hrole
    obtain ⟨⟨t, ht⟩, -, hpb⟩ := h.mem.trees.tabOf b d _ hb
    exact ⟨.user d n, hdir ht, hn, b, hpb, hp⟩

/-! ## Runs -/

/-- No page is in two places, along every run in which the arguments of `exec`
    fit its stack page. -/
theorem pages_isolated (h : ((system L).restrict fun _ l => Fits l.event).Reachable k) :
    Isolated k := by
  obtain ⟨ρ, fl, hinv⟩ := reachable_inv False False (fun _ _ hC => hC) False.elim False.elim h
  exact hinv.isolated

/-- After the first process made a pipe and forked. -/
theorem pages_isolated_pipeShared : ∃ k0 k p np a,
    ((system smallLayout).restrict fun _ l => Fits l.event).Reachable k0 ∧
    ((system smallLayout).restrict fun _ l => Fits l.event).Run k0 (shareRun p) k ∧
    PipeShared k p np a ∧ Isolated k := by
  obtain ⟨k0, -, k, p, np, a, hreach, -, -, hrun, hs⟩ := exists_pipeShared (L := smallLayout)
    (C := fun _ l => Fits l.event) (fun _ _ => ⟨trivial, trivial, trivial⟩) fun _ _ _ _ => trivial
  exact ⟨k0, k, p, np, a, hreach, hrun, hs, pages_isolated (hreach.run hrun)⟩

instance : Inhabited Tag := ⟨.lost⟩

theorem getElem?_pageRun_reverse {n : Nat} (hi : i < n) (tl : List Nat) :
    ((pageRun a n).reverse ++ tl)[i]? = some (a + 4096 * (n - 1 - i)) := by
  rw [getElem?_append_left (by simpa using hi), getElem?_reverse (by simpa using hi),
    length_pageRun]
  unfold pageRun
  rw [getElem?_map, getElem?_range (by omega)]
  rfl

/-- The calls of the first process that make two free pages overlap. -/
def overrunRun (p : Slot) (d : Nat) : List Label :=
  [⟨.setupkvm, []⟩, ⟨.allocuvm d 0x1000 0x5000, []⟩, ⟨.freevm d, []⟩,
    ⟨.exec p ⟨[], zero_notMem_nil⟩ (some smallFile) [overrunArg], []⟩]

/-- An argument of `exec` that is longer than a page lets `copyout` write into the free list. -/
theorem overrun_overlaps : ∃ k p d k', (system smallLayout).Reachable k ∧
    (system smallLayout).Run k (overrunRun p d) k' ∧ ¬ Isolated k' := by
  obtain ⟨k, p, ρ, fl, ⟨k0, ls, hinit, hrun⟩, h⟩ :=
    exists_firstRuns smallLayout (C := fun _ _ => True) fun _ _ => trivial
  obtain ⟨tl, hfl⟩ := h.free
  have hat : ∀ i < 56252, fl[i]? = some (0x80400000 + 4096 * (56252 - 1 - i)) := by
    intro i hi
    rw [hfl]
    exact getElem?_pageRun_reverse hi tl
  have hlen : 71 ≤ fl.length := by
    rw [hfl, length_append, length_reverse, length_pageRun]
    omega
  obtain ⟨d, s1, s2, s3, X, t, u1, u2, u3, u4, hset, hd0, halloc, hfree, hX, e1,
    et, -, -, e4, hdeny1,
    hdeny2, hdeny3, ρ3, h₃⟩ := recycle h.inv.mem h.deny hlen
  obtain ⟨r, hr⟩ : ∃ r, fl[70]? = some r := ⟨_, hat 70 (by decide)⟩
  have hdrop : fl.drop 70 = r :: fl.drop 71 := by
    obtain ⟨hlt, hget⟩ := List.getElem?_eq_some_iff.mp hr
    rw [List.drop_eq_getElem_cons hlt, hget]
  rw [hdrop] at h₃
  -- the addresses, counted down from the top of memory
  have hu : u1 = t + 4096 ∧ u4 = r + 4096 := by
    rw [hat 65 (by decide)] at e1
    rw [hat 66 (by decide)] at et
    rw [hat 69 (by decide)] at e4
    rw [hat 70 (by decide)] at hr
    simp only [Option.some.injEq] at e1 et e4 hr
    omega
  obtain ⟨s4, hexec, hfree65, hfree70⟩ := exec_overrun h₃ hX hdeny3 hu.1
  refine ⟨k, p, d, { k with phys := s4 }, ⟨k0, ls, hinit, hrun.of_restrict⟩, ?_, ?_⟩
  · have hen : d ∈ d :: k.detached := by simp
    have h1 : step smallLayout k ⟨.setupkvm, []⟩ =
        some { k with phys := s1, detached := d :: k.detached } := by
      refine step_of_ends trivial ?_
      rw [withDeny_nil h.deny]
      refine ends_onPhys_bind.mpr ⟨d, s1, hset, ends_modify.mpr ?_⟩
      rw [if_neg hd0]
    have h2 : step smallLayout { k with phys := s1, detached := d :: k.detached }
        ⟨.allocuvm d 0x1000 0x5000, []⟩ =
        some { k with phys := s2, detached := d :: k.detached } := by
      refine step_of_ends hen ?_
      rw [withDeny_nil hdeny1]
      exact ends_onPhys_bind.mpr ⟨_, s2, halloc, rfl⟩
    have h3 : step smallLayout { k with phys := s2, detached := d :: k.detached }
        ⟨.freevm d, []⟩ = some { k with phys := s3 } := by
      refine step_of_ends hen ?_
      rw [withDeny_nil hdeny2]
      refine ends_onPhys_bind.mpr ⟨(), s3, hfree, ends_modify.mpr ?_⟩
      simp
    have h4 : step smallLayout { k with phys := s3 }
        ⟨.exec p ⟨[], by simp⟩ (some smallFile) [overrunArg], []⟩ =
        some { k with phys := s4 } := by
      refine step_of_ends h.running ?_
      rw [withDeny_nil hdeny3]
      refine ends_bind.mpr ⟨-1, { k with phys := s4 }, ?_, rfl⟩
      exact ends_onPhys_bind.mpr ⟨none, s4, hexec, rfl⟩
    exact .cons h1 (.cons h2 (.cons h3 (.cons h4 (.nil _))))
  · intro hiso
    have := hiso (.free 65) (.free 70) u4 (r + 97) hfree65 hfree70 (by simp)
    omega

/-- The arguments of `exec` fit, and no call is refused a page at a point where it drops others. -/
def NoLeak (k : State) (l : Label) : Prop :=
  Fits l.event ∧ NotTorn (k.withDeny l.deny) l.event

/-- Every page of the allocator is in exactly one place, along every such run. -/
theorem pages_kept (h : ((system L).restrict NoLeak).Reachable k) {a : Nat} (ha : L.IsPage a) :
    ∃! pl, Holds k pl a := by
  obtain ⟨ρ, fl, hinv⟩ := reachable_inv True False (fun _ _ hC => hC.1) (fun _ _ _ hC => hC.2)
    False.elim h
  obtain ⟨pl, hpl⟩ := hinv.placed trivial ha
  exact ⟨pl, hpl, fun pl' hpl' => hinv.place_unique hpl' hpl⟩

/-- A copy of one page that gets all its pages is not refused one. -/
theorem not_copyTorn {s : Phys} (hg : granted (forkNeed PGSIZE) s = true) :
    ¬ copyTorn 1 s PGSIZE := by
  rintro (⟨-, hno⟩ | ⟨i, hi, -⟩)
  · have hneed : forkNeed PGSIZE = 1 + KVMPAGES := rfl
    rw [hneed, hno] at hg
    cases hg
  · simp [pages, PGSIZE] at hi

/-- The page of the pipe, after the first process made it and forked. -/
theorem pages_kept_pipeShared : ∃ k0 k p np a,
    ((system smallLayout).restrict NoLeak).Reachable k0 ∧
    ((system smallLayout).restrict NoLeak).Run k0 (shareRun p) k ∧ PipeShared k p np a ∧
    smallLayout.IsPage a ∧ ∃! pl, Holds k pl a := by
  obtain ⟨k0, -, k, p, np, a, hreach, -, -, hrun, hs⟩ :=
    exists_pipeShared (L := smallLayout) (C := NoLeak)
    (fun _ _ => ⟨⟨trivial, trivial⟩, ⟨trivial, trivial⟩, trivial, trivial⟩)
    fun k p hsz hg => ⟨trivial, fun _ => by
      rw [show ((k.withDeny []).proc p).sz = PGSIZE from hsz]
      exact not_copyTorn hg⟩
  obtain ⟨ρ, fl, hinv⟩ := reachable_inv True False (fun _ _ hC => hC.1) (fun _ _ _ hC => hC.2)
    False.elim (hreach.run hrun)
  have hrole := hinv.pipe (hinv.files.isOpen 0 hs.reads.1)
  have hpage : smallLayout.IsPage a := hs.reads.2 ▸ hinv.mem.isPage hrole (by simp)
  exact ⟨k0, k, p, np, a, hreach, hrun, hs, hpage, pages_kept (hreach.run hrun) hpage⟩

/-- `setupkvm` is refused its second page: the first one, the directory, is in
    no place afterwards. -/
theorem torn_setupkvm_loses : ∃ k k' a, (system smallLayout).Reachable k ∧
    step smallLayout k ⟨.setupkvm, [false, true]⟩ = some k' ∧ smallLayout.IsPage a ∧
    ¬ ∃ pl, Holds k' pl a := by
  obtain ⟨k, p, ρ, fl, ⟨k0, ls, hinit, hrun⟩, h⟩ :=
    exists_firstRuns smallLayout (C := fun _ _ => True) fun _ _ => trivial
  have hinv : Inv smallLayout False False (fun _ => False) (k.withDeny [false, true]) ρ fl
      fun _ => 0 := (h.inv.forget False.elim False.elim fun _ => id).withDeny _
  have hg1 : Grants (k.withDeny [false, true]).phys fl 1 :=
    ⟨(h.grants (n := 1) (by decide)).1, by simp [State.withDeny]⟩
  have hno : ¬ Grants (k.withDeny [false, true]).phys fl KVMPAGES := by
    intro hg
    have := hg.2 true (by show true ∈ take KVMPAGES [false, true]; decide)
    cases this
  obtain ⟨d, s', ρ', fl', hset, hmem, ⟨-, -, -, hg⟩ | ⟨rfl, -, -, a, hlost⟩ | ⟨-, htook, -⟩⟩ :=
    setupkvm_spec Tag.lost hinv.mem
  · exact absurd hg1 hg
  · have hinv' := hinv.lose hmem (.inl ⟨a, hlost⟩) id
    refine ⟨k, { k.withDeny [false, true] with phys := s' }, a, ⟨k0, ls, hinit, hrun.of_restrict⟩,
      step_of_ends trivial ?_, hmem.isPage hlost.dir (by simp), ?_⟩
    · exact ends_onPhys_bind.mpr ⟨0, s', hset, ends_modify.mpr rfl⟩
    · rintro ⟨pl, hpl⟩
      have hrole := hinv'.role_of_holds hpl
      rw [hlost.dir] at hrole
      cases pl <;> simp [Place.role] at hrole
  · exact absurd htook.grants hno

end Xv6.Kernel
