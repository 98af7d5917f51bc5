import Xv6.Proc.Fork

/-! # Specification of `growproc` and `exec`

    Both work on the address space of one process. `growproc` changes it in place; `exec` builds
    another one and frees the old. An address space that `exec` built maps the page numbers from 1
    up to its size, and `growproc` keeps it so unless it frees all of it.
-/

namespace Xv6.Kernel

open Program Mem Function

variable {L : Layout} {ok sp : Prop} {sh sh' : Slot → Prop} {k k' : State} {fl fl' : List Nat}
  {ρ ρ' : Nat → Role Tag} {x : Fin NFILE → Int} {p : Slot} {f : Proc → Proc} {s' : Phys}
  {sz d : Nat} {r : Int}

/-! ## `growproc` -/

theorem live_of_running (hp : (k.proc p).state = .running) : Live k p := by
  unfold Live
  simp [hp]

theorem setProc_id (h : f (k.proc p) = k.proc p) : k.setProc p f = k := by
  unfold State.setProc
  have hproc : Xv6.setProc k.proc p (f (k.proc p)) = k.proc := by
    funext q
    by_cases hq : q = p
    · subst hq
      simp [h]
    · simp [hq]
  rw [hproc]

/-- Work on the address space of one process. -/
theorem Inv.resize (h : Inv L ok sp sh k ρ fl x) (hp : Live k p) (hd : (k.proc p).pgdir ≠ 0)
    (hmem : Mem.Inv L s' ρ' fl' 0) (hloc : Local (k.proc p).pgdir ρ ρ')
    (hsz : 0 < sz ∧ sz < 0x80000000) (hsh : ∀ q, sh' q → sh q)
    (hshape : sh' p → Shape ρ' (k.proc p).pgdir sz) :
    Inv L ok sp sh' ({ k with phys := s' }.setProc p fun y => { y with sz := sz }) ρ' fl' x := by
  have hok := h.procs p
  refine h.slotKeeps hp hmem hloc.views hp rfl rfl
    ⟨hsz.2, hok.running, hok.spaced, fun _ _ => hsz.1, fun hs _ _ => hshape hs⟩
    (fun q hs _ => hsh q hs) (fun q b hq hb => ?_) rfl (h.files.empty p)
  exact hloc.maps (ne_of_role hb (h.space hp hd) (by simpa using hq))

theorem ends_switchuvm {r : Unit} :
    Ends (switchuvm p) k r k' ↔ (k.proc p).pgdir ≠ 0 ∧ k' = k := by
  refine ends_get_bind.trans ?_
  by_cases hd : (k.proc p).pgdir = 0
  · rw [if_pos hd]
    exact ⟨fun he => absurd he not_ends_panic, fun he => absurd hd he.1⟩
  · rw [if_neg hd]
    exact ends_pure.trans ⟨fun he => ⟨hd, he.2.symm⟩, fun he => ⟨rfl, he.2.symm⟩⟩

/-- `growproc(n)` frees the whole address space, and then reports a failure. -/
def FreesAll (k : State) (p : Slot) (n : Int) : Prop :=
  n < 0 ∧ u32 ((k.proc p).sz + toU32 n) = 0

theorem allocuvm_size {oldsz newsz r : Nat} {s : Phys} (he : Ends (allocuvm L d oldsz newsz) s r s')
    (hold : oldsz < 0x80000000) : r < 0x80000000 := by
  by_cases hnew : KERNBASE ≤ newsz
  · rw [(he.unique (allocuvm_refuses hnew)).1]
    decide
  by_cases hlt : newsz < oldsz
  · rwa [(he.unique (allocuvm_keeps hnew hlt)).1]
  · unfold Ends allocuvm at he
    rw [if_neg hnew, if_neg hlt] at he
    simp only [KERNBASE] at hnew
    obtain ⟨b, s1, -, he1⟩ := ends_bind.mp he
    obtain ⟨rfl, -⟩ := ends_pure.mp he1
    split
    · omega
    · decide

/-- Both directions of `growproc` end in the same way: the helper's size is stored unless it is
    zero. -/
theorem ends_grow {f : VM Nat} (hd : (k.proc p).pgdir ≠ 0) :
    Ends (do
      let sz ← onPhys f
      if sz = 0 then return -1
      else do
        modifyProc p fun x => { x with sz := sz }
        switchuvm p
        return 0 : K Int) k r k' ↔
    ∃ sz s', Ends f k.phys sz s' ∧ ((sz = 0 ∧ r = -1 ∧ k' = { k with phys := s' }) ∨
      (sz ≠ 0 ∧ r = 0 ∧
        k' = ({ k with phys := s' } : State).setProc p fun y => { y with sz := sz })) := by
  constructor
  · intro he
    obtain ⟨sz, s', hf, he1⟩ := ends_onPhys_bind.mp he
    refine ⟨sz, s', hf, ?_⟩
    by_cases hz : sz = 0
    · rw [if_pos hz] at he1
      obtain ⟨rfl, rfl⟩ := ends_pure.mp he1
      exact .inl ⟨hz, rfl, rfl⟩
    · rw [if_neg hz] at he1
      have he2 := ends_modifyProc_bind.mp he1
      obtain ⟨_, _, hsw, he3⟩ := ends_bind.mp he2
      obtain ⟨-, rfl⟩ := ends_switchuvm.mp hsw
      obtain ⟨rfl, rfl⟩ := ends_pure.mp he3
      exact .inr ⟨hz, rfl, rfl⟩
  · rintro ⟨sz, s', hf, hres⟩
    refine ends_onPhys_bind.mpr ⟨sz, s', hf, ?_⟩
    rcases hres with ⟨hz, rfl, rfl⟩ | ⟨hne, rfl, rfl⟩
    · rw [if_pos hz]
      rfl
    · rw [if_neg hne]
      refine ends_bind.mpr ⟨(), _, ends_modifyProc.mpr rfl, ends_bind.mpr ⟨(), _, ?_, rfl⟩⟩
      refine ends_switchuvm.mpr ⟨?_, rfl⟩
      rwa [setProc_proc_self]

/-- What `growproc` does to a process that has an address space. -/
theorem ends_growproc_iff {n : Int} (hd : (k.proc p).pgdir ≠ 0) :
    Ends (growproc L p n) k r k' ↔ (n = 0 ∧ r = 0 ∧ k' = k) ∨ ∃ sz s',
      ((0 < n ∧ Ends (allocuvm L (k.proc p).pgdir (k.proc p).sz
          (u32 ((k.proc p).sz + toU32 n))) k.phys sz s') ∨
        (n < 0 ∧ Ends (deallocuvm L (k.proc p).pgdir (k.proc p).sz
          (u32 ((k.proc p).sz + toU32 n))) k.phys sz s')) ∧
      ((sz = 0 ∧ r = -1 ∧ k' = { k with phys := s' }) ∨
        (sz ≠ 0 ∧ r = 0 ∧
          k' = ({ k with phys := s' } : State).setProc p fun y => { y with sz := sz })) := by
  refine ends_get_bind.trans ?_
  dsimp only
  rcases Int.lt_trichotomy n 0 with hn | rfl | hn
  · rw [if_neg (by omega), if_pos hn, ends_grow hd]
    simp [hn, hn.ne, hn.not_gt]
  · rw [if_neg (by omega), if_neg (by omega), ends_bind]
    simp [ends_switchuvm, ends_pure, hd, eq_comm (a := r), eq_comm (a := k')]
  · rw [if_pos hn, ends_grow hd]
    simp [hn, hn.ne', hn.not_gt]

/-- `growproc` keeps a shaped address space shaped, unless it frees all of it. -/
theorem growproc_spec {n : Int} (h : Inv L ok sp sh k ρ fl x) (hp : (k.proc p).state = .running)
    (he : Ends (growproc L p n) k r k') :
    ∃ ρ' fl', Inv L ok sp (fun q => sh q ∧ ¬ (q = p ∧ FreesAll k p n)) k' ρ' fl' x := by
  have hl := live_of_running hp
  have hd := (h.procs p).running hp
  have hrole := h.space hl hd
  have hpos := (h.procs p).pos hl hd
  have hsize := (h.procs p).size
  have hsub : ∀ q, (sh q ∧ ¬ (q = p ∧ FreesAll k p n)) → sh q := fun q hq => hq.1
  -- a change of memory that leaves the size as it is
  have hstay : ∀ {s' ρ' fl'}, Mem.Inv L s' ρ' fl' 0 → Local (k.proc p).pgdir ρ ρ' →
      ((sh p ∧ ¬ FreesAll k p n) → Shape ρ' (k.proc p).pgdir (k.proc p).sz) →
      Inv L ok sp (fun q => sh q ∧ ¬ (q = p ∧ FreesAll k p n)) { k with phys := s' } ρ' fl' x := by
    intro s' ρ' fl' hmem hloc hshape
    have := h.resize hl hd hmem hloc ⟨hpos, hsize⟩ hsub fun hs =>
      hshape ⟨hs.1, fun hf => hs.2 ⟨rfl, hf⟩⟩
    rwa [setProc_id (k := { k with phys := s' }) rfl] at this
  rcases (ends_growproc_iff hd).mp he with
    ⟨-, -, rfl⟩ | ⟨sz, s', ⟨-, halloc⟩ | ⟨hn, hdealloc⟩, hend⟩
  · exact ⟨ρ, fl, hstay h.mem (.refl _ ρ) fun hc => (h.procs p).shape hc.1 hl hd⟩
  · have hlt := allocuvm_size halloc hsize
    by_cases hs : sh p
    · obtain ⟨ρ', fl', hmem, ⟨hloc, -⟩, hres⟩ :=
        ((h.procs p).shape hs hl hd).allocuvm h.mem hrole ⟨hpos, hsize⟩ halloc
      refine ⟨ρ', fl', ?_⟩
      rcases hend with ⟨rfl, -, rfl⟩ | ⟨hne, -, rfl⟩
      · rcases hres with ⟨-, hshape⟩ | ⟨hne, -⟩
        · exact hstay hmem hloc fun _ => hshape
        · exact absurd rfl hne
      · rcases hres with ⟨hz, -⟩ | ⟨-, -, -, hshape⟩
        · exact absurd hz hne
        · exact h.resize hl hd hmem hloc ⟨by omega, hlt⟩ hsub fun _ => hshape
    · obtain ⟨ρ', fl', hmem, hloc⟩ := allocuvm_local h.mem hrole halloc
      refine ⟨ρ', fl', ?_⟩
      rcases hend with ⟨-, -, rfl⟩ | ⟨hne, -, rfl⟩
      · exact hstay hmem hloc fun hc => absurd hc.1 hs
      · exact h.resize hl hd hmem hloc ⟨by omega, hlt⟩ hsub fun hc => absurd hc.1 hs
  · by_cases hs : sh p ∧ ¬ FreesAll k p n
    · have hnew : 0 < u32 ((k.proc p).sz + toU32 n) :=
        Nat.pos_of_ne_zero fun hz => hs.2 ⟨hn, hz⟩
      obtain ⟨ρ', fl', hmem, hloc, hmin, hshape⟩ :=
        ((h.procs p).shape hs.1 hl hd).deallocuvm h.mem hrole hsize hnew hdealloc
      refine ⟨ρ', fl', ?_⟩
      rcases hend with ⟨rfl, -, rfl⟩ | ⟨hne, -, rfl⟩
      · omega
      · exact h.resize hl hd hmem hloc ⟨by omega, by omega⟩ hsub fun _ => hshape
    · obtain ⟨r', s1, ρ', fl', he', hmem, hloc⟩ :=
        deallocuvm_local (k.proc p).sz (u32 ((k.proc p).sz + toU32 n)) h.mem hrole (by omega)
      obtain ⟨rfl, rfl⟩ := hdealloc.unique he'
      have hle : sz ≤ (k.proc p).sz := by
        unfold Ends deallocuvm at hdealloc
        split at hdealloc
        · obtain ⟨rfl, -⟩ := ends_pure.mp hdealloc
          exact le_rfl
        · obtain ⟨_, _, -, hpure⟩ := ends_bind.mp hdealloc
          obtain ⟨rfl, -⟩ := ends_pure.mp hpure
          omega
      refine ⟨ρ', fl', ?_⟩
      rcases hend with ⟨-, -, rfl⟩ | ⟨hne, -, rfl⟩
      · exact hstay hmem hloc fun hc => absurd hc hs
      · exact h.resize hl hd hmem hloc ⟨by omega, by omega⟩ hsub
          fun hc => absurd ⟨hc.1, fun hf => hc.2 ⟨rfl, hf⟩⟩ hs

/-! ## `exec` -/

/-- A process moves to a new address space, and the old one is freed. -/
theorem Inv.swapSpace (h : Inv L ok sp sh k ρ fl x) (hp : (k.proc p).state = .running)
    (hspace : NewSpace ρ d (.space p) ρ') (hd : d ≠ 0)
    (hmem : Mem.Inv L s' (dropTree ρ' (k.proc p).pgdir) fl' 0)
    (hst : (f (k.proc p)).state = .running) (hks : (f (k.proc p)).kstack = (k.proc p).kstack)
    (hpg : (f (k.proc p)).pgdir = d) (hof : (f (k.proc p)).ofile = (k.proc p).ofile)
    (hsz : 0 < (f (k.proc p)).sz ∧ (f (k.proc p)).sz < 0x80000000)
    (hshape : Shape ρ' d (f (k.proc p)).sz) :
    Inv L ok sp (fun q => sh q ∨ q = p) ({ k with phys := s' }.setProc p f)
      (dropTree ρ' (k.proc p).pgdir) fl' x := by
  have hl := live_of_running hp
  have hold := (h.procs p).running hp
  have hrole := h.space hl hold
  have hne : d ≠ (k.proc p).pgdir := (ne_of_role hrole hspace.was (by simp)).symm
  have hrole' : ρ' (k.proc p).pgdir = .dir (.space p) := by
    rw [hspace.role (by simp [hrole])]
    exact hrole
  have hviews : views (dropTree ρ' (k.proc p).pgdir) =
      Function.update (Function.update (views ρ) d (.dir (.space p))) (k.proc p).pgdir .loose := by
    rw [views_dropTree hrole', hspace.views]
  have hloose := views_free hspace.was
  have hmine : views ρ (k.proc p).pgdir = .dir (.space p) := view_dir.mpr hrole
  have hused : (f (k.proc p)).state ≠ .unused := by simp [hst]
  refine h.slot hmem ?_ (fun b => ?_) (fun b => ?_) ?_ (fun q hs hq => hs.resolve_right hq)
    (fun q b hq hb m => ?_) hof fun hc => absurd hc (by simp [Closed, hst])
  · rw [hviews]
    refine Moved.update (Moved.update (fun _ => .inl rfl) (.inl hloose) (.inr (.inr rfl))) ?_
      (.inl rfl)
    rw [update_of_ne hne.symm, hmine]
    exact .inr (.inr rfl)
  · rw [hviews, hks]
    refine Iff.trans ?_ (h.kstack_iff.trans
      (and_congr_left fun _ => ⟨fun _ => hused, fun _ => hl⟩))
    by_cases hb : b = (k.proc p).pgdir
    · simp [hb, hmine]
    · by_cases hbd : b = d
      · simp [hbd, hne, hloose]
      · rw [update_of_ne hb, update_of_ne hbd]
  · rw [hviews, hpg]
    by_cases hb : b = (k.proc p).pgdir
    · simp [hb, hne]
    · by_cases hbd : b = d
      · simp [hbd, hne, hd, hused]
      · rw [update_of_ne hb, update_of_ne hbd, h.space_iff]
        exact ⟨fun hc => absurd hc.2.1.symm hb, fun hc => absurd hc.2.1.symm hbd⟩
  · refine ⟨hsz.2, fun _ => by rw [hpg]; exact hd, fun _ _ => by rw [hpg]; exact hd,
      fun _ _ => hsz.1, fun _ _ _ m => ?_⟩
    rw [hpg, dropTree_maps hne hrole']
    exact hshape m
  · rw [dropTree_maps (ne_of_role hb hrole (by simpa using hq)) hrole',
      hspace.maps (ne_of_role hb hspace.was (by simp))]

/-- The address space that `exec` replaces is untouched while the new one is built. -/
theorem Inv.oldSpace (h : Inv L ok sp sh k ρ fl x) (hp : (k.proc p).state = .running)
    (hspace : NewSpace ρ d (.space p) ρ') : ρ' (k.proc p).pgdir = .dir (.space p) := by
  have hrole := h.space (live_of_running hp) ((h.procs p).running hp)
  rw [hspace.role (by simp [hrole])]
  exact hrole

theorem ends_commitImage {path : CStr} {img : Image} :
    Ends (commitImage L p path img) k r k' ↔ img.pgdir ≠ 0 ∧ ∃ s',
      Ends (freevm L (k.proc p).pgdir) k.phys () s' ∧ r = 0 ∧
        k' = { k with phys := s' }.setProc p (setImage path img) := by
  refine ends_get_bind.trans (ends_modifyProc_bind.trans ?_)
  rw [ends_bind]
  constructor
  · rintro ⟨_, _, hsw, he⟩
    obtain ⟨hd, rfl⟩ := ends_switchuvm.mp hsw
    obtain ⟨_, s', hfree, he1⟩ := ends_onPhys_bind.mp he
    obtain ⟨rfl, rfl⟩ := ends_pure.mp he1
    rw [setProc_proc_self] at hd
    exact ⟨hd, s', hfree, rfl, rfl⟩
  · rintro ⟨hd, s', hfree, rfl, rfl⟩
    refine ⟨(), _, ends_switchuvm.mpr ⟨?_, rfl⟩, ends_onPhys_bind.mpr ⟨(), s', hfree, rfl⟩⟩
    rwa [setProc_proc_self]

/-- `exec` keeps the invariant; the new image is shaped. -/
theorem exec_spec {path : CStr} {ip : Option Content} {argv : List CStr}
    (h : Inv L ok sp sh k ρ fl x) (hp : (k.proc p).state = .running) (hfits : FitsStack 0 argv)
    (hok : ok → ∀ f, ip = some f → IsElf f → ¬ SetupTorn k.phys fl)
    (he : Ends (exec L p path ip argv) k r k') :
    ∃ ρ' fl', Inv L ok sp (fun q => sh q ∨ (q = p ∧ r = 0)) k' ρ' fl' x := by
  have hwiden : ∀ {k ρ fl}, Inv L ok sp sh k ρ fl x → r ≠ 0 →
      Inv L ok sp (fun q => sh q ∨ (q = p ∧ r = 0)) k ρ fl x := by
    intro k ρ fl h hr
    have hsh : (fun q => sh q ∨ (q = p ∧ r = 0)) = sh := by
      funext q
      simp [hr]
    rwa [hsh]
  cases ip with
  | none =>
    obtain ⟨rfl, rfl⟩ := ends_pure.mp he
    exact ⟨ρ, fl, hwiden h (by decide)⟩
  | some ip =>
    obtain ⟨img, s1, hbuild, he1⟩ := ends_onPhys_bind.mp he
    obtain ⟨ρ1, fl1, hmem1, hres⟩ := buildImage_spec (.space p) .lost h.mem hfits hbuild
    rcases hres with ⟨rfl, hlost⟩ | ⟨img, rfl, hspace, hsz, hlt, hshape⟩
    · -- `bad`
      obtain ⟨rfl, rfl⟩ := ends_pure.mp he1
      rcases hlost with rfl | ⟨htorn, hlost⟩
      · exact ⟨ρ1, fl1, hwiden (h.phys hmem1) (by decide)⟩
      · exact ⟨ρ1, fl1, hwiden (h.lose hmem1 hlost fun ho => hok ho ip rfl htorn.1 htorn.2)
          (by decide)⟩
    · obtain ⟨hd, s2, hfree, rfl, rfl⟩ := ends_commitImage.mp he1
      obtain ⟨s2', ns, us, hfree', hmem2, -⟩ := freevm_spec hmem1 (h.oldSpace hp hspace)
      obtain ⟨-, rfl⟩ := hfree.unique hfree'
      have hsh : (fun q => sh q ∨ (q = p ∧ (0 : Int) = 0)) = fun q => sh q ∨ q = p := by
        funext q
        simp
      rw [hsh]
      exact ⟨_, _, h.swapSpace hp hspace hd hmem2 hp rfl rfl rfl ⟨by show 0 < img.sz; omega, hlt⟩
        hshape⟩

end Xv6.Kernel
