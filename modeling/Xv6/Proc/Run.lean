import Xv6.Proc.Exit

/-! # Every call keeps the invariant

    The step lemma of the kernel, from the specifications of the calls. Two conditions on a step
    appear in it. The arguments of `exec` have to fit its stack page, or `copyout` writes into a
    page that it does not own. No page is lost unless a call is refused a page at a point where it
    does not give back what it took.
-/

namespace Xv6.Kernel

open Program Mem

variable {L : Layout} {ok sp : Prop} {sh sh' : Slot → Prop} {k k' : State} {fl fl' : List Nat}
  {ρ ρ' : Nat → Role Tag} {x : Fin NFILE → Int} {p : Slot} {d n sz : Nat} {s' s : Phys} {r : Unit}
  {l : Label}

/-! ## Directories that no process has -/

section

variable (h : Inv L ok sp sh k ρ fl x)
include h

theorem Inv.weaken (hsh : ∀ q, sh' q → sh q) : Inv L ok sp sh' k ρ fl x :=
  ⟨h.mem, h.all, h.agree, h.noLost, h.nodup, fun q => (h.procs q).weaken (hsh q), h.files⟩

/-- Nothing is asked of the address space of a free slot. -/
theorem Inv.fresh : Inv L ok sp (fun q => sh q ∨ (k.proc q).state = .unused) k ρ fl x := by
  refine ⟨h.mem, h.all, h.agree, h.noLost, h.nodup, fun q => ?_, h.files⟩
  have hq := h.procs q
  refine ⟨hq.size, hq.running, hq.spaced, hq.pos, fun hs hl => ?_⟩
  exact hq.shape (hs.resolve_right hl) hl

theorem Inv.detached (hd : d ∈ k.detached) : ρ d = .dir .detached :=
  view_dir.mp ((h.agree (.dir .detached) trivial d).mpr hd)

theorem Inv.onDetached (hd : d ∈ k.detached) (hmem : Mem.Inv L s' ρ' fl' 0) (hloc : Local d ρ ρ') :
    Inv L ok sp sh { k with phys := s' } ρ' fl' x := by
  refine h.remap hmem hloc.views (h.agree.frame fun _ _ _ =>
    Same.claims ⟨rfl, rfl, rfl, fun _ => .refl _⟩ fun _ => rfl) h.nodup (fun q => ?_)
    (h.files.congr rfl rfl fun _ => ⟨id, rfl⟩)
  exact (h.procs q).maps fun hl hq =>
    hloc.maps (ne_of_role (h.space hl hq) (h.detached hd) (by simp))

theorem Inv.keep (hspace : NewSpace ρ d .detached ρ') (hmem : Mem.Inv L s' ρ' fl' 0) :
    Inv L ok sp sh { k with phys := s', detached := d :: k.detached } ρ' fl' x := by
  have hnot : d ∉ k.detached := by
    intro hd
    have := h.detached hd
    rw [hspace.was] at this
    cases this
  refine h.update hmem hspace.views (by simp) (fun _ => by simp) ?_ ⟨List.nodup_cons.mpr ⟨hnot,
    h.nodup.1⟩, h.nodup.2⟩ (fun q => ?_) (h.files.congr rfl rfl fun _ => ⟨id, rfl⟩)
  · refine h.agree.take (views_free hspace.was) (by show d ∈ d :: _; simp) fun w b hw hwb => ?_
    unfold Claims
    split <;> first | rfl | simp [hwb rfl]
  · exact (h.procs q).maps fun hl hq =>
      hspace.maps (ne_of_role (h.space hl hq) hspace.was (by simp))

theorem Inv.drop (hd : d ∈ k.detached) (hmem : Mem.Inv L s' (dropTree ρ d) fl' 0) :
    Inv L ok sp sh { k with phys := s', detached := k.detached.erase d } (dropTree ρ d) fl' x := by
  have hrole := h.detached hd
  refine h.update hmem (views_dropTree hrole) (by simp) (fun _ => by simp) ?_
    ⟨h.nodup.1.erase d, h.nodup.2⟩ (fun q => ?_) (h.files.congr rfl rfl fun _ => ⟨id, rfl⟩)
  · refine h.agree.give (view_dir.mpr hrole) h.nodup.1.not_mem_erase fun w b hw hwb => ?_
    unfold Claims
    split <;> first | rfl | exact List.mem_erase_of_ne (hwb rfl)
  · exact (h.procs q).maps fun hl hq =>
      dropTree_maps (ne_of_role (h.space hl hq) hrole (by simp)) hrole

end

/-! ## Conditions on a step -/

/-- The arguments of `exec` fit its stack page. -/
def Fits : Event → Prop
  | .exec _ _ _ argv => FitsStack 0 argv
  | _ => True

/-- After `n` pages, `setupkvm` gets a directory and is refused a table. -/
def setupTorn (n : Nat) (s : Phys) : Prop :=
  granted (n + 1) s = true ∧ granted (n + KVMPAGES) s = false

/-- After `n` pages, `copyuvm` is refused a page in `setupkvm`, or a table for
    a page that it got. -/
def copyTorn (n : Nat) (s : Phys) (sz : Nat) : Prop :=
  setupTorn n s ∨ ∃ i < pages sz - 1, granted (n + (KVMPAGES + copyNeed i + 1)) s = true ∧
    granted (n + (KVMPAGES + copyNeed (i + 1))) s = false

/-- The call is not refused a page at a point where it drops others. -/
def NotTorn (k : State) : Event → Prop
  | .setupkvm => ¬ setupTorn 0 k.phys
  | .copyuvm _ sz => ¬ copyTorn 0 k.phys sz
  | .fork p => freeSlot k ≠ none → ¬ copyTorn 1 k.phys (k.proc p).sz
  | .exec _ _ ip _ => ∀ f, ip = some f → IsElf f → ¬ setupTorn 0 k.phys
  | _ => True

/-- If `fork` gets a stack, it gets all the pages that it needs. -/
def Copies (k : State) (e : Event) : Prop :=
  ∀ p, e = .fork p → freeSlot k ≠ none → granted 1 k.phys = true →
    granted (forkNeed (k.proc p).sz) k.phys = true

theorem granted_false (h : Mem.Inv L s ρ fl 0) : granted n s = false ↔ ¬ Grants s fl n := by
  rw [← h.granted_iff, Bool.not_eq_true]

theorem setupTorn_iff (h : Mem.Inv L s ρ fl 0) : setupTorn 0 s ↔ SetupTorn s fl := by
  unfold setupTorn SetupTorn
  rw [h.granted_iff, granted_false h, zero_add, zero_add]

/-- The refusal, seen after `n` pages were taken. -/
theorem copyTorn_iff {s1 : Phys} {fl1 : List Nat} (h : Mem.Inv L s ρ fl 0)
    (htook : Took s fl s1 fl1 n) : copyTorn n s sz ↔ CopyTorn s1 fl1 sz := by
  unfold copyTorn CopyTorn setupTorn
  simp only [h.granted_iff, granted_false h, grants_add htook]

/-! ## The step lemma -/

/-- In this step `q` calls `exec` with success. -/
def Execs (L : Layout) (k : State) (l : Label) (q : Slot) : Prop :=
  ∃ path ip argv k', l.event = .exec q path ip argv ∧
    Ends (exec L q path ip argv) (k.withDeny l.deny) 0 k'

/-- In this step `q` gives all its memory back with `growproc`. -/
def Frees (k : State) (l : Label) (q : Slot) : Prop :=
  ∃ n, l.event = .growproc q n ∧ FreesAll k q n

theorem ends_discard {α : Type} {y : K α} (he : Ends (do let _ ← y) k r k') :
    ∃ a, Ends y k a k' := by
  obtain ⟨a, k1, hy, hp⟩ := ends_bind.mp he
  obtain ⟨-, rfl⟩ := ends_pure.mp hp
  exact ⟨a, hy⟩

theorem ends_of_step (hs : step L k l = some k') :
    Enabled k l.event ∧ Ends (perform L l.event) (k.withDeny l.deny) () k' := by
  unfold step at hs
  by_cases hen : Enabled k l.event
  · rw [if_pos hen] at hs
    refine ⟨hen, ?_⟩
    unfold Ends
    split at hs
    · next r k1 hr =>
      cases hs
      exact hr
    · cases hs
  · rw [if_neg hen] at hs
    cases hs

theorem setupkvm_keep (h : Inv L ok sp sh k ρ fl x) (hok : ok → ¬ setupTorn 0 k.phys)
    (he : Ends (do keepDir (← onPhys (setupkvm L))) k r k') :
    ∃ ρ' fl', Inv L ok sp sh k' ρ' fl' x := by
  obtain ⟨d, s', hset, hkeep⟩ := ends_onPhys_bind.mp he
  obtain rfl := ends_modify.mp hkeep
  -- the tag of the new pages depends on how the call ends
  by_cases hg : Grants k.phys fl KVMPAGES
  · obtain ⟨d', s1, ρ1, fl1, hset', hmem, ⟨-, -, -, hno⟩ | ⟨-, -, hno, -⟩ | ⟨hd, -, hnew, -⟩⟩ :=
      setupkvm_spec .detached h.mem
    · exact absurd (hg.mono (by decide)) hno
    · exact absurd hg hno
    · obtain ⟨rfl, rfl⟩ := hset.unique hset'
      rw [if_neg hd]
      exact ⟨ρ1, fl1, h.keep hnew.newSpace hmem⟩
  · obtain ⟨d', s1, ρ1, fl1, hset', hmem, ⟨rfl, rfl, rfl, -⟩ |
      ⟨rfl, hg1, -, hlost⟩ | ⟨-, htook, -⟩⟩ :=
      setupkvm_spec .lost h.mem
    · obtain ⟨rfl, rfl⟩ := hset.unique hset'
      exact ⟨_, _, h.phys hmem⟩
    · obtain ⟨rfl, rfl⟩ := hset.unique hset'
      refine ⟨_, _, h.lose hmem (.inl hlost) fun ho => hok ho ?_⟩
      exact (setupTorn_iff h.mem).mpr ⟨hg1, hg⟩
    · exact absurd htook.grants hg

theorem copyuvm_keep (h : Inv L ok sp sh k ρ fl x) (hd : d ∈ k.detached) (hsz : sz ≤ KERNBASE)
    (hok : ok → ¬ copyTorn 0 k.phys sz)
    (he : Ends (do keepDir (← onPhys (copyuvm L d sz))) k r k') :
    ∃ ρ' fl', Inv L ok sp sh k' ρ' fl' x := by
  obtain ⟨d1, s', hcopy, hkeep⟩ := ends_onPhys_bind.mp he
  obtain rfl := ends_modify.mp hkeep
  obtain ⟨d2, s1, ρ1, fl1, hcopy', hmem, hres⟩ := copyuvm_spec .detached .lost h.mem
    (h.detached hd) hsz (.inr ⟨_, _, hcopy⟩)
  obtain ⟨rfl, rfl⟩ := hcopy.unique hcopy'
  rcases hres with ⟨hne, hspace, -⟩ | ⟨rfl, -, rfl | ⟨htorn, hlost⟩⟩
  · rw [if_neg hne]
    exact ⟨ρ1, fl1, h.keep hspace hmem⟩
  · refine ⟨ρ1, fl1, ?_⟩
    exact h.phys hmem
  · refine ⟨ρ1, fl1, h.lose hmem hlost fun ho => hok ho ?_⟩
    exact (copyTorn_iff h.mem (Took.zero rfl)).mpr htorn

theorem freevm_drop (h : Inv L ok sp sh k ρ fl x) (hd : d ∈ k.detached)
    (he : Ends (do
      onPhys (freevm L d)
      modify fun k => { k with detached := k.detached.erase d }) k r k') :
    ∃ ρ' fl', Inv L ok sp sh k' ρ' fl' x := by
  obtain ⟨_, s', hfree, hm⟩ := ends_onPhys_bind.mp he
  obtain rfl := ends_modify.mp hm
  obtain ⟨s1, ns, us, hfree', hmem, -⟩ := freevm_spec h.mem (h.detached hd)
  obtain ⟨-, rfl⟩ := hfree.unique hfree'
  exact ⟨_, _, h.drop hd hmem⟩

/-- One call. -/
theorem perform_inv {e : Event} (h : Inv L ok sp sh k ρ fl fun _ => 0) (hen : Enabled k e)
    (hfits : Fits e) (hok : ok → NotTorn k e) (hsp : sp → Copies k e)
    (he : Ends (perform L e) k r k') (hexec : ∀ p path ip argv, e ≠ .exec p path ip argv)
    (hgrow : ∀ p n, e ≠ .growproc p n) : ∃ ρ' fl', Inv L ok sp sh k' ρ' fl' fun _ => 0 := by
  cases e with
  | setupkvm => exact setupkvm_keep h hok he
  | allocuvm d oldsz newsz =>
    obtain ⟨a, he⟩ := ends_discard he
    obtain ⟨s', halloc, rfl⟩ := ends_onPhys.mp he
    obtain ⟨ρ', fl', hmem, hloc⟩ := allocuvm_local h.mem (h.detached hen) halloc
    exact ⟨ρ', fl', h.onDetached hen hmem hloc⟩
  | deallocuvm d oldsz newsz =>
    obtain ⟨a, he⟩ := ends_discard he
    obtain ⟨s', hdealloc, rfl⟩ := ends_onPhys.mp he
    obtain ⟨r', s1, ρ', fl', he', hmem, hloc⟩ :=
      deallocuvm_local oldsz newsz h.mem (h.detached hen.1) hen.2
    obtain ⟨-, rfl⟩ := hdealloc.unique he'
    exact ⟨ρ', fl', h.onDetached hen.1 hmem hloc⟩
  | copyuvm d sz => exact copyuvm_keep h hen.1 hen.2 hok he
  | freevm d => exact freevm_drop h hen he
  | dispatch p => exact ⟨ρ, fl, dispatch_spec h hen he⟩
  | yield p => exact ⟨ρ, fl, yield_spec h hen he⟩
  | sleep p chan => exact ⟨ρ, fl, sleep_spec h hen.1 he⟩
  | wakeup chan => exact ⟨ρ, fl, (wakeup1_inv h he).1⟩
  | kill pid =>
    obtain ⟨a, he⟩ := ends_discard he
    exact ⟨ρ, fl, kill_spec h he⟩
  | fork p =>
    obtain ⟨a, he⟩ := ends_discard he
    obtain ⟨a', k1, ρ', fl', he', hinv, -⟩ := fork_spec h (fun _ => le_rfl) hen
      (fun ho hslot s1 fl1 htook htorn => hok ho hslot ((copyTorn_iff h.mem htook).mpr htorn))
      (fun hs hslot hg => (h.mem.granted_iff).mp (hsp hs p rfl hslot ((h.mem.granted_iff).mpr hg)))
      (.inr (.inr (.inr ⟨a, k', he⟩)))
    obtain ⟨-, rfl⟩ := he.unique he'
    exact ⟨ρ', fl', hinv⟩
  | exec p path ip argv => exact absurd rfl (hexec p path ip argv)
  | growproc p n => exact absurd rfl (hgrow p n)
  | exit p => exact exit_spec h hen he
  | wait p =>
    obtain ⟨a, he⟩ := ends_discard he
    exact wait_spec h hen he
  | open_ p ip rd wr =>
    obtain ⟨a, he⟩ := ends_discard he
    obtain ⟨ρ', fl', h', -⟩ := sys_open_spec h (not_closed hen) he
    exact ⟨ρ', fl', h'⟩
  | pipe p =>
    obtain ⟨a, he⟩ := ends_discard he
    obtain ⟨ρ', fl', h', -⟩ := sys_pipe_spec h hen he
    exact ⟨ρ', fl', h'⟩
  | close p fd =>
    obtain ⟨a, he⟩ := ends_discard he
    obtain ⟨ρ', fl', h', -⟩ := sys_close_spec h (not_closed hen) he
    exact ⟨ρ', fl', h'⟩
  | dup p fd =>
    obtain ⟨a, he⟩ := ends_discard he
    exact ⟨ρ, fl, (sys_dup_spec h (not_closed hen) he).1⟩

/-- The step lemma. A successful `exec` makes a process shaped; it stays so until it gives all its
    memory back. -/
theorem step_inv (h : Inv L ok sp sh k ρ fl fun _ => 0) (hs : step L k l = some k')
    (hfits : Fits l.event) (hok : ok → NotTorn (k.withDeny l.deny) l.event)
    (hsp : sp → Copies (k.withDeny l.deny) l.event) :
    ∃ ρ' fl', Inv L ok sp (fun q => (sh q ∨ Execs L k l q) ∧ ¬ Frees k l q) k' ρ'
      fl' fun _ => 0 := by
  obtain ⟨hen, he⟩ := ends_of_step hs
  have h0 := h.withDeny l.deny
  by_cases hexec : ∃ p path ip argv, l.event = .exec p path ip argv
  · obtain ⟨p, path, ip, argv, hev⟩ := hexec
    rw [hev] at hen hfits hok he
    obtain ⟨a, he⟩ := ends_discard he
    obtain ⟨ρ', fl', hinv⟩ := exec_spec h0 hen hfits
      (fun ho f hf helf htorn => hok ho f hf helf ((setupTorn_iff h0.mem).mpr htorn)) he
    refine ⟨ρ', fl', hinv.weaken fun q hq => hq.1.imp_right ?_⟩
    rintro ⟨path', ip', argv', k1, hev', he'⟩
    rw [hev] at hev'
    cases hev'
    exact ⟨rfl, (he.unique he').1⟩
  by_cases hgrow : ∃ p n, l.event = .growproc p n
  · obtain ⟨p, n, hev⟩ := hgrow
    rw [hev] at hen he
    obtain ⟨a, he⟩ := ends_discard he
    obtain ⟨ρ', fl', hinv⟩ := growproc_spec h0 hen he
    refine ⟨ρ', fl', hinv.weaken fun q hq => ⟨hq.1.resolve_right ?_, fun hc => hq.2 ?_⟩⟩
    · rintro ⟨path', ip', argv', k1, hev', -⟩
      rw [hev] at hev'
      cases hev'
    · obtain ⟨rfl, hf⟩ := hc
      exact ⟨n, hev, hf⟩
  obtain ⟨ρ', fl', hinv⟩ := perform_inv h0 (by cases hl : l.event <;> rw [hl] at hen <;> exact hen)
    hfits hok hsp he (fun p path ip argv hev => hexec ⟨p, path, ip, argv, hev⟩)
    fun p n hev => hgrow ⟨p, n, hev⟩
  refine ⟨ρ', fl', hinv.weaken fun q hq => hq.1.resolve_right ?_⟩
  rintro ⟨path', ip', argv', k1, hev', -⟩
  exact hexec ⟨q, path', ip', argv', hev'⟩

end Xv6.Kernel
