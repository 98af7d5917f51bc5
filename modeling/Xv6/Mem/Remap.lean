import Xv6.Mem.BuildImage

/-! # `exec` maps no page twice

    `mappages` panics when it finds an entry present. In `exec` it is called by `setupkvm` on an
    empty directory and by `allocuvm` above the size that was reached; the other functions map
    nothing.
-/

namespace Xv6.Mem

open ByteMem Program

variable {τ : Type} {L : Layout} {s s' : Phys} {ρ ρ' : Nat → Role τ} {fl : List Nat} {d : Nat}
  {t : τ} {ip : Content} {argv : List CStr}

/-- The panic of `mappages`. -/
abbrev remap : Halt := .panic "remap"

/-! ## Functions that map nothing -/

theorem avoids_load32 (a : Nat) : Avoids remap (load32 a) :=
  Total.avoids fun _ => ⟨_, _, rfl⟩

theorem avoids_store32 (a v : Nat) : Avoids remap (store32 a v) :=
  Total.avoids fun _ => ⟨_, _, rfl⟩

theorem avoids_memmove (a : Nat) (src : ByteMem.Mem) (from_ n : Nat) :
    Avoids remap (memmove a src from_ n) :=
  Total.avoids fun _ => ⟨_, _, rfl⟩

theorem avoids_walkpgdir (va : Nat) : Avoids remap (walkpgdir d va false) := by
  unfold walkpgdir
  refine (avoids_load32 _).bind fun pde => ?_
  exact (avoids_pure _).ite (avoids_pure _)

theorem avoids_kfree (v : Nat) : Avoids remap (kfree L v) := by
  unfold kfree
  refine (avoids_throw (by simp)).ite ?_
  refine Total.avoids fun _ => ⟨_, _, rfl⟩

theorem avoids_loadFrom (addr : Nat) (ip : Content) (offset sz k : Nat) :
    ∀ i, Avoids remap (loadFrom d addr ip offset sz k i) := by
  induction k with
  | zero => exact fun i => avoids_throw (by simp)
  | succ k ih =>
    intro i
    unfold loadFrom
    refine Avoids.ite ((avoids_walkpgdir _).bind fun pte => ?_) (avoids_pure _)
    cases pte with
    | none => exact avoids_throw (by simp)
    | some pte =>
      refine (avoids_load32 _).bind fun e => (avoids_memmove _ _ _ _).bind fun _ => ?_
      exact (avoids_pure _).ite (ih _)

theorem avoids_loaduvm (addr : Nat) (ip : Content) (offset sz : Nat) :
    Avoids remap (loaduvm d addr ip offset sz) :=
  (avoids_throw (by simp)).ite (avoids_loadFrom addr ip offset sz _ 0)

theorem avoids_deallocFrom (oldsz k : Nat) : ∀ a, Avoids remap (deallocFrom L d oldsz k a) := by
  induction k with
  | zero => exact fun a => avoids_throw (by simp)
  | succ k ih =>
    intro a
    unfold deallocFrom
    refine Avoids.ite ((avoids_walkpgdir _).bind fun pte => ?_) (avoids_pure _)
    cases pte with
    | none => exact ih _
    | some pte =>
      refine (avoids_load32 _).bind fun e => Avoids.ite (Avoids.ite ?_ ?_) (ih _)
      · exact avoids_throw (by simp)
      · exact (avoids_kfree _).bind fun _ => (avoids_store32 _ _).bind fun _ => ih _

theorem avoids_freeTables (k : Nat) : ∀ i, Avoids remap (freeTables L d k i) := by
  induction k with
  | zero => exact fun i => avoids_pure _
  | succ k ih =>
    intro i
    unfold freeTables
    refine (avoids_load32 _).bind fun pde => Avoids.ite ?_ (ih _)
    exact (avoids_kfree _).bind fun _ => ih _

theorem avoids_freevm : Avoids remap (freevm L d) := by
  unfold freevm
  refine Avoids.ite (avoids_throw (by simp)) (Avoids.bind ?_ fun _ => ?_)
  · exact Avoids.ite (avoids_pure _) ((avoids_deallocFrom _ _ _).bind fun _ => avoids_pure _)
  · exact (avoids_freeTables _ _).bind fun _ => avoids_kfree _

theorem avoids_clearpteu (uva : Nat) : Avoids remap (clearpteu d uva) := by
  unfold clearpteu
  refine (avoids_walkpgdir _).bind fun pte => ?_
  cases pte with
  | none => exact avoids_throw (by simp)
  | some pte => exact (avoids_load32 _).bind fun e => avoids_store32 _ _

theorem avoids_uva2ka (uva : Nat) : Avoids remap (uva2ka d uva) := by
  unfold uva2ka
  refine (avoids_walkpgdir _).bind fun pte => ?_
  cases pte with
  | none => exact avoids_throw (by simp)
  | some pte =>
    refine (avoids_load32 _).bind fun e => ?_
    exact (avoids_pure _).ite ((avoids_pure _).ite (avoids_pure _))

theorem avoids_copyoutFrom (buf : ByteMem.Mem) (k : Nat) :
    ∀ va off len, Avoids remap (copyoutFrom d buf k va off len) := by
  induction k with
  | zero => exact fun va off len => avoids_throw (by simp)
  | succ k ih =>
    intro va off len
    unfold copyoutFrom
    refine Avoids.ite ((avoids_uva2ka _).bind fun pa0 => ?_) (avoids_pure _)
    exact (avoids_pure _).ite ((avoids_memmove _ _ _ _).bind fun _ => ih _ _ _)

theorem avoids_pushArgs (argv : List CStr) : ∀ sp ptrs, Avoids remap (pushArgs d argv sp ptrs) := by
  induction argv with
  | nil => exact fun sp ptrs => avoids_pure _
  | cons arg argv ih =>
    intro sp ptrs
    unfold pushArgs
    refine (avoids_pure _).ite ((avoids_copyoutFrom _ _ _ _ _).bind fun ok => ?_)
    exact (ih _ _).ite (avoids_pure _)

/-! ## The image -/

theorem Shape.ends_allocuvm {oldsz : Nat} (newsz : Nat) (h : Inv L s ρ fl 0) (hd : ρ d = .dir t)
    (hs : Shape ρ d oldsz) : ∃ r s', Ends (Mem.allocuvm L d oldsz newsz) s r s' := by
  by_cases hnew : newsz ≥ KERNBASE
  · exact ⟨0, s, allocuvm_refuses hnew⟩
  by_cases hlt : newsz < oldsz
  · exact ⟨oldsz, s, allocuvm_keeps hnew hlt⟩
  simp only [KERNBASE] at hnew
  obtain ⟨r, s', -, -, he, -⟩ := allocuvm_spec oldsz newsz h hd (by omega) (by omega)
    fun m h1 h2 hm => by
      have := (hs m).mp hm
      omega
  exact ⟨r, s', he⟩

theorem loadSegments_ne_remap (k : Nat) :
    ∀ {off sz : Nat} {s : Phys} {ρ : Nat → Role τ} {fl : List Nat},
    Inv L s ρ fl 0 → ρ d = .dir t → 4096 ≤ sz ∧ sz < 0x80000000 → Shape ρ d sz →
    (loadSegments L d ip k off sz).run s ≠ .error remap := by
  induction k with
  | zero =>
    intro off sz s ρ fl h hd hsz hs
    exact avoids_pure _ s
  | succ k ih =>
    intro off sz s ρ fl h hd hsz hs
    rw [loadSegments]
    split
    · exact avoids_pure _ s
    split
    · exact ih h hd hsz hs
    split
    · exact avoids_pure _ s
    split
    · exact avoids_pure _ s
    next hfile hwrap =>
    obtain ⟨r1, s1, he1⟩ :=
      hs.ends_allocuvm (u32 ((proghdr ip off).vaddr + (proghdr ip off).memsz)) h hd
    obtain ⟨ρ1, fl1, h1, hsp1, hres⟩ := hs.allocuvm h hd ⟨by omega, hsz.2⟩ he1
    rw [run_bind_of_ends he1]
    rcases hres with ⟨rfl, -⟩ | ⟨hne, hmax, hlt, hs1⟩
    · rw [if_pos rfl]
      exact avoids_pure _ s1
    rw [if_neg hne]
    split
    · exact avoids_pure _ s1
    have hd1 : ρ1 d = .dir t := by rw [hsp1.roles.role (by rw [hd]; exact not_loose_dir), hd]
    refine run_bind_ne_error (avoids_loaduvm _ _ _ _ s1) fun ok s2 he2 => ?_
    obtain ⟨h2, -⟩ := loaduvm_spec (segment_end hwrap hfile (by omega)) h1 hd1 he2
    cases ok with
    | false => exact avoids_pure _ s2
    | true => exact ih h2 hd1 (by omega) hs1

theorem fillImage_ne_remap (h : Inv L s ρ fl 0) (hd : ρ d = .dir t) (hs : Shape ρ d PGSIZE) :
    (fillImage L d ip argv).run s ≠ .error remap := by
  unfold fillImage
  refine run_bind_ne_error (loadSegments_ne_remap _ h hd ⟨le_rfl, by decide⟩ hs) fun r1 s1 he1 => ?_
  obtain ⟨ρ1, fl1, h1, hsp1, hres1⟩ :=
    loadSegments_spec _ h hd ⟨le_rfl, by decide⟩ hs he1
  cases r1 with
  | none => exact avoids_pure _ s1
  | some sz =>
  obtain ⟨hsz, hsz', hs1⟩ := hres1 sz rfl
  have hd1 : ρ1 d = .dir t := by rw [hsp1.roles.role (by rw [hd]; exact not_loose_dir), hd]
  have hs1' : Shape ρ1 d (PGROUNDUP sz) := by
    intro m
    rw [hs1 m, PGROUNDUP_eq (by omega), pages_mul]
  obtain ⟨r2, s2, he2⟩ := hs1'.ends_allocuvm (u32 (PGROUNDUP sz + 2 * PGSIZE)) h1 hd1
  dsimp only [pushStack, pushUstack]
  rw [run_bind_of_ends he2]
  refine Avoids.ite (avoids_pure _) ((avoids_clearpteu _).bind fun _ => ?_) s2
  refine (avoids_pushArgs argv _ _).bind fun r => ?_
  cases r with
  | none => exact avoids_pure _
  | some p => exact (avoids_copyoutFrom _ _ _ _ _).bind fun ok => avoids_pure _

/-- `exec` does not reach the panic of `mappages`. -/
theorem buildImage_ne_remap [Inhabited τ] (h : Inv L s ρ fl 0) :
    (buildImage L ip argv).run s ≠ .error remap := by
  unfold buildImage
  split
  · exact avoids_pure _ s
  split
  · exact avoids_pure _ s
  obtain ⟨d, s1, ρ1, fl1, he1, hinv1, hres⟩ := setupkvm_spec (default : τ) h
  rw [run_bind_of_ends he1]
  rcases hres with ⟨rfl, -⟩ | ⟨rfl, -⟩ | ⟨hd0, -, hnew, -⟩
  · exact avoids_pure _ s1
  · exact avoids_pure _ s1
  rw [if_neg hd0]
  refine run_bind_ne_error (fillImage_ne_remap hinv1 hnew.dir (hnew.shape h)) fun r s2 _ => ?_
  cases r with
  | some p => exact avoids_pure _ s2
  | none => exact (avoids_freevm.bind fun _ => avoids_pure _) s2

end Xv6.Mem
