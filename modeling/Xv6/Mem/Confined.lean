import Xv6.Mem.Grow

/-! # Work that is confined to one directory

    The functions of `vm.c` that build a directory write to its page, its tables and its user pages,
    and to pages that were free. `Confined` says so; it composes, because pages join a directory
    from the free list only.
-/

namespace Xv6.Mem

open ByteMem Program

variable {τ : Type} {L : Layout} {s s' s'' : Phys} {ρ ρ' ρ'' : Nat → Role τ} {fl fl' : List Nat}
  {q d n lo x b : Nat} {t : τ}

theorem Alters.mine (h : Alters ρ d lo x) : Mine ρ d x := by
  rcases h with (⟨a, ha, hin⟩ | hin) | ⟨u, m, hu, -, hin⟩ | ⟨a, m, ha, -, -, h1, h2⟩
  · exact ⟨a, hin, .inr (.inl ha)⟩
  · exact ⟨d, hin, .inl rfl⟩
  · exact ⟨u, hin, .inr (.inr (.inr ⟨m, hu⟩))⟩
  · exact ⟨a, ⟨by omega, by omega⟩, .inr (.inr (.inl ⟨_, ha⟩))⟩

theorem Confined.of_frame (hloc : Local d ρ ρ') (hf : Frame d lo s ρ s' ρ'') :
    Confined d s ρ s' ρ' :=
  ⟨hloc, fun x hx => hf.mem x fun ha => hx ha.mine⟩

theorem Loose.ne_other {r : Role τ} (h : Loose d r) : r ≠ .other := by
  rcases h with rfl | ⟨i, rfl⟩ | ⟨m, rfl⟩
  · simp
  · simp
  · simp

theorem Inv.not_mine (h : Inv L s ρ fl q) (hd : ρ d ≠ .other) (hb : ρ b ≠ .other) (hbd : b ≠ d)
    (hl : ¬ Loose d (ρ b)) (h1 : b ≤ x) (h2 : x < b + 4096) : ¬ Mine ρ d x := by
  rintro ⟨a, ⟨h3, h4⟩, ha⟩
  have hne : a ≠ b := by
    rintro rfl
    exact ha.elim hbd hl
  have hpa : ρ a ≠ .other := by
    rcases ha with rfl | ha
    · exact hd
    · exact ha.ne_other
  have := (h.page a hpa).disjoint (h.page b hb) hne
  omega

theorem Confined.samePage (hc : Confined d s ρ s' ρ') (h : Inv L s ρ fl q) (hd : ρ d ≠ .other)
    (hb : ρ b ≠ .other) (hbd : b ≠ d) (hl : ¬ Loose d (ρ b)) : SamePage s.mem s'.mem b :=
  fun x h1 h2 => hc.mem x (h.not_mine hd hb hbd hl h1 h2)

/-- Pages move between the free list and directory `d` only, and the pages of everyone else keep
    their contents. Memory that is no page of the allocator may change. -/
structure Spares (d : Nat) (s : Phys) (ρ : Nat → Role τ) (s' : Phys) (ρ' : Nat → Role τ) :
    Prop where
  roles : Local d ρ ρ'
  pages : ∀ b, ρ b ≠ .other → b ≠ d → ¬ Loose d (ρ b) → SamePage s.mem s'.mem b

theorem Spares.refl (h : s'.mem = s.mem) : Spares d s ρ s' ρ :=
  ⟨.refl d ρ, fun b _ _ _ x _ _ => by rw [h]⟩

theorem Spares.trans (h : Spares d s ρ s' ρ') (h' : Spares d s' ρ' s'' ρ'') :
    Spares d s ρ s'' ρ'' where
  roles := h.roles.trans h'.roles
  pages b hb hbd hl := by
    have he := h.roles.role hl
    exact (h.pages b hb hbd hl).trans (h'.pages b (by rwa [he]) hbd (by rwa [he]))

theorem Confined.spares (hc : Confined d s ρ s' ρ') (h : Inv L s ρ fl q) (hd : ρ d ≠ .other) :
    Spares d s ρ s' ρ' :=
  ⟨hc.roles, fun _ hb hbd hl => hc.samePage h hd hb hbd hl⟩

end Xv6.Mem
