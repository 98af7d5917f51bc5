import Mathlib.Data.List.Nodup
import Mathlib.Data.List.Flatten
import Mathlib.Data.List.Range

/-! # Blocks that tile regions

    A block is an address and a number of units of `w` bytes. `Tiles` says that blocks do not
    overlap and cover each unit of some regions once; blocks may be cut and joined.
-/

namespace Tiling

open List

/-- The addresses of the units of a block. -/
def units (w : Nat) (b : Nat × Nat) : List Nat := (List.range b.2).map fun i => b.1 + w * i

/-- One block ends before the other one starts. -/
def Apart (w : Nat) (b c : Nat × Nat) : Prop := b.1 + w * b.2 ≤ c.1 ∨ c.1 + w * c.2 ≤ b.1

theorem Apart.symm {w : Nat} {b c : Nat × Nat} (h : Apart w b c) : Apart w c b := Or.symm h

instance (w : Nat) : Std.Symm (Apart w) := ⟨fun _ _ => Apart.symm⟩

structure Tiles (w : Nat) (blocks regions : List (Nat × Nat)) : Prop where
  apart : blocks.Pairwise (Apart w)
  pos   : ∀ b ∈ blocks, 0 < b.2
  cover : (blocks.flatMap (units w)).Perm (regions.flatMap (units w))

variable {w a s t : Nat} {b : Nat × Nat} {bs bs' rs : List (Nat × Nat)}

theorem units_add : units w (a, s + t) = units w (a, s) ++ units w (a + w * s, t) := by
  unfold units
  rw [range_add, map_append, map_map]
  congr 1
  refine map_congr_left fun i _ => ?_
  show a + w * (s + i) = a + w * s + w * i
  rw [Nat.mul_add, Nat.add_assoc]

theorem Tiles.perm (h : Tiles w bs rs) (hp : bs.Perm bs') : Tiles w bs' rs where
  apart := hp.pairwise h.apart Apart.symm
  pos := fun b hb => h.pos b (hp.mem_iff.mpr hb)
  cover := (hp.flatMap_right _).symm.trans h.cover

theorem Tiles.cut (h : Tiles w ((a, s + t) :: bs) rs) (hs : 0 < s) (ht : 0 < t) :
    Tiles w ((a, s) :: (a + w * s, t) :: bs) rs where
  apart := by
    obtain ⟨hb, hbs⟩ := pairwise_cons.mp h.apart
    refine pairwise_cons.mpr ⟨fun c hc => ?_, pairwise_cons.mpr ⟨fun c hc => ?_, hbs⟩⟩
    · rcases mem_cons.mp hc with rfl | hc
      · exact .inl le_rfl
      · refine (hb c hc).imp_left fun hle => ?_
        have : a + w * (s + t) ≤ c.1 := hle
        rw [Nat.mul_add] at this
        show a + w * s ≤ c.1
        omega
    · rcases hb c hc with hle | hle
      · refine .inl ?_
        have : a + w * (s + t) ≤ c.1 := hle
        rw [Nat.mul_add] at this
        show a + w * s + w * t ≤ c.1
        omega
      · exact .inr (le_trans hle (Nat.le_add_right _ _))
  pos := by
    intro c hc
    rcases mem_cons.mp hc with rfl | hc
    · exact hs
    · rcases mem_cons.mp hc with rfl | hc
      · exact ht
      · exact h.pos c (mem_cons_of_mem _ hc)
  cover := by
    have hc := h.cover
    rw [flatMap_cons, units_add, append_assoc] at hc
    exact hc

theorem Tiles.join (hw : 0 < w) (h : Tiles w ((a, s) :: (a + w * s, t) :: bs) rs) :
    Tiles w ((a, s + t) :: bs) rs where
  apart := by
    obtain ⟨h1, hrest⟩ := pairwise_cons.mp h.apart
    obtain ⟨h2, hbs⟩ := pairwise_cons.mp hrest
    refine pairwise_cons.mpr ⟨fun c hc => ?_, hbs⟩
    have hpos : 0 < w * c.2 :=
      Nat.mul_pos hw (h.pos c (mem_cons_of_mem _ (mem_cons_of_mem _ hc)))
    -- nothing fits between the two
    have h1 : a + w * s ≤ c.1 ∨ c.1 + w * c.2 ≤ a := h1 c (mem_cons_of_mem _ hc)
    have h2 : a + w * s + w * t ≤ c.1 ∨ c.1 + w * c.2 ≤ a + w * s := h2 c hc
    show a + w * (s + t) ≤ c.1 ∨ c.1 + w * c.2 ≤ a
    rw [Nat.mul_add]
    omega
  pos := by
    intro c hc
    rcases mem_cons.mp hc with rfl | hc
    · exact Nat.add_pos_left (h.pos (a, s) mem_cons_self) t
    · exact h.pos c (mem_cons_of_mem _ (mem_cons_of_mem _ hc))
  cover := by
    have hc := h.cover
    rw [flatMap_cons, flatMap_cons, ← append_assoc, ← units_add] at hc
    exact hc

/-- A region that is apart from all blocks becomes a block. -/
theorem Tiles.add (h : Tiles w bs rs) (hb : ∀ c ∈ bs, Apart w b c) (hpos : 0 < b.2) :
    Tiles w (b :: bs) (b :: rs) where
  apart := pairwise_cons.mpr ⟨hb, h.apart⟩
  pos := by
    intro c hc
    rcases mem_cons.mp hc with rfl | hc
    · exact hpos
    · exact h.pos c hc
  cover := by
    rw [flatMap_cons, flatMap_cons]
    exact h.cover.append_left _

theorem nodup_units (hw : 0 < w) (b : Nat × Nat) : (units w b).Nodup := by
  refine List.Nodup.map ?_ nodup_range
  intro i j hij
  exact Nat.eq_of_mul_eq_mul_left hw (Nat.add_left_cancel hij)

/-- No unit lies in two regions. -/
theorem Tiles.nodup (hw : 0 < w) (h : Tiles w bs rs) : (rs.flatMap (units w)).Nodup := by
  refine h.cover.nodup_iff.mp (nodup_flatMap.mpr ⟨fun b _ => nodup_units hw b, ?_⟩)
  refine h.apart.imp fun {b c} hbc => ?_
  intro u hu hu'
  obtain ⟨i, hi, rfl⟩ := mem_map.mp hu
  obtain ⟨j, hj, heq⟩ := mem_map.mp hu'
  have hi : w * i < w * b.2 := Nat.mul_lt_mul_of_pos_left (mem_range.mp hi) hw
  have hj : w * j < w * c.2 := Nat.mul_lt_mul_of_pos_left (mem_range.mp hj) hw
  rcases hbc with hle | hle <;> omega

end Tiling
