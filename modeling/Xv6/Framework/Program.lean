import Mathlib.Logic.Basic

/-! # Programs with state and failure

    `StateT σ (Except ε)` is the monad of code that changes a state and may stop with an error. The
    lemmas take a run that ended well apart, one bind at a time, and put runs together.
-/

namespace Program

variable {σ ε α β : Type} {x y : StateT σ (Except ε) α} {f : α → StateT σ (Except ε) β} {s s' : σ}
  {b : β} {a : α} {e : ε} {c : Prop}

/-- `x` ends in `s'` with value `a`. -/
abbrev Ends (x : StateT σ (Except ε) α) (s : σ) (a : α) (s' : σ) : Prop :=
  x.run s = .ok (a, s')

theorem ends_bind {s'' : σ} :
    Ends (x >>= f) s b s'' ↔ ∃ a s', Ends x s a s' ∧ Ends (f a) s' b s'' := by
  unfold Ends
  rw [StateT.run_bind]
  cases h : x.run s with
  | error e =>
    constructor
    · intro h'
      cases h'
    · rintro ⟨a, s', h', -⟩
      cases h'
  | ok r =>
    constructor
    · intro h'
      exact ⟨r.1, r.2, rfl, h'⟩
    · rintro ⟨a, s', h', h''⟩
      obtain rfl : r = (a, s') := by simpa using h'
      exact h''

theorem run_bind_of_ends (h : Ends x s a s') : (x >>= f).run s = (f a).run s' := by
  rw [StateT.run_bind, h]
  rfl

@[simp] theorem ends_pure {b : α} :
    Ends (pure a : StateT σ (Except ε) α) s b s' ↔ a = b ∧ s = s' := by
  unfold Ends
  rw [StateT.run_pure]
  show Except.ok (a, s) = Except.ok (b, s') ↔ _
  simp

theorem ends_get {r : σ} : Ends (get : StateT σ (Except ε) σ) s r s' ↔ r = s ∧ s' = s := by
  show Except.ok (s, s) = Except.ok (r, s') ↔ _
  simp [eq_comm]

theorem ends_get_bind {f : σ → StateT σ (Except ε) β} :
    Ends (get >>= f) s b s' ↔ Ends (f s) s b s' := by
  unfold Ends
  rw [run_bind_of_ends (ends_get.mpr ⟨rfl, rfl⟩)]

theorem ends_modify {f : σ → σ} {r : PUnit} :
    Ends (modify f : StateT σ (Except ε) PUnit) s r s' ↔ s' = f s := by
  show Except.ok (PUnit.unit, f s) = Except.ok (r, s') ↔ _
  simp [eq_comm]

theorem ends_modify_bind {f : σ → σ} {g : PUnit → StateT σ (Except ε) β} :
    Ends (modify f >>= g) s b s' ↔ Ends (g ⟨⟩) (f s) b s' := by
  unfold Ends
  rw [run_bind_of_ends (ends_modify.mpr rfl)]

@[simp] theorem not_ends_throw {b : α} : ¬ Ends (throw e : StateT σ (Except ε) α) s b s' := by
  intro h
  cases h

/-- A function that fails on no run ends, and ends once. -/
theorem Ends.unique {s1 s2 : σ} {b : α} (h1 : Ends x s a s1) (h2 : Ends x s b s2) :
    a = b ∧ s1 = s2 := by
  unfold Ends at h1 h2
  rw [h1] at h2
  simpa using h2

/-! ## Programs that always end -/

/-- `x` ends from every state. -/
def Total (x : StateT σ (Except ε) α) : Prop := ∀ s, ∃ a s', Ends x s a s'

theorem Total.bind (hx : Total x) (hf : ∀ a, Total (f a)) : Total (x >>= f) := by
  intro s
  obtain ⟨a, s', h⟩ := hx s
  obtain ⟨b, s'', h'⟩ := hf a s'
  exact ⟨b, s'', ends_bind.mpr ⟨a, s', h, h'⟩⟩

theorem total_pure (a : α) : Total (pure a : StateT σ (Except ε) α) :=
  fun s => ⟨a, s, ends_pure.mpr ⟨rfl, rfl⟩⟩

theorem total_get : Total (get : StateT σ (Except ε) σ) :=
  fun s => ⟨s, s, ends_get.mpr ⟨rfl, rfl⟩⟩

theorem total_modify (f : σ → σ) : Total (modify f : StateT σ (Except ε) PUnit) :=
  fun s => ⟨PUnit.unit, f s, ends_modify.mpr rfl⟩

/-! ## Programs that do not stop with a given error -/

theorem run_bind_of_error (h : x.run s = .error e) : (x >>= f).run s = .error e := by
  rw [StateT.run_bind, h]
  rfl

/-- The first half does not stop with `e`, and the second half does not from
    where the first ends. -/
theorem run_bind_ne_error (hx : x.run s ≠ .error e)
    (hf : ∀ a s', Ends x s a s' → (f a).run s' ≠ .error e) : (x >>= f).run s ≠ .error e := by
  rw [StateT.run_bind]
  cases h : x.run s with
  | error e' =>
    intro h'
    cases (show (Except.error e' : Except ε (β × σ)) = .error e from h')
    exact hx h
  | ok r => exact hf r.1 r.2 h

theorem Ends.ne_error (h : Ends x s a s') : x.run s ≠ .error e := by
  intro h'
  cases h.symm.trans h'

/-- `x` stops with `e` from no state. -/
def Avoids (e : ε) (x : StateT σ (Except ε) α) : Prop := ∀ s, x.run s ≠ .error e

variable {e : ε}

theorem Total.avoids (hx : Total x) : Avoids e x := by
  intro s
  obtain ⟨a, s', h⟩ := hx s
  exact h.ne_error

theorem avoids_pure (a : α) : Avoids e (pure a : StateT σ (Except ε) α) :=
  (total_pure a).avoids

theorem avoids_throw {e' : ε} (h : e' ≠ e) : Avoids e (throw e' : StateT σ (Except ε) α) := by
  intro s hs
  cases hs
  exact h rfl

theorem Avoids.bind (hx : Avoids e x) (hf : ∀ a, Avoids e (f a)) : Avoids e (x >>= f) :=
  fun s => run_bind_ne_error (hx s) fun a s' _ => hf a s'

theorem Avoids.ite [Decidable c] (hx : Avoids e x) (hy : Avoids e y) :
    Avoids e (if c then x else y) := by
  split
  · exact hx
  · exact hy

/-! ## Programs that relate the states before and after -/

/-- Where `x` ends, the states are related by `R`. -/
def Respects (R : σ → σ → Prop) (x : StateT σ (Except ε) α) : Prop :=
  ∀ s a s', Ends x s a s' → R s s'

section Respects

variable {R : σ → σ → Prop}

theorem respects_pure (hR : ∀ s, R s s) (a : α) : Respects R (pure a : StateT σ (Except ε) α) := by
  intro s b s' h
  obtain ⟨-, rfl⟩ := ends_pure.mp h
  exact hR s

theorem respects_throw (e : ε) : Respects R (throw e : StateT σ (Except ε) α) :=
  fun _ _ _ h => absurd h not_ends_throw

theorem respects_modify {f : σ → σ} (hf : ∀ s, R s (f s)) :
    Respects R (modify f : StateT σ (Except ε) PUnit) := by
  intro s b s' h
  rw [ends_modify.mp h]
  exact hf s

theorem Respects.bind (hR : ∀ {s t u}, R s t → R t u → R s u) (hx : Respects R x)
    (hf : ∀ a, Respects R (f a)) : Respects R (x >>= f) := by
  intro s b s' h
  obtain ⟨a, t, h1, h2⟩ := ends_bind.mp h
  exact hR (hx s a t h1) (hf a t b s' h2)

theorem Respects.get_bind {f : σ → StateT σ (Except ε) β} (hf : ∀ s, Respects R (f s)) :
    Respects R (get >>= f) :=
  fun s b s' h => hf s s b s' (ends_get_bind.mp h)

theorem Respects.ite [Decidable c] (hx : Respects R x) (hy : Respects R y) :
    Respects R (if c then x else y) := by
  split
  · exact hx
  · exact hy

end Respects

/-! ## A program and one that stops more often -/

/-- Where `x` ends, `y` ends the same way. -/
def Stricter (x y : StateT σ (Except ε) α) : Prop :=
  ∀ ⦃s a s'⦄, Ends x s a s' → Ends y s a s'

theorem Stricter.refl (x : StateT σ (Except ε) α) : Stricter x x := fun _ _ _ => id

theorem Stricter.bind {g : α → StateT σ (Except ε) β} (hx : Stricter x y)
    (hf : ∀ a, Stricter (f a) (g a)) : Stricter (x >>= f) (y >>= g) := by
  intro s b s' h
  obtain ⟨a, t, h1, h2⟩ := ends_bind.mp h
  exact ends_bind.mpr ⟨a, t, hx h1, hf a h2⟩

theorem Stricter.ite [Decidable c] {x' y' : StateT σ (Except ε) α} (hx : Stricter x x')
    (hy : Stricter y y') : Stricter (if c then x else y) (if c then x' else y') := by
  split
  · exact hx
  · exact hy

end Program
