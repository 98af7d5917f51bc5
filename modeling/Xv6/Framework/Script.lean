import Mathlib.Logic.Basic

/-! # Programs that call a guarded command

    A program that looks at a state, calls a command that may refuse, and may fail, as a tree. `run`
    asks the command before each call and `plain` does not. Where a refusal can be seen in the state
    that `plain` ends in, the one is read off the other.

    Key theorem: `run_eq`.
-/

namespace Program

/-- A command with argument `U`: the new state, and the error with which it refuses. -/
class Guarded (σ U : Type) (ε : outParam Type) where
  next    : σ → U → σ
  refuses : σ → U → Option ε

inductive Script (σ U ε α : Type) : Type
  | done (a : α)
  | fail (e : ε)
  | look (k : σ → Script σ U ε α)
  | call (u : U) (k : Script σ U ε α)

namespace Script

open Guarded

variable {σ U ε α β : Type}

def bind : Script σ U ε α → (α → Script σ U ε β) → Script σ U ε β
  | done a, f => f a
  | fail e, _ => fail e
  | look k, f => look fun s => (k s).bind f
  | call u k, f => call u (k.bind f)

instance : Monad (Script σ U ε) where
  pure := done
  bind := bind

instance : LawfulMonad (Script σ U ε) := by
  refine .mk' _ (fun x => ?_) (fun _ _ => rfl) fun x f g => ?_
  · show x.bind done = x
    induction x with
    | done | fail => rfl
    | look k ih => exact congrArg look (funext ih)
    | call u k ih => exact congrArg (call u) ih
  · show (x.bind f).bind g = x.bind fun a => (f a).bind g
    induction x with
    | done | fail => rfl
    | look k ih => exact congrArg look (funext ih)
    | call u k ih => exact congrArg (call u) ih

variable [Guarded σ U ε]

def run : Script σ U ε α → σ → Except ε (α × σ)
  | done a, s => .ok (a, s)
  | fail e, _ => .error e
  | look k, s => (k s).run s
  | call u k, s =>
    match refuses s u with
    | some e => .error e
    | none => k.run (next s u)

/-- The run without the checks, with the state that it ends in. -/
def plain : Script σ U ε α → σ → Except ε α × σ
  | done a, s => (.ok a, s)
  | fail e, s => (.error e, s)
  | look k, s => (k s).plain s
  | call u k, s => k.plain (next s u)

variable {x : Script σ U ε α} {f : α → Script σ U ε β} {s s' : σ} {a : α} {e : ε}

/-- Apart from the checks, `x` ends in `s'` with value `a`. -/
abbrev Does (x : Script σ U ε α) (s : σ) (a : α) (s' : σ) : Prop := x.plain s = (.ok a, s')

/-- Apart from the checks, `x` fails with `e`. -/
abbrev Fails (x : Script σ U ε α) (s : σ) (e : ε) : Prop := (x.plain s).1 = .error e

theorem plain_bind : (x >>= f).plain s =
    match x.plain s with
    | (.ok a, s) => (f a).plain s
    | (.error e, s) => (.error e, s) := by
  show (x.bind f).plain s = _
  induction x generalizing s with
  | done | fail => rfl
  | look k ih => exact ih s
  | call u k ih => exact ih

theorem bind_of_does (h : Does x s a s') : (x >>= f).plain s = (f a).plain s' := by
  rw [plain_bind, h]

theorem bind_of_error (h : x.plain s = (.error e, s')) : (x >>= f).plain s = (.error e, s') := by
  rw [plain_bind, h]

theorem Fails.bind (h : Fails x s e) : Fails (x >>= f) s e := by
  unfold Fails
  rw [bind_of_error (Prod.ext h rfl)]

theorem Does.not_fails (h : Does x s a s') : ¬ Fails x s e := by
  unfold Fails
  rw [h]
  rintro ⟨⟩

theorem Does.unique {b : α} {s'' : σ} (h : Does x s a s') (h' : Does x s b s'') :
    a = b ∧ s' = s'' := by
  simpa using h.symm.trans h'

/-- What no call changes. -/
theorem plain_keeps {γ : Type} {g : σ → γ} (hg : ∀ s (u : U), g (next s u) = g s) :
    g (x.plain s).2 = g s := by
  induction x generalizing s with
  | done | fail => rfl
  | look k ih => exact ih s
  | call u k ih => exact ih.trans (hg s u)

/-! ## The checks -/

/-- A program that calls nothing is not refused. -/
theorem Does.run_same {m : σ → Nat} (hm : ∀ s (u : U), m s < m (next s u)) (h : Does x s a s') :
    m s ≤ m s' ∧ (m s' = m s → x.run s = .ok (a, s')) := by
  induction x generalizing s with
  | done => cases h; exact ⟨Nat.le_refl _, fun _ => rfl⟩
  | fail => cases h
  | look k ih => exact ih s h
  | call u k ih =>
    have := hm s u
    have := (ih h).1
    exact ⟨by omega, fun _ => by omega⟩

/-- A program that calls is refused where every call is. -/
theorem run_refused (hs : ∀ u : U, refuses s u = some e) (h : (x.plain s).2 ≠ s) :
    x.run s = .error e := by
  induction x with
  | done | fail => exact absurd rfl h
  | look k ih => exact ih s h
  | call u k => rw [run, hs]

section Ok

variable {ok : σ → Prop} {e₀ : ε} (hkeep : ∀ s (u : U), ok (next s u) → ok s)
include hkeep

theorem ok_of_plain (h : ok (x.plain s).2) : ok s := by
  induction x generalizing s with
  | done | fail => exact h
  | look k ih => exact ih s h
  | call u k ih => exact hkeep s u (ih h)

/-- Where a call is refused exactly if the state behind it is not `ok`, a run is the one without
    the checks, or is refused because that one ends in a state that is not `ok`. -/
theorem run_eq [DecidablePred ok]
    (href : ∀ s (u : U), ok s → refuses s u = if ok (next s u) then none else some e₀) (hs : ok s) :
    x.run s = if ok (x.plain s).2 then (x.plain s).1.map (·, (x.plain s).2)
      else .error e₀ := by
  induction x generalizing s with
  | done | fail => exact (if_pos hs).symm
  | look k ih => exact ih s hs
  | call u k ih =>
    rw [run, href s u hs, plain]
    by_cases hn : ok (next s u)
    · rw [if_pos hn]
      exact ih hn
    · rw [if_neg hn, if_neg fun h => hn (ok_of_plain hkeep h)]

end Ok

end Script

end Program
