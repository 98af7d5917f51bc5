import Mathlib.Tactic.FinCases
import Xv6.Bio.System

/-! # The statements of `commit`

    Which block is in which variable, at each place of the straight-line program. Before the header
    is written, `commit` writes only blocks of the log; before it clears the log, it has written
    every block of `log.lh`. Where nothing else runs, the statements are `commit` of `Log.Crash`.
-/

namespace Xv6.Bio

open Function List

/-! ## Checking a program -/

/-- Not a block of the log. -/
def Home (start n : Nat) : Prop := n < start ∨ start + LOGSIZE ≤ n

/-- The block in each variable. -/
abbrev Vars := Fin 2 → Option Nat

def noVars : Vars := fun _ => none

/-- Up to the clearing of the log, the two variables never hold the same
    block, and no block of `lh` is written before the header (`c`). -/
def Track (lh : List Nat) : Bool → Vars → List Op → Prop
  | _, _, [] => True
  | c, κ, .bread r n :: ops =>
      κ r = none ∧ (∀ r', κ r' ≠ some n) ∧ Track lh c (update κ r (some n)) ops
  | c, κ, .memmove _ _ :: ops => Track lh c κ ops
  | c, κ, .fill _ :: ops => Track lh c κ ops
  | c, κ, .bwrite r :: ops => (∃ n, κ r = some n ∧ (c = false → n ∉ lh)) ∧ Track lh c κ ops
  | c, κ, .brelse r :: ops => (κ r).isSome ∧ Track lh c (update κ r none) ops
  | _, κ, .committed :: ops => Track lh true κ ops
  | _, _, .clear :: ops => .committed ∉ ops

/-- The blocks that are written before the log is cleared. -/
def cleans : Vars → List Op → List Nat
  | _, [] => []
  | κ, .bread r n :: ops => cleans (update κ r (some n)) ops
  | κ, .bwrite r :: ops => (κ r).toList ++ cleans κ ops
  | κ, .brelse r :: ops => cleans (update κ r none) ops
  | _, .clear :: _ => []
  | κ, _ :: ops => cleans κ ops

/-! ## `commit` passes -/

variable {start n : Nat} {lh : List Nat} {c : Bool} {ops : List Op}

theorem noVars_load (n : Nat) : update (update noVars 0 (some n)) 0 none = noVars := by
  funext r
  fin_cases r <;> simp [noVars]

theorem noVars_load₂ (n m : Nat) (r r' : Fin 2) (hr : r ≠ r') :
    update (update (update (update noVars 0 (some n)) 1 (some m))
      r none) r' none = noVars := by
  funext i
  fin_cases i <;> fin_cases r <;> fin_cases r' <;> simp [noVars] at hr ⊢

theorem not_home {i : Nat} (hi : i < LOGSIZE) : ¬ Home start (start + i) := by
  intro h
  rcases h with h | h <;> omega

theorem load_ne {b : Nat} (hn : ¬ Home start n) (hb : Home start b) (r : Fin 2) :
    update noVars 0 (some n) r ≠ some b := by
  intro hr
  fin_cases r
  · obtain rfl : n = b := by simpa using hr
    exact hn hb
  · simp [noVars] at hr

/-- The copies are to the log, or they are made after the header was written. -/
theorem track_copyBlocks {dst src : Fin 2}
    (hdir : dst = 0 ∧ src = 1 ∨ dst = 1 ∧ src = 0 ∧ c = true) (harea : ∀ n ∈ lh, Home start n)
    (bs : List Nat) (tail : Nat) (hbs : ∀ n ∈ bs, Home start n) (hlen : tail + bs.length < LOGSIZE)
    (hops : Track lh c noVars ops) :
    Track lh c noVars (copyBlocks dst src start tail bs ++ ops) := by
  induction bs generalizing tail with
  | nil => exact hops
  | cons b bs ih =>
    have hlog : ¬ Home start (start + tail + 1) :=
      not_home (i := tail + 1) (by simp at hlen; omega)
    have hne := load_ne hlog (hbs b (by simp))
    have hrest := ih (tail + 1) (fun n hn => hbs n (mem_cons_of_mem _ hn)) (by simp at hlen; omega)
    rcases hdir with ⟨rfl, rfl⟩ | ⟨rfl, rfl, rfl⟩
    all_goals
      simp only [copyBlocks, cons_append, nil_append, Track]
      rw [noVars_load₂ _ _ _ _ (by decide)]
    · exact ⟨rfl, fun r' => by simp [noVars], rfl, hne,
        ⟨_, rfl, fun _ hm => hlog (harea _ hm)⟩, rfl, rfl, hrest⟩
    · exact ⟨rfl, fun r' => by simp [noVars], rfl, hne, ⟨_, rfl, by simp⟩, rfl, rfl, hrest⟩

theorem track_write_head (harea : ∀ n ∈ lh, Home start n) (hops : Track lh c noVars ops) :
    Track lh c noVars (write_head start ++ ops) := by
  have hlog : ¬ Home start start := not_home (i := 0) (by decide)
  simp only [write_head, cons_append, nil_append, Track]
  rw [noVars_load]
  exact ⟨rfl, fun r' => by simp [noVars], ⟨start, rfl, fun _ hm => hlog (harea _ hm)⟩, rfl, hops⟩

theorem track_commit (harea : ∀ n ∈ lh, Home start n) (hlen : lh.length < LOGSIZE) :
    Track lh false noVars (commit start lh) := by
  unfold commit
  split
  · refine track_copyBlocks (.inl ⟨rfl, rfl⟩) harea lh 0 harea (by omega)
      (track_write_head harea ?_)
    exact track_copyBlocks (.inr ⟨rfl, rfl, rfl⟩) harea lh 0 harea (by omega)
      (by simp [Track, write_head])
  · simp [Track]

theorem cleans_copyBlocks {dst src : Fin 2} (hne : src ≠ dst) (bs : List Nat) (tail : Nat)
    (hn : n ∈ cleans noVars ops ∨ dst = 1 ∧ n ∈ bs) :
    n ∈ cleans noVars (copyBlocks dst src start tail bs ++ ops) := by
  induction bs generalizing tail with
  | nil => simpa [copyBlocks] using hn
  | cons b bs ih =>
    simp only [copyBlocks, cons_append, cleans]
    rw [noVars_load₂ _ _ _ _ hne]
    rcases hn with hn | ⟨rfl, hn⟩
    · exact mem_append_right _ (ih (tail + 1) (.inl hn))
    · rcases mem_cons.mp hn with rfl | hn
      · exact mem_append_left _ (by simp)
      · exact mem_append_right _ (ih (tail + 1) (.inr ⟨rfl, hn⟩))

theorem cleans_commit (hn : n ∈ lh) : n ∈ cleans noVars (commit start lh) := by
  unfold commit
  rw [if_pos (length_pos_of_mem hn)]
  refine cleans_copyBlocks (by decide) lh 0 (.inl ?_)
  simp only [write_head, cons_append, nil_append, cleans]
  rw [noVars_load]
  exact mem_append_right _ (cleans_copyBlocks (by decide) lh 0 (.inr ⟨rfl, hn⟩))

/-! ## `commit` alone -/

/-- A statement of `commit` on the machine of the crash model, where nothing else runs. A variable
    holds the number and the data of its buffer. -/
def Op.run (x : (Fin 2 → Nat × Block) × Log.Machine) : Op → (Fin 2 → Nat × Block) × Log.Machine
  | .bread r n => (update x.1 r (n, (Log.bread x.2 n).1), (Log.bread x.2 n).2)
  | .memmove dst src => (update x.1 dst ((x.1 dst).1, (x.1 src).2), x.2)
  | .fill r => (update x.1 r
      ((x.1 r).1, Log.putBlocks ((x.1 r).2.setWord 0 x.2.lh.length) 0 x.2.lh), x.2)
  | .bwrite r => (x.1, Log.bwrite x.2 (x.1 r).1 (x.1 r).2)
  | .clear => (x.1, { x.2 with lh := [] })
  | _ => x

variable {x : (Fin 2 → Nat × Block) × Log.Machine}

theorem run_write_log (bs : List Nat) (tail : Nat) (hs : x.2.start = start) :
    ((write_log start tail bs).foldl Op.run x).2 = Log.logFrom x.2 tail bs ∧
      (Log.logFrom x.2 tail bs).start = start := by
  induction bs generalizing x tail with
  | nil => exact ⟨rfl, hs⟩
  | cons b bs ih =>
    simp only [write_log, copyBlocks, foldl_append, foldl_cons, foldl_nil, Op.run, Log.logFrom,
      update_self, update_of_ne (show (0 : Fin 2) ≠ 1 by decide), Log.bread_start, hs]
    exact ih _ (by simp [Log.bwrite, hs])

theorem run_install_trans (bs : List Nat) (tail : Nat) (hs : x.2.start = start) :
    ((install_trans start tail bs).foldl Op.run x).2 = Log.installFrom x.2 tail bs ∧
      (Log.installFrom x.2 tail bs).start = start := by
  induction bs generalizing x tail with
  | nil => exact ⟨rfl, hs⟩
  | cons b bs ih =>
    simp only [install_trans, copyBlocks, foldl_append, foldl_cons, foldl_nil, Op.run,
      Log.installFrom, update_self, update_of_ne (show (0 : Fin 2) ≠ 1 by decide), hs]
    exact ih _ (by simp [Log.bwrite, hs])

theorem run_write_head (hs : x.2.start = start) :
    ((write_head start).foldl Op.run x).2 = Log.write_head x.2 := by
  subst hs
  simp [write_head, Op.run, Log.write_head]

/-- Alone, the statements of `commit` do what `Log.commit` does. -/
theorem run_commit : ((commit x.2.start x.2.lh).foldl Op.run x).2 = Log.commit x.2 := by
  unfold commit Log.commit
  split
  · simp only [foldl_append, foldl_cons]
    obtain ⟨h1, hs1⟩ := run_write_log x.2.lh 0 (Eq.refl x.2.start)
    rw [← h1] at hs1
    have h2 := run_write_head hs1
    have hs2 := ((congrArg (·.start) h2).trans (Log.write_head_issues _).start).trans hs1
    obtain ⟨h3, hs3⟩ := run_install_trans x.2.lh 0 hs2
    rw [← h3] at hs3
    refine (run_write_head (by exact hs3)).trans ?_
    simp only [Op.run, h3, h2, h1, Log.install_trans, Log.write_log, Log.write_head_lh,
      Log.logFrom_lh]
  · next h =>
    have hnil : x.2.lh = [] := by simpa using h
    show ({ x.2 with lh := [] } : Log.Machine) = x.2
    rw [← hnil]

end Xv6.Bio
