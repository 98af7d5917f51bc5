import Xv6.Param
import Xv6.Shell.Command

/-! # Running a command

    `runcmd` of `sh.c`. It connects the programs of a command by closing descriptors and opening the
    lowest free one, in children that start with a copy of the table. The abstract level gives every
    program its input and its output.

    Key theorem: `runcmd_wires`.
-/

namespace Xv6.Shell

open Function

/-! ## Model -/

/-- What a descriptor stands for. A pipe is known by the place of its command in the tree. -/
inductive Handle where
  | inherited (fd : Nat)
  | file (name : List UInt8) (mode : Nat)
  | readEnd (place : List Bool)
  | writeEnd (place : List Bool)

/-- `proc->ofile`. -/
abbrev Fds := Nat → Option Handle

def close (t : Fds) (fd : Nat) : Fds := update t fd none

/-- The lowest free descriptor, and the table with `h` there. -/
def fdalloc (t : Fds) (h : Handle) : Option (Nat × Fds) :=
  ((List.range NOFILE).find? fun i => (t i).isNone).map fun i => (i, update t i (some h))

def dup (t : Fds) (fd : Nat) : Fds := ((t fd).bind (fdalloc t)).elim t Prod.snd

def pipe (t : Fds) (place : List Bool) : Option (Nat × Nat × Fds) := do
  let (r, t) ← fdalloc t (.readEnd place)
  let (w, t) ← fdalloc t (.writeEnd place)
  return (r, w, t)

/-- Which calls succeed: of `open` with a name and a mode, of `pipe` and of `fork`, each at its
    place in the tree. -/
structure Env where
  opens : List Bool → List UInt8 → Nat → Bool
  pipes : List Bool → Bool
  forks : List Bool → Bool

/-- The calls of `exec`, each with the arguments and the table. `panic` and `exit` end a process. -/
def runcmd (v : Env) : Cmd (List UInt8) → List Bool → Fds → List (List (List UInt8) × Fds)
  | .exec argv, _, t => if argv = [] then [] else [(argv, t)]
  | .redir cmd file mode fd, place, t =>
    match if v.opens place file mode then fdalloc (close t fd) (.file file mode) else none with
    | none => []
    | some (_, t) => runcmd v cmd (false :: place) t
  | .list left right, place, t =>
    if v.forks (false :: place) then
      runcmd v left (false :: place) t ++ runcmd v right (true :: place) t
    else []
  | .pipe left right, place, t =>
    match if v.pipes place then pipe t place else none with
    | none => []
    | some (r, w, t) =>
      if v.forks (false :: place) then
        runcmd v left (false :: place) (close (close (dup (close t 1) w) r) w) ++
          if v.forks (true :: place) then
            runcmd v right (true :: place) (close (close (dup (close t 0) r) r) w)
          else []
      else []
  | .back cmd, place, t =>
    if v.forks (false :: place) then runcmd v cmd (false :: place) t else []

/-- The programs of a command, with their input and their output. -/
def wires (v : Env) : Cmd (List UInt8) → List Bool → Handle → Handle →
    List (List (List UInt8) × Handle × Handle)
  | .exec argv, _, i, o => if argv = [] then [] else [(argv, i, o)]
  | .redir cmd file mode fd, place, i, o =>
    if v.opens place file mode then
      if fd = 0 then wires v cmd (false :: place) (.file file mode) o
      else wires v cmd (false :: place) i (.file file mode)
    else []
  | .list left right, place, i, o =>
    if v.forks (false :: place) then
      wires v left (false :: place) i o ++ wires v right (true :: place) i o
    else []
  | .pipe left right, place, i, o =>
    if v.pipes place ∧ v.forks (false :: place) then
      wires v left (false :: place) i (.writeEnd place) ++
        if v.forks (true :: place) then wires v right (true :: place) (.readEnd place) o else []
    else []
  | .back cmd, place, i, o =>
    if v.forks (false :: place) then wires v cmd (false :: place) i o else []

/-- The table `t` with the standard input `i` and the standard output `o`. -/
def Fds.std (t : Fds) (i o : Handle) : Fds := update (update t 0 (some i)) 1 (some o)

/-! ## The lowest free descriptor -/

variable {t : Fds} {k : Nat} {v : Env} {tree : Cmd (List UInt8)}

theorem exists_fdalloc (h : Handle) (hk : k < NOFILE) (hnone : t k = none) :
    ∃ j ≤ k, t j = none ∧ fdalloc t h = some (j, update t j (some h)) := by
  cases hfind : (List.range NOFILE).find? fun i => (t i).isNone with
  | none =>
    have := List.find?_eq_none.mp hfind k (List.mem_range.mpr hk)
    simp [hnone] at this
  | some j =>
    obtain ⟨hj, -, hlow⟩ := List.find?_range_eq_some.mp hfind
    refine ⟨j, ?_, by simpa using hj, by rw [fdalloc, hfind]; rfl⟩
    by_contra hlt
    have := hlow k (by omega)
    simp [hnone] at this

/-- `close(0)`, and what then opens a descriptor. -/
theorem fdalloc_close_zero (t : Fds) (i o h : Handle) :
    fdalloc (close (t.std i o) 0) h = some (0, t.std h o) := by
  obtain ⟨j, hj, -, he⟩ := exists_fdalloc (t := close (t.std i o) 0) (k := 0) h (by decide)
    (by simp [close])
  obtain rfl : j = 0 := by omega
  rw [he]
  simp [close, Fds.std, update_comm]

theorem fdalloc_close_one (t : Fds) (i o h : Handle) :
    fdalloc (close (t.std i o) 1) h = some (1, t.std i h) := by
  obtain ⟨j, hj, hnone, he⟩ := exists_fdalloc (t := close (t.std i o) 1) (k := 1) h (by decide)
    (by simp [close])
  obtain rfl : j = 1 := by
    by_contra hne
    obtain rfl : j = 0 := by omega
    simp [close, Fds.std] at hnone
  rw [he]
  simp [close, Fds.std]

/-- A descriptor that is free is not 0 or 1. -/
theorem std_eq_none {i o : Handle} (h : t.std i o k = none) : k ≠ 0 ∧ k ≠ 1 ∧ t k = none := by
  unfold Fds.std at h
  by_cases h1 : k = 1
  · simp [h1] at h
  · by_cases h0 : k = 0
    · simp [h0] at h
    · simpa [h0, h1] using h

section

-- `main` closes what it opened as descriptor 3 or above
variable (h3 : t 3 = none) (h4 : t 4 = none)
include h3 h4

/-- The children of a pipeline have one end each, and the rest of the table as it was. -/
theorem pipe_std (i o : Handle) (place : List Bool) :
    ∃ r w t', pipe (t.std i o) place = some (r, w, t') ∧
      close (close (dup (close t' 1) w) r) w = t.std i (.writeEnd place) ∧
      close (close (dup (close t' 0) r) r) w = t.std (.readEnd place) o := by
  obtain ⟨r, hr3, hr, er⟩ := exists_fdalloc (t := t.std i o) (k := 3) (.readEnd place) (by decide)
    (by simpa [Fds.std] using h3)
  have h4r : 4 ≠ r := by omega
  obtain ⟨w, -, hw, ew⟩ := exists_fdalloc (t := update (t.std i o) r (some (.readEnd place)))
    (k := 4) (.writeEnd place) (by decide) (by simpa [Fds.std, h4r] using h4)
  have hne : w ≠ r := by
    rintro rfl
    simp at hw
  rw [update_of_ne hne] at hw
  obtain ⟨hr0, hr1, hr⟩ := std_eq_none hr
  obtain ⟨hw0, hw1, hw⟩ := std_eq_none hw
  -- the new table has the same standard input and output
  let u : Fds := update (update t r (some (.readEnd place))) w (some (.writeEnd place))
  have hu : update (update (t.std i o) r (some (.readEnd place))) w (some (.writeEnd place)) =
      u.std i o := by
    simp only [Fds.std, u]
    rw [update_comm hr1.symm, update_comm hr0.symm, update_comm hw1.symm, update_comm hw0.symm]
  have hback : ∀ i o, close (close (u.std i o) r) w = t.std i o := by
    intro i o
    funext x
    by_cases hxw : x = w
    · simp [close, Fds.std, hxw, hw0, hw1, hw]
    · by_cases hxr : x = r
      · simp [close, Fds.std, hxr, hne.symm, hr0, hr1, hr]
      · simp [close, Fds.std, u, update_apply, hxw, hxr]
  refine ⟨r, w, u.std i o, ?_, ?_, ?_⟩
  · simp [pipe, er, ew, hu]
  · have : close (u.std i o) 1 w = some (.writeEnd place) := by simp [close, Fds.std, u, hw0, hw1]
    rw [dup, this, Option.bind_some, fdalloc_close_one]
    exact hback i _
  · have : close (u.std i o) 0 r = some (.readEnd place) := by
      simp [close, Fds.std, u, hr0, hr1, hne.symm]
    rw [dup, this, Option.bind_some, fdalloc_close_zero]
    exact hback _ o

/-! ## Commands -/

theorem runcmd_wires (hv : tree.Valid) (place : List Bool) (i o : Handle) :
    runcmd v tree place (t.std i o) =
      (wires v tree place i o).map fun x => (x.1, t.std x.2.1 x.2.2) := by
  induction tree generalizing place i o with
  | exec argv =>
    unfold runcmd wires
    split <;> rfl
  | redir cmd file mode fd ih =>
    unfold runcmd wires
    by_cases hopen : v.opens place file mode = true
    · rw [if_pos hopen, if_pos hopen]
      rcases hv.2.2 with ⟨-, rfl⟩ | ⟨-, rfl⟩
      · rw [fdalloc_close_zero, if_pos rfl]
        exact ih hv.1 _ _ _
      · rw [fdalloc_close_one, if_neg one_ne_zero]
        exact ih hv.1 _ _ _
    · rw [if_neg hopen, if_neg hopen]
      rfl
  | pipe left right ihl ihr =>
    obtain ⟨r, w, t', hp, hleft, hright⟩ := pipe_std h3 h4 i o place
    unfold runcmd wires
    by_cases hpipes : v.pipes place = true
    · rw [if_pos hpipes, hp]
      dsimp only
      rw [hleft, hright, ihl hv.1, ihr hv.2]
      simp only [hpipes, true_and]
      split
      · split <;> simp
      · rfl
    · simp [hpipes]
  | list left right ihl ihr =>
    unfold runcmd wires
    rw [ihl hv.1, ihr hv.2]
    split <;> simp
  | back cmd ih =>
    unfold runcmd wires
    rw [ih hv]
    split <;> rfl

/-- **Shell**: a line of the grammar is parsed, and runs each program of its tree with the input and
    the output that the tree says; no other descriptor is opened or closed. -/
theorem parsecmd_runcmd {buf : List UInt8} (hbuf : 0 ∈ buf)
    (hline : Derives .line (lex (cstr buf 0)) tree) (v : Env) (i o : Handle) :
    ∃ cmd buf', parsecmd buf = .ok (cmd, buf') ∧ runcmd v (strings buf' cmd) [] (t.std i o) =
      (wires v tree [] i o).map fun x => (x.1, t.std x.2.1 x.2.2) := by
  obtain ⟨cmd, buf', hrun, rfl⟩ := parsecmd_of_derives hbuf hline
  have hnz : ∀ c ∈ cstr buf 0, c ≠ 0 := fun c hc => by simpa using List.mem_takeWhile_imp hc
  exact ⟨cmd, buf', hrun, runcmd_wires h3 h4 (hline.valid (word_of_mem_lex _ hnz)) [] i o⟩

end

/-- `(a)|(b)`. -/
theorem parsecmd_runcmd_pipeline : ∃ cmd buf',
    parsecmd [40, 97, 41, 124, 40, 98, 41, 0] = .ok (cmd, buf') ∧
    runcmd ⟨fun _ _ _ => true, fun _ => true, fun _ => true⟩ (strings buf' cmd) []
        (Fds.std (fun _ => none) (.inherited 0) (.inherited 1)) =
      [([[97]], Fds.std (fun _ => none) (.inherited 0) (.writeEnd [])),
        ([[98]], Fds.std (fun _ => none) (.readEnd []) (.inherited 1))] := by
  let tree : Cmd (List UInt8) := .pipe (.exec [[97]]) (.exec [[98]])
  have hlex : lex (cstr [40, 97, 41, 124, 40, 98, 41, 0] 0) = printed tree := by decide +kernel
  have hline : Derives .line (lex (cstr [40, 97, 41, 124, 40, 98, 41, 0] 0)) tree := by
    rw [hlex]
    exact derives_printed (by simp [tree, Cmd.Valid, Word]; decide)
  exact parsecmd_runcmd (t := fun _ => none) rfl rfl (by decide) hline _ _ _

end Xv6.Shell
