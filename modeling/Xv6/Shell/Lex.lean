import Mathlib.Data.List.Basic
import Mathlib.Data.List.TakeWhile

/-! # Tokens of the shell

    `gettoken` and `peek` of `sh.c` on the line that is parsed. All pointers point into this line,
    so a pointer is the rest of the line from there on, and `es` is the empty rest.

    What they should do is said by `lex`, the tokens of a line. Both move through the line token by
    token: this is all the parser needs of them.
-/

namespace Xv6.Shell

open List

/-! ## Model -/

/-- A pointer into the line. -/
abbrev Ptr := List UInt8

/-- `" \t\r\n\v"`. -/
def whitespace : List UInt8 := [32, 9, 13, 10, 11]

abbrev cLt : UInt8 := 60
abbrev cBar : UInt8 := 124
abbrev cGt : UInt8 := 62
abbrev cAmp : UInt8 := 38
abbrev cSemi : UInt8 := 59
abbrev cLpar : UInt8 := 40
abbrev cRpar : UInt8 := 41

/-- `"<|>&;()"`. -/
def symbols : List UInt8 := [cLt, cBar, cGt, cAmp, cSemi, cLpar, cRpar]

/-- What `gettoken` returns for `>>`, and for a word. -/
abbrev cPlus : UInt8 := 43
abbrev cWord : UInt8 := 97

def white (c : UInt8) : Bool := whitespace.contains c
def plain (c : UInt8) : Bool := !white c && !symbols.contains c

/-- The loop over blanks. -/
def skip (s : Ptr) : Ptr := s.dropWhile white

/-- The `switch` of `gettoken`: the result and the end of the token. -/
def classify : Ptr → UInt8 × Ptr
  | [] => (0, [])
  | c :: s =>
      if c = cBar ∨ c = cLpar ∨ c = cRpar ∨ c = cSemi ∨ c = cAmp ∨ c = cLt then (c, s)
      else if c = cGt then
        match s with
        | [] => (cGt, s)
        | d :: s' => if d = cGt then (cPlus, s') else (cGt, s)
      else (cWord, (c :: s).dropWhile plain)

/-- `gettoken`: the result, `*q`, `*eq` and the new `*ps`. -/
def gettoken (s : Ptr) : UInt8 × Ptr × Ptr × Ptr :=
  let q := skip s
  let (ret, eq) := classify q
  (ret, q, eq, skip eq)

/-- `peek`: the result and the new `*ps`. -/
def peek (s : Ptr) (toks : List UInt8) : Bool × Ptr :=
  let s := skip s
  (match s with
    | [] => false
    | c :: _ => toks.contains c, s)

/-! ## Tokens -/

inductive Token where
  | bar | lpar | rpar | semi | amp | lt | gt | gtgt
  | word (w : List UInt8)
  deriving DecidableEq

/-- The first character of a token that is not a word. -/
def Token.lead : Token → Option UInt8
  | .bar => some cBar
  | .lpar => some cLpar
  | .rpar => some cRpar
  | .semi => some cSemi
  | .amp => some cAmp
  | .lt => some cLt
  | .gt | .gtgt => some cGt
  | .word _ => none

/-- What `gettoken` returns for a token. -/
def Token.code : Token → UInt8
  | .gtgt => cPlus
  | .word _ => cWord
  | t => t.lead.getD 0

/-- The tokens of one character. -/
def symbol (c : UInt8) : Option Token :=
  if c = cBar then some .bar
  else if c = cLpar then some .lpar
  else if c = cRpar then some .rpar
  else if c = cSemi then some .semi
  else if c = cAmp then some .amp
  else if c = cLt then some .lt
  else none

theorem length_dropWhile_le (q : UInt8 → Bool) (s : List UInt8) :
    (s.dropWhile q).length ≤ s.length :=
  (dropWhile_suffix q).length_le

/-- The tokens of a line. A word is a run of characters that are neither blanks nor symbols, as long
    as possible. -/
def lex : List UInt8 → List Token
  | [] => []
  | c :: s =>
      if white c then lex s
      else if c = cGt then
        match s with
        | [] => [.gt]
        | d :: s' => if d = cGt then .gtgt :: lex s' else .gt :: lex (d :: s')
      else
        match symbol c with
        | some t => t :: lex s
        | none => .word (c :: s.takeWhile plain) :: lex (s.dropWhile plain)
  termination_by s => s.length
  decreasing_by
    · exact Nat.lt_succ_self _
    · exact Nat.lt_succ_of_lt (Nat.lt_succ_self _)
    · exact Nat.lt_succ_self _
    · exact Nat.lt_succ_self _
    · exact Nat.lt_succ_of_le (length_dropWhile_le plain _)

/-! ## The functions move by tokens -/

theorem lex_nil : lex [] = [] := by
  rw [lex]

theorem lex_cons (c : UInt8) (s : Ptr) : lex (c :: s) =
    if white c then lex s
    else if c = cGt then
      match s with
      | [] => [.gt]
      | d :: s' => if d = cGt then .gtgt :: lex s' else .gt :: lex (d :: s')
    else
      match symbol c with
      | some t => t :: lex s
      | none => .word (c :: s.takeWhile plain) :: lex (s.dropWhile plain) := by
  rw [lex.eq_def]
  rfl

theorem classify_cons (c : UInt8) (s : Ptr) : classify (c :: s) =
    if c = cBar ∨ c = cLpar ∨ c = cRpar ∨ c = cSemi ∨ c = cAmp ∨ c = cLt then (c, s)
    else if c = cGt then
      match s with
      | [] => (cGt, s)
      | d :: s' => if d = cGt then (cPlus, s') else (cGt, s)
    else (cWord, (c :: s).dropWhile plain) := rfl

variable {c : UInt8} {s : Ptr}

theorem lex_white (h : white c = true) : lex (c :: s) = lex s := by
  rw [lex_cons, if_pos h]

/-- Blanks are not tokens. -/
theorem lex_skip (s : Ptr) : lex (skip s) = lex s := by
  induction s with
  | nil => rfl
  | cons c s ih =>
    unfold skip at ih ⊢
    by_cases h : white c = true
    · rw [dropWhile_cons_of_pos h, lex_white h]
      exact ih
    · rw [dropWhile_cons_of_neg h]

theorem skip_head : ∀ c ∈ (skip s).head?, white c = false := by
  intro c hc
  have := head?_dropWhile_not white s
  unfold skip at hc
  cases hs : (s.dropWhile white).head? with
  | none =>
    rw [hs] at hc
    cases hc
  | some d =>
    rw [hs] at hc this
    cases hc
    simpa using this

theorem skip_suffix (s : Ptr) : skip s <:+ s := dropWhile_suffix _

variable {t : Token}

/-- A symbol is no blank and stands for itself. -/
theorem symbol_some (h : symbol c = some t) :
    white c = false ∧ c ≠ cGt ∧ t.lead = some c ∧ t.code = c ∧
    (c = cBar ∨ c = cLpar ∨ c = cRpar ∨ c = cSemi ∨ c = cAmp ∨ c = cLt) := by
  unfold symbol at h
  iterate 6
    split at h
    · next hc => subst hc; cases h; decide
  cases h

/-- Neither a blank nor a symbol. -/
theorem plain_of_symbol_none (hw : white c = false) (hg : c ≠ cGt) (h : symbol c = none) :
    plain c = true ∧
    ¬ (c = cBar ∨ c = cLpar ∨ c = cRpar ∨ c = cSemi ∨ c = cAmp ∨ c = cLt) := by
  have hno : ¬ (c = cBar ∨ c = cLpar ∨ c = cRpar ∨ c = cSemi ∨ c = cAmp ∨ c = cLt) := by
    rintro (rfl | rfl | rfl | rfl | rfl | rfl) <;> exact absurd h (by decide)
  refine ⟨?_, hno⟩
  simp only [not_or] at hno
  simp [plain, hw, symbols, hg, hno]

theorem not_plain_of_lead (h : t.lead = some c) : plain c = false := by
  cases t
  all_goals first
    | (cases h; decide)
    | cases h

/-- A word in the line: from `q` up to `eq`, as long as possible. -/
structure WordAt (w : List UInt8) (q eq : Ptr) : Prop where
  split : q = w ++ eq
  ne    : w ≠ []
  plain : ∀ c ∈ w, plain c = true
  stop  : ∀ c ∈ eq.head?, Shell.plain c = false

/-- What `gettoken` finds at a place that is not blank. -/
theorem classify_spec {q : Ptr} (hq : ∀ c ∈ q.head?, white c = false) (hne : q ≠ []) :
    ∃ t, lex q = t :: lex (classify q).2 ∧ (classify q).1 = t.code ∧
      (classify q).2.length < q.length ∧ (classify q).2 <:+ q ∧
      (∀ w, t = .word w → WordAt w q (classify q).2) ∧
      (q.head? = t.lead ∨ (t.lead = none ∧ ∀ c ∈ q.head?, plain c = true)) := by
  cases q with
  | nil => exact absurd rfl hne
  | cons c s =>
    have hw : white c = false := hq c rfl
    rw [lex_cons, if_neg (by simp [hw])]
    by_cases hg : c = cGt
    · subst hg
      have hno : ¬ (cGt = cBar ∨ cGt = cLpar ∨ cGt = cRpar ∨ cGt = cSemi ∨ cGt = cAmp ∨
        cGt = cLt) := by decide
      rw [if_pos rfl, classify_cons, if_neg hno, if_pos rfl]
      cases s with
      | nil =>
        exact ⟨.gt, by rw [lex_nil], rfl, Nat.lt_succ_self _, suffix_cons _ _,
          (fun w h => nomatch h), .inl rfl⟩
      | cons d s =>
        dsimp only
        by_cases hd : d = cGt
        · rw [if_pos hd, if_pos hd]
          exact ⟨.gtgt, rfl, rfl, Nat.lt_succ_of_lt (Nat.lt_succ_self _),
            (suffix_cons _ _).trans (suffix_cons _ _), (fun w h => nomatch h), .inl rfl⟩
        · rw [if_neg hd, if_neg hd]
          exact ⟨.gt, rfl, rfl, Nat.lt_succ_self _, suffix_cons _ _,
            (fun w h => nomatch h), .inl rfl⟩
    · rw [if_neg hg]
      cases hs : symbol c with
      | some t =>
        obtain ⟨-, -, hlead, hcode, hcase⟩ := symbol_some hs
        rw [classify_cons, if_pos hcase]
        refine ⟨t, rfl, hcode.symm, Nat.lt_succ_self _, suffix_cons _ _, fun w h => ?_,
          .inl hlead.symm⟩
        rw [h] at hlead
        cases hlead
      | none =>
        obtain ⟨hplain, hno⟩ := plain_of_symbol_none hw hg hs
        rw [classify_cons, if_neg hno, if_neg hg, dropWhile_cons_of_pos hplain]
        refine ⟨_, rfl, rfl, Nat.lt_succ_of_le (length_dropWhile_le plain s), (dropWhile_suffix
          _).trans (suffix_cons _ _), fun w h => ?_, .inr ⟨rfl, fun d hd => ?_⟩⟩
        · obtain rfl : c :: s.takeWhile plain = w := Token.word.inj h
          refine ⟨?_, cons_ne_nil _ _, fun d hd => ?_, fun d hd => ?_⟩
          · rw [cons_append, takeWhile_append_dropWhile]
          · rcases mem_cons.mp hd with rfl | hd
            · exact hplain
            · exact mem_takeWhile_imp hd
          · have := head?_dropWhile_not plain s
            rw [hd] at this
            simpa using this
        · cases hd
          exact hplain

/-- `gettoken` takes the first token. -/
theorem gettoken_spec (s : Ptr) :
    (lex s = [] ∧ ∃ q eq s', gettoken s = (0, q, eq, s') ∧ s' = []) ∨
    ∃ t q eq s', gettoken s = (t.code, q, eq, s') ∧ lex s = t :: lex s' ∧ s' <:+ s ∧ q <:+ s ∧
      ∀ w, t = .word w → WordAt w q eq := by
  cases hq : skip s with
  | nil =>
    refine .inl ⟨?_, [], [], [], ?_, rfl⟩
    · rw [← lex_skip, hq, lex_nil]
    · rw [gettoken, hq]
      rfl
  | cons c r =>
    obtain ⟨t, hlex, hcode, -, hsuf, hword, -⟩ :=
      classify_spec (q := skip s) skip_head (by rw [hq]; exact cons_ne_nil _ _)
    refine .inr ⟨t, skip s, (classify (skip s)).2, skip (classify (skip s)).2, ?_, ?_, ?_,
      skip_suffix s, hword⟩
    · rw [gettoken, ← hcode]
    · rw [← lex_skip s, hlex, lex_skip]
    · exact (skip_suffix _).trans (hsuf.trans (skip_suffix s))

/-- `peek` looks at the first token. -/
theorem peek_spec (s : Ptr) (toks : List UInt8) (htoks : toks.all (!plain ·) = true) :
    ∃ s', peek s toks = ((lex s).head?.any fun t => t.lead.any toks.contains, s') ∧
      lex s' = lex s ∧ s' <:+ s := by
  refine ⟨skip s, ?_, lex_skip s, skip_suffix s⟩
  unfold peek
  dsimp only
  congr 1
  cases hq : skip s with
  | nil => rw [← lex_skip, hq, lex_nil]; rfl
  | cons c r =>
    obtain ⟨t, hlex, -, -, -, -, hlead⟩ :=
      classify_spec (q := skip s) skip_head (by rw [hq]; exact cons_ne_nil _ _)
    rw [← lex_skip s, hlex]
    rw [hq] at hlead
    dsimp only [head?_cons, Option.any_some]
    rcases hlead with hlead | ⟨hnone, hplain⟩
    · rw [← hlead]
      rfl
    · -- a word starts with none of these characters
      rw [hnone]
      show toks.contains c = false
      by_contra hc
      have hmem : c ∈ toks := by simpa using hc
      have hp := hplain c rfl
      have hn := all_eq_true.mp htoks c hmem
      rw [hp] at hn
      cases hn

end Xv6.Shell
