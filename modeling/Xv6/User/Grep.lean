import Mathlib.Computability.Language
import Xv6.Param

/-! # grep

    `grep.c`: the matcher `match`, `matchhere` and `matchstar`, and the loop that cuts the input
    into lines. A C string is the list of its bytes before the NUL, and moving a pointer on is
    dropping a byte.

    `match_iff_language` gives the matcher its meaning as a regular language. `grep_iff_newline`
    says for which ways of reading the loop writes the lines that match: a read that brings no
    newline loses what the buffer holds.
-/

namespace Xv6.Grep

open Computability List

def caret : UInt8 := 94
def dollar : UInt8 := 36
def star : UInt8 := 42
def dot : UInt8 := 46
def newline : UInt8 := 10

/-! ## The matcher -/

mutual

def matchhere : List UInt8 → List UInt8 → Bool
  | [], _ => true
  | c :: re, text =>
    if re.head? = some star then matchstar c re.tail text
    else if c = dollar ∧ re = [] then text.isEmpty
    else
      match text with
      | [] => false
      | x :: rest => (c == dot || c == x) && matchhere re rest
termination_by re text => (re.length, text.length, 0)

def matchstar (c : UInt8) (re : List UInt8) : List UInt8 → Bool
  | [] => matchhere re []
  | x :: rest => matchhere re (x :: rest) || ((x == c || c == dot) && matchstar c re rest)
termination_by text => (re.length, text.length, 1)

end

/-- The loop of `match`, which also looks at the empty rest. -/
def matchFrom (re : List UInt8) : List UInt8 → Bool
  | [] => matchhere re []
  | x :: rest => matchhere re (x :: rest) || matchFrom re rest

/-- `match`. -/
def match_ (re text : List UInt8) : Bool :=
  if re.head? = some caret then matchhere re.tail text else matchFrom re text

/-! ## The language of a pattern -/

/-- `.` stands for any character, any other character for itself. -/
def Accepts (c x : UInt8) : Prop := c = dot ∨ x = c

/-- The words of one item. -/
def item (c : UInt8) : Language UInt8 := {w | ∃ x, Accepts c x ∧ w = [x]}

/-- The words of a pattern, read from the left. -/
def language : List UInt8 → Language UInt8
  | [] => 1
  | c :: re =>
    if re.head? = some star then (item c)∗ * language re.tail
    else if c = dollar ∧ re = [] then 1
    else item c * language re
termination_by re => re.length

/-- The pattern ends in a `$` that is an item of its own. -/
def AtEnd : List UInt8 → Prop
  | [] => False
  | c :: re =>
    if re.head? = some star then AtEnd re.tail else c = dollar ∧ re = [] ∨ AtEnd re
termination_by re => re.length

/-- Some word of the pattern starts the text, and is all of it after a `$`. -/
def Starts (re text : List UInt8) : Prop :=
  ∃ w v, text = w ++ v ∧ w ∈ language re ∧ (AtEnd re → v = [])

variable {c x : UInt8} {re text rest : List UInt8}

theorem mem_kstar_item {w : List UInt8} : w ∈ (item c)∗ ↔ ∀ x ∈ w, Accepts c x := by
  rw [Language.mem_kstar]
  constructor
  · rintro ⟨words, rfl, hwords⟩ x hx
    obtain ⟨word, hword, hx⟩ := mem_flatten.1 hx
    obtain ⟨y, hy, rfl⟩ := hwords word hword
    rwa [mem_singleton.1 hx]
  · intro h
    refine ⟨w.map ([·]), flatMap_singleton' w |>.symm, ?_⟩
    intro word hword
    obtain ⟨x, hx, rfl⟩ := mem_map.1 hword
    exact ⟨x, h x hx, rfl⟩

theorem starts_nil : Starts [] text :=
  ⟨[], text, rfl, by rw [language]; rfl, by simp [AtEnd]⟩

theorem starts_star (hstar : re.head? = some star) : Starts (c :: re) text ↔
    ∃ u rest, text = u ++ rest ∧ (∀ x ∈ u, Accepts c x) ∧ Starts re.tail rest := by
  simp only [Starts, language, AtEnd, if_pos hstar, Language.mem_mul, mem_kstar_item]
  constructor
  · rintro ⟨_, v, rfl, ⟨u, hu, w, hw, rfl⟩, hend⟩
    exact ⟨u, w ++ v, append_assoc .., hu, w, v, rfl, hw, hend⟩
  · rintro ⟨u, _, rfl, hu, w, v, rfl, hw, hend⟩
    exact ⟨u ++ w, v, (append_assoc ..).symm, ⟨u, hu, w, hw, rfl⟩, hend⟩

theorem starts_dollar : Starts [dollar] text ↔ text = [] := by
  simp [Starts, language, AtEnd, Language.mem_one, dollar]

theorem starts_item (hstar : re.head? ≠ some star) (hend : ¬(c = dollar ∧ re = [])) :
    Starts (c :: re) text ↔ ∃ x rest, text = x :: rest ∧ Accepts c x ∧ Starts re rest := by
  simp only [Starts, language, AtEnd, if_neg hstar, hend, false_or]
  constructor
  · rintro ⟨_, v, rfl, ⟨_, ⟨x, hx, rfl⟩, w, hw, rfl⟩, hv⟩
    exact ⟨x, w ++ v, rfl, hx, w, v, rfl, hw, hv⟩
  · rintro ⟨x, _, rfl, hx, w, v, rfl, hw, hv⟩
    exact ⟨x :: w, v, rfl, ⟨[x], ⟨x, hx, rfl⟩, w, hw, rfl⟩, hv⟩

/-! ## The matcher decides the language -/

/-- `matchstar` tries every number of copies. -/
theorem matchstar_iff (hhere : ∀ text, matchhere re text = true ↔ Starts re text) :
    matchstar c re text = true ↔
      ∃ u rest, text = u ++ rest ∧ (∀ x ∈ u, Accepts c x) ∧ Starts re rest := by
  induction text with
  | nil =>
    rw [matchstar, hhere]
    constructor
    · intro h
      exact ⟨[], [], rfl, by simp, h⟩
    · rintro ⟨u, rest, hsplit, -, h⟩
      obtain ⟨-, rfl⟩ := append_eq_nil_iff.1 hsplit.symm
      exact h
  | cons x text ih =>
    have haccepts : (x == c || c == dot) = true ↔ Accepts c x := by
      simp [Accepts, or_comm]
    rw [matchstar, Bool.or_eq_true, Bool.and_eq_true, hhere, haccepts, ih]
    constructor
    · rintro (h | ⟨hx, u, rest, rfl, hu, h⟩)
      · exact ⟨[], x :: text, rfl, by simp, h⟩
      · exact ⟨x :: u, rest, rfl, by simpa using ⟨hx, hu⟩, h⟩
    · rintro ⟨u, rest, hsplit, hu, h⟩
      cases u with
      | nil => exact .inl (hsplit ▸ h)
      | cons y u =>
        cases hsplit
        exact .inr ⟨hu x (by simp), u, rest, rfl, fun y hy => hu y (by simp [hy]), h⟩

theorem matchhere_iff (re text : List UInt8) : matchhere re text = true ↔ Starts re text := by
  -- a star consumes two characters of the pattern at once
  induction hlen : re.length using Nat.strong_induction_on generalizing re text with
  | _ n ih =>
    cases re with
    | nil => simp [matchhere, starts_nil]
    | cons c re =>
      rw [length_cons] at hlen
      rw [matchhere.eq_def]
      dsimp only
      by_cases hstar : re.head? = some star
      · rw [if_pos hstar, starts_star hstar]
        exact matchstar_iff fun text => ih re.tail.length (by simp; omega) _ text rfl
      · rw [if_neg hstar]
        by_cases hend : c = dollar ∧ re = []
        · obtain ⟨rfl, rfl⟩ := hend
          rw [if_pos ⟨rfl, rfl⟩, starts_dollar, List.isEmpty_iff]
        · rw [if_neg hend, starts_item hstar hend]
          cases text with
          | nil => simp
          | cons x text =>
            have haccepts : (c == dot || c == x) = true ↔ Accepts c x := by
              rw [Bool.or_eq_true, beq_iff_eq, beq_iff_eq, Accepts, @eq_comm _ x]
            simp only [Bool.and_eq_true, haccepts, ih re.length (by omega) re text rfl, cons.injEq]
            exact ⟨fun h => ⟨x, text, ⟨rfl, rfl⟩, h⟩, fun ⟨_, _, ⟨hx, ht⟩, h⟩ => hx ▸ ht ▸ h⟩

theorem matchFrom_iff : matchFrom re text = true ↔ ∃ u rest, text = u ++ rest ∧ Starts re rest := by
  induction text with
  | nil => simp [matchFrom, matchhere_iff]
  | cons x text ih =>
    rw [matchFrom, Bool.or_eq_true, matchhere_iff, ih]
    constructor
    · rintro (h | ⟨u, rest, rfl, h⟩)
      · exact ⟨[], x :: text, rfl, h⟩
      · exact ⟨x :: u, rest, rfl, h⟩
    · rintro ⟨u, rest, hsplit, h⟩
      cases u with
      | nil => exact .inl (hsplit ▸ h)
      | cons y u =>
        cases hsplit
        exact .inr ⟨u, rest, rfl, h⟩

/-- `match` answers whether a word of the pattern lies in the text: at its start
    after a `^`, and at its end before a `$`. -/
theorem match_iff_language (re text : List UInt8) : match_ re text = true ↔
    if re.head? = some caret then
      ∃ w v, text = w ++ v ∧ w ∈ language re.tail ∧ (AtEnd re.tail → v = [])
    else ∃ u w v, text = u ++ (w ++ v) ∧ w ∈ language re ∧ (AtEnd re → v = []) := by
  unfold match_
  by_cases hcaret : re.head? = some caret
  · rw [if_pos hcaret, if_pos hcaret, matchhere_iff, Starts]
  · rw [if_neg hcaret, if_neg hcaret, matchFrom_iff]
    constructor
    · rintro ⟨u, _, rfl, w, v, rfl, h⟩
      exact ⟨u, w, v, rfl, h⟩
    · rintro ⟨u, w, v, rfl, h⟩
      exact ⟨u, w ++ v, rfl, w, v, rfl, h⟩

/-! ## The loop of `grep` -/

/-- The inner loop: the bytes from `p` on, of which `line` has been passed on the way to the next
    newline. What it writes. -/
def written (pattern : List UInt8) : List UInt8 → List UInt8 → List UInt8
  | _, [] => []
  | line, c :: rest =>
    if c = newline then
      (if match_ pattern line then line ++ [newline] else []) ++ written pattern [] rest
    else written pattern (line ++ [c]) rest

/-- The bytes after the last newline, where the inner loop leaves `p`. -/
def leftOver : List UInt8 → List UInt8 → List UInt8
  | line, [] => line
  | line, c :: rest => if c = newline then leftOver [] rest else leftOver (line ++ [c]) rest

/-- The first `m` bytes of `buf` at the next `read`: without a newline `p == buf`,
    and `m` becomes 0. -/
def held (buf : List UInt8) : List UInt8 := if newline ∈ buf then leftOver [] buf else []

/-- `grep`: `buf` is what the buffer holds, and `chunks` what the reads bring.
    Where the buffer is full, `read` is asked for nothing and the loop ends. -/
def grep (pattern : List UInt8) : List UInt8 → List (List UInt8) → List UInt8
  | _, [] => []
  | buf, chunk :: chunks =>
    if buf.length = 1023 then []
    else written pattern [] (buf ++ chunk) ++ grep pattern (held (buf ++ chunk)) chunks

/-- Each read brings something, and no more than it was asked for. -/
def Reads : List UInt8 → List (List UInt8) → Prop
  | _, [] => True
  | buf, chunk :: chunks =>
    chunk ≠ [] ∧ buf.length + chunk.length ≤ 1023 ∧ Reads (held (buf ++ chunk)) chunks

variable {pattern line a b buf : List UInt8} {chunks lines : List (List UInt8)}

theorem written_append :
    written pattern line (a ++ b) = written pattern line a ++ written pattern
      (leftOver line a) b := by
  induction a generalizing line with
  | nil => rfl
  | cons c a ih =>
    rw [cons_append, written, written, leftOver]
    by_cases hc : c = newline
    · rw [if_pos hc, if_pos hc, if_pos hc, ih, append_assoc]
    · rw [if_neg hc, if_neg hc, if_neg hc, ih]

theorem leftOver_append : leftOver line (a ++ b) = leftOver (leftOver line a) b := by
  induction a generalizing line with
  | nil => rfl
  | cons c a ih =>
    rw [cons_append, leftOver, leftOver]
    split <;> exact ih

theorem written_of_notMem (hline : newline ∉ a) : written pattern line a = [] := by
  induction a generalizing line with
  | nil => rfl
  | cons c a ih =>
    rw [written, if_neg fun h => hline (by simp [h])]
    exact ih fun h => hline (mem_cons_of_mem _ h)

theorem leftOver_of_notMem (hline : newline ∉ a) : leftOver line a = line ++ a := by
  induction a generalizing line with
  | nil => exact (append_nil _).symm
  | cons c a ih =>
    rw [leftOver, if_neg fun h => hline (by simp [h]),
      ih fun h => hline (mem_cons_of_mem _ h), append_assoc]
    rfl

theorem newline_notMem_leftOver (hline : newline ∉ line) : newline ∉ leftOver line a := by
  induction a generalizing line with
  | nil => exact hline
  | cons c a ih =>
    rw [leftOver]
    by_cases hc : c = newline
    · rw [if_pos hc]
      exact ih not_mem_nil
    · rw [if_neg hc]
      exact ih (by simpa [hline] using Ne.symm hc)

theorem newline_notMem_held : newline ∉ held buf := by
  unfold held
  split
  · exact newline_notMem_leftOver not_mem_nil
  · exact not_mem_nil

/-- The buffer's bytes are the start of the line that the next bytes continue. -/
theorem written_buf (hbuf : newline ∉ buf) :
    written pattern [] (buf ++ a) = written pattern buf a := by
  rw [written_append, written_of_notMem hbuf, leftOver_of_notMem hbuf]
  rfl

theorem leftOver_buf (hbuf : newline ∉ buf) : leftOver [] (buf ++ a) = leftOver buf a := by
  rw [leftOver_append, leftOver_of_notMem hbuf]
  rfl

theorem grep_eq_written (hbuf : newline ∉ buf) (hreads : Reads buf chunks)
    (hnewline : ∀ chunk ∈ chunks, newline ∈ chunk) :
    grep pattern buf chunks = written pattern buf chunks.flatten := by
  induction chunks generalizing buf with
  | nil => rfl
  | cons chunk chunks ih =>
    obtain ⟨hne, hasked, hreads⟩ := hreads
    have hpos := length_pos_iff.2 hne
    have hheld : held (buf ++ chunk) = leftOver buf chunk := by
      rw [held, if_pos (mem_append_right _ (hnewline _ (by simp))), leftOver_buf hbuf]
    rw [grep, if_neg (by omega), flatten_cons, written_buf hbuf, written_append,
      ih newline_notMem_held hreads (fun c hc => hnewline c (by simp [hc])), hheld]

/-- A stream of lines, and the lines of it that match. -/
theorem written_lines (hlines : ∀ l ∈ lines, newline ∉ l) :
    written pattern [] (lines.flatMap (· ++ [newline])) =
      (lines.filter (match_ pattern)).flatMap (· ++ [newline]) := by
  induction lines with
  | nil => rfl
  | cons l lines ih =>
    have hl : newline ∉ l := hlines l (by simp)
    rw [flatMap_cons, append_assoc, written_buf hl, singleton_append, written,
      if_pos rfl, ih fun l hl => hlines l (by simp [hl]), filter_cons]
    split <;> simp

theorem match_nil (text : List UInt8) : match_ [] text = true := by
  cases text <;> simp [match_, matchFrom, matchhere]

/-- The empty pattern is in every line, so what is not written was lost. -/
theorem length_written (line a : List UInt8) :
    (written [] line a).length + (leftOver line a).length = line.length + a.length := by
  induction a generalizing line with
  | nil => simp [written, leftOver]
  | cons c a ih =>
    rw [written, leftOver, length_cons]
    by_cases hc : c = newline
    · have := ih []
      simp only [if_pos hc, if_pos (match_nil line), length_append, length_cons, length_nil] at *
      omega
    · have := ih (line ++ [c])
      simp only [if_neg hc, length_append, length_cons, length_nil] at *
      omega

theorem length_grep_le : (grep [] buf chunks).length ≤ buf.length + chunks.flatten.length := by
  induction chunks generalizing buf with
  | nil => exact Nat.zero_le _
  | cons chunk chunks ih =>
    have hround := length_written [] (buf ++ chunk)
    have hrest := @ih (held (buf ++ chunk))
    have hheld : (held (buf ++ chunk)).length ≤ (leftOver [] (buf ++ chunk)).length := by
      unfold held
      split <;> simp
    simp only [length_append, length_nil, flatten_cons, grep] at *
    split
    · exact Nat.zero_le _
    · rw [length_append]
      omega

/-- Where nothing was lost, every read has brought a newline. -/
theorem newline_of_length_grep (hbuf : newline ∉ buf) (hreads : Reads buf chunks)
    (hall : (grep [] buf chunks).length = buf.length + chunks.flatten.length) :
    ∀ chunk ∈ chunks, newline ∈ chunk := by
  induction chunks generalizing buf with
  | nil => simp
  | cons chunk chunks ih =>
    obtain ⟨hne, hasked, hreads⟩ := hreads
    have hpos := length_pos_iff.2 hne
    have hround := length_written [] (buf ++ chunk)
    have hrest : (grep [] (held (buf ++ chunk)) chunks).length ≤ _ := length_grep_le
    rw [grep, if_neg (by omega), length_append, flatten_cons] at hall
    simp only [length_append, length_nil] at hround hall
    have hnew : newline ∈ buf ++ chunk := by
      by_contra hnot
      rw [held, if_neg hnot, length_nil] at hrest
      rw [held, if_neg hnot, written_of_notMem hnot, length_nil] at hall
      omega
    have hchunk : newline ∈ chunk := (mem_append.1 hnew).resolve_left hbuf
    rw [held, if_pos hnew] at hrest hreads hall
    have hothers := ih (newline_notMem_leftOver not_mem_nil) hreads (by omega)
    simpa using ⟨hchunk, hothers⟩

/-- For whole lines, however they are read: `grep` writes the lines that match,
    for every pattern, exactly if every read brings a newline. -/
theorem grep_iff_newline (hlines : ∀ l ∈ lines, newline ∉ l) (hreads : Reads [] chunks)
    (hstream : chunks.flatten = lines.flatMap (· ++ [newline])) :
    (∀ pattern, grep pattern [] chunks = (lines.filter (match_ pattern)).flatMap (· ++ [newline])) ↔
      ∀ chunk ∈ chunks, newline ∈ chunk := by
  constructor
  · intro h chunk hchunk
    have hlen : (grep [] [] chunks).length = chunks.flatten.length := by
      rw [h [], hstream, filter_eq_self.2 fun l _ => match_nil l]
    exact newline_of_length_grep not_mem_nil hreads (by simpa using hlen) chunk hchunk
  · intro h pattern
    rw [grep_eq_written not_mem_nil hreads h, hstream, written_lines hlines]

/-- Two lines in two reads. -/
theorem grep_two_lines : grep [97] [] [[97, 10], [98, 10]] =
    ([[97], [98]].filter (match_ [97])).flatMap (· ++ [newline]) :=
  (@grep_iff_newline [[97, 10], [98, 10]] [[97], [98]] (by simp [newline])
    (by simp [Reads, held, leftOver, newline]) rfl).2 (by simp [newline]) [97]

/-- The line `ab` in two reads: only `b` is written. -/
theorem grep_split_line : grep [] [] [[97], [98, 10]] = [98, 10] ∧
    ([[97, 98]].filter (match_ [])).flatMap (· ++ [newline]) = [97, 98, 10] := by
  simp [grep, written, held, match_nil, newline]

end Xv6.Grep
