import Xv6.Shell.Accepts

/-! # Command lines

    `parsecmd` on a buffer. The words of the tree are pointers into the buffer, and `nulterminate`
    overwrites the character behind each of them, so the tree is what can be read from the buffer
    afterwards.

    Key theorem: `parsecmd_accepts`.
-/

namespace Xv6.Shell

open List

/-! ## Model -/

/-- The string that starts at `p`. -/
def cstr (buf : List UInt8) (p : Nat) : List UInt8 := (buf.drop p).takeWhile (· ≠ 0)

/-- Where a pointer into the line points to. -/
def offset (line p : Ptr) : Nat := line.length - p.length

/-- `nulterminate`. -/
def nulterminate (line : Ptr) : Cmd Span → List UInt8 → List UInt8
  | .exec argv, buf => argv.foldl (fun buf w => buf.set (offset line w.2) 0) buf
  | .redir cmd file _ _, buf => (nulterminate line cmd buf).set (offset line file.2) 0
  | .pipe left right, buf => nulterminate line right (nulterminate line left buf)
  | .list left right, buf => nulterminate line right (nulterminate line left buf)
  | .back cmd, buf => nulterminate line cmd buf

/-- `parsecmd`: the tree, in which a word is the place of its first character, and the buffer. -/
def parsecmd (buf : List UInt8) : Parser (Cmd Nat × List UInt8) :=
  let line := cstr buf 0
  match parseline (4 * line.length + 4) line with
  | .error e => .error e
  | .ok (cmd, s) =>
      match peek s [] with
      | (_, []) => .ok (cmd.map fun w => offset line w.1, nulterminate line cmd buf)
      | (_, _ :: _) => .error (.panic "syntax")

/-- The tree with the strings that its words point to. -/
def strings (buf : List UInt8) (cmd : Cmd Nat) : Cmd (List UInt8) := cmd.map (cstr buf)

/-! ## Words are terminated -/

theorem nulterminate_eq (line : Ptr) (cmd : Cmd Span) : ∀ buf, nulterminate line cmd buf =
    cmd.words.foldl (fun buf w => buf.set (offset line w.2) 0) buf := by
  induction cmd with
  | exec argv => exact fun _ => rfl
  | redir cmd file mode fd ih =>
    intro buf
    rw [nulterminate, ih, Cmd.words, foldl_append]
    rfl
  | pipe left right ihl ihr | list left right ihl ihr =>
    intro buf
    rw [nulterminate, ihr, ihl, Cmd.words, foldl_append]
  | back cmd ih => exact ih

theorem getElem?_foldl_set {α : Type} (pos : α → Nat) (i : Nat) (ws : List α) :
    ∀ buf : List UInt8, (ws.foldl (fun buf w => buf.set (pos w) 0) buf)[i]? =
      if (∃ w ∈ ws, pos w = i) ∧ i < buf.length then some 0 else buf[i]? := by
  induction ws with
  | nil =>
    intro buf
    rw [if_neg]
    · rfl
    · rintro ⟨⟨w, hw, -⟩, -⟩
      cases hw
  | cons w ws ih =>
    intro buf
    rw [foldl_cons, ih, length_set, getElem?_set]
    by_cases hlen : i < buf.length
    · by_cases hrest : ∃ w ∈ ws, pos w = i
      · obtain ⟨v, hv, hpos⟩ := hrest
        rw [if_pos ⟨⟨v, hv, hpos⟩, hlen⟩, if_pos ⟨⟨v, mem_cons_of_mem _ hv, hpos⟩, hlen⟩]
      · rw [if_neg (fun h => hrest h.1)]
        by_cases hw : pos w = i
        · rw [if_pos hw, if_pos (hw ▸ hlen), if_pos ⟨⟨w, mem_cons_self, hw⟩, hlen⟩]
        · rw [if_neg hw, if_neg]
          rintro ⟨⟨v, hv, hpos⟩, -⟩
          rcases mem_cons.mp hv with rfl | hv
          · exact hw hpos
          · exact hrest ⟨v, hv, hpos⟩
    · have hnone : buf[i]? = none := getElem?_eq_none (Nat.le_of_not_lt hlen)
      simp only [hlen, and_false, if_false, hnone]
      split_ifs with hw hin
      · exact absurd (hw ▸ hin) hlen
      · rfl
      · rfl

variable {x : List UInt8}

/-- A string ends at the first NUL. -/
theorem takeWhile_of_getElem? (hx : ∀ c ∈ x, c ≠ 0) : ∀ {l : List UInt8},
    (∀ i < x.length, l[i]? = x[i]?) → l[x.length]? = some 0 → l.takeWhile (· ≠ 0) = x := by
  induction x with
  | nil =>
    intro l _ hend
    cases l with
    | nil => rfl
    | cons c l =>
      cases hend
      rfl
  | cons c x ih =>
    intro l hat hend
    cases l with
    | nil => cases hend
    | cons d l =>
      obtain rfl : d = c := Option.some.inj (hat 0 (Nat.succ_pos _))
      rw [takeWhile_cons_of_pos (by simpa using hx d mem_cons_self)]
      rw [ih (fun e he => hx e (mem_cons_of_mem _ he))
        (fun i hi => hat (i + 1) (Nat.succ_lt_succ hi)) hend]

/-- The NUL behind a word stands on no character of a word. -/
theorem offset_not_in_word {line q eq q' eq' : Ptr} {x' : List UInt8} (hq : q <:+ line)
    (h : WordAt x q eq) (hq' : q' <:+ line) (h' : WordAt x' q' eq') {i : Nat} (hi : i < x.length) :
    offset line eq' ≠ offset line q + i := by
  intro heq
  obtain ⟨pre, rfl⟩ := hq
  obtain ⟨pre', hpre'⟩ := hq'
  rw [h.split] at hpre' heq
  rw [h'.split] at hpre'
  have hoff : offset (pre ++ (x ++ eq)) (x ++ eq) = pre.length := by
    simp [offset]
  have hoff' : offset (pre ++ (x ++ eq)) eq' = (pre' ++ x').length := by
    rw [← hpre', offset, ← append_assoc, length_append, Nat.add_sub_cancel]
  rw [hoff, hoff'] at heq
  -- the character at this place, seen from both words
  have hin : (pre ++ (x ++ eq))[pre.length + i]? = x[i]? := by
    rw [getElem?_append_right (Nat.le_add_right _ _), Nat.add_sub_cancel_left,
      getElem?_append_left hi]
  rw [← hpre', ← heq, ← append_assoc, getElem?_append_right le_rfl,
    Nat.sub_self, getElem?_eq_getElem hi] at hin
  have hstop := h'.stop _ (head?_eq_getElem? (l := eq') ▸ hin)
  rw [h.plain _ (getElem_mem hi)] at hstop
  cases hstop

variable {buf : List UInt8} {cmd : Cmd Span}

theorem cstr_nulterminate (hbuf : 0 ∈ buf) (hspans : ∀ w ∈ cmd.words, SpanIn (cstr buf 0) w)
    {w : Span} (hw : w ∈ cmd.words) :
    cstr (nulterminate (cstr buf 0) cmd buf) (offset (cstr buf 0) w.1) = text w := by
  obtain ⟨hplace, x, hat⟩ := hspans w hw
  rw [WordAt.text_eq hat]
  -- the line, and the NUL behind it
  obtain ⟨junk, hjunk⟩ : ∃ junk, buf = cstr buf 0 ++ 0 :: junk := by
    refine ⟨(buf.dropWhile (· ≠ 0)).tail, ?_⟩
    have hne : buf.dropWhile (· ≠ 0) ≠ [] := by
      intro h
      simpa using dropWhile_eq_nil_iff.mp h 0 hbuf
    have hhead : (buf.dropWhile (· ≠ 0)).head hne = 0 := by
      simpa using head_dropWhile_not (fun c : UInt8 => decide (c ≠ 0)) hne
    conv_lhs => rw [← takeWhile_append_dropWhile (p := (· ≠ 0)) (l := buf),
      ← cons_head_tail hne, hhead]
    rfl
  have hnz : ∀ c ∈ cstr buf 0, c ≠ 0 := fun c hc => by simpa using mem_takeWhile_imp hc
  generalize cstr buf 0 = line at *
  obtain ⟨pre, rfl⟩ := hplace
  have hsplit := hat.split
  have hoff : offset (pre ++ w.1) w.1 = pre.length := by simp [offset]
  have hend : offset (pre ++ w.1) w.2 = pre.length + x.length := by
    rw [offset, hsplit, ← append_assoc, length_append, Nat.add_sub_cancel, length_append]
  have hlen : pre.length + x.length < buf.length := by
    rw [hjunk, hsplit]
    simp only [length_append, length_cons]
    omega
  rw [cstr, nulterminate_eq, hoff]
  refine takeWhile_of_getElem? (fun c hc => hnz c ?_) (fun i hi => ?_) ?_
  · rw [hsplit]
    exact mem_append_right _ (mem_append_left _ hc)
  · rw [getElem?_drop, getElem?_foldl_set fun v : Span => offset (pre ++ w.1) v.2, if_neg]
    · rw [hjunk, hsplit, append_assoc, getElem?_append_right (Nat.le_add_right _ _),
        Nat.add_sub_cancel_left, append_assoc, getElem?_append_left hi]
    · rintro ⟨⟨v, hv, hpos⟩, -⟩
      obtain ⟨hplace', x', hat'⟩ := hspans v hv
      rw [← hoff] at hpos
      exact offset_not_in_word (suffix_append _ _) hat hplace' hat' hi hpos
  · rw [getElem?_drop, getElem?_foldl_set fun v : Span => offset (pre ++ w.1) v.2,
      if_pos ⟨⟨w, hw, hend⟩, hlen⟩]

variable {V W : Type}

theorem Cmd.map_congr {f g : V → W} : ∀ {cmd : Cmd V},
    (∀ w ∈ cmd.words, f w = g w) → cmd.map f = cmd.map g := by
  intro cmd
  induction cmd with
  | exec argv =>
    intro h
    rw [Cmd.map, Cmd.map, map_congr_left (show ∀ w ∈ argv, f w = g w from h)]
  | redir cmd file mode fd ih =>
    intro h
    rw [Cmd.map, Cmd.map, ih (fun w hw => h w (mem_append_left _ hw)),
      h file (mem_append_right _ (mem_singleton_self _))]
  | pipe left right ihl ihr | list left right ihl ihr =>
    intro h
    rw [Cmd.map, Cmd.map, ihl (fun w hw => h w (mem_append_left _ hw)),
      ihr (fun w hw => h w (mem_append_right _ hw))]
  | back cmd ih =>
    intro h
    rw [Cmd.map, Cmd.map, ih h]

theorem Cmd.map_map {U : Type} (f : U → V) (g : V → W) (cmd : Cmd U) :
    (cmd.map f).map g = cmd.map (g ∘ f) := by
  induction cmd with
  | exec argv => simp only [Cmd.map, List.map_map]
  | redir cmd file mode fd ih => simp only [Cmd.map, ih, Function.comp]
  | pipe left right ihl ihr | list left right ihl ihr => simp only [Cmd.map, ihl, ihr]
  | back cmd ih => simp only [Cmd.map, ih]

/-- What can be read from the buffer are the words of the line. -/
theorem strings_nulterminate (hbuf : 0 ∈ buf) (hspans : ∀ w ∈ cmd.words, SpanIn (cstr buf 0) w) :
    strings (nulterminate (cstr buf 0) cmd buf) (cmd.map fun w => offset (cstr buf 0) w.1) =
      cmd.map text := by
  rw [strings, Cmd.map_map]
  exact Cmd.map_congr fun w hw => cstr_nulterminate hbuf hspans hw

/-! ## `parsecmd` -/

theorem need_line_le (line : Ptr) : need .line (lex line) ≤ 4 * line.length + 4 := by
  have := length_lex_le line
  show 4 * (lex line).length + 4 ≤ _
  omega

/-- The final test is whether a token is left. -/
theorem skip_eq_nil_iff (s : Ptr) : skip s = [] ↔ lex s = [] := by
  constructor
  · intro h
    rw [← lex_skip, h, lex_nil]
  · intro h
    by_contra hne
    obtain ⟨t, hlex, -⟩ := classify_spec skip_head hne
    rw [lex_skip, h] at hlex
    cases hlex

variable {s : Ptr}

theorem parsecmd_of_parseline
    (h : parse .line (4 * (cstr buf 0).length + 4) (cstr buf 0) = .ok (cmd, s)) :
    parsecmd buf = if skip s = [] then
      .ok (cmd.map fun w => offset (cstr buf 0) w.1, nulterminate (cstr buf 0) cmd buf)
    else .error (.panic "syntax") := by
  rw [parsecmd, show parseline _ _ = _ from h]
  dsimp only [peek]
  cases skip s with
  | nil => rfl
  | cons c r => rfl

variable {tree : Cmd (List UInt8)}

theorem parsecmd_of_derives (hbuf : 0 ∈ buf) (h : Derives .line (lex (cstr buf 0)) tree) :
    ∃ cmd buf', parsecmd buf = .ok (cmd, buf') ∧ strings buf' cmd = tree := by
  obtain ⟨cmd, s', hrun, hlex', hmap⟩ := parse_complete h (append_nil _).symm (.inl rfl)
    (need_line_le _)
  have hsound := (parse_sound _).1 .line _ (need_line_le (cstr buf 0))
  rw [hrun] at hsound
  rcases hsound with ⟨cmd', s'', ts, heq, hfrom⟩ | ⟨msg, heq⟩
  · cases heq
    refine ⟨_, _, ?_, (strings_nulterminate hbuf hfrom.spans).trans hmap⟩
    rw [parsecmd_of_parseline hrun, if_pos ((skip_eq_nil_iff s').mpr hlex')]
  · cases heq

theorem parsecmd_cases (hbuf : 0 ∈ buf) :
    (∃ cmd buf', parsecmd buf = .ok (cmd, buf') ∧
      Derives .line (lex (cstr buf 0)) (strings buf' cmd)) ∨
    ∃ msg, parsecmd buf = .error (.panic msg) := by
  rcases (parse_sound _).1 .line _ (need_line_le (cstr buf 0)) with
    ⟨cmd, s', ts, hrun, hfrom⟩ | ⟨msg, hrun⟩
  · rw [parsecmd_of_parseline hrun]
    by_cases hs : skip s' = []
    · rw [if_pos hs]
      refine .inl ⟨_, _, rfl, ?_⟩
      rw [strings_nulterminate hbuf hfrom.spans, hfrom.tokens, (skip_eq_nil_iff s').mp hs,
        append_nil]
      exact hfrom.derive
    · rw [if_neg hs]
      exact .inr ⟨_, rfl⟩
  · refine .inr ⟨msg, ?_⟩
    rw [parsecmd, show parseline _ _ = _ from hrun]

/-! ## Printing -/

/-- Words that the lexer can give: not empty, no NUL, no blank and no symbol. -/
def Word (w : List UInt8) : Prop := w ≠ [] ∧ ∀ c ∈ w, plain c = true ∧ c ≠ 0

/-- The two ways to redirect. -/
def Mode (mode fd : Nat) : Prop :=
  (mode = O_RDONLY ∧ fd = 0) ∨ (mode = O_WRONLY ||| O_CREATE ∧ fd = 1)

/-- The command trees. -/
def Cmd.Valid : Cmd (List UInt8) → Prop
  | .exec argv => argv.length < MAXARGS ∧ ∀ w ∈ argv, Word w
  | .redir cmd file mode fd => cmd.Valid ∧ Word file ∧ Mode mode fd
  | .pipe left right => left.Valid ∧ right.Valid
  | .list left right => left.Valid ∧ right.Valid
  | .back cmd => cmd.Valid

/-- In parentheses. -/
def paren (s : List UInt8) : List UInt8 := cLpar :: (s ++ [cRpar])

/-- A tree, fully parenthesised. -/
def print : Cmd (List UInt8) → List UInt8
  | .exec argv => argv.flatMap (· ++ [32])
  | .redir cmd file _ fd => paren (print cmd) ++ (if fd = 0 then cLt else cGt) :: file
  | .pipe left right => paren (print left) ++ cBar :: paren (print right)
  | .list left right => paren (print left) ++ cSemi :: paren (print right)
  | .back cmd => paren (print cmd) ++ [cAmp]

/-- The tokens of a printed tree. -/
def printed : Cmd (List UInt8) → List Token
  | .exec argv => argv.map .word
  | .redir cmd file _ fd =>
      .lpar :: (printed cmd ++ .rpar :: [if fd = 0 then .lt else .gt, .word file])
  | .pipe left right =>
      .lpar :: (printed left ++ [.rpar]) ++ .bar :: .lpar :: (printed right ++ [.rpar])
  | .list left right =>
      .lpar :: (printed left ++ [.rpar]) ++ .semi :: .lpar :: (printed right ++ [.rpar])
  | .back cmd => .lpar :: (printed cmd ++ [.rpar]) ++ [.amp]

variable {c : UInt8}

theorem lex_symbol {t : Token} (h : symbol c = some t) (s : Ptr) : lex (c :: s) = t :: lex s := by
  obtain ⟨hw, hg, -⟩ := symbol_some h
  rw [lex_cons, if_neg (by simp [hw]), if_neg hg, h]

theorem not_white_of_plain (h : plain c = true) : white c = false ∧ c ≠ cGt ∧ symbol c = none := by
  refine ⟨?_, ?_, ?_⟩
  · simp only [plain, Bool.and_eq_true, Bool.not_eq_true'] at h
    exact h.1
  · rintro rfl
    exact absurd h (by decide)
  · cases hs : symbol c with
    | none => rfl
    | some t =>
      rw [not_plain_of_lead (symbol_some hs).2.2.1] at h
      cases h

/-- The rest does not go on with the last word. -/
def Parted (rest : Ptr) : Prop := ∀ c ∈ rest.head?, plain c = false

theorem lex_word {w : List UInt8} (hw : Word w) {rest : Ptr} (hrest : Parted rest) :
    lex (w ++ rest) = .word w :: lex rest := by
  obtain ⟨hne, hw⟩ := hw
  cases w with
  | nil => exact absurd rfl hne
  | cons c w =>
    obtain ⟨hwh, hg, hs⟩ := not_white_of_plain (hw c mem_cons_self).1
    have hall : ∀ d ∈ w, plain d = true := fun d hd => (hw d (mem_cons_of_mem _ hd)).1
    have htake : rest.takeWhile plain = [] ∧ rest.dropWhile plain = rest := by
      cases rest with
      | nil => exact ⟨rfl, rfl⟩
      | cons d rest =>
        have hd := hrest d rfl
        exact ⟨takeWhile_cons_of_neg (by simp [hd]), dropWhile_cons_of_neg (by simp [hd])⟩
    rw [cons_append, lex_cons, if_neg (by simp [hwh]), if_neg hg, hs]
    dsimp only
    rw [takeWhile_append_of_pos hall, dropWhile_append_of_pos hall, htake.1, htake.2, append_nil]

theorem lex_gt (h : ∀ c ∈ s.head?, c ≠ cGt) : lex (cGt :: s) = .gt :: lex s := by
  rw [lex_cons, if_neg (by decide), if_pos rfl]
  cases s with
  | nil => rw [lex_nil]
  | cons d s => exact if_neg (h d rfl)

theorem parted_cons (h : plain c = false) (s : Ptr) : Parted (c :: s) := by
  intro d hd
  cases hd
  exact h

theorem lex_words {argv : List (List UInt8)} (hargv : ∀ w ∈ argv, Word w) (rest : Ptr) :
    lex (argv.flatMap (· ++ [32]) ++ rest) = argv.map .word ++ lex rest := by
  induction argv with
  | nil => rfl
  | cons w argv ih =>
    rw [flatMap_cons, append_assoc, append_assoc, singleton_append,
      lex_word (hargv w mem_cons_self) (parted_cons (by decide) _), lex_white (by decide),
      ih fun v hv => hargv v (mem_cons_of_mem _ hv)]
    rfl

variable {ts : List Token}

theorem lex_paren {s : List UInt8} (h : ∀ rest, Parted rest → lex (s ++ rest) = ts ++ lex rest)
    (rest : Ptr) : lex (paren s ++ rest) = .lpar :: (ts ++ .rpar :: lex rest) := by
  rw [paren, cons_append, lex_symbol rfl, append_assoc, singleton_append,
    h _ (parted_cons (by decide) _), lex_symbol rfl]

theorem lex_print (h : tree.Valid) : ∀ rest, Parted rest →
    lex (print tree ++ rest) = printed tree ++ lex rest := by
  induction tree with
  | exec argv => exact fun rest _ => lex_words h.2 rest
  | redir cmd file mode fd ih =>
    intro rest hrest
    obtain ⟨hcmd, hfile, -⟩ := h
    rw [print, append_assoc, lex_paren (ih hcmd), cons_append, printed]
    by_cases hfd : fd = 0
    · rw [if_pos hfd, if_pos hfd, lex_symbol rfl, lex_word hfile hrest]
      simp
    · have hhead : ∀ c ∈ (file ++ rest).head?, c ≠ cGt := by
        intro c hc
        obtain ⟨hne, hall⟩ := hfile
        cases file with
        | nil => exact absurd rfl hne
        | cons d file =>
          obtain rfl : d = c := Option.some.inj hc
          exact (not_white_of_plain (hall d mem_cons_self).1).2.1
      rw [if_neg hfd, if_neg hfd, lex_gt hhead, lex_word hfile hrest]
      simp
  | pipe left right ihl ihr | list left right ihl ihr =>
    intro rest _
    rw [print, append_assoc, lex_paren (ihl h.1), cons_append, lex_symbol rfl,
      lex_paren (ihr h.2), printed]
    simp
  | back cmd ih =>
    intro rest _
    rw [print, append_assoc, lex_paren (ih h), singleton_append, lex_symbol rfl, printed]
    simp

theorem Derives.paren (h : Derives .line ts tree) :
    Derives .exec (.lpar :: (ts ++ [.rpar])) tree := .block h .nil

theorem Derives.one (h : Derives .pipe ts tree) : Derives .line ts tree := append_nil ts ▸ .line 0 h

theorem words_map_word (argv : List (List UInt8)) : Words (argv.map .word) argv [] := by
  induction argv with
  | nil => exact .nil
  | cons w argv ih => exact .cons w .nil ih

theorem derives_printed (h : tree.Valid) : Derives .line (printed tree) tree := by
  induction tree with
  | exec argv => exact .one (.exec (.words .nil (words_map_word argv) h.1))
  | redir cmd file mode fd ih =>
    obtain ⟨hcmd, hfile, hmode⟩ := h
    rcases hmode with ⟨rfl, rfl⟩ | ⟨rfl, rfl⟩
    · exact .one (.exec (.block (ih hcmd) (.lt file .nil)))
    · exact .one (.exec (.block (ih hcmd) (.gt file .nil)))
  | pipe left right ihl ihr => exact .one (.pipe (ihl h.1).paren (.exec (ihr h.2).paren))
  | list left right ihl ihr =>
    exact .list 0 (.exec (ihl h.1).paren) (.one (.exec (ihr h.2).paren))
  | back cmd ih => exact .line 1 (.exec (ih h).paren)

/-- A printed tree is a string. -/
theorem print_ne_zero (h : tree.Valid) : ∀ c ∈ print tree, c ≠ 0 := by
  have hparen : ∀ {s : List UInt8}, (∀ c ∈ s, c ≠ 0) → ∀ c ∈ paren s, c ≠ 0 := by
    intro s hs c hc
    simp only [paren, mem_cons, mem_append, not_mem_nil, or_false] at hc
    rcases hc with rfl | hc | rfl
    · decide
    · exact hs c hc
    · decide
  induction tree with
  | exec argv =>
    intro c hc
    obtain ⟨w, hw, hc⟩ := mem_flatMap.mp hc
    rcases mem_append.mp hc with hc | hc
    · exact ((h.2 w hw).2 c hc).2
    · rw [mem_singleton.mp hc]
      decide
  | redir cmd file mode fd ih =>
    intro c hc
    rcases mem_append.mp hc with hc | hc
    · exact hparen (ih h.1) c hc
    · rcases mem_cons.mp hc with rfl | hc
      · split <;> decide
      · exact (h.2.1.2 c hc).2
  | pipe left right ihl ihr | list left right ihl ihr =>
    intro c hc
    rcases mem_append.mp hc with hc | hc
    · exact hparen (ihl h.1) c hc
    · rcases mem_cons.mp hc with rfl | hc
      · decide
      · exact hparen (ihr h.2) c hc
  | back cmd ih =>
    intro c hc
    rcases mem_append.mp hc with hc | hc
    · exact hparen (ih h) c hc
    · rw [mem_singleton.mp hc]
      decide

theorem cstr_terminated {s : List UInt8} (h : ∀ c ∈ s, c ≠ 0) : cstr (s ++ [0]) 0 = s := by
  refine takeWhile_of_getElem? h (fun i hi => ?_) ?_
  · exact getElem?_append_left hi
  · rw [drop_zero, getElem?_append_right le_rfl, Nat.sub_self]
    rfl

/-! ## Trees of a line -/

theorem word_of_mem_lex (s : Ptr) (hs : ∀ c ∈ s, c ≠ 0) : ∀ w, .word w ∈ lex s → Word w := by
  fun_induction lex s with
  | case1 => exact fun w hw => absurd hw not_mem_nil
  | case2 c s _ ih => exact ih fun d hd => hs d (mem_cons_of_mem _ hd)
  | case3 =>
    intro w hw
    cases mem_singleton.mp hw
  | case4 s' _ ih =>
    intro w hw
    rcases mem_cons.mp hw with hw | hw
    · cases hw
    · exact ih (fun d hd => hs d (mem_cons_of_mem _ (mem_cons_of_mem _ hd))) w hw
  | case5 d s' hd _ ih =>
    intro w hw
    rcases mem_cons.mp hw with hw | hw
    · cases hw
    · exact ih (fun d hd => hs d (mem_cons_of_mem _ hd)) w hw
  | case6 c s hwh hg t ht ih =>
    intro w hw
    rcases mem_cons.mp hw with hw | hw
    · have hlead := (symbol_some ht).2.2.1
      rw [← hw] at hlead
      cases hlead
    · exact ih (fun d hd => hs d (mem_cons_of_mem _ hd)) w hw
  | case7 c s hwh hg hnone ih =>
    intro w hw
    rcases mem_cons.mp hw with hw | hw
    · cases hw
      refine ⟨cons_ne_nil _ _, fun d hd => ?_⟩
      rcases mem_cons.mp hd with rfl | hd
      · have hplain := plain_of_symbol_none (by simpa using hwh) hg hnone
        exact ⟨hplain.1, hs d mem_cons_self⟩
      · exact ⟨mem_takeWhile_imp hd, hs d (mem_cons_of_mem _ ((List.takeWhile_prefix _).subset hd))⟩
    · exact ih (fun d hd => hs d (mem_cons_of_mem _ ((dropWhile_suffix _).subset hd))) w hw

variable {rs : List (Redir (List UInt8))}

theorem valid_wrap (hrs : ∀ r ∈ rs, Word r.file ∧ Mode r.mode r.fd) :
    ∀ {cmd : Cmd (List UInt8)}, cmd.Valid →
    (wrap cmd rs).Valid := by
  induction rs with
  | nil => exact id
  | cons r rs ih =>
    intro cmd h
    exact ih (fun r' hr' => hrs r' (mem_cons_of_mem _ hr')) ⟨h, hrs r mem_cons_self⟩

theorem valid_backs {cmd : Cmd (List UInt8)} (h : cmd.Valid) (k : Nat) :
    (Cmd.back^[k] cmd).Valid := by
  induction k generalizing cmd with
  | zero => exact h
  | succ k ih => exact ih (show (Cmd.back cmd).Valid from h)

theorem Redirs.valid (h : Redirs ts rs) (hts : ∀ w, .word w ∈ ts → Word w) :
    ∀ r ∈ rs, Word r.file ∧ Mode r.mode r.fd := by
  induction h with
  | nil => exact fun r hr => nomatch hr
  | lt w _ ih =>
    intro r hr
    rcases mem_cons.mp hr with rfl | hr
    · exact ⟨hts w (by simp), .inl ⟨rfl, rfl⟩⟩
    · exact ih (fun v hv => hts v (by simp [hv])) r hr
  | gt w _ ih | gtgt w _ ih =>
    intro r hr
    rcases mem_cons.mp hr with rfl | hr
    · exact ⟨hts w (by simp), .inr ⟨rfl, rfl⟩⟩
    · exact ih (fun v hv => hts v (by simp [hv])) r hr

theorem Words.valid {ws : List (List UInt8)} (h : Words ts ws rs)
    (hts : ∀ w, .word w ∈ ts → Word w) :
    (∀ w ∈ ws, Word w) ∧ ∀ r ∈ rs, Word r.file ∧ Mode r.mode r.fd := by
  induction h with
  | nil => exact ⟨(fun w hw => nomatch hw), (fun r hr => nomatch hr)⟩
  | cons w hred _ ih =>
    obtain ⟨ihw, ihr⟩ := ih fun v hv => hts v (by simp [hv])
    constructor
    · intro v hv
      rcases mem_cons.mp hv with rfl | hv
      · exact hts v mem_cons_self
      · exact ihw v hv
    · intro r hr
      rcases mem_append.mp hr with hr | hr
      · exact hred.valid (fun v hv => hts v (by simp [hv])) r hr
      · exact ihr r hr

/-- Every tree of the grammar can be printed. -/
theorem Derives.valid {part : Part} (h : Derives part ts tree) (hts : ∀ w, .word w ∈ ts → Word w) :
    tree.Valid := by
  induction h with
  | line k _ ih => exact valid_backs (ih fun w hw => hts w (by simp [hw])) k
  | list k _ _ ihp ihl =>
    exact ⟨valid_backs (ihp fun w hw => hts w (by simp [hw])) k,
      ihl fun w hw => hts w (by simp [hw])⟩
  | exec _ ih => exact ih hts
  | pipe _ _ ihe ihp =>
    exact ⟨ihe fun w hw => hts w (by simp [hw]), ihp fun w hw => hts w (by simp [hw])⟩
  | block _ hred ih =>
    exact valid_wrap (hred.valid fun w hw => hts w (by simp [hw]))
      (ih fun w hw => hts w (by simp [hw]))
  | words hred hwords hmax =>
    obtain ⟨hws, hrs⟩ := hwords.valid fun w hw => hts w (by simp [hw])
    refine valid_wrap (fun r hr => ?_) ⟨hmax, hws⟩
    rcases mem_append.mp hr with hr | hr
    · exact hred.valid (fun w hw => hts w (by simp [hw])) r hr
    · exact hrs r hr

/-! ## Main theorem -/

/-- **Shell parser**: `parsecmd` returns a tree exactly if the tokens of the string derive one, and
    then this tree; otherwise it panics. Whatever it returns can be printed, and what is printed is
    parsed to the same tree. -/
theorem parsecmd_accepts (buf : List UInt8) (hbuf : 0 ∈ buf) :
    (∀ tree, (∃ cmd buf', parsecmd buf = .ok (cmd, buf') ∧ strings buf' cmd = tree) ↔
      Derives .line (lex (cstr buf 0)) tree) ∧
    ((¬ ∃ tree, Derives .line (lex (cstr buf 0)) tree) →
      ∃ msg, parsecmd buf = .error (.panic msg)) ∧
    (∀ cmd buf', parsecmd buf = .ok (cmd, buf') → (strings buf' cmd).Valid) ∧
    ∀ tree : Cmd (List UInt8), tree.Valid →
      ∃ cmd buf', parsecmd (print tree ++ [0]) = .ok (cmd, buf') ∧ strings buf' cmd = tree := by
  have hderives : ∀ cmd buf', parsecmd buf = .ok (cmd, buf') →
      Derives .line (lex (cstr buf 0)) (strings buf' cmd) := by
    intro cmd buf' hrun
    rcases parsecmd_cases hbuf with ⟨cmd', buf'', hrun', hd⟩ | ⟨msg, hpanic⟩
    · cases hrun.symm.trans hrun'
      exact hd
    · rw [hrun] at hpanic
      cases hpanic
  refine ⟨fun tree => ⟨?_, parsecmd_of_derives hbuf⟩, ?_, ?_, ?_⟩
  · rintro ⟨cmd, buf', hrun, rfl⟩
    exact hderives cmd buf' hrun
  · intro hno
    rcases parsecmd_cases hbuf with ⟨cmd, buf', -, hd⟩ | hpanic
    · exact absurd ⟨_, hd⟩ hno
    · exact hpanic
  · intro cmd buf' hrun
    have hnz : ∀ c ∈ cstr buf 0, c ≠ 0 := fun c hc => by simpa using mem_takeWhile_imp hc
    exact (hderives cmd buf' hrun).valid (word_of_mem_lex _ hnz)
  · intro tree hvalid
    refine parsecmd_of_derives (mem_append_right _ (mem_singleton_self _)) ?_
    rw [cstr_terminated (print_ne_zero hvalid)]
    have hlex := lex_print hvalid [] (fun c hc => nomatch hc)
    rw [append_nil, lex_nil, append_nil] at hlex
    rw [hlex]
    exact derives_printed hvalid

/-- `(a|b)>c&;d`. -/
def sampleLine : List UInt8 := [40, 97, 124, 98, 41, 62, 99, 38, 59, 100, 0]

def sampleTree : Cmd (List UInt8) :=
  .list (.back (.redir (.pipe (.exec [[97]]) (.exec [[98]])) [99] (O_WRONLY ||| O_CREATE) 1))
    (.exec [[100]])

theorem parsecmd_accepts_sampleLine : 0 ∈ sampleLine ∧
    Derives .line (lex (cstr sampleLine 0)) sampleTree := by
  refine ⟨by decide, ((parsecmd_accepts sampleLine (by decide)).1 sampleTree).mp ?_⟩
  exact ⟨.list (.back (.redir (.pipe (.exec [1]) (.exec [3])) 6 (O_WRONLY ||| O_CREATE) 1))
    (.exec [9]), [40, 97, 0, 98, 0, 62, 99, 0, 59, 100, 0], by decide +kernel, by decide +kernel⟩

end Xv6.Shell
