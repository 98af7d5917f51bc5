import Xv6.Shell.Command

/-! # The parser ends, and its words stay as they were typed

    Every routine of the parser returns or panics, moves through the line in one direction only and
    keeps to the array of arguments. `nulterminate` then writes into the line; it hits no character
    of a word.

    Key theorems:
    - `parser_terminates`: any string, well formed or not
    - `nulterminate_keeps_words`: any string that is accepted
-/

namespace Xv6.Shell

/-! ## The routines end -/

/-- The routine returns a pointer into the rest `s` of the line, or it panics. -/
def Stops {α : Type} (s : Ptr) (r : Parser (α × Ptr)) : Prop :=
  (∃ a s', r = .ok (a, s') ∧ s' <:+ s) ∨ ∃ msg, r = .error (.panic msg)

theorem Sound.stops {part : Part} {s : Ptr} {r : Parser (Cmd Span × Ptr)} (h : Sound part s r) :
    Stops s r := by
  rcases h with ⟨cmd, s', ts, hrun, hfrom⟩ | hpanic
  · exact .inl ⟨cmd, s', hrun, hfrom.suffix⟩
  · exact .inr hpanic

/-- Without `(` it panics at once. -/
theorem parseblock_stops (n : Nat) (s : Ptr) (hn : 4 * s.length + 1 ≤ n) :
    Stops s (parseblock n s) := by
  have hlen := length_lex_le s
  by_cases hstart : Starts [cLpar] (lex s)
  · exact ((parse_sound n).2 s hstart (by omega)).stops
  · obtain ⟨n, rfl⟩ := Nat.exists_eq_succ_of_ne_zero (Nat.ne_zero_of_lt hn)
    obtain ⟨s1, hpeek, -⟩ := peek_false (by decide) hstart
    rw [parseblock, hpeek]
    exact .inr ⟨_, rfl⟩

/-- The pointers that `gettoken` gives are at the old one or behind it. -/
theorem gettoken_forward (s : Ptr) : (gettoken s).2.1 <:+ s ∧ (gettoken s).2.2.1 <:+ s ∧
    (gettoken s).2.2.2 <:+ s := by
  have heq : (classify (skip s)).2 <:+ skip s := by
    by_cases hne : skip s = []
    · rw [hne]
      exact List.suffix_refl []
    · obtain ⟨t, -, -, -, hsuf, -⟩ := classify_spec skip_head hne
      exact hsuf
  have hend := heq.trans (skip_suffix s)
  exact ⟨skip_suffix s, hend, (skip_suffix _).trans hend⟩

/-! ## The array of arguments -/

/-- The indices at which the loop of `parseexec` writes to `argv` and `eargv`, with `argc` words
    read: one for each word, before the words are counted, and one for the final null pointer. -/
def argvWrites : Nat → Nat → Ptr → List Nat
  | 0, _, _ => []
  | n + 1, argc, s =>
      match peek s [cBar, cRpar, cAmp, cSemi] with
      | (true, _) => [argc]
      | (false, s) =>
          match gettoken s with
          | (tok, _, _, s) =>
              if tok = 0 then [argc]
              else if tok ≠ cWord then []
              else if MAXARGS ≤ argc + 1 then [argc]
              else
                match parseredirs (s.length + 1) s with
                | .error _ => [argc]
                | .ok (_, s) => argc :: argvWrites n (argc + 1) s

theorem argvWrites_lt (n : Nat) : ∀ {argc : Nat} {s : Ptr}, argc < MAXARGS →
    ∀ i ∈ argvWrites n argc s, i < MAXARGS := by
  induction n with
  | zero =>
    intro argc s _ i hi
    cases hi
  | succ n ih =>
    intro argc s hargc i hi
    have hone : i ∈ [argc] → i < MAXARGS := fun hi => List.mem_singleton.mp hi ▸ hargc
    rw [argvWrites] at hi
    split at hi
    · exact hone hi
    · split at hi
      split_ifs at hi with h0 hword hmax
      · exact hone hi
      · cases hi
      · exact hone hi
      · split at hi
        · exact hone hi
        · rcases List.mem_cons.mp hi with rfl | hi
          · exact hargc
          · -- the next word is read only below the limit
            exact ih (Nat.lt_of_not_le hmax) i hi

/-- A loop that ends well has written at every index from `argc` on, one for each of its words and
    one for the null pointer. -/
theorem argvWrites_of_parseargs (n : Nat) : ∀ {argc : Nat} {s s' : Ptr} {argv : List Span}
    {rs : List (Redir Span)}, parseargs n argc s = .ok (argv, rs, s') →
    argvWrites n argc s = List.range' argc (argv.length + 1) := by
  induction n with
  | zero =>
    intro argc s s' argv rs h
    cases h
  | succ n ih =>
    intro argc s s' argv rs h
    rw [parseargs] at h
    rw [argvWrites]
    generalize peek s [cBar, cRpar, cAmp, cSemi] = r at h ⊢
    obtain ⟨b, s1⟩ := r
    cases b with
    | true =>
      cases h
      rfl
    | false =>
      dsimp only at h ⊢
      generalize gettoken s1 = g at h ⊢
      split_ifs at h ⊢ with h0 hword hmax
      · cases h
        rfl
      · cases hred : parseredirs (g.2.2.2.length + 1) g.2.2.2 with
        | error e =>
          rw [hred] at h
          cases h
        | ok r =>
          rw [hred] at h
          dsimp only at h ⊢
          split at h
          · cases h
          · next hrec =>
            cases h
            rw [ih hrec]
            rfl

/-! ## Main theorems -/

/-- **The parser terminates**: from any place of any line the routines return or panic, with any
    bound on the recursion that is large enough; the pointer into the line goes forward and does not
    leave the line; and `argv` has a place for whatever is written to it. -/
theorem parser_terminates (s : Ptr) (k : Nat) :
    (∀ part, Stops s (parse part (4 * s.length + 4 + k) s)) ∧
    Stops s (parseblock (4 * s.length + 4 + k) s) ∧
    Stops s (parseredirs (s.length + 1 + k) s) ∧
    (∀ toks, (peek s toks).2 <:+ s) ∧
    ((gettoken s).2.1 <:+ s ∧ (gettoken s).2.2.1 <:+ s ∧ (gettoken s).2.2.2 <:+ s) ∧
    ∀ n i, i ∈ argvWrites n 0 s → i < MAXARGS := by
  have hlen := length_lex_le s
  refine ⟨fun part => ?_, parseblock_stops _ s (by omega), ?_, fun toks => skip_suffix s,
    gettoken_forward s, fun n => argvWrites_lt n (by decide)⟩
  · apply ((parse_sound _).1 part s ?_).stops
    cases part with
    | line =>
      show 4 * (lex s).length + 4 ≤ _
      omega
    | pipe =>
      show 4 * (lex s).length + 3 ≤ _
      omega
    | exec =>
      show 4 * (lex s).length + 2 ≤ _
      omega
  · rcases parseredirs_sound (s.length + 1 + k) (s := s) (by omega) with
      ⟨rs, s', ts, hrun, hfrom⟩ | hpanic
    · exact .inl ⟨rs, s', hrun, hfrom.suffix⟩
    · exact .inr hpanic

/-- **`nulterminate` is harmless**: the words of a tree that `parsecmd` returns, arguments and
    files, are the strings that were typed. They all have got their NUL, none of which is inside a
    word, and nothing else is written. -/
theorem nulterminate_keeps_words {buf buf' : List UInt8} {cmd : Cmd Nat} (hbuf : 0 ∈ buf)
    (h : parsecmd buf = .ok (cmd, buf')) :
    ∃ tree s, parseline (4 * (cstr buf 0).length + 4) (cstr buf 0) = .ok (tree, s) ∧
      cmd = tree.map (fun w => offset (cstr buf 0) w.1) ∧
      (∀ w ∈ tree.words, SpanIn (cstr buf 0) w ∧
        cstr buf' (offset (cstr buf 0) w.1) = text w ∧ buf'[offset (cstr buf 0) w.2]? = some 0 ∧
        ∀ v ∈ tree.words, ¬ (offset (cstr buf 0) w.1 ≤ offset (cstr buf 0) v.2 ∧
          offset (cstr buf 0) v.2 < offset (cstr buf 0) w.2)) ∧
      ∀ i, (∀ w ∈ tree.words, offset (cstr buf 0) w.2 ≠ i) → buf'[i]? = buf[i]? := by
  rcases (parse_sound _).1 .line _ (need_line_le (cstr buf 0)) with
    ⟨tree, s, ts, hrun, hfrom⟩ | ⟨msg, hrun⟩
  swap
  · rw [parsecmd, show parseline _ _ = _ from hrun] at h
    cases h
  rw [parsecmd_of_parseline hrun] at h
  have hs : skip s = [] := by
    by_contra hne
    rw [if_neg hne] at h
    cases h
  rw [if_pos hs] at h
  cases h
  have hspans := hfrom.spans
  refine ⟨tree, s, hrun, rfl, fun w hw => ⟨hspans w hw, cstr_nulterminate hbuf hspans hw, ?_,
    fun v hv => ?_⟩, fun i hi => ?_⟩
  · -- the end of a word is in the line or the NUL behind it
    have hle : offset (cstr buf 0) w.2 ≤ (cstr buf 0).length := Nat.sub_le _ _
    have hlt : (cstr buf 0).length < buf.length := by
      refine Nat.lt_of_le_of_ne (List.takeWhile_prefix _).length_le fun heq => ?_
      have hall := (List.takeWhile_prefix (· ≠ (0 : UInt8))).eq_of_length heq
      simpa using List.takeWhile_eq_self_iff.mp hall 0 hbuf
    rw [nulterminate_eq, getElem?_foldl_set fun w : Span => offset (cstr buf 0) w.2,
      if_pos ⟨⟨w, hw, rfl⟩, by omega⟩]
  · obtain ⟨hplace, x, hat⟩ := hspans w hw
    obtain ⟨hplace', x', hat'⟩ := hspans v hv
    rintro ⟨h1, h2⟩
    have hlen : offset (cstr buf 0) w.2 = offset (cstr buf 0) w.1 + x.length := by
      have hsub := hplace.length_le
      have hsplit := congrArg List.length hat.split
      rw [List.length_append] at hsplit
      unfold offset
      omega
    exact offset_not_in_word hplace hat hplace' hat'
      (show offset (cstr buf 0) v.2 - offset (cstr buf 0) w.1 < x.length by omega) (by omega)
  · rw [nulterminate_eq, getElem?_foldl_set fun w : Span => offset (cstr buf 0) w.2, if_neg]
    rintro ⟨⟨w, hw, hpos⟩, -⟩
    exact hi w hw hpos

/-- `a>b`, where the symbol behind the first word is overwritten. -/
theorem nulterminate_keeps_words_adjacent :
    parsecmd [97, 62, 98, 0] = .ok (.redir (.exec [0]) 2 (O_WRONLY ||| O_CREATE) 1,
      [97, 0, 98, 0]) ∧
    ∃ tree s, parseline 16 [97, 62, 98] = .ok (tree, s) ∧
      (Cmd.redir (.exec [0]) 2 (O_WRONLY ||| O_CREATE) 1) =
        tree.map (fun w => offset [97, 62, 98] w.1) := by
  have hrun : parsecmd [97, 62, 98, 0] = .ok (.redir (.exec [0]) 2 (O_WRONLY ||| O_CREATE) 1,
      [97, 0, 98, 0]) := by decide +kernel
  obtain ⟨tree, s, hline, hcmd, -⟩ := nulterminate_keeps_words (by decide) hrun
  exact ⟨hrun, tree, s, hline, hcmd⟩

end Xv6.Shell
