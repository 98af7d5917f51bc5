import Xv6.Shell.Parse

/-! # The loops of the parser

    `parseredirs`, the word loop of `parseexec` and the `&` loop of `parseline`: what each of them
    takes from the line, and that it takes whatever the grammar has at this place.
-/

namespace Xv6.Shell

open List

/-! ## Words and trees -/

/-- The characters between two pointers. -/
def text (w : Span) : List UInt8 := w.1.take (w.1.length - w.2.length)

variable {w : List UInt8}

theorem WordAt.text_eq {q eq : Ptr} (h : WordAt w q eq) : text (q, eq) = w := by
  rw [text, h.split, length_append, Nat.add_sub_cancel, take_left']
  rfl

def Redir.map {V W : Type} (f : V → W) (r : Redir V) : Redir W := ⟨f r.file, r.mode, r.fd⟩

def Cmd.map {V W : Type} (f : V → W) : Cmd V → Cmd W
  | .exec argv => .exec (argv.map f)
  | .redir cmd file mode fd => .redir (cmd.map f) (f file) mode fd
  | .pipe left right => .pipe (left.map f) (right.map f)
  | .list left right => .list (left.map f) (right.map f)
  | .back cmd => .back (cmd.map f)

/-- The words of a tree. -/
def Cmd.words {W : Type} : Cmd W → List W
  | .exec argv => argv
  | .redir cmd file _ _ => cmd.words ++ [file]
  | .pipe left right => left.words ++ right.words
  | .list left right => left.words ++ right.words
  | .back cmd => cmd.words

section Trees

variable {V W : Type} (f : V → W)

theorem map_wrap (rs : List (Redir V)) : ∀ cmd : Cmd V,
    (wrap cmd rs).map f = wrap (cmd.map f) (rs.map (Redir.map f)) := by
  induction rs with
  | nil => exact fun _ => rfl
  | cons r rs ih => exact fun cmd => ih _

theorem words_wrap (rs : List (Redir V)) : ∀ cmd : Cmd V,
    (wrap cmd rs).words = cmd.words ++ rs.map Redir.file := by
  induction rs with
  | nil => exact fun cmd => (append_nil _).symm
  | cons r rs ih =>
    intro cmd
    rw [show wrap cmd (r :: rs) = wrap (.redir cmd r.file r.mode r.fd) rs from rfl, ih, Cmd.words,
      append_assoc]
    rfl

theorem map_backs (k : Nat) : ∀ cmd : Cmd V,
    (Cmd.back^[k] cmd).map f = Cmd.back^[k] (cmd.map f) := by
  induction k with
  | zero => exact fun _ => rfl
  | succ k ih => exact fun cmd => ih _

theorem words_backs (k : Nat) : ∀ cmd : Cmd V, (Cmd.back^[k] cmd).words = cmd.words := by
  induction k with
  | zero => exact fun _ => rfl
  | succ k ih => exact fun cmd => ih _

end Trees

/-! ## Looking and reading -/

theorem length_lex_le (s : Ptr) : (lex s).length ≤ s.length := by
  fun_induction lex s with
  | case1 => exact le_rfl
  | case2 c s _ ih => exact Nat.le_succ_of_le ih
  | case3 => exact le_rfl
  | case4 s' _ ih => exact Nat.succ_le_succ (Nat.le_succ_of_le ih)
  | case5 _ _ _ _ ih | case6 _ _ _ _ _ _ ih => exact Nat.succ_le_succ ih
  | case7 c s _ _ _ ih =>
    exact Nat.succ_le_succ (ih.trans (length_dropWhile_le plain s))

variable {s : Ptr} {t : Token} {ts rest : List Token} {toks : List UInt8}
  {rs : List (Redir (List UInt8))}

theorem gettoken_cons (h : lex s = t :: ts) : ∃ q eq s', gettoken s = (t.code, q, eq, s') ∧
    lex s' = ts ∧ s' <:+ s ∧ q <:+ s ∧ ∀ w, t = .word w → WordAt w q eq := by
  rcases gettoken_spec s with ⟨hnil, -⟩ | ⟨t', q, eq, s', hget, hlex, hsuf, hq, hword⟩
  · rw [h] at hnil
    cases hnil
  · obtain ⟨rfl, hts⟩ := cons.inj (h.symm.trans hlex)
    exact ⟨q, eq, s', hget, hts.symm, hsuf, hq, hword⟩

theorem gettoken_rest (h : lex s = t :: ts) :
    lex (gettoken s).2.2.2 = ts ∧ (gettoken s).2.2.2 <:+ s := by
  obtain ⟨q, eq, s', hget, hlex, hsuf, -⟩ := gettoken_cons h
  rw [hget]
  exact ⟨hlex, hsuf⟩

theorem gettoken_nil (h : lex s = []) : ∃ q eq, gettoken s = (0, q, eq, []) := by
  rcases gettoken_spec s with ⟨-, q, eq, s', hget, rfl⟩ | ⟨t', q, eq, s', hget, hlex, -⟩
  · exact ⟨q, eq, hget⟩
  · rw [h] at hlex
    cases hlex

/-- The first token is one of `toks`. -/
def Starts (toks : List UInt8) (ts : List Token) : Prop :=
  ∃ t ∈ ts.head?, ∃ c ∈ t.lead, c ∈ toks

theorem peek_true (htoks : toks.all (!plain ·) = true) (h : Starts toks (lex s)) :
    ∃ s', peek s toks = (true, s') ∧ lex s' = lex s ∧ s' <:+ s := by
  obtain ⟨s', hp, hlex, hsuf⟩ := peek_spec s toks htoks
  refine ⟨s', ?_, hlex, hsuf⟩
  obtain ⟨t, ht, c, hc, hmem⟩ := h
  rw [hp, Option.mem_def.mp ht, Option.any_some, Option.mem_def.mp hc, Option.any_some]
  simpa using hmem

theorem peek_false (htoks : toks.all (!plain ·) = true) (h : ¬ Starts toks (lex s)) :
    ∃ s', peek s toks = (false, s') ∧ lex s' = lex s ∧ s' <:+ s := by
  obtain ⟨s', hp, hlex, hsuf⟩ := peek_spec s toks htoks
  refine ⟨s', ?_, hlex, hsuf⟩
  rw [hp]
  congr 1
  by_contra hc
  obtain ⟨t, ht, hany⟩ := (Option.any_eq_true _ _).mp (Bool.not_eq_false _ ▸ hc)
  obtain ⟨c, hcl, hmem⟩ := (Option.any_eq_true _ _).mp hany
  exact h ⟨t, ht, c, hcl, by simpa using hmem⟩

theorem starts_cons : Starts toks (t :: ts) ↔ ∃ c ∈ t.lead, c ∈ toks := by
  simp [Starts]

theorem not_starts_nil : ¬ Starts toks [] := by
  rintro ⟨t, ht, -⟩
  cases ht

theorem not_starts_word : ¬ Starts toks (.word w :: ts) := by
  intro h
  obtain ⟨c, hc, -⟩ := starts_cons.mp h
  cases hc

theorem starts_iff : Starts toks ts ↔ ∃ t us, ts = t :: us ∧ ∃ c ∈ t.lead, c ∈ toks := by
  cases ts <;> simp [Starts]

/-- A single symbol is looked for. -/
theorem starts_symbol {c : UInt8} (hc : symbol c = some t) :
    Starts [c] ts ↔ ∃ us, ts = t :: us := by
  constructor
  · intro h
    obtain ⟨t', us, rfl, d, hd, hmem⟩ := starts_iff.mp h
    obtain rfl := mem_singleton.mp hmem
    cases t'
    all_goals first
      | (cases hd; cases hc; exact ⟨us, rfl⟩)
      | (cases hd; cases hc)
      | cases hd
  · rintro ⟨us, rfl⟩
    exact starts_cons.mpr ⟨c, (symbol_some hc).2.2.1, mem_singleton_self c⟩

/-- A symbol that was peeked at is what `gettoken` takes. -/
theorem take_symbol {c : UInt8} (hc : symbol c = some t) (hlex : lex s = t :: ts) :
    ∃ s', peek s [c] = (true, s') ∧ lex (gettoken s').2.2.2 = ts ∧ (gettoken s').2.2.2 <:+ s := by
  have hp : [c].all (!plain ·) = true := by
    rcases (symbol_some hc).2.2.2.2 with rfl | rfl | rfl | rfl | rfl | rfl <;> decide
  obtain ⟨s', hpeek, hlex', hsuf⟩ := peek_true hp ((starts_symbol hc).mpr ⟨ts, hlex⟩)
  obtain ⟨hrest, hsuf'⟩ := gettoken_rest (hlex'.trans hlex)
  exact ⟨s', hpeek, hrest, hsuf'.trans hsuf⟩

theorem Token.code_ne_zero (t : Token) : t.code ≠ 0 := by
  cases t
  all_goals exact fun h => absurd (congrArg UInt8.toNat h) (Nat.succ_ne_zero _)

theorem Token.not_code_ne_word (w : List UInt8) : ¬ (Token.word w).code ≠ cWord :=
  not_not.mpr rfl

theorem Token.code_ne_word (h : ¬ ∃ w, t = .word w) : t.code ≠ cWord := by
  cases t
  all_goals first
    | exact absurd ⟨_, rfl⟩ h
    | decide

/-! ## Redirections -/

/-- The word of a span lies in the rest `s` of the line. -/
structure SpanIn (s : Ptr) (w : Span) : Prop where
  place : w.1 <:+ s
  word  : ∃ x, WordAt x w.1 w.2

theorem SpanIn.mono {s' : Ptr} {w : Span} (h : SpanIn s' w) (hs : s' <:+ s) : SpanIn s w :=
  ⟨h.place.trans hs, h.word⟩

/-- The tokens at which `parseredirs` goes on. -/
theorem starts_redir (h : Starts [cLt, cGt] ts) :
    ∃ t us, ts = t :: us ∧ (t = .lt ∨ t = .gt ∨ t = .gtgt) := by
  obtain ⟨t, us, rfl, c, hc, hmem⟩ := starts_iff.mp h
  refine ⟨t, us, rfl, ?_⟩
  cases t
  all_goals first
    | exact .inl rfl
    | exact .inr (.inl rfl)
    | exact .inr (.inr rfl)
    | (cases hc; exact absurd hmem (by decide))
    | cases hc

theorem Redirs.cons (ht : t = .lt ∨ t = .gt ∨ t = .gtgt) {sp : Span} (hw : text sp = w)
    {rs : List (Redir Span)} (h : Redirs ts (rs.map (Redir.map text))) :
    Redirs (t :: .word w :: ts) ((redirection t.code sp ++ rs).map (Redir.map text)) := by
  subst hw
  rcases ht with rfl | rfl | rfl
  · exact .lt (text sp) h
  · exact .gt (text sp) h
  · exact .gtgt (text sp) h

/-- What `parseredirs` returns is derived, and it stops where no other redirection follows. -/
structure RedirsFrom (s : Ptr) (rs : List (Redir Span)) (s' : Ptr) (ts : List Token) : Prop where
  tokens : lex s = ts ++ lex s'
  derive : Redirs ts (rs.map (Redir.map text))
  suffix : s' <:+ s
  spans  : ∀ r ∈ rs, SpanIn s r.file

theorem parseredirs_sound (n : Nat) : ∀ {s : Ptr}, (lex s).length < n →
    (∃ rs s' ts, parseredirs n s = .ok (rs, s') ∧ RedirsFrom s rs s' ts) ∨
    ∃ msg, parseredirs n s = .error (.panic msg) := by
  induction n with
  | zero => exact fun hn => absurd hn (Nat.not_lt_zero _)
  | succ n ih =>
    intro s hn
    rw [parseredirs]
    by_cases hstart : Starts [cLt, cGt] (lex s)
    · obtain ⟨s1, hpeek, hlex1, hsuf1⟩ := peek_true (by decide) hstart
      obtain ⟨t, us, hts, ht⟩ := starts_redir hstart
      obtain ⟨q, eq, s2, hget, hlex2, hsuf2, -⟩ := gettoken_cons (hlex1.trans hts)
      rw [hpeek]
      dsimp only
      rw [hget]
      dsimp only
      cases us with
      | nil =>
        -- no word at the end of the line
        obtain ⟨q, eq, hget'⟩ := gettoken_nil hlex2
        rw [hget']
        exact .inr ⟨_, rfl⟩
      | cons u us =>
        obtain ⟨q', eq', s3, hget', hlex3, hsuf3, hq', hword⟩ := gettoken_cons hlex2
        rw [hget']
        dsimp only
        by_cases hw : ∃ w, u = .word w
        · obtain ⟨w, rfl⟩ := hw
          have hat := hword w rfl
          rw [if_neg (Token.not_code_ne_word _)]
          have hlen : (lex s3).length < n := by
            rw [hlex3]
            rw [hts, length_cons, length_cons] at hn
            omega
          rcases ih hlen with ⟨rs, s', ts, hrec, hfrom⟩ | ⟨msg, hrec⟩
          · rw [hrec]
            have hsuf := (hsuf3.trans hsuf2).trans hsuf1
            refine .inl ⟨_, s', t :: .word w :: ts, rfl, ?_, ?_, hfrom.suffix.trans hsuf, ?_⟩
            · rw [hts, ← hlex3, hfrom.tokens]
              rfl
            · exact Redirs.cons ht hat.text_eq hfrom.derive
            · intro r hr
              rcases mem_append.mp hr with hr | hr
              · have hfile : r.file = (q', eq') := by
                  unfold redirection at hr
                  rcases ht with rfl | rfl | rfl
                  all_goals
                    obtain rfl := mem_singleton.mp hr
                    rfl
                rw [hfile]
                exact ⟨hq'.trans (hsuf2.trans hsuf1), w, hat⟩
              · exact (hfrom.spans r hr).mono hsuf
          · rw [hrec]
            exact .inr ⟨msg, rfl⟩
        · rw [if_pos (Token.code_ne_word hw)]
          exact .inr ⟨_, rfl⟩
    · obtain ⟨s1, hpeek, hlex1, hsuf1⟩ := peek_false (by decide) hstart
      rw [hpeek]
      refine .inl ⟨[], s1, [], rfl, ?_, .nil, hsuf1, fun r hr => by cases hr⟩
      rw [hlex1]
      rfl

theorem parseredirs_complete (hd : Redirs ts rs) :
    ∀ {n : Nat} {s : Ptr}, lex s = ts ++ rest → ¬ Starts [cLt, cGt] rest → ts.length < n →
    ∃ rs' s', parseredirs n s = .ok (rs', s') ∧ lex s' = rest ∧
      rs'.map (Redir.map text) = rs := by
  -- one more redirection, whichever of the three it is
  have hcons : ∀ {t : Token} {w : List UInt8} {ts : List Token} {rs : List (Redir (List UInt8))}
      {r : Redir (List UInt8)}, (t = .lt ∨ t = .gt ∨ t = .gtgt) →
      (∀ sp, text sp = w → (redirection t.code sp).map (Redir.map text) = [r]) →
      (∀ {n : Nat} {s : Ptr}, lex s = ts ++ rest → ¬ Starts [cLt, cGt] rest → ts.length < n →
        ∃ rs' s', parseredirs n s = .ok (rs', s') ∧ lex s' = rest ∧
          rs'.map (Redir.map text) = rs) →
      ∀ {n : Nat} {s : Ptr}, lex s = t :: .word w :: ts ++ rest → ¬ Starts [cLt, cGt] rest →
        (t :: .word w :: ts).length < n →
        ∃ rs' s', parseredirs n s = .ok (rs', s') ∧ lex s' = rest ∧
          rs'.map (Redir.map text) = r :: rs := by
    intro t w ts rs r ht hr ih n s hlex hrest hn
    obtain ⟨n, rfl⟩ := Nat.exists_eq_succ_of_ne_zero (Nat.ne_zero_of_lt hn)
    have hstart : Starts [cLt, cGt] (lex s) := by
      rw [hlex]
      rcases ht with rfl | rfl | rfl
      · exact starts_cons.mpr ⟨cLt, rfl, by decide⟩
      · exact starts_cons.mpr ⟨cGt, rfl, by decide⟩
      · exact starts_cons.mpr ⟨cGt, rfl, by decide⟩
    obtain ⟨s1, hpeek, hlex1, -⟩ := peek_true (by decide) hstart
    obtain ⟨q, eq, s2, hget, hlex2, -⟩ := gettoken_cons (hlex1.trans hlex)
    obtain ⟨q', eq', s3, hget', hlex3, -, -, hword⟩ := gettoken_cons hlex2
    rw [length_cons, length_cons] at hn
    obtain ⟨rs', s', hrec, hlex', hrs'⟩ := ih hlex3 hrest (show ts.length < n by omega)
    refine ⟨redirection t.code (q', eq') ++ rs', s', ?_, hlex', ?_⟩
    · rw [parseredirs, hpeek]
      dsimp only
      rw [hget]
      dsimp only
      rw [hget']
      dsimp only
      rw [if_neg (Token.not_code_ne_word _), hrec]
    · rw [map_append, hr _ (hword w rfl).text_eq, hrs']
      rfl
  induction hd with
  | nil =>
    intro n s hlex hrest hn
    obtain ⟨n, rfl⟩ := Nat.exists_eq_succ_of_ne_zero (Nat.ne_zero_of_lt hn)
    rw [nil_append] at hlex
    obtain ⟨s1, hpeek, hlex1, -⟩ := peek_false (by decide) (hlex ▸ hrest)
    refine ⟨[], s1, ?_, hlex1.trans hlex, rfl⟩
    rw [parseredirs, hpeek]
  | lt w _ ih => exact hcons (.inl rfl) (fun sp h => by rw [← h]; rfl) ih
  | gt w _ ih => exact hcons (.inr (.inl rfl)) (fun sp h => by rw [← h]; rfl) ih
  | gtgt w _ ih => exact hcons (.inr (.inr rfl)) (fun sp h => by rw [← h]; rfl) ih

/-! ## Words -/

/-- The tokens at which the loop of `parseexec` ends. -/
abbrev ends : List UInt8 := [cBar, cRpar, cAmp, cSemi]

structure WordsFrom (s : Ptr) (argv : List Span) (rs : List (Redir Span)) (s' : Ptr)
    (ts : List Token) : Prop where
  tokens : lex s = ts ++ lex s'
  derive : Words ts (argv.map text) (rs.map (Redir.map text))
  suffix : s' <:+ s
  args   : ∀ w ∈ argv, SpanIn s w
  spans  : ∀ r ∈ rs, SpanIn s r.file

theorem parseargs_sound (n : Nat) : ∀ {argc : Nat} {s : Ptr}, (lex s).length < n →
    (∃ argv rs s' ts, parseargs n argc s = .ok (argv, rs, s') ∧ WordsFrom s argv rs s' ts ∧
      (argc < MAXARGS → argc + argv.length < MAXARGS)) ∨
    ∃ msg, parseargs n argc s = .error (.panic msg) := by
  induction n with
  | zero => exact fun hn => absurd hn (Nat.not_lt_zero _)
  | succ n ih =>
    intro argc s hn
    rw [parseargs]
    by_cases hstart : Starts ends (lex s)
    · obtain ⟨s1, hpeek, hlex1, hsuf1⟩ := peek_true (by decide) hstart
      rw [hpeek]
      refine .inl ⟨[], [], s1, [], rfl, ⟨?_, .nil, hsuf1, ?_, ?_⟩, id⟩
      · rw [hlex1]
        rfl
      · exact fun w hw => nomatch hw
      · exact fun r hr => nomatch hr
    · obtain ⟨s1, hpeek, hlex1, hsuf1⟩ := peek_false (by decide) hstart
      rw [hpeek]
      dsimp only
      cases hts : lex s with
      | nil =>
        obtain ⟨q, eq, hget⟩ := gettoken_nil (hlex1.trans hts)
        rw [hget]
        refine .inl ⟨[], [], [], [], rfl, ⟨?_, .nil, nil_suffix, ?_, ?_⟩, id⟩
        · rw [hts, lex_nil]
          rfl
        · exact fun w hw => nomatch hw
        · exact fun r hr => nomatch hr
      | cons t us =>
        obtain ⟨q, eq, s2, hget, hlex2, hsuf2, hq, hword⟩ := gettoken_cons (hlex1.trans hts)
        rw [hget]
        dsimp only
        rw [if_neg (Token.code_ne_zero t)]
        by_cases hw : ∃ w, t = .word w
        · obtain ⟨w, rfl⟩ := hw
          have hat := hword w rfl
          rw [if_neg (Token.not_code_ne_word _)]
          by_cases hmax : MAXARGS ≤ argc + 1
          · rw [if_pos hmax]
            exact .inr ⟨_, rfl⟩
          rw [if_neg hmax]
          rcases parseredirs_sound (s2.length + 1) (Nat.lt_succ_of_le (length_lex_le s2)) with
            ⟨rs, s3, vs, hred, hfrom⟩ | ⟨msg, hred⟩
          · rw [hred]
            dsimp only
            have hlen : (lex s3).length < n := by
              rw [hts, length_cons, ← hlex2, hfrom.tokens, length_append] at hn
              omega
            rcases ih hlen with ⟨argv, rs', s', ws, hrec, hwords, hcount⟩ | ⟨msg, hrec⟩
            · rw [hrec]
              have hsuf := hsuf2.trans hsuf1
              have hsuf3 := hfrom.suffix.trans hsuf
              refine .inl ⟨_, _, s', .word w :: (vs ++ ws), rfl, ⟨?_, ?_, ?_, ?_, ?_⟩, ?_⟩
              · rw [hts, ← hlex2, hfrom.tokens, hwords.tokens, cons_append, append_assoc]
              · rw [map_cons, hat.text_eq, map_append]
                exact .cons w hfrom.derive hwords.derive
              · exact hwords.suffix.trans hsuf3
              · intro x hx
                rcases mem_cons.mp hx with rfl | hx
                · exact ⟨hq.trans hsuf1, w, hat⟩
                · exact (hwords.args x hx).mono hsuf3
              · intro r hr
                rcases mem_append.mp hr with hr | hr
                · exact (hfrom.spans r hr).mono hsuf
                · exact (hwords.spans r hr).mono hsuf3
              · intro _
                have := hcount (Nat.lt_of_not_le hmax)
                rw [length_cons]
                omega
            · rw [hrec]
              exact .inr ⟨msg, rfl⟩
          · rw [hred]
            exact .inr ⟨msg, rfl⟩
        · rw [if_pos (Token.code_ne_word hw)]
          exact .inr ⟨_, rfl⟩

theorem parseargs_complete {ws : List (List UInt8)} (hd : Words ts ws rs) :
    ∀ {n argc : Nat} {s : Ptr}, lex s = ts ++ rest → (rest = [] ∨ Starts ends rest) →
    ¬ Starts [cLt, cGt] rest → ts.length < n → argc + ws.length < MAXARGS →
    ∃ argv rs' s', parseargs n argc s = .ok (argv, rs', s') ∧ lex s' = rest ∧
      argv.map text = ws ∧ rs'.map (Redir.map text) = rs := by
  induction hd with
  | nil =>
    intro n argc s hlex hrest _ hn _
    obtain ⟨n, rfl⟩ := Nat.exists_eq_succ_of_ne_zero (Nat.ne_zero_of_lt hn)
    rw [nil_append] at hlex
    rw [parseargs]
    by_cases hstart : Starts ends rest
    · obtain ⟨s1, hpeek, hlex1, -⟩ := peek_true (by decide) (hlex ▸ hstart)
      rw [hpeek]
      exact ⟨[], [], s1, rfl, hlex1.trans hlex, rfl, rfl⟩
    · obtain ⟨s1, hpeek, hlex1, -⟩ := peek_false (by decide) (hlex ▸ hstart)
      have hnil := hrest.resolve_right hstart
      obtain ⟨q, eq, hget⟩ := gettoken_nil (hlex1.trans (hlex.trans hnil))
      rw [hpeek]
      dsimp only
      rw [hget]
      exact ⟨[], [], [], rfl, lex_nil.trans hnil.symm, rfl, rfl⟩
  | @cons us rs ts ws rs' w hred hwords ih =>
    intro n argc s hlex hrest hnored hn hargc
    obtain ⟨n, rfl⟩ := Nat.exists_eq_succ_of_ne_zero (Nat.ne_zero_of_lt hn)
    rw [length_cons, length_append] at hn
    rw [length_cons] at hargc
    rw [cons_append, append_assoc] at hlex
    have hstart : ¬ Starts ends (lex s) := by
      rw [hlex]
      exact not_starts_word
    obtain ⟨s1, hpeek, hlex1, -⟩ := peek_false (by decide) hstart
    obtain ⟨q, eq, s2, hget, hlex2, -, -, hword⟩ := gettoken_cons (hlex1.trans hlex)
    -- behind the redirections comes a word or what follows the words
    have hnext : ¬ Starts [cLt, cGt] (ts ++ rest) := by
      cases hwords with
      | nil => exact hnored
      | cons => exact not_starts_word
    have hlen : us.length < s2.length + 1 := by
      have := length_lex_le s2
      rw [hlex2, length_append] at this
      omega
    obtain ⟨rsp, s3, hrun, hlex3, hmap⟩ := parseredirs_complete hred hlex2 hnext hlen
    obtain ⟨argv, rsq, s', hrec, hlex', hargv, hrs⟩ :=
      ih hlex3 hrest hnored (show ts.length < n by omega)
        (show argc + 1 + ws.length < MAXARGS by omega)
    refine ⟨(q, eq) :: argv, rsp ++ rsq, s', ?_, hlex', ?_, ?_⟩
    · rw [parseargs, hpeek]
      dsimp only
      rw [hget]
      dsimp only
      rw [if_neg (Token.code_ne_zero _), if_neg (Token.not_code_ne_word _), if_neg (by omega), hrun]
      dsimp only
      rw [hrec]
    · rw [map_cons, (hword w rfl).text_eq, hargv]
    · rw [map_append, hmap, hrs]

/-! ## Background -/

theorem backs_spec (k : Nat) : ∀ {n : Nat} {cmd : Cmd Span} {s : Ptr},
    lex s = replicate k .amp ++ rest → ¬ Starts [cAmp] rest → k < n →
    ∃ s', backs n cmd s = .ok (Cmd.back^[k] cmd, s') ∧ lex s' = rest ∧ s' <:+ s := by
  induction k with
  | zero =>
    intro n cmd s hlex hrest hn
    obtain ⟨n, rfl⟩ := Nat.exists_eq_succ_of_ne_zero (Nat.ne_zero_of_lt hn)
    rw [replicate_zero, nil_append] at hlex
    obtain ⟨s1, hpeek, hlex1, hsuf1⟩ := peek_false (by decide) (hlex ▸ hrest)
    refine ⟨s1, ?_, hlex1.trans hlex, hsuf1⟩
    rw [backs, hpeek]
    rfl
  | succ k ih =>
    intro n cmd s hlex hrest hn
    obtain ⟨n, rfl⟩ := Nat.exists_eq_succ_of_ne_zero (Nat.ne_zero_of_lt hn)
    rw [replicate_succ, cons_append] at hlex
    obtain ⟨s1, hpeek, hlex2, hsuf2⟩ := take_symbol (c := cAmp) rfl hlex
    obtain ⟨s', hrec, hlex', hsuf'⟩ := @ih n (.back cmd) _ hlex2 hrest (Nat.lt_of_succ_lt_succ hn)
    refine ⟨s', ?_, hlex', hsuf'.trans hsuf2⟩
    rw [backs, hpeek]
    exact hrec

theorem exists_backs (ts : List Token) :
    ∃ k rest, ts = replicate k .amp ++ rest ∧ ¬ Starts [cAmp] rest := by
  induction ts with
  | nil => exact ⟨0, [], rfl, not_starts_nil⟩
  | cons t ts ih =>
    by_cases h : Starts [cAmp] (t :: ts)
    · obtain ⟨us, hus⟩ := (starts_symbol rfl).mp h
      cases hus
      obtain ⟨k, rest, rfl, hrest⟩ := ih
      exact ⟨k + 1, rest, rfl, hrest⟩
    · exact ⟨0, t :: ts, rfl, h⟩

end Xv6.Shell
