import Xv6.Shell.Loops

/-! # The parser accepts its grammar

    For each routine, what it returns has a derivation, and whatever has a derivation is returned.
    The first half also says that a routine with a large enough bound returns or panics.
-/

namespace Xv6.Shell

open List

variable {s : Ptr} {t : Token} {ts rest : List Token} {toks toks' : List UInt8}

/-! ## Whatever is returned is derived -/

structure ParsedFrom (part : Part) (s : Ptr) (cmd : Cmd Span) (s' : Ptr) (ts : List Token) :
    Prop where
  tokens : lex s = ts ++ lex s'
  derive : Derives part ts (cmd.map text)
  suffix : s' <:+ s
  spans  : ∀ w ∈ cmd.words, SpanIn s w

/-- The routine returns a part of the grammar, or it panics. -/
def Sound (part : Part) (s : Ptr) (r : Parser (Cmd Span × Ptr)) : Prop :=
  (∃ cmd s' ts, r = .ok (cmd, s') ∧ ParsedFrom part s cmd s' ts) ∨
  ∃ msg, r = .error (.panic msg)

variable {n : Nat}

/-- All `&`s are taken. -/
theorem backs_all (k : Nat) {cmd : Cmd Span} (hlex : lex s = replicate k .amp ++ rest)
    (hrest : ¬ Starts [cAmp] rest) :
    ∃ s', backs (s.length + 1) cmd s = .ok (Cmd.back^[k] cmd, s') ∧ lex s' = rest ∧ s' <:+ s := by
  refine backs_spec k hlex hrest ?_
  have := length_lex_le s
  rw [hlex, length_append, length_replicate] at this
  omega

theorem parseline_step (hpipe : Sound .pipe s (parsepipe n s))
    (hline : ∀ s', (lex s').length < (lex s).length → Sound .line s' (parseline n s')) :
    Sound .line s (parseline (n + 1) s) := by
  rw [parseline]
  rcases hpipe with ⟨cmd, s1, ts, hrun, h1⟩ | ⟨msg, hrun⟩
  · rw [hrun]
    dsimp only
    obtain ⟨k, rest, hk, hrest⟩ := exists_backs (lex s1)
    obtain ⟨s2, hback, hlex2, hsuf2⟩ := backs_all k hk hrest
    rw [hback]
    dsimp only
    by_cases hsemi : Starts [cSemi] (lex s2)
    · obtain ⟨us, hus⟩ := (starts_symbol rfl).mp hsemi
      obtain ⟨s3, hpeek, hlex4, hsuf4⟩ := take_symbol (c := cSemi) rfl hus
      rw [hpeek]
      dsimp only
      have htok : lex s = ts ++ (replicate k .amp ++ .semi :: us) := by
        rw [h1.tokens, hk, ← hlex2, hus]
      have hless : (lex (gettoken s3).2.2.2).length < (lex s).length := by
        rw [hlex4, htok]
        simp only [length_append, length_cons]
        omega
      have hsuf := (hsuf4.trans hsuf2).trans h1.suffix
      rcases hline _ hless with ⟨right, s', vs, hrun', h'⟩ | ⟨msg, hrun'⟩
      · rw [hrun']
        refine .inl ⟨_, s', ts ++ (replicate k .amp ++ .semi :: vs), rfl, ?_, ?_,
          h'.suffix.trans hsuf, ?_⟩
        · rw [htok, ← hlex4, h'.tokens]
          simp only [append_assoc, cons_append]
        · rw [Cmd.map, map_backs]
          exact .list k h1.derive h'.derive
        · intro w hw
          rw [Cmd.words, words_backs] at hw
          rcases mem_append.mp hw with hw | hw
          · exact h1.spans w hw
          · exact (h'.spans w hw).mono hsuf
      · rw [hrun']
        exact .inr ⟨msg, rfl⟩
    · obtain ⟨s3, hpeek, hlex3, hsuf3⟩ := peek_false (by decide) hsemi
      rw [hpeek]
      refine .inl ⟨_, s3, ts ++ replicate k .amp, rfl, ?_, ?_, ?_, ?_⟩
      · rw [h1.tokens, hk, hlex3, hlex2, append_assoc]
      · rw [map_backs]
        exact .line k h1.derive
      · exact (hsuf3.trans hsuf2).trans h1.suffix
      · intro w hw
        rw [words_backs] at hw
        exact h1.spans w hw
  · rw [hrun]
    exact .inr ⟨msg, rfl⟩

theorem parsepipe_step (hexec : Sound .exec s (parseexec n s))
    (hpipe : ∀ s', (lex s').length < (lex s).length → Sound .pipe s' (parsepipe n s')) :
    Sound .pipe s (parsepipe (n + 1) s) := by
  rw [parsepipe]
  rcases hexec with ⟨cmd, s1, ts, hrun, h1⟩ | ⟨msg, hrun⟩
  · rw [hrun]
    dsimp only
    by_cases hbar : Starts [cBar] (lex s1)
    · obtain ⟨us, hus⟩ := (starts_symbol rfl).mp hbar
      obtain ⟨s2, hpeek, hlex3, hsuf3⟩ := take_symbol (c := cBar) rfl hus
      rw [hpeek]
      dsimp only
      have htok : lex s = ts ++ .bar :: us := by rw [h1.tokens, hus]
      have hless : (lex (gettoken s2).2.2.2).length < (lex s).length := by
        rw [hlex3, htok]
        simp only [length_append, length_cons]
        omega
      have hsuf := hsuf3.trans h1.suffix
      rcases hpipe _ hless with ⟨right, s', vs, hrun', h'⟩ | ⟨msg, hrun'⟩
      · rw [hrun']
        refine .inl ⟨_, s', ts ++ .bar :: vs, rfl, ?_, .pipe h1.derive h'.derive,
          h'.suffix.trans hsuf, ?_⟩
        · rw [htok, ← hlex3, h'.tokens]
          simp only [append_assoc, cons_append]
        · intro w hw
          rcases mem_append.mp hw with hw | hw
          · exact h1.spans w hw
          · exact (h'.spans w hw).mono hsuf
      · rw [hrun']
        exact .inr ⟨msg, rfl⟩
    · obtain ⟨s2, hpeek, hlex2, hsuf2⟩ := peek_false (by decide) hbar
      rw [hpeek]
      refine .inl ⟨cmd, s2, ts, rfl, ?_, .exec h1.derive, hsuf2.trans h1.suffix, h1.spans⟩
      rw [h1.tokens, hlex2]
  · rw [hrun]
    exact .inr ⟨msg, rfl⟩

theorem parseblock_step (hstart : Starts [cLpar] (lex s))
    (hline : ∀ s', (lex s').length < (lex s).length → Sound .line s' (parseline n s')) :
    Sound .exec s (parseblock (n + 1) s) := by
  obtain ⟨us, hus⟩ := (starts_symbol rfl).mp hstart
  obtain ⟨s1, hpeek, hlex2, hsuf⟩ := take_symbol (c := cLpar) rfl hus
  rw [parseblock, hpeek]
  dsimp only
  have hless : (lex (gettoken s1).2.2.2).length < (lex s).length := by
    rw [hlex2, hus]
    exact Nat.lt_succ_self _
  rcases hline _ hless with ⟨cmd, s3, ts, hrun, h3⟩ | ⟨msg, hrun⟩
  · rw [hrun]
    dsimp only
    by_cases hend : Starts [cRpar] (lex s3)
    · obtain ⟨vs, hvs⟩ := (starts_symbol rfl).mp hend
      obtain ⟨s4, hpeek', hlex5, hsuf5⟩ := take_symbol (c := cRpar) rfl hvs
      rw [hpeek']
      dsimp only
      have hsuf' := (hsuf5.trans h3.suffix).trans hsuf
      rcases parseredirs_sound _ (Nat.lt_succ_of_le (length_lex_le (gettoken s4).2.2.2)) with
        ⟨rs, s', ws, hred, h'⟩ | ⟨msg, hred⟩
      · rw [hred]
        refine .inl ⟨_, s', .lpar :: (ts ++ .rpar :: ws), rfl, ?_, ?_, h'.suffix.trans hsuf', ?_⟩
        · rw [hus, ← hlex2, h3.tokens, hvs, ← hlex5, h'.tokens]
          simp only [append_assoc, cons_append]
        · rw [map_wrap]
          exact .block h3.derive h'.derive
        · intro w hw
          rw [words_wrap] at hw
          rcases mem_append.mp hw with hw | hw
          · exact (h3.spans w hw).mono hsuf
          · obtain ⟨r, hr, rfl⟩ := mem_map.mp hw
            exact (h'.spans r hr).mono hsuf'
      · rw [hred]
        exact .inr ⟨msg, rfl⟩
    · obtain ⟨s4, hpeek', -⟩ := peek_false (by decide) hend
      rw [hpeek']
      exact .inr ⟨_, rfl⟩
  · rw [hrun]
    exact .inr ⟨msg, rfl⟩

theorem parseexec_step
    (hblock : ∀ s', lex s' = lex s → Starts [cLpar] (lex s') → Sound .exec s' (parseblock n s')) :
    Sound .exec s (parseexec (n + 1) s) := by
  rw [parseexec]
  by_cases hstart : Starts [cLpar] (lex s)
  · obtain ⟨s1, hpeek, hlex1, hsuf1⟩ := peek_true (by decide) hstart
    rw [hpeek]
    dsimp only
    rcases hblock s1 hlex1 (hlex1 ▸ hstart) with ⟨cmd, s', ts, hrun, h'⟩ | ⟨msg, hrun⟩
    · exact .inl ⟨cmd, s', ts, hrun, hlex1 ▸ h'.tokens, h'.derive, h'.suffix.trans hsuf1,
        fun w hw => (h'.spans w hw).mono hsuf1⟩
    · exact .inr ⟨msg, hrun⟩
  · obtain ⟨s1, hpeek, hlex1, hsuf1⟩ := peek_false (by decide) hstart
    rw [hpeek]
    dsimp only
    rcases parseredirs_sound _ (Nat.lt_succ_of_le (length_lex_le s1)) with
      ⟨rs, s2, ts, hred, h2⟩ | ⟨msg, hred⟩
    · rw [hred]
      dsimp only
      rcases @parseargs_sound _ 0 _ (Nat.lt_succ_of_le (length_lex_le s2)) with
        ⟨argv, rs', s', us, hargs, h', hcount⟩ | ⟨msg, hargs⟩
      · rw [hargs]
        have hsuf := h2.suffix.trans hsuf1
        refine .inl ⟨_, s', ts ++ us, rfl, ?_, ?_, h'.suffix.trans hsuf, ?_⟩
        · rw [← hlex1, h2.tokens, h'.tokens, append_assoc]
        · rw [map_wrap, map_append]
          refine .words h2.derive h'.derive ?_
          rw [length_map]
          have := hcount (by decide)
          omega
        · intro w hw
          rw [words_wrap] at hw
          rcases mem_append.mp hw with hw | hw
          · exact (h'.args w hw).mono hsuf
          · obtain ⟨r, hr, rfl⟩ := mem_map.mp hw
            rcases mem_append.mp hr with hr | hr
            · exact (h2.spans r hr).mono hsuf1
            · exact (h'.spans r hr).mono hsuf
      · rw [hargs]
        exact .inr ⟨msg, rfl⟩
    · rw [hred]
      exact .inr ⟨msg, rfl⟩

/-- How deep a routine can get: every token is met by at most four calls. -/
def need : Part → List Token → Nat
  | .line, ts => 4 * ts.length + 4
  | .pipe, ts => 4 * ts.length + 3
  | .exec, ts => 4 * ts.length + 2

def parse : Part → Nat → Ptr → Parser (Cmd Span × Ptr)
  | .line => parseline
  | .pipe => parsepipe
  | .exec => parseexec

theorem parse_sound (n : Nat) : (∀ part s, need part (lex s) ≤ n → Sound part s (parse part n s)) ∧
    ∀ s, Starts [cLpar] (lex s) → 4 * (lex s).length + 1 ≤ n → Sound .exec s (parseblock n s) := by
  induction n with
  | zero =>
    refine ⟨fun part s h => ?_, fun s _ h => absurd h (Nat.not_succ_le_zero _)⟩
    cases part
    all_goals exact absurd h (Nat.not_succ_le_zero _)
  | succ n ih =>
    obtain ⟨ihparse, ihblock⟩ := ih
    refine ⟨fun part s h => ?_, fun s hstart h => ?_⟩
    · cases part with
      | line =>
        have hn : 4 * (lex s).length + 3 ≤ n := Nat.le_of_succ_le_succ h
        exact parseline_step (ihparse .pipe s hn)
          (fun s' hless => ihparse .line s' (show 4 * (lex s').length + 4 ≤ n by omega))
      | pipe =>
        have hn : 4 * (lex s).length + 2 ≤ n := Nat.le_of_succ_le_succ h
        exact parsepipe_step (ihparse .exec s hn)
          (fun s' hless => ihparse .pipe s' (show 4 * (lex s').length + 3 ≤ n by omega))
      | exec =>
        have hn : 4 * (lex s).length + 1 ≤ n := Nat.le_of_succ_le_succ h
        exact parseexec_step fun s' hlex hstart => ihblock s' hstart (hlex ▸ hn)
    · exact parseblock_step hstart
        (fun s' hless => ihparse .line s' (show 4 * (lex s').length + 4 ≤ n by omega))

/-! ## Whatever is derived is returned -/

/-- What can follow a part of the grammar. -/
def Follow : Part → List Token → Prop
  | .line, rest => rest = [] ∨ Starts [cRpar] rest
  | .pipe, rest => rest = [] ∨ Starts [cRpar, cAmp, cSemi] rest
  | .exec, rest => rest = [] ∨ Starts ends rest

theorem Starts.mono (h : Starts toks ts) (hsub : toks ⊆ toks') : Starts toks' ts := by
  obtain ⟨t, ht, c, hc, hmem⟩ := h
  exact ⟨t, ht, c, hc, hsub hmem⟩

/-- The next token decides. -/
theorem Starts.disjoint (h : Starts toks ts) (hdis : toks.all (!toks'.contains ·) = true) :
    ¬ Starts toks' ts := by
  obtain ⟨t, us, rfl, c, hc, hmem⟩ := starts_iff.mp h
  intro h'
  obtain ⟨d, hd, hmem'⟩ := starts_cons.mp h'
  cases hc.symm.trans hd
  have hn := all_eq_true.mp hdis c hmem
  rw [contains_iff_mem.mpr hmem'] at hn
  cases hn

theorem Follow.disjoint (h : Follow .exec rest) (hdis : ends.all (!toks.contains ·) = true) :
    ¬ Starts toks rest := by
  rcases h with rfl | h
  · exact not_starts_nil
  · exact h.disjoint hdis

/-- Tokens that are read as the tree, wherever they are followed properly. -/
def Complete (part : Part) (ts : List Token) (tree : Cmd (List UInt8)) : Prop :=
  ∀ {n : Nat} {s : Ptr} {rest : List Token}, lex s = ts ++ rest → Follow part rest →
    need part (lex s) ≤ n →
    ∃ cmd s', parse part n s = .ok (cmd, s') ∧ lex s' = rest ∧ cmd.map text = tree

section Routines

variable {us : List Token} {tree u : Cmd (List UInt8)} {rs : List (Redir (List UInt8))}

theorem complete_line (k : Nat) (ih : Complete .pipe ts tree) :
    Complete .line (ts ++ replicate k .amp) (Cmd.back^[k] tree) := by
  intro n s rest hlex hfollow hn
  obtain ⟨n, rfl⟩ := Nat.exists_eq_succ_of_ne_zero (Nat.ne_zero_of_lt hn)
  rw [append_assoc] at hlex
  have hpipe : Follow .pipe (replicate k .amp ++ rest) := by
    cases k with
    | zero =>
      rcases hfollow with rfl | h
      · exact .inl rfl
      · exact .inr (h.mono (by decide))
    | succ k => exact .inr (starts_cons.mpr ⟨cAmp, rfl, by decide⟩)
  obtain ⟨cmd, s1, hrun, hlex1, hmap⟩ := ih (n := n) hlex hpipe (Nat.le_of_succ_le_succ hn)
  have hno : ∀ toks : List UInt8, cRpar ∉ toks → ¬ Starts toks rest := by
    intro toks hnot
    rcases hfollow with rfl | h
    · exact not_starts_nil
    · refine h.disjoint ?_
      simpa using hnot
  obtain ⟨s2, hback, hlex2, -⟩ := backs_all k hlex1 (hno _ (by decide))
  obtain ⟨s3, hpeek, hlex3, -⟩ := peek_false (show [cSemi].all (!plain ·) = true by decide)
    (hlex2 ▸ hno _ (by decide))
  refine ⟨Cmd.back^[k] cmd, s3, ?_, hlex3.trans hlex2, ?_⟩
  · show parseline (n + 1) s = _
    rw [parseline, show parsepipe n s = _ from hrun]
    dsimp only
    rw [hback]
    dsimp only
    rw [hpeek]
  · rw [map_backs, hmap]

theorem complete_list (k : Nat) (ihpipe : Complete .pipe ts tree) (ihline : Complete .line us u) :
    Complete .line (ts ++ (replicate k .amp ++ .semi :: us))
      (.list (Cmd.back^[k] tree) u) := by
  intro n s rest hlex hfollow hn
  obtain ⟨n, rfl⟩ := Nat.exists_eq_succ_of_ne_zero (Nat.ne_zero_of_lt hn)
  rw [append_assoc, append_assoc, cons_append] at hlex
  have hpipe : Follow .pipe (replicate k .amp ++ .semi :: (us ++ rest)) := by
    cases k with
    | zero => exact .inr (starts_cons.mpr ⟨cSemi, rfl, by decide⟩)
    | succ k => exact .inr (starts_cons.mpr ⟨cAmp, rfl, by decide⟩)
  obtain ⟨cmd, s1, hrun, hlex1, hmap⟩ := ihpipe (n := n) hlex hpipe (Nat.le_of_succ_le_succ hn)
  have hsemi : Starts [cSemi] (.semi :: (us ++ rest)) := (starts_symbol rfl).mpr ⟨_, rfl⟩
  obtain ⟨s2, hback, hlex2, -⟩ := backs_all k hlex1 (hsemi.disjoint (by decide))
  obtain ⟨s3, hpeek, hlex4, -⟩ := take_symbol (c := cSemi) rfl hlex2
  have hless : need .line (lex (gettoken s3).2.2.2) ≤ n := by
    simp only [need, hlex, hlex4, length_append, length_cons] at hn ⊢
    omega
  obtain ⟨right, s', hrun', hlex', hmap'⟩ := ihline hlex4 hfollow hless
  refine ⟨.list (Cmd.back^[k] cmd) right, s', ?_, hlex', ?_⟩
  · show parseline (n + 1) s = _
    rw [parseline, show parsepipe n s = _ from hrun]
    dsimp only
    rw [hback]
    dsimp only
    rw [hpeek]
    dsimp only
    rw [show parseline n _ = _ from hrun']
  · rw [Cmd.map, map_backs, hmap, hmap']

theorem complete_exec (ih : Complete .exec ts tree) : Complete .pipe ts tree := by
  intro n s rest hlex hfollow hn
  obtain ⟨n, rfl⟩ := Nat.exists_eq_succ_of_ne_zero (Nat.ne_zero_of_lt hn)
  have hexec : Follow .exec rest := hfollow.imp_right fun h => h.mono (by decide)
  obtain ⟨cmd, s1, hrun, hlex1, hmap⟩ := ih (n := n) hlex hexec (Nat.le_of_succ_le_succ hn)
  have hno : ¬ Starts [cBar] rest := by
    rcases hfollow with rfl | h
    · exact not_starts_nil
    · exact h.disjoint (by decide)
  obtain ⟨s2, hpeek, hlex2, -⟩ := peek_false (by decide) (hlex1 ▸ hno)
  refine ⟨cmd, s2, ?_, hlex2.trans hlex1, hmap⟩
  show parsepipe (n + 1) s = _
  rw [parsepipe, show parseexec n s = _ from hrun]
  dsimp only
  rw [hpeek]

theorem complete_pipe (ihexec : Complete .exec ts tree) (ihpipe : Complete .pipe us u) :
    Complete .pipe (ts ++ .bar :: us) (.pipe tree u) := by
  intro n s rest hlex hfollow hn
  obtain ⟨n, rfl⟩ := Nat.exists_eq_succ_of_ne_zero (Nat.ne_zero_of_lt hn)
  rw [append_assoc, cons_append] at hlex
  have hbar : Starts [cBar] (.bar :: (us ++ rest)) := (starts_symbol rfl).mpr ⟨_, rfl⟩
  obtain ⟨cmd, s1, hrun, hlex1, hmap⟩ := ihexec (n := n) hlex (.inr (hbar.mono (by decide)))
    (Nat.le_of_succ_le_succ hn)
  obtain ⟨s2, hpeek, hlex3, -⟩ := take_symbol (c := cBar) rfl hlex1
  have hless : need .pipe (lex (gettoken s2).2.2.2) ≤ n := by
    simp only [need, hlex, hlex3, length_append, length_cons] at hn ⊢
    omega
  obtain ⟨right, s', hrun', hlex', hmap'⟩ := ihpipe hlex3 hfollow hless
  refine ⟨.pipe cmd right, s', ?_, hlex', ?_⟩
  · show parsepipe (n + 1) s = _
    rw [parsepipe, show parseexec n s = _ from hrun]
    dsimp only
    rw [hpeek]
    dsimp only
    rw [show parsepipe n _ = _ from hrun']
  · rw [Cmd.map, hmap, hmap']

theorem complete_block (ih : Complete .line ts tree) (hred : Redirs us rs) :
    Complete .exec (.lpar :: (ts ++ .rpar :: us)) (wrap tree rs) := by
  intro n s rest hlex hfollow hn
  obtain ⟨n, rfl⟩ := Nat.exists_eq_add_of_le' (show 2 ≤ n from (Nat.le_add_left _ _).trans hn)
  have hn' : 4 * (lex s).length ≤ n := Nat.le_of_add_le_add_right hn
  rw [cons_append, append_assoc, cons_append] at hlex
  have hstart : Starts [cLpar] (lex s) := (starts_symbol rfl).mpr ⟨_, hlex⟩
  obtain ⟨s1, hpeek, hlex1, -⟩ := peek_true (by decide) hstart
  obtain ⟨s2, hpeek2, hlex3, -⟩ := take_symbol (c := cLpar) rfl (hlex1.trans hlex)
  have hless : need .line (lex (gettoken s2).2.2.2) ≤ n := by
    rw [hlex3]
    rw [hlex, length_cons] at hn'
    exact hn'
  have hend : Starts [cRpar] (.rpar :: (us ++ rest)) := (starts_symbol rfl).mpr ⟨_, rfl⟩
  obtain ⟨cmd, s4, hrun, hlex4, hmap⟩ := ih hlex3 (.inr hend) hless
  obtain ⟨s5, hpeek5, hlex6, -⟩ := take_symbol (c := cRpar) rfl hlex4
  have hlen : us.length < (gettoken s5).2.2.2.length + 1 := by
    have := length_lex_le (gettoken s5).2.2.2
    rw [hlex6, length_append] at this
    omega
  obtain ⟨rs', s', hrun', hlex', hrs⟩ :=
    parseredirs_complete hred hlex6 (hfollow.disjoint (by decide)) hlen
  refine ⟨wrap cmd rs', s', ?_, hlex', ?_⟩
  · show parseexec (n + 2) s = _
    rw [parseexec, hpeek]
    dsimp only
    rw [parseblock, hpeek2]
    dsimp only
    rw [show parseline n _ = _ from hrun]
    dsimp only
    rw [hpeek5]
    dsimp only
    rw [hrun']
  · rw [map_wrap, hmap, hrs]

theorem complete_words {ws : List (List UInt8)} {rs' : List (Redir (List UInt8))}
    (hred : Redirs ts rs) (hwords : Words us ws rs') (hmax : ws.length < MAXARGS) :
    Complete .exec (ts ++ us) (wrap (.exec ws) (rs ++ rs')) := by
  intro n s rest hlex hfollow hn
  obtain ⟨n, rfl⟩ := Nat.exists_eq_succ_of_ne_zero (Nat.ne_zero_of_lt hn)
  rw [append_assoc] at hlex
  have hblock : ¬ Starts [cLpar] (lex s) := by
    rw [hlex]
    cases hred with
    | nil =>
      cases hwords with
      | nil => exact hfollow.disjoint (by decide)
      | cons => exact not_starts_word
    | lt | gt | gtgt =>
      intro h
      obtain ⟨c, hc, hmem⟩ := starts_cons.mp h
      cases hc
      exact absurd hmem (by decide)
  have hnext : ¬ Starts [cLt, cGt] (us ++ rest) := by
    cases hwords with
    | nil => exact hfollow.disjoint (by decide)
    | cons => exact not_starts_word
  obtain ⟨s1, hpeek, hlex1, -⟩ := peek_false (by decide) hblock
  have hlen1 : ts.length < s1.length + 1 := by
    have := length_lex_le s1
    rw [hlex1, hlex, length_append] at this
    omega
  obtain ⟨rsp, s2, hrun, hlex2, hrs⟩ :=
    parseredirs_complete hred (hlex1.trans hlex) hnext hlen1
  have hlen2 : us.length < s2.length + 1 := by
    have := length_lex_le s2
    rw [hlex2, length_append] at this
    omega
  obtain ⟨argv, rsq, s', hrun', hlex', hargv, hrs'⟩ := parseargs_complete hwords
    hlex2 hfollow (hfollow.disjoint (by decide)) hlen2 (show 0 + _ < MAXARGS by omega)
  refine ⟨wrap (.exec argv) (rsp ++ rsq), s', ?_, hlex', ?_⟩
  · show parseexec (n + 1) s = _
    rw [parseexec, hpeek]
    dsimp only
    rw [hrun]
    dsimp only
    rw [hrun']
  · rw [map_wrap, map_append, hrs, hrs', Cmd.map, hargv]

end Routines

theorem parse_complete {part : Part} {tree : Cmd (List UInt8)} (hd : Derives part ts tree) :
    Complete part ts tree := by
  induction hd with
  | line k _ ih => exact complete_line k ih
  | list k _ _ ihpipe ihline => exact complete_list k ihpipe ihline
  | exec _ ih => exact complete_exec ih
  | pipe _ _ ihexec ihpipe => exact complete_pipe ihexec ihpipe
  | block _ hred ih => exact complete_block ih hred
  | words hred hwords hmax => exact complete_words hred hwords hmax

end Xv6.Shell
