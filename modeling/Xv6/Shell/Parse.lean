import Mathlib.Logic.Function.Iterate
import Xv6.Shell.Lex

/-! # The shell parser

    `parseline`, `parsepipe`, `parseexec`, `parseblock` and `parseredirs` of `sh.c`, and the grammar
    they accept. The routines take a bound on their recursion; `need` tells how large it has to be.
-/

namespace Xv6.Shell

/-! ## Model -/

abbrev MAXARGS : Nat := 10
abbrev O_RDONLY : Nat := 0
abbrev O_WRONLY : Nat := 1
abbrev O_CREATE : Nat := 0x200

/-- `struct cmd` and its variants; `W` is how a word is given. -/
inductive Cmd (W : Type) where
  | exec (argv : List W)
  | redir (cmd : Cmd W) (file : W) (mode fd : Nat)
  | pipe (left right : Cmd W)
  | list (left right : Cmd W)
  | back (cmd : Cmd W)
  deriving DecidableEq

/-- The arguments of `redircmd` behind the first one. -/
structure Redir (W : Type) where
  file : W
  mode : Nat
  fd   : Nat

/-- The redirections are put around the command one after the other. -/
def wrap {W : Type} (cmd : Cmd W) (rs : List (Redir W)) : Cmd W :=
  rs.foldl (fun c r => .redir c r.file r.mode r.fd) cmd

/-- Two pointers, to the start and the end of a word. -/
abbrev Span := Ptr × Ptr

/-- Why a routine does not return. -/
inductive Stop where
  | panic (msg : String)
  /-- The bound on the recursion was too small. -/
  | timeout
  deriving DecidableEq

abbrev Parser := Except Stop

/-- The `switch` of `parseredirs`. -/
def redirection (tok : UInt8) (w : Span) : List (Redir Span) :=
  if tok = cLt then [⟨w, O_RDONLY, 0⟩]
  else if tok = cGt then [⟨w, O_WRONLY ||| O_CREATE, 1⟩]
  else if tok = cPlus then [⟨w, O_WRONLY ||| O_CREATE, 1⟩]
  else []

/-- `parseredirs`: the redirections that it puts around its argument. -/
def parseredirs : Nat → Ptr → Parser (List (Redir Span) × Ptr)
  | 0, _ => .error .timeout
  | n + 1, s =>
      match peek s [cLt, cGt] with
      | (false, s) => .ok ([], s)
      | (true, s) =>
          match gettoken s with
          | (tok, _, _, s) =>
              match gettoken s with
              | (ret, q, eq, s) =>
                  if ret ≠ cWord then .error (.panic "missing file for redirection")
                  else
                    match parseredirs n s with
                    | .error e => .error e
                    | .ok (rs, s) => .ok (redirection tok (q, eq) ++ rs, s)

/-- The loop of `parseexec` with `argc` words read: the other words, and the
    redirections that are put around the command. -/
def parseargs : Nat → Nat → Ptr → Parser (List Span × List (Redir Span) × Ptr)
  | 0, _, _ => .error .timeout
  | n + 1, argc, s =>
      match peek s [cBar, cRpar, cAmp, cSemi] with
      | (true, s) => .ok ([], [], s)
      | (false, s) =>
          match gettoken s with
          | (tok, q, eq, s) =>
              if tok = 0 then .ok ([], [], s)
              else if tok ≠ cWord then .error (.panic "syntax")
              else if MAXARGS ≤ argc + 1 then .error (.panic "too many args")
              else
                match parseredirs (s.length + 1) s with
                | .error e => .error e
                | .ok (rs, s) =>
                    match parseargs n (argc + 1) s with
                    | .error e => .error e
                    | .ok (argv, rs', s) => .ok ((q, eq) :: argv, rs ++ rs', s)

/-- The loop of `parseline`. -/
def backs : Nat → Cmd Span → Ptr → Parser (Cmd Span × Ptr)
  | 0, _, _ => .error .timeout
  | n + 1, cmd, s =>
      match peek s [cAmp] with
      | (false, s) => .ok (cmd, s)
      | (true, s) => backs n (.back cmd) (gettoken s).2.2.2

mutual

def parseline : Nat → Ptr → Parser (Cmd Span × Ptr)
  | 0, _ => .error .timeout
  | n + 1, s =>
      match parsepipe n s with
      | .error e => .error e
      | .ok (cmd, s) =>
          match backs (s.length + 1) cmd s with
          | .error e => .error e
          | .ok (cmd, s) =>
              match peek s [cSemi] with
              | (false, s) => .ok (cmd, s)
              | (true, s) =>
                  match parseline n (gettoken s).2.2.2 with
                  | .error e => .error e
                  | .ok (right, s) => .ok (.list cmd right, s)

def parsepipe : Nat → Ptr → Parser (Cmd Span × Ptr)
  | 0, _ => .error .timeout
  | n + 1, s =>
      match parseexec n s with
      | .error e => .error e
      | .ok (cmd, s) =>
          match peek s [cBar] with
          | (false, s) => .ok (cmd, s)
          | (true, s) =>
              match parsepipe n (gettoken s).2.2.2 with
              | .error e => .error e
              | .ok (right, s) => .ok (.pipe cmd right, s)

/-- The `EXEC` node is filled while redirections are put around it. -/
def parseexec : Nat → Ptr → Parser (Cmd Span × Ptr)
  | 0, _ => .error .timeout
  | n + 1, s =>
      match peek s [cLpar] with
      | (true, s) => parseblock n s
      | (false, s) =>
          match parseredirs (s.length + 1) s with
          | .error e => .error e
          | .ok (rs, s) =>
              match parseargs (s.length + 1) 0 s with
              | .error e => .error e
              | .ok (argv, rs', s) => .ok (wrap (.exec argv) (rs ++ rs'), s)

def parseblock : Nat → Ptr → Parser (Cmd Span × Ptr)
  | 0, _ => .error .timeout
  | n + 1, s =>
      match peek s [cLpar] with
      | (false, _) => .error (.panic "parseblock")
      | (true, s) =>
          match parseline n (gettoken s).2.2.2 with
          | .error e => .error e
          | .ok (cmd, s) =>
              match peek s [cRpar] with
              | (false, _) => .error (.panic "syntax - missing )")
              | (true, s) =>
                  let s := (gettoken s).2.2.2
                  match parseredirs (s.length + 1) s with
                  | .error e => .error e
                  | .ok (rs, s) => .ok (wrap cmd rs, s)

end

/-! ## Grammar -/

/-- `redir*`, with the redirections in order. -/
inductive Redirs : List Token → List (Redir (List UInt8)) → Prop where
  | nil : Redirs [] []
  | lt {ts rs} (w : List UInt8) : Redirs ts rs →
      Redirs (.lt :: .word w :: ts) (⟨w, O_RDONLY, 0⟩ :: rs)
  | gt {ts rs} (w : List UInt8) : Redirs ts rs →
      Redirs (.gt :: .word w :: ts) (⟨w, O_WRONLY ||| O_CREATE, 1⟩ :: rs)
  | gtgt {ts rs} (w : List UInt8) : Redirs ts rs →
      Redirs (.gtgt :: .word w :: ts) (⟨w, O_WRONLY ||| O_CREATE, 1⟩ :: rs)

/-- `(word redir*)*`, with the words and the redirections in order. -/
inductive Words : List Token → List (List UInt8) → List (Redir (List UInt8)) → Prop where
  | nil : Words [] [] []
  | cons {us rs ts ws rs'} (w : List UInt8) : Redirs us rs → Words ts ws rs' →
      Words (.word w :: (us ++ ts)) (w :: ws) (rs ++ rs')

inductive Part where
  | line | pipe | exec

/-- The grammar, with the tree of a derivation. -/
inductive Derives : Part → List Token → Cmd (List UInt8) → Prop where
  /-- `line ::= pipe '&'*` -/
  | line {ts t} (k : Nat) : Derives .pipe ts t →
      Derives .line (ts ++ List.replicate k .amp) (Cmd.back^[k] t)
  /-- `line ::= pipe '&'* ';' line` -/
  | list {ts t us u} (k : Nat) : Derives .pipe ts t → Derives .line us u →
      Derives .line (ts ++ (List.replicate k .amp ++ .semi :: us)) (.list (Cmd.back^[k] t) u)
  /-- `pipe ::= exec` -/
  | exec {ts t} : Derives .exec ts t → Derives .pipe ts t
  /-- `pipe ::= exec '|' pipe` -/
  | pipe {ts t us u} : Derives .exec ts t → Derives .pipe us u →
      Derives .pipe (ts ++ .bar :: us) (.pipe t u)
  /-- `exec ::= '(' line ')' redir*` -/
  | block {ts t us rs} : Derives .line ts t → Redirs us rs →
      Derives .exec (.lpar :: (ts ++ .rpar :: us)) (wrap t rs)
  /-- `exec ::= redir* (word redir*)*`, with at most 9 words -/
  | words {ts rs us ws rs'} : Redirs ts rs → Words us ws rs' → ws.length < MAXARGS →
      Derives .exec (ts ++ us) (wrap (.exec ws) (rs ++ rs'))

end Xv6.Shell
