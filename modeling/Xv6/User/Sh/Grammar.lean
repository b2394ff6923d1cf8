import Mathlib.Logic.Function.Iterate

/-!
# The shell's command language (`user/sh.c`)

What `parsecmd` should accept and what it should build, stated apart from the
parser.

* `lex` cuts a command line into tokens. Whitespace (`" \t\r\n\v"`) separates
  tokens and is dropped, each of `<|&;()` is a token, `>>` is one token and a
  `>` not followed by `>` another, and a WORD is a maximal run of bytes that
  are neither whitespace nor one of the symbols `<|>&;()`.
* `Ast` is the command tree, with the WORDs as byte strings.
* `Derives cat ts t` is the grammar

      line   := pipe {'&'} [';' line]
      pipe   := exec ['|' pipe]
      exec   := '(' line ')' redirs | redirs {WORD redirs}
      redirs := {('<' | '>' | '>>') WORD}

  with at most `MAXARGS - 1` WORDs in an exec, relating the tokens `ts` of a
  phrase of category `cat` to the tree of its derivation: `|` and `;` nest to
  the right, each `&` wraps what stands before it, and the redirections of an
  exec or a block wrap it in the order they are written.

`lex_white`, `lex_symbol`, `lex_app`, `lex_gt` and `lex_word` are the rules
by which the lexer's proofs read a line byte by byte.
-/

namespace Xv6.User.Sh

/-- `MAXARGS`: the size of an `execcmd`'s `argv`. -/
def maxargs : Nat := 10

/-- `whitespace[] = " \t\r\n\v"`. -/
def whitespace : List UInt8 := [32, 9, 13, 10, 11]

/-- `symbols[] = "<|>&;()"`. -/
def symbols : List UInt8 := [60, 124, 62, 38, 59, 40, 41]

/-- A byte that a WORD may hold: neither whitespace nor a symbol. -/
def IsWordByte (c : UInt8) : Prop := c ∉ whitespace ∧ c ∉ symbols

instance : DecidablePred IsWordByte := fun _ => inferInstanceAs (Decidable (_ ∧ _))

/-- The tokens of a command line. -/
inductive Tok
  | word (w : List UInt8)
  | lt
  | gt
  | app
  | bar
  | amp
  | semi
  | lpar
  | rpar
  deriving DecidableEq, Repr

/-- The token of a one-byte symbol other than `>`. -/
def symTok (c : UInt8) : Tok :=
  if c = 60 then .lt else if c = 124 then .bar else if c = 38 then .amp
  else if c = 59 then .semi else if c = 40 then .lpar else .rpar

/-- Put the byte `c` in front of the WORD the tokens start with. -/
def consWord (c : UInt8) : List Tok → List Tok
  | .word w :: ts => .word (c :: w) :: ts
  | ts => .word [c] :: ts

/-- The tokens of a command line. A WORD byte followed by a WORD byte joins
the WORD that follows, so that a WORD runs as far as it can. -/
def lex : List UInt8 → List Tok
  | [] => []
  | c :: s =>
    if c ∈ whitespace then lex s
    else if c = 62 then
      match s with
      | d :: s' => if d = 62 then .app :: lex s' else .gt :: lex (d :: s')
      | [] => [.gt]
    else if c ∈ symbols then symTok c :: lex s
    else
      match s with
      | d :: s' => if IsWordByte d then consWord c (lex (d :: s')) else .word [c] :: lex (d :: s')
      | [] => [.word [c]]

example : lex [97, 32, 62, 62, 102, 124, 98, 99] = [.word [97], .app, .word [102], .bar, .word [98, 99]] := by
  decide

/-! ## Reading a line byte by byte -/

theorem lex_white {c : UInt8} (hc : c ∈ whitespace) (s : List UInt8) : lex (c :: s) = lex s := by
  cases s <;> simp only [lex, if_pos hc]

theorem lex_symbol {c : UInt8} (hc : c ∈ symbols) (hgt : c ≠ 62) (s : List UInt8) :
    lex (c :: s) = symTok c :: lex s := by
  have hw : c ∉ whitespace := by
    intro hw
    simp only [whitespace, symbols, List.mem_cons, List.not_mem_nil] at hc hw
    rcases hc with rfl | rfl | rfl | rfl | rfl | rfl | rfl | hc <;> simp_all
  cases s <;> simp only [lex, if_neg hw, if_neg hgt, if_pos hc]

theorem lex_app (s : List UInt8) : lex (62 :: 62 :: s) = .app :: lex s := by
  simp [lex, whitespace]

theorem lex_gt {s : List UInt8} (hs : ∀ d ∈ s.head?, d ≠ 62) : lex (62 :: s) = .gt :: lex s := by
  cases s with
  | nil => simp [lex, whitespace]
  | cons d s =>
    have hd : d ≠ 62 := hs d rfl
    simp [lex, whitespace, hd]

/-- A WORD followed by a byte that cannot continue it is one token. -/
theorem lex_word {w : List UInt8} (hw : w ≠ []) (hword : ∀ c ∈ w, IsWordByte c)
    {s : List UInt8} (hs : ∀ d ∈ s.head?, ¬ IsWordByte d) : lex (w ++ s) = .word w :: lex s := by
  induction w with
  | nil => exact absurd rfl hw
  | cons c w ih =>
    have hc : IsWordByte c := hword c List.mem_cons_self
    have hgt : c ≠ 62 := fun h => hc.2 (h ▸ by decide)
    cases w with
    | nil =>
      -- the WORD is the one byte `c`: what follows cannot continue it
      cases s with
      | nil => simp only [List.cons_append, List.nil_append, lex, if_neg hc.1, if_neg hgt, if_neg hc.2]
      | cons d s =>
        simp only [List.cons_append, List.nil_append, lex, if_neg hc.1, if_neg hgt, if_neg hc.2,
          if_neg (hs d rfl)]
    | cons d w =>
      have hd : IsWordByte d := hword d (List.mem_cons_of_mem c List.mem_cons_self)
      have hrest := ih (List.cons_ne_nil d w) (fun x hx => hword x (List.mem_cons_of_mem c hx))
      rw [List.cons_append, List.cons_append, lex.eq_2, if_neg hc.1, if_neg hgt, if_neg hc.2,
        if_pos hd, ← List.cons_append, hrest]
      rfl

/-! ## The command tree and the grammar -/

/-- `O_RDONLY`, `O_WRONLY`, `O_CREATE` and `O_TRUNC` (`kernel/fcntl.h`). -/
def oRdonly : Nat := 0x000
def oWronly : Nat := 0x001
def oCreate : Nat := 0x200
def oTrunc : Nat := 0x400

/-- The command tree: an exec node with its WORDs, a redirection of `fd` to
`file` opened with `mode`, a pipe, a list, and a command run in the background. -/
inductive Ast
  | exec (argv : List (List UInt8))
  | redir (cmd : Ast) (file : List UInt8) (mode fd : Nat)
  | pipe (left right : Ast)
  | list (left right : Ast)
  | back (cmd : Ast)
  deriving DecidableEq, Repr

/-- The three redirection operators `<`, `>` and `>>`. -/
inductive RedirOp
  | lt
  | gt
  | app
  deriving DecidableEq, Repr

namespace RedirOp

def tok : RedirOp → Tok
  | .lt => .lt
  | .gt => .gt
  | .app => .app

/-- The mode the file is opened with: `<` reads it, `>` creates or truncates
it, `>>` creates it and writes over it from the start. -/
def mode : RedirOp → Nat
  | .lt => oRdonly
  | .gt => oWronly ||| oCreate ||| oTrunc
  | .app => oWronly ||| oCreate

/-- The descriptor the file replaces: standard input for `<`, standard output
for the others. -/
def fd : RedirOp → Nat
  | .lt => 0
  | .gt | .app => 1

end RedirOp

/-- A redirection: an operator and the WORD after it. -/
structure Redir where
  op : RedirOp
  file : List UInt8
  deriving DecidableEq, Repr

/-- The tokens of a list of redirections. -/
def redirToks (rs : List Redir) : List Tok := rs.flatMap fun r => [r.op.tok, .word r.file]

/-- The tokens of the WORDs of an exec, each followed by its redirections. -/
def itemToks (items : List (List UInt8 × List Redir)) : List Tok :=
  items.flatMap fun i => .word i.1 :: redirToks i.2

/-- `t` inside the redirections `rs`, the first innermost. -/
def Ast.wrap (t : Ast) (rs : List Redir) : Ast :=
  rs.foldl (fun t r => .redir t r.file r.op.mode r.op.fd) t

/-- The phrases that `parseline`, `parsepipe` and `parseexec` read. -/
inductive Cat
  | line
  | pipe
  | exec
  deriving DecidableEq, Repr

/-- The grammar: `Derives cat ts t` when the tokens `ts` form a phrase of
`cat` whose derivation is the tree `t`. -/
inductive Derives : Cat → List Tok → Ast → Prop
  /-- `line := pipe {'&'}` -/
  | back {ts : List Tok} {t : Ast} (k : Nat) :
      Derives .pipe ts t → Derives .line (ts ++ List.replicate k .amp) (Ast.back^[k] t)
  /-- `line := pipe {'&'} ';' line` -/
  | list {ts ts' : List Tok} {t t' : Ast} (k : Nat) :
      Derives .pipe ts t → Derives .line ts' t' →
      Derives .line (ts ++ List.replicate k .amp ++ .semi :: ts') (.list (Ast.back^[k] t) t')
  /-- `pipe := exec` -/
  | exec {ts : List Tok} {t : Ast} : Derives .exec ts t → Derives .pipe ts t
  /-- `pipe := exec '|' pipe` -/
  | pipe {ts ts' : List Tok} {t t' : Ast} :
      Derives .exec ts t → Derives .pipe ts' t' → Derives .pipe (ts ++ .bar :: ts') (.pipe t t')
  /-- `exec := '(' line ')' redirs` -/
  | block {ts : List Tok} {t : Ast} (rs : List Redir) :
      Derives .line ts t → Derives .exec (.lpar :: ts ++ .rpar :: redirToks rs) (t.wrap rs)
  /-- `exec := redirs {WORD redirs}`, with fewer than `MAXARGS` WORDs -/
  | simple (rs : List Redir) (items : List (List UInt8 × List Redir)) :
      items.length < maxargs →
      Derives .exec (redirToks rs ++ itemToks items)
        ((Ast.exec (items.map Prod.fst)).wrap (rs ++ items.flatMap Prod.snd))

/-- The tokens that may stand right after a line, a pipe and an exec. -/
def follow : Cat → List Tok
  | .line => [.rpar]
  | .pipe => [.rpar, .amp, .semi]
  | .exec => [.rpar, .amp, .semi, .bar]

/-- `rest` may come after a phrase of `cat`: it is empty or starts with a
token that may follow one. -/
def Follows (cat : Cat) (rest : List Tok) : Prop := ∀ t ∈ rest.head?, t ∈ follow cat

end Xv6.User.Sh
