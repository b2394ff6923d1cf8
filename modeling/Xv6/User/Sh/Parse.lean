import Xv6.User.Sh.Token
import Xv6.User.Ulib
import Xv6.Lib.Reach

/-!
# The shell's parser (`user/sh.c`)

`parsecmd` and the recursive descent under it: `parseline`, `parsepipe`,
`parseexec`, `parseblock` and `parseredirs`, then `nulterminate`, which writes
a NUL after each WORD so that `argv` and the redirection files point at
strings. `panic` is an error with the panic's message.

The C functions recurse without a bound; here the four mutually recursive ones
take a fuel argument, and `parsecmd` gives them four calls for each byte of
the line, more than they can use (`parse_sound`). The loops of `parseline`
and `parseredirs` end because each pass takes a symbol (`lt_gettoken_of_peek`),
the word loop of `parseexec` because it panics at `MAXARGS`.

`parseexec` keeps writing `cmd->argv` after `ret` has wrapped `cmd` in
redirections; the model keeps the two arrays apart and stores them in the
exec node under the redirections at the end (`Cmd.setArgs`).
-/

namespace Xv6.User.Sh

open Xv6.Lib

variable {n : Nat}

/-! ## The code -/

/-- `argv` or `eargv` of an `execcmd`: `MAXARGS` pointers, `none` for a null one. -/
abbrev Args := Fin maxargs → Option Nat

/-- `struct cmd`, one constructor for each `type`. -/
inductive Cmd
  | exec (argv eargv : Args)
  | redir (cmd : Cmd) (file efile mode fd : Nat)
  | pipe (left right : Cmd)
  | list (left right : Cmd)
  | back (cmd : Cmd)

/-- `execcmd()`: an exec node, zeroed by `memset`. -/
def execcmd : Cmd := .exec (fun _ => none) (fun _ => none)

/-- `a[i] = v`, an error past the array. -/
def storeArg (a : Args) (i : Nat) (v : Option Nat) : Except String Args :=
  if h : i < maxargs then .ok (Function.update a ⟨i, h⟩ v) else .error "argv index past MAXARGS"

/-- The exec node under the redirections of `ret`, given its final `argv` and
`eargv`. -/
def Cmd.setArgs (argv eargv : Args) : Cmd → Cmd
  | .exec _ _ => .exec argv eargv
  | .redir cmd file efile mode fd => .redir (cmd.setArgs argv eargv) file efile mode fd
  | cmd => cmd

/-- The locals of the loop of `parseexec`: `ret`, `cmd->argv`, `cmd->eargv`,
`argc` and `*ps`. -/
structure ExecLocals where
  ret : Cmd
  argv : Args
  eargv : Args
  argc : Nat
  ps : Nat

/-- The panic of a parser call that has run out of fuel. -/
def outOfFuel : String := "parser out of fuel"

/-- `"<>"`, what `parseredirs` peeks for, is made of symbols. -/
theorem redir_mem_symbols : ∀ c ∈ ([60, 62] : List UInt8), c ∈ symbols := by
  simp [symbols]

/-- `"&"`, what `parseline` peeks for, is a symbol. -/
theorem amp_mem_symbols : ∀ c ∈ ([38] : List UInt8), c ∈ symbols := by
  simp [symbols]

section Code

variable (b : Bytes n) (es : Nat)

/-- `parseredirs(cmd, ps, es)`: a `redircmd` around `cmd` for each
redirection, the first innermost. -/
def parseredirs (cmd : Cmd) (ps : Nat) : Except String (Cmd × Nat) :=
  -- "<>"
  if (peek b es ps [60, 62]).1 then
    let tok := gettoken b es (peek b es ps [60, 62]).2
    let file := gettoken b es tok.ps
    if file.ret ≠ 97 then .error "missing file for redirection"
    else
      let cmd :=
        if tok.ret = 60 then Cmd.redir cmd file.q file.eq oRdonly 0
        else if tok.ret = 62 then Cmd.redir cmd file.q file.eq (oWronly ||| oCreate ||| oTrunc) 1
        else if tok.ret = 43 then Cmd.redir cmd file.q file.eq (oWronly ||| oCreate) 1
        else cmd
      parseredirs cmd file.ps
  else .ok (cmd, (peek b es ps [60, 62]).2)
termination_by n - ps
decreasing_by
  have hlt := lt_gettoken_of_peek b es redir_mem_symbols ‹(peek b es ps [60, 62]).1 = true›
  have := le_gettoken b es (gettoken b es (peek b es ps [60, 62]).2).ps
  have := le_peek b es ps [60, 62]
  omega

/-- The loop of `parseline`:
`while (peek(ps, es, "&")) { gettoken(ps, es, 0, 0); cmd = backcmd(cmd); }` -/
def backLoop (cmd : Cmd) (ps : Nat) : Cmd × Nat :=
  if (peek b es ps [38]).1 then backLoop (.back cmd) (gettoken b es (peek b es ps [38]).2).ps
  else (cmd, (peek b es ps [38]).2)
termination_by n - ps
decreasing_by
  have hlt := lt_gettoken_of_peek b es amp_mem_symbols ‹(peek b es ps [38]).1 = true›
  have := le_peek b es ps [38]
  omega

/-- The loop of `parseexec`: `while (!peek(ps, es, "|)&;"))`, a WORD and the
redirections after it on each pass. -/
def execLoop (l : ExecLocals) : Except String ExecLocals :=
  if (peek b es l.ps [124, 41, 38, 59]).1 then .ok { l with ps := (peek b es l.ps [124, 41, 38, 59]).2 }
  else
    let t := gettoken b es (peek b es l.ps [124, 41, 38, 59]).2
    if t.ret = 0 then .ok { l with ps := t.ps }
    else if t.ret ≠ 97 then .error "syntax"
    else do
      let argv ← storeArg l.argv l.argc (some t.q)
      let eargv ← storeArg l.eargv l.argc (some t.eq)
      if maxargs ≤ l.argc + 1 then .error "too many args"
      else
        let r ← parseredirs b es l.ret t.ps
        execLoop ⟨r.1, argv, eargv, l.argc + 1, r.2⟩
termination_by maxargs - l.argc

mutual

/-- `parseline(ps, es)`. -/
def parseline : Nat → Nat → Except String (Cmd × Nat)
  | 0, _ => .error outOfFuel
  | fuel + 1, ps => do
    let (cmd, ps) ← parsepipe fuel ps
    let (cmd, ps) := backLoop b es cmd ps
    -- ";"
    if (peek b es ps [59]).1 then
      let (right, ps) ← parseline fuel (gettoken b es (peek b es ps [59]).2).ps
      pure (.list cmd right, ps)
    else pure (cmd, (peek b es ps [59]).2)

/-- `parsepipe(ps, es)`. -/
def parsepipe : Nat → Nat → Except String (Cmd × Nat)
  | 0, _ => .error outOfFuel
  | fuel + 1, ps => do
    let (cmd, ps) ← parseexec fuel ps
    -- "|"
    if (peek b es ps [124]).1 then
      let (right, ps) ← parsepipe fuel (gettoken b es (peek b es ps [124]).2).ps
      pure (.pipe cmd right, ps)
    else pure (cmd, (peek b es ps [124]).2)

/-- `parseblock(ps, es)`. -/
def parseblock : Nat → Nat → Except String (Cmd × Nat)
  | 0, _ => .error outOfFuel
  | fuel + 1, ps =>
    -- "("
    if !(peek b es ps [40]).1 then .error "parseblock"
    else do
      let (cmd, ps) ← parseline fuel (gettoken b es (peek b es ps [40]).2).ps
      -- ")"
      if !(peek b es ps [41]).1 then .error "syntax - missing )"
      else parseredirs b es cmd (gettoken b es (peek b es ps [41]).2).ps

/-- `parseexec(ps, es)`. -/
def parseexec : Nat → Nat → Except String (Cmd × Nat)
  | 0, _ => .error outOfFuel
  | fuel + 1, ps =>
    -- "("
    if (peek b es ps [40]).1 then parseblock fuel (peek b es ps [40]).2
    else do
      let (ret, ps) ← parseredirs b es execcmd (peek b es ps [40]).2
      let l ← execLoop b es ⟨ret, fun _ => none, fun _ => none, 0, ps⟩
      let argv ← storeArg l.argv l.argc none
      let eargv ← storeArg l.eargv l.argc none
      pure (l.ret.setArgs argv eargv, l.ps)

end

end Code

/-- The loop `for (i = 0; ecmd->argv[i]; i++) *ecmd->eargv[i] = 0;` -/
def nulArgs (b : Bytes n) (argv eargv : Args) (i : Nat) : Except String (Bytes n) :=
  if h : i < maxargs then
    match argv ⟨i, h⟩, eargv ⟨i, h⟩ with
    | none, _ => .ok b
    | some _, some e => do nulArgs (← b.store e 0) argv eargv (i + 1)
    | some _, none => .error "write through a null pointer"
  else .error "argv index past MAXARGS"
termination_by maxargs - i

/-- `nulterminate(cmd)`: a NUL after each WORD of the tree. -/
def nulterminate (b : Bytes n) : Cmd → Except String (Bytes n)
  | .exec argv eargv => nulArgs b argv eargv 0
  | .redir cmd _ efile _ _ => do (← nulterminate b cmd).store efile 0
  | .pipe left right => do nulterminate (← nulterminate b left) right
  | .list left right => do nulterminate (← nulterminate b left) right
  | .back cmd => nulterminate b cmd

/-- `parsecmd(s)`, with the line at the start of the buffer: the tree, and the
buffer after `nulterminate`. A line with tokens left over panics after
printing them. -/
def parsecmd (b : Bytes n) : Except String (Cmd × Bytes n) := do
  let es ← strlen b 0
  let (cmd, ps) ← parseline b es (4 * es + 4) 0
  if (peek b es ps []).2 ≠ es then .error "syntax"
  else
    let b ← nulterminate b cmd
    pure (cmd, b)

/-- The messages the parser panics with. -/
def panics : List String :=
  ["syntax", "missing file for redirection", "parseblock", "syntax - missing )", "too many args"]

/-! ## Reading the tree back -/

/-- The strings `argv[i]`, `argv[i + 1]`, ... up to the first null pointer. -/
def readArgs (b : Bytes n) (argv : Args) (i : Nat) : Except String (List (List UInt8)) :=
  if h : i < maxargs then
    match argv ⟨i, h⟩ with
    | none => .ok []
    | some q => do
      let w ← b.cstring q
      let ws ← readArgs b argv (i + 1)
      pure (w :: ws)
  else .error "argv has no null pointer"
termination_by maxargs - i

/-- The command a tree stands for, each pointer read as the string it points to. -/
def Cmd.read (b : Bytes n) : Cmd → Except String Ast
  | .exec argv _ => .exec <$> readArgs b argv 0
  | .redir cmd file _ mode fd => do pure (.redir (← cmd.read b) (← b.cstring file) mode fd)
  | .pipe left right => do pure (.pipe (← left.read b) (← right.read b))
  | .list left right => do pure (.list (← left.read b) (← right.read b))
  | .back cmd => .back <$> cmd.read b

/-! ## What a tree stands for -/

/-- From index `i` on, `argv` and `eargv` hold the WORDs `ws`, as `W` says of
each pair of pointers, then a null pointer. -/
def ArgsFrom (W : Nat → Nat → List UInt8 → Prop) (argv eargv : Args) :
    Nat → List (List UInt8) → Prop
  | i, [] => ∃ h : i < maxargs, argv ⟨i, h⟩ = none
  | i, w :: ws => ∃ h : i < maxargs, ∃ q e, argv ⟨i, h⟩ = some q ∧ eargv ⟨i, h⟩ = some e ∧
      W q e w ∧ ArgsFrom W argv eargv (i + 1) ws

/-- The tree `c` stands for `t`: the same nodes, and each WORD of `t` at the
pointers `c` holds for it, as `W` says. -/
def Rep (W : Nat → Nat → List UInt8 → Prop) : Cmd → Ast → Prop
  | .exec argv eargv, .exec ws => ArgsFrom W argv eargv 0 ws
  | .redir c file efile mode fd, .redir t w mode' fd' =>
    Rep W c t ∧ W file efile w ∧ mode = mode' ∧ fd = fd'
  | .pipe l r, .pipe l' r' => Rep W l l' ∧ Rep W r r'
  | .list l r, .list l' r' => Rep W l l' ∧ Rep W r r'
  | .back c, .back t => Rep W c t
  | _, _ => False

/-- A `redircmd` as `parseredirs` makes it: the file's text `[file, efile)`,
the mode and the descriptor. -/
structure Redircmd where
  file : Nat
  efile : Nat
  mode : Nat
  fd : Nat

/-- `cmd` inside the redirections `rs`, the first innermost. -/
def Cmd.wrap (cmd : Cmd) (rs : List Redircmd) : Cmd :=
  rs.foldl (fun c r => .redir c r.file r.efile r.mode r.fd) cmd

/-- The redirection `r` stands for `r'`. -/
def RedirRep (W : Nat → Nat → List UInt8 → Prop) (r : Redircmd) (r' : Redir) : Prop :=
  W r.file r.efile r'.file ∧ r.mode = r'.op.mode ∧ r.fd = r'.op.fd

section Rep

variable {W W' : Nat → Nat → List UInt8 → Prop}

theorem ArgsFrom.mono (hW : ∀ q e w, W q e w → W' q e w) {argv eargv : Args} :
    ∀ {i : Nat} {ws : List (List UInt8)}, ArgsFrom W argv eargv i ws → ArgsFrom W' argv eargv i ws := by
  intro i ws
  induction ws generalizing i with
  | nil => exact id
  | cons w ws ih =>
    rintro ⟨hi, q, e, hq, he, hw, hrest⟩
    exact ⟨hi, q, e, hq, he, hW q e w hw, ih hrest⟩

theorem Rep.mono (hW : ∀ q e w, W q e w → W' q e w) : ∀ {c : Cmd} {t : Ast}, Rep W c t → Rep W' c t := by
  intro c
  induction c with
  | exec argv eargv =>
    intro t h
    cases t <;> simp only [Rep] at h ⊢
    exact h.mono hW
  | redir c file efile mode fd ih =>
    intro t h
    cases t <;> simp only [Rep] at h ⊢
    exact ⟨ih h.1, hW _ _ _ h.2.1, h.2.2⟩
  | pipe l r ihl ihr =>
    intro t h
    cases t <;> simp only [Rep] at h ⊢
    exact ⟨ihl h.1, ihr h.2⟩
  | list l r ihl ihr =>
    intro t h
    cases t <;> simp only [Rep] at h ⊢
    exact ⟨ihl h.1, ihr h.2⟩
  | back c ih =>
    intro t h
    cases t <;> simp only [Rep] at h ⊢
    exact ih h

theorem Rep.wrap {c : Cmd} {t : Ast} (h : Rep W c t) {rs : List Redircmd} {rs' : List Redir}
    (hrs : List.Forall₂ (RedirRep W) rs rs') : Rep W (c.wrap rs) (t.wrap rs') := by
  induction hrs generalizing c t with
  | nil => exact h
  | cons hr _ ih => exact ih ⟨h, hr⟩

theorem Cmd.setArgs_wrap (argv eargv : Args) (rs : List Redircmd) :
    ∀ c : Cmd, (c.wrap rs).setArgs argv eargv = (c.setArgs argv eargv).wrap rs := by
  induction rs with
  | nil => intro c; rfl
  | cons r rs ih => intro c; exact ih _

end Rep

/-! ## `parseredirs` -/

section Loops

variable {b : Bytes n} {es : Nat}

/-- `gettoken` returns `'a'` exactly for a WORD. -/
theorem Tok.code_eq_a {t : Tok} : t.code = 97 ↔ ∃ w, t = .word w := by
  cases t <;> simp [Tok.code]

theorem peeks_redir {t : Tok} {ts : List Tok} (h : peeks [60, 62] (t :: ts) = true) :
    ∃ op : RedirOp, t = op.tok := by
  cases t <;> simp [peeks, Tok.startsWith] at h
  exacts [⟨.lt, rfl⟩, ⟨.gt, rfl⟩, ⟨.app, rfl⟩]

theorem parseredirs_done (h : CmdLine b es) {p : Nat} (hp : p ≤ es)
    (ht : peeks [60, 62] (tokens b es p) = false) (cmd : Cmd) :
    ∃ p', parseredirs b es cmd p = .ok (cmd, p') ∧ tokens b es p' = tokens b es p ∧ p ≤ p' ∧ p' ≤ es := by
  obtain ⟨hpk, htoks, hle, hle'⟩ := peek_spec h hp [60, 62] redir_mem_symbols
  refine ⟨_, ?_, htoks, hle, hle'⟩
  rw [parseredirs, if_neg (by simp [hpk, ht])]

/-- A pass of `parseredirs` over a redirection and its WORD. -/
theorem parseredirs_redir (h : CmdLine b es) {p : Nat} (hp : p ≤ es) {op : RedirOp}
    {w : List UInt8} {ts : List Tok} (ht : tokens b es p = op.tok :: .word w :: ts) (cmd : Cmd) :
    ∃ q e p', WordAt b q e w ∧ tokens b es p' = ts ∧ p < p' ∧ p' ≤ es ∧
      parseredirs b es cmd p = parseredirs b es (.redir cmd q e op.mode op.fd) p' := by
  obtain ⟨hpk, htoks, hle, hle'⟩ := peek_spec h hp [60, 62] redir_mem_symbols
  rw [← htoks] at ht
  obtain ⟨hret, htoks₂, hlt₂, hle₂, -⟩ := gettoken_cons h hle' ht
  obtain ⟨hret', htoks₃, hlt₃, hle₃, hword⟩ := gettoken_cons h hle₂ htoks₂
  refine ⟨_, _, _, hword w rfl, htoks₃, by omega, hle₃, ?_⟩
  have hpeek : (peek b es p [60, 62]).1 = true := by
    rw [hpk, ← htoks, ht]
    cases op <;> rfl
  rw [parseredirs, if_pos hpeek]
  dsimp only
  rw [hret', if_neg (fun h => h rfl), hret]
  cases op <;> rfl

theorem Tok.code_ne_a {t : Tok} (ht : ∀ w, t ≠ .word w) : t.code ≠ 97 := fun h => by
  obtain ⟨w, rfl⟩ := Tok.code_eq_a.mp h
  exact ht w rfl

/-- A redirection without a WORD after it panics. -/
theorem parseredirs_missing (h : CmdLine b es) {p : Nat} (hp : p ≤ es) {op : RedirOp}
    {ts : List Tok} (ht : tokens b es p = op.tok :: ts) (hts : ∀ w ts', ts ≠ .word w :: ts')
    (cmd : Cmd) : parseredirs b es cmd p = .error "missing file for redirection" := by
  obtain ⟨hpk, htoks, hle, hle'⟩ := peek_spec h hp [60, 62] redir_mem_symbols
  rw [← htoks] at ht
  obtain ⟨-, htoks₂, -, hle₂, -⟩ := gettoken_cons h hle' ht
  have hpeek : (peek b es p [60, 62]).1 = true := by
    rw [hpk, ← htoks, ht]
    cases op <;> rfl
  have hfile : (gettoken b es (gettoken b es (peek b es p [60, 62]).2).ps).ret ≠ 97 := by
    cases ts with
    | nil =>
      rw [(gettoken_nil h hle₂ htoks₂).1]
      decide
    | cons t ts' =>
      rw [(gettoken_cons h hle₂ htoks₂).1]
      exact Tok.code_ne_a fun w hw => hts w ts' (hw ▸ rfl)
  rw [parseredirs, if_pos hpeek]
  dsimp only
  rw [if_pos hfile]

/-- What `parseredirs` has read from `p` when it returns `r`: the tokens of
the redirections `rs'`, which those it wrapped around `cmd` stand for. -/
def RedirsRead (b : Bytes n) (es : Nat) (cmd : Cmd) (p : Nat) (r : Cmd × Nat) : Prop :=
  ∃ rs rs', r.1 = cmd.wrap rs ∧ List.Forall₂ (RedirRep (WordAt b)) rs rs' ∧
    tokens b es p = redirToks rs' ++ tokens b es r.2 ∧ p ≤ r.2 ∧ r.2 ≤ es

theorem parseredirs_sound (h : CmdLine b es) (cmd : Cmd) {p : Nat} (hp : p ≤ es) :
    Post (· = "missing file for redirection") (RedirsRead b es cmd p) (parseredirs b es cmd p) := by
  -- each pass takes two tokens: induction on what is left of the line
  induction hm : es - p using Nat.strong_induction_on generalizing cmd p with
  | _ m ih =>
    cases hpk : peeks [60, 62] (tokens b es p) with
    | false =>
      obtain ⟨p', hr, htoks, hle, hle'⟩ := parseredirs_done h hp hpk cmd
      rw [hr]
      exact ⟨[], [], rfl, .nil, by rw [htoks]; rfl, hle, hle'⟩
    | true =>
      obtain ⟨t, ts, ht⟩ : ∃ t ts, tokens b es p = t :: ts := by
        cases htp : tokens b es p with
        | nil => rw [htp] at hpk; cases hpk
        | cons t ts => exact ⟨t, ts, rfl⟩
      obtain ⟨op, rfl⟩ := peeks_redir (ht ▸ hpk)
      by_cases hw : ∃ w ts', ts = .word w :: ts'
      · obtain ⟨w, ts', rfl⟩ := hw
        obtain ⟨q, e, p', hword, htoks, hlt, hle, hstep⟩ := parseredirs_redir h hp ht cmd
        rw [hstep]
        refine (ih (es - p') (by omega) _ hle rfl).mono ?_
        rintro ⟨c, p''⟩ ⟨rs, rs', hc, hrs, htoks', hle', hle''⟩
        refine ⟨⟨q, e, op.mode, op.fd⟩ :: rs, ⟨op, w⟩ :: rs', hc, .cons ⟨hword, rfl, rfl⟩ hrs, ?_,
          by omega, hle''⟩
        rw [ht, ← htoks, htoks']
        rfl
      · simp only [not_exists] at hw
        rw [parseredirs_missing h hp ht hw cmd]
        rfl

theorem parseredirs_complete (h : CmdLine b es) (rs' : List Redir) :
    ∀ (cmd : Cmd) {p : Nat} {rest : List Tok}, p ≤ es → tokens b es p = redirToks rs' ++ rest →
      peeks [60, 62] rest = false →
      ∃ rs p', parseredirs b es cmd p = .ok (cmd.wrap rs, p') ∧
        List.Forall₂ (RedirRep (WordAt b)) rs rs' ∧ tokens b es p' = rest ∧ p ≤ p' ∧ p' ≤ es := by
  induction rs' with
  | nil =>
    intro cmd p rest hp ht hrest
    obtain ⟨p', hr, htoks, hle, hle'⟩ := parseredirs_done h hp (by rw [ht]; exact hrest) cmd
    exact ⟨[], p', hr, .nil, htoks.trans ht, hle, hle'⟩
  | cons r rs' ih =>
    intro cmd p rest hp ht hrest
    obtain ⟨q, e, p', hword, htoks, hlt, hle, hstep⟩ := parseredirs_redir h hp
      (show tokens b es p = r.op.tok :: .word r.file :: (redirToks rs' ++ rest) from ht) cmd
    obtain ⟨rs, p'', hr, hrs, htoks', hle', hle''⟩ := ih _ hle htoks hrest
    exact ⟨⟨q, e, r.op.mode, r.op.fd⟩ :: rs, p'', hstep.trans hr, .cons ⟨hword, rfl, rfl⟩ hrs,
      htoks', by omega, hle''⟩

/-! ## The `&` loop of `parseline` -/

/-- Any tokens are some `&`s, then tokens that do not start with one. -/
theorem exists_amps (ts : List Tok) :
    ∃ k rest, ts = List.replicate k .amp ++ rest ∧ peeks [38] rest = false := by
  induction ts with
  | nil => exact ⟨0, [], rfl, rfl⟩
  | cons t ts ih =>
    by_cases ht : t = .amp
    · obtain ⟨k, rest, rfl, hrest⟩ := ih
      exact ⟨k + 1, rest, by rw [ht]; rfl, hrest⟩
    · refine ⟨0, t :: ts, rfl, ?_⟩
      cases t <;> simp_all [peeks, Tok.startsWith]

/-- The loop takes the `&`s and wraps `cmd` once for each. -/
theorem backLoop_spec (h : CmdLine b es) (k : Nat) :
    ∀ (cmd : Cmd) {p : Nat} {rest : List Tok}, p ≤ es →
      tokens b es p = List.replicate k .amp ++ rest → peeks [38] rest = false →
      ∃ p', backLoop b es cmd p = (Cmd.back^[k] cmd, p') ∧ tokens b es p' = rest ∧ p ≤ p' ∧ p' ≤ es := by
  induction k with
  | zero =>
    intro cmd p rest hp ht hrest
    obtain ⟨hpk, htoks, hle, hle'⟩ := peek_spec h hp [38] amp_mem_symbols
    refine ⟨_, ?_, htoks.trans ht, hle, hle'⟩
    rw [backLoop, if_neg (by simp [hpk, ht, hrest])]
    rfl
  | succ k ih =>
    intro cmd p rest hp ht hrest
    obtain ⟨hpk, htoks, hle, hle'⟩ := peek_spec h hp [38] amp_mem_symbols
    rw [← htoks, List.replicate_succ, List.cons_append] at ht
    obtain ⟨-, htoks₂, hlt₂, hle₂, -⟩ := gettoken_cons h hle' ht
    obtain ⟨p', hr, htoks', hle₃, hle₄⟩ := ih (.back cmd) hle₂ htoks₂ hrest
    refine ⟨p', ?_, htoks', by omega, hle₄⟩
    rw [backLoop, if_pos (by rw [hpk, ← htoks, ht]; rfl), hr]
    rfl

end Loops

end Xv6.User.Sh
