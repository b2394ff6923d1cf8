import Xv6.User.Sh.Sound

/-!
# The shell's parser reads every phrase of its grammar (`user/sh.c`)

`parse_complete`: for a derivation of the tokens at `p`, followed by tokens
that may follow its category (`Follows`), the parser function of that category
returns from `p` a tree that stands for the derivation, and stops where the
phrase ends (`ParsesPhrase`), given four calls of fuel for each byte left.

The induction is on the derivation, one lemma for each rule of the grammar
(`complete_back` ... `complete_simple`). Each runs the parser over the rule's
parts: a part is followed by the next one, so its own follow set holds there,
and the one-token look-ahead of `peek` sees the token after the part.
-/

namespace Xv6.User.Sh

open Xv6.Lib

variable {n : Nat}

/-! ## What may follow a phrase -/

theorem Follows.peeks_eq_false {cat : Cat} {rest : List Tok} (hf : Follows cat rest)
    {cs : List UInt8} (hcs : ∀ t ∈ follow cat, t.startsWith cs = false) : peeks cs rest = false := by
  cases rest with
  | nil => rfl
  | cons t rest => exact hcs t (hf t rfl)

theorem Follows.mono {cat cat' : Cat} {rest : List Tok} (hf : Follows cat rest)
    (hsub : ∀ t ∈ follow cat, t ∈ follow cat') : Follows cat' rest :=
  fun t ht => hsub t (hf t ht)

/-- After the WORDs of an exec, nothing starts with a redirection. -/
theorem peeks_redir_itemToks {rest : List Tok} (hf : Follows .exec rest) :
    ∀ items : List (List UInt8 × List Redir), peeks [60, 62] (itemToks items ++ rest) = false
  | [] => hf.peeks_eq_false (by simp [follow, Tok.startsWith])
  | _ :: _ => by simp [itemToks, peeks, Tok.startsWith]

/-- An exec made of redirections and WORDs does not start with `(`. -/
theorem peeks_lpar_simple {rest : List Tok} (hf : Follows .exec rest) (rs : List Redir)
    (items : List (List UInt8 × List Redir)) :
    peeks [40] (redirToks rs ++ itemToks items ++ rest) = false := by
  cases rs with
  | nil =>
    cases items with
    | nil => exact hf.peeks_eq_false (by simp [follow, Tok.startsWith])
    | cons _ _ => simp [redirToks, itemToks, peeks, Tok.startsWith]
  | cons r _ =>
    obtain ⟨op, _⟩ := r
    cases op <;> simp [redirToks, RedirOp.tok, peeks, Tok.startsWith]

/-! ## The word loop of `parseexec` -/

section Loop

variable {b : Bytes n} {es p0 : Nat} {rs' : List Redir}

/-- The loop reads the WORDs of `items` and their redirections, and stops
before what follows the exec. -/
theorem execLoop_complete (h : CmdLine b es) {rest : List Tok} (hrest : Follows .exec rest) :
    ∀ (items items₀ : List (List UInt8 × List Redir)) (l : ExecLocals),
      ExecRead b es p0 rs' items₀ l → tokens b es l.ps = itemToks items ++ rest →
      items₀.length + items.length < maxargs →
      ∃ l', execLoop b es l = .ok l' ∧ ExecRead b es p0 rs' (items₀ ++ items) l' ∧
        tokens b es l'.ps = rest := by
  intro items
  induction items with
  | nil =>
    intro items₀ l hr ht _
    rw [itemToks, List.flatMap_nil, List.nil_append] at ht
    cases rest with
    | nil =>
      -- the end of the line
      refine ⟨_, execLoop_nil h hr.le_es ht, ?_, tokens_of_le le_rfl⟩
      rw [List.append_nil]
      exact hr.stop (by rw [ht, tokens_of_le le_rfl]) hr.le_es le_rfl
    | cons t rest' =>
      -- a token that may follow an exec
      have hpk : peeks [124, 41, 38, 59] (t :: rest') = true := by
        have ht' := hrest t rfl
        simp only [follow, List.mem_cons, List.not_mem_nil, or_false] at ht'
        rcases ht' with rfl | rfl | rfl | rfl <;> rfl
      obtain ⟨p₁, hl, htoks, hle, hle'⟩ := execLoop_peek h hr.le_es (ht ▸ hpk)
      refine ⟨_, hl, ?_, htoks.trans ht⟩
      rw [List.append_nil]
      exact hr.stop htoks hle hle'
  | cons item items ih =>
    obtain ⟨w, rs₂'⟩ := item
    intro items₀ l hr ht hlen
    have ht' : tokens b es l.ps = .word w :: (redirToks rs₂' ++ (itemToks items ++ rest)) := by
      rw [ht]
      simp [itemToks]
    have hlt : l.argc + 1 < maxargs := by
      rw [hr.argc]
      simp only [List.length_cons] at hlen
      omega
    obtain ⟨q, e, p₁, hword, htoks, hlt₁, hle₁, hl⟩ := execLoop_word h hr.le_es ht' hlt
    obtain ⟨rs₂, p₂, hred, hrs₂, htoks₂, hle₂, hle₂'⟩ :=
      parseredirs_complete h rs₂' l.ret hle₁ htoks (peeks_redir_itemToks hrest items)
    have hr' := hr.push ht' hlt hword htoks hlt₁ rfl hrs₂ (by rw [htoks, htoks₂]) hle₂ hle₂'
    obtain ⟨l', hl', hr'', htoks'⟩ := ih (items₀ ++ [(w, rs₂')]) _ hr' htoks₂
      (by simp only [List.length_append, List.length_cons, List.length_nil] at hlen ⊢; omega)
    refine ⟨l', ?_, ?_, htoks'⟩
    · rw [hl, hred]
      exact hl'
    · rw [List.append_assoc, List.singleton_append] at hr''
      exact hr''

end Loop

/-! ## The recursive descent -/

/-- The parser function of each category. -/
def parseCat (b : Bytes n) (es : Nat) : Cat → Nat → Nat → Except String (Cmd × Nat)
  | .line => parseline b es
  | .pipe => parsepipe b es
  | .exec => parseexec b es

/-- The fuel a call for each category needs beyond four calls for each byte left. -/
def Cat.slack : Cat → Nat
  | .line => 4
  | .pipe => 3
  | .exec => 2

/-- What a parser call from `p` returns for a phrase whose derivation is `t`
and after which come the tokens `rest`. -/
def Parsed (b : Bytes n) (es p : Nat) (t : Ast) (rest : List Tok) (r : Cmd × Nat) : Prop :=
  Rep (WordAt b) r.1 t ∧ tokens b es r.2 = rest ∧ p ≤ r.2 ∧ r.2 ≤ es

/-- The parser of `cat` reads the phrase `ts`, whose derivation is `t`, from
wherever it stands, when what comes after it may follow `cat`. -/
def ParsesPhrase (b : Bytes n) (es : Nat) (cat : Cat) (ts : List Tok) (t : Ast) : Prop :=
  ∀ fuel p rest, p ≤ es → tokens b es p = ts ++ rest → Follows cat rest →
    4 * (es - p) + cat.slack ≤ fuel → ∃ r, parseCat b es cat fuel p = .ok r ∧ Parsed b es p t rest r

section Descent

variable {b : Bytes n} {es : Nat} {ts ts' : List Tok} {t t' : Ast}

/-- `line := pipe {'&'}` -/
theorem complete_back (h : CmdLine b es) (ih : ParsesPhrase b es .pipe ts t) (k : Nat) :
    ParsesPhrase b es .line (ts ++ List.replicate k .amp) (Ast.back^[k] t) := by
  intro fuel p rest hp ht hf hfuel
  obtain ⟨fuel, rfl⟩ : ∃ f, fuel = f + 1 := ⟨fuel - 1, by simp only [Cat.slack] at hfuel; omega⟩
  -- the pipe is followed by the `&`s, or by what follows the line
  have hf₁ : Follows .pipe (List.replicate k .amp ++ rest) := by
    cases k with
    | zero => exact hf.mono (by simp [follow])
    | succ k => simp [Follows, follow, List.replicate_succ]
  obtain ⟨⟨c₁, p₁⟩, hr₁, hrep₁, htoks₁, hle₁, hle₁'⟩ :=
    ih fuel p _ hp (by rw [ht, List.append_assoc]) hf₁ (by simp only [Cat.slack] at hfuel ⊢; omega)
  obtain ⟨p₂, hback, htoks₂, hle₂, hle₂'⟩ :=
    backLoop_spec h k c₁ hle₁' htoks₁ (hf.peeks_eq_false (by simp [follow, Tok.startsWith]))
  obtain ⟨hpk, htoks₃, hle₃, hle₃'⟩ :=
    peek_spec h hle₂' [59] (singleton_mem_symbols (by simp [symbols]))
  have hsemi : (peek b es p₂ [59]).1 = false := by
    rw [hpk, htoks₂]
    exact hf.peeks_eq_false (by simp [follow, Tok.startsWith])
  refine ⟨(Cmd.back^[k] c₁, (peek b es p₂ [59]).2), ?_, hrep₁.iterate_back k, htoks₃.trans htoks₂,
    by dsimp only at hle₁ hle₂ ⊢; omega, hle₃'⟩
  simp only [parseCat] at hr₁ ⊢
  rw [parseline, hr₁]
  simp only [bind, Except.bind, hback, hsemi]
  rfl

/-- `line := pipe {'&'} ';' line` -/
theorem complete_list (h : CmdLine b es) (ih : ParsesPhrase b es .pipe ts t)
    (ih' : ParsesPhrase b es .line ts' t') (k : Nat) :
    ParsesPhrase b es .line (ts ++ List.replicate k .amp ++ .semi :: ts') (.list (Ast.back^[k] t) t') := by
  intro fuel p rest hp ht hf hfuel
  obtain ⟨fuel, rfl⟩ : ∃ f, fuel = f + 1 := ⟨fuel - 1, by simp only [Cat.slack] at hfuel; omega⟩
  -- the pipe is followed by the `&`s or by the `;`
  have hf₁ : Follows .pipe (List.replicate k .amp ++ .semi :: (ts' ++ rest)) := by
    cases k <;> simp [Follows, follow, List.replicate_succ]
  obtain ⟨⟨c₁, p₁⟩, hr₁, hrep₁, htoks₁, hle₁, hle₁'⟩ :=
    ih fuel p _ hp (by rw [ht]; simp) hf₁ (by simp only [Cat.slack] at hfuel ⊢; omega)
  dsimp only at hrep₁ htoks₁ hle₁ hle₁'
  obtain ⟨p₂, hback, htoks₂, hle₂, hle₂'⟩ := backLoop_spec h k c₁ hle₁' htoks₁ rfl
  obtain ⟨hpk, htoks₃, hle₃, hle₃'⟩ :=
    peek_spec h hle₂' [59] (singleton_mem_symbols (by simp [symbols]))
  have hsemi : (peek b es p₂ [59]).1 = true := by
    rw [hpk, htoks₂]
    rfl
  obtain ⟨-, htoks₄, hlt₄, hle₄, -⟩ := gettoken_cons h hle₃' (htoks₃.trans htoks₂)
  -- the line after the `;`, on the fuel of this call
  obtain ⟨⟨c₂, p₅⟩, hr₂, hrep₂, htoks₅, hle₅, hle₅'⟩ :=
    ih' fuel _ rest hle₄ htoks₄ hf (by simp only [Cat.slack] at hfuel ⊢; omega)
  dsimp only at hrep₂ htoks₅ hle₅ hle₅'
  refine ⟨(.list (Cmd.back^[k] c₁) c₂, p₅), ?_, ⟨hrep₁.iterate_back k, hrep₂⟩, htoks₅, by omega, hle₅'⟩
  simp only [parseCat] at hr₁ hr₂ ⊢
  rw [parseline, hr₁]
  simp only [bind, Except.bind, hback, hsemi, if_true, hr₂]
  rfl

/-- `pipe := exec` -/
theorem complete_exec (h : CmdLine b es) (ih : ParsesPhrase b es .exec ts t) :
    ParsesPhrase b es .pipe ts t := by
  intro fuel p rest hp ht hf hfuel
  obtain ⟨fuel, rfl⟩ : ∃ f, fuel = f + 1 := ⟨fuel - 1, by simp only [Cat.slack] at hfuel; omega⟩
  obtain ⟨⟨c₁, p₁⟩, hr₁, hrep₁, htoks₁, hle₁, hle₁'⟩ :=
    ih fuel p rest hp ht (hf.mono (by simp [follow])) (by simp only [Cat.slack] at hfuel ⊢; omega)
  dsimp only at hrep₁ htoks₁ hle₁ hle₁'
  obtain ⟨hpk, htoks₂, hle₂, hle₂'⟩ :=
    peek_spec h hle₁' [124] (singleton_mem_symbols (by simp [symbols]))
  have hbar : (peek b es p₁ [124]).1 = false := by
    rw [hpk, htoks₁]
    exact hf.peeks_eq_false (by simp [follow, Tok.startsWith])
  refine ⟨(c₁, (peek b es p₁ [124]).2), ?_, hrep₁, htoks₂.trans htoks₁, by omega, hle₂'⟩
  simp only [parseCat] at hr₁ ⊢
  rw [parsepipe, hr₁]
  simp only [bind, Except.bind, hbar]
  rfl

/-- `pipe := exec '|' pipe` -/
theorem complete_pipe (h : CmdLine b es) (ih : ParsesPhrase b es .exec ts t)
    (ih' : ParsesPhrase b es .pipe ts' t') :
    ParsesPhrase b es .pipe (ts ++ .bar :: ts') (.pipe t t') := by
  intro fuel p rest hp ht hf hfuel
  obtain ⟨fuel, rfl⟩ : ∃ f, fuel = f + 1 := ⟨fuel - 1, by simp only [Cat.slack] at hfuel; omega⟩
  obtain ⟨⟨c₁, p₁⟩, hr₁, hrep₁, htoks₁, hle₁, hle₁'⟩ :=
    ih fuel p (.bar :: (ts' ++ rest)) hp (by rw [ht]; simp) (by simp [Follows, follow])
      (by simp only [Cat.slack] at hfuel ⊢; omega)
  dsimp only at hrep₁ htoks₁ hle₁ hle₁'
  obtain ⟨hpk, htoks₂, hle₂, hle₂'⟩ :=
    peek_spec h hle₁' [124] (singleton_mem_symbols (by simp [symbols]))
  have hbar : (peek b es p₁ [124]).1 = true := by
    rw [hpk, htoks₁]
    rfl
  obtain ⟨-, htoks₃, hlt₃, hle₃, -⟩ := gettoken_cons h hle₂' (htoks₂.trans htoks₁)
  -- the pipe after the `|`, on the fuel of this call
  obtain ⟨⟨c₂, p₄⟩, hr₂, hrep₂, htoks₄, hle₄, hle₄'⟩ :=
    ih' fuel _ rest hle₃ htoks₃ hf (by simp only [Cat.slack] at hfuel ⊢; omega)
  dsimp only at hrep₂ htoks₄ hle₄ hle₄'
  refine ⟨(.pipe c₁ c₂, p₄), ?_, ⟨hrep₁, hrep₂⟩, htoks₄, by omega, hle₄'⟩
  simp only [parseCat] at hr₁ hr₂ ⊢
  rw [parsepipe, hr₁]
  simp only [bind, Except.bind, hbar, if_true, hr₂]
  rfl

/-- `parseblock` reads `'(' line ')' redirs` from wherever it stands. -/
theorem parseblock_complete (h : CmdLine b es) (ih : ParsesPhrase b es .line ts t) (rs : List Redir)
    (fuel : Nat) {p : Nat} {rest : List Tok} (hp : p ≤ es)
    (ht : tokens b es p = .lpar :: ts ++ .rpar :: redirToks rs ++ rest) (hf : Follows .exec rest)
    (hfuel : 4 * (es - p) + 1 ≤ fuel + 1) :
    ∃ r, parseblock b es (fuel + 1) p = .ok r ∧ Parsed b es p (t.wrap rs) rest r := by
  obtain ⟨hpk, htoks, hle, hle'⟩ := peek_spec h hp [40] (singleton_mem_symbols (by simp [symbols]))
  have hlpar : (peek b es p [40]).1 = true := by
    rw [hpk, ht]
    rfl
  obtain ⟨-, htoks₂, hlt₂, hle₂, -⟩ := gettoken_cons h hle' (htoks.trans ht)
  -- the line inside, followed by `)`, on the fuel of this call
  obtain ⟨⟨c₁, p₃⟩, hr₁, hrep₁, htoks₃, hle₃, hle₃'⟩ :=
    ih fuel _ (.rpar :: (redirToks rs ++ rest)) hle₂ (by rw [htoks₂]; simp)
      (by simp [Follows, follow]) (by simp only [Cat.slack]; omega)
  dsimp only at hrep₁ htoks₃ hle₃ hle₃'
  obtain ⟨hpk₄, htoks₄, hle₄, hle₄'⟩ :=
    peek_spec h hle₃' [41] (singleton_mem_symbols (by simp [symbols]))
  have hrpar : (peek b es p₃ [41]).1 = true := by
    rw [hpk₄, htoks₃]
    rfl
  obtain ⟨-, htoks₅, hlt₅, hle₅, -⟩ := gettoken_cons h hle₄' (htoks₄.trans htoks₃)
  obtain ⟨rs₀, p₆, hred, hrs, htoks₆, hle₆, hle₆'⟩ := parseredirs_complete h rs c₁ hle₅ htoks₅
    (hf.peeks_eq_false (by simp [follow, Tok.startsWith]))
  refine ⟨(c₁.wrap rs₀, p₆), ?_, hrep₁.wrap hrs, htoks₆, by omega, hle₆'⟩
  simp only [parseCat] at hr₁
  rw [parseblock, if_neg (by simp [hlpar])]
  simp only [bind, Except.bind, hr₁]
  rw [if_neg (by simp [hrpar])]
  exact hred

/-- `exec := '(' line ')' redirs` -/
theorem complete_block (h : CmdLine b es) (ih : ParsesPhrase b es .line ts t) (rs : List Redir) :
    ParsesPhrase b es .exec (.lpar :: ts ++ .rpar :: redirToks rs) (t.wrap rs) := by
  intro fuel p rest hp ht hf hfuel
  -- `parseexec` and then `parseblock` each take a call of fuel
  obtain ⟨fuel, rfl⟩ : ∃ f, fuel = f + 2 := ⟨fuel - 2, by simp only [Cat.slack] at hfuel; omega⟩
  obtain ⟨hpk, htoks, hle, hle'⟩ := peek_spec h hp [40] (singleton_mem_symbols (by simp [symbols]))
  have hlpar : (peek b es p [40]).1 = true := by
    rw [hpk, ht]
    rfl
  obtain ⟨r, hr, hrep, htoks₁, hle₁, hle₁'⟩ :=
    parseblock_complete h ih rs fuel hle' (htoks.trans (by rw [ht, List.append_assoc])) hf
      (by simp only [Cat.slack] at hfuel; omega)
  refine ⟨r, ?_, hrep, htoks₁, by omega, hle₁'⟩
  simp only [parseCat]
  rw [parseexec, if_pos hlpar]
  exact hr

/-- `exec := redirs {WORD redirs}` -/
theorem complete_simple (h : CmdLine b es) (rs : List Redir) (items : List (List UInt8 × List Redir))
    (hlen : items.length < maxargs) :
    ParsesPhrase b es .exec (redirToks rs ++ itemToks items)
      ((Ast.exec (items.map Prod.fst)).wrap (rs ++ items.flatMap Prod.snd)) := by
  intro fuel p rest hp ht hf hfuel
  obtain ⟨fuel, rfl⟩ : ∃ f, fuel = f + 1 := ⟨fuel - 1, by simp only [Cat.slack] at hfuel; omega⟩
  obtain ⟨hpk, htoks, hle, hle'⟩ := peek_spec h hp [40] (singleton_mem_symbols (by simp [symbols]))
  have hnolpar : (peek b es p [40]).1 = false := by
    rw [hpk, ht]
    exact peeks_lpar_simple hf rs items
  -- the redirections before the first WORD, then the word loop from no WORDs
  obtain ⟨rs₀, p₁, hred, hrs, htoks₁, hle₁, hle₁'⟩ := parseredirs_complete h rs execcmd hle'
    (by rw [htoks, ht, List.append_assoc]) (peeks_redir_itemToks hf items)
  have hr₀ : ExecRead b es (peek b es p [40]).2 rs [] ⟨execcmd.wrap rs₀, fun _ => none, fun _ => none, 0, p₁⟩ :=
    ExecRead.start rfl hrs (by rw [htoks, ht, htoks₁, List.append_assoc]) hle₁ hle₁'
  obtain ⟨l, hl, hr, htoksl⟩ := execLoop_complete h hf items [] _ hr₀ htoks₁ (by simpa using hlen)
  rw [List.nil_append] at hr
  refine ⟨(l.ret.setArgs (Function.update l.argv ⟨l.argc, hr.lt⟩ none)
    (Function.update l.eargv ⟨l.argc, hr.lt⟩ none), l.ps), ?_, hr.rep, htoksl,
    by have := hr.le; omega, hr.le_es⟩
  simp only [parseCat]
  rw [parseexec, if_neg (by simp [hnolpar])]
  simp only [bind, Except.bind, hred, hl, storeArg_of_lt _ hr.lt]
  rfl

/-- Every derivation is read by the parser of its category. -/
theorem parse_complete (h : CmdLine b es) {cat : Cat} (hd : Derives cat ts t) :
    ParsesPhrase b es cat ts t := by
  induction hd with
  | back k _ ih => exact complete_back h ih k
  | list k _ _ ih ih' => exact complete_list h ih ih' k
  | exec _ ih => exact complete_exec h ih
  | pipe _ _ ih ih' => exact complete_pipe h ih ih'
  | block rs _ ih => exact complete_block h ih rs
  | simple rs items hlen => exact complete_simple h rs items hlen

end Descent

end Xv6.User.Sh
