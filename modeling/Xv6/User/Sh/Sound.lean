import Xv6.User.Sh.Parse
import Mathlib.Data.List.Forall2

/-!
# The shell's parser reads phrases of its grammar (`user/sh.c`)

`parse_sound`: on a command line, with four calls of fuel for each byte left,
each of `parseline`, `parsepipe`, `parseexec` and `parseblock` either panics
or returns a tree that stands for the derivation of the tokens it has read
(`PhraseRead`). It never runs out of fuel and never stores past `MAXARGS`:
its only errors are the panics of `sh.c`.

The proof is one induction on the fuel, each step from the four statements on
the fuel below (`parseline_sound_succ` ... `parseblock_sound_succ`). The word
loop of `parseexec` is proved apart (`execLoop_sound`) with its invariant
`ExecRead`: the redirections and WORDs read so far, the exec node wrapped in
the redirections, and `argv`/`eargv` holding the WORDs (`ArgsHold`).
-/

namespace Xv6.User.Sh

open Xv6.Lib

variable {n : Nat}

theorem storeArg_of_lt (a : Args) {i : Nat} (h : i < maxargs) (v : Option Nat) :
    storeArg a i v = .ok (Function.update a ⟨i, h⟩ v) := by
  rw [storeArg, dif_pos h]

/-- `"|)&;"`, what the loop of `parseexec` peeks for, is made of symbols. -/
theorem stop_mem_symbols : ∀ c ∈ ([124, 41, 38, 59] : List UInt8), c ∈ symbols := by
  simp [symbols]

theorem singleton_mem_symbols {c : UInt8} (hc : c ∈ symbols) : ∀ x ∈ [c], x ∈ symbols := by
  simpa using hc

/-- A single symbol other than `>` is a symbol's token. -/
theorem eq_of_peeks_singleton {c : UInt8} (hc : c ≠ 62) {ts : List Tok}
    (h : peeks [c] ts = true) : ∃ rest, ts = symTok c :: rest := by
  cases ts with
  | nil => cases h
  | cons t rest =>
    refine ⟨rest, ?_⟩
    cases t <;> simp [peeks, Tok.startsWith] at h <;> subst h <;> first | rfl | exact absurd rfl hc

theorem Tok.code_ne_zero (t : Tok) : t.code ≠ 0 := by
  cases t <;> simp [Tok.code]

theorem Cmd.wrap_append (c : Cmd) (rs rs₂ : List Redircmd) : (c.wrap rs).wrap rs₂ = c.wrap (rs ++ rs₂) :=
  (List.foldl_append ..).symm

theorem Rep.iterate_back {W : Nat → Nat → List UInt8 → Prop} {c : Cmd} {t : Ast} (h : Rep W c t) :
    ∀ k, Rep W (Cmd.back^[k] c) (Ast.back^[k] t) := by
  intro k
  induction k with
  | zero => exact h
  | succ k ih =>
    rw [Function.iterate_succ_apply', Function.iterate_succ_apply']
    exact ih

/-- `parseredirs` panics or reads redirections. -/
theorem parseredirs_panics {b : Bytes n} {es : Nat} (h : CmdLine b es) (cmd : Cmd) {p : Nat}
    (hp : p ≤ es) : Post (· ∈ panics) (RedirsRead b es cmd p) (parseredirs b es cmd p) :=
  (parseredirs_sound h cmd hp).imp (fun e he => by simp [he, panics]) fun _ h => h

/-! ## The arrays of an exec -/

/-- `argv` and `eargv` hold the WORDs `ws` from index `0`, as `W` says of each
pair of pointers, and `argv` is null from `ws.length` on. -/
structure ArgsHold (W : Nat → Nat → List UInt8 → Prop) (argv eargv : Args)
    (ws : List (List UInt8)) : Prop where
  word : ∀ i (hi : i < ws.length), ∃ h : i < maxargs, ∃ q e,
    argv ⟨i, h⟩ = some q ∧ eargv ⟨i, h⟩ = some e ∧ W q e ws[i]
  null : ∀ i : Fin maxargs, ws.length ≤ i.val → argv i = none

section Args

variable {W : Nat → Nat → List UInt8 → Prop} {argv eargv : Args} {ws : List (List UInt8)}

theorem ArgsHold.nil : ArgsHold W (fun _ => none) (fun _ => none) [] :=
  ⟨fun _ hi => absurd hi (Nat.not_lt_zero _), fun _ _ => rfl⟩

/-- Storing the next WORD at index `ws.length`. -/
theorem ArgsHold.push (h : ArgsHold W argv eargv ws) (hlt : ws.length < maxargs) {q e : Nat}
    {w : List UInt8} (hw : W q e w) :
    ArgsHold W (Function.update argv ⟨ws.length, hlt⟩ (some q))
      (Function.update eargv ⟨ws.length, hlt⟩ (some e)) (ws ++ [w]) := by
  constructor
  · intro i hi
    rw [List.length_append, List.length_singleton] at hi
    rcases Nat.lt_or_ge i ws.length with hlt' | hge
    · -- an earlier WORD: the stores are at another index
      obtain ⟨hm, q', e', hq, he, hw'⟩ := h.word i hlt'
      have hne : (⟨i, hm⟩ : Fin maxargs) ≠ ⟨ws.length, hlt⟩ := fun heq => by
        rw [Fin.mk.injEq] at heq
        omega
      refine ⟨hm, q', e', ?_, ?_, ?_⟩
      · rw [Function.update_of_ne hne, hq]
      · rw [Function.update_of_ne hne, he]
      · rwa [List.getElem_append_left hlt']
    · -- the WORD just stored
      obtain rfl : i = ws.length := by omega
      refine ⟨hlt, q, e, Function.update_self .., Function.update_self .., ?_⟩
      simpa using hw
  · intro i hi
    rw [List.length_append, List.length_singleton] at hi
    have hne : i ≠ ⟨ws.length, hlt⟩ := fun heq => by
      rw [heq] at hi
      exact absurd hi (by simp)
    rw [Function.update_of_ne hne]
    exact h.null i (by omega)

/-- Storing the null pointer after the WORDs. -/
theorem ArgsHold.store_none (h : ArgsHold W argv eargv ws) (hlt : ws.length < maxargs) :
    ArgsHold W (Function.update argv ⟨ws.length, hlt⟩ none)
      (Function.update eargv ⟨ws.length, hlt⟩ none) ws := by
  have hne : ∀ i (hi : i < ws.length) (hm : i < maxargs),
      (⟨i, hm⟩ : Fin maxargs) ≠ ⟨ws.length, hlt⟩ := fun i hi hm heq => by
    rw [Fin.mk.injEq] at heq
    omega
  constructor
  · intro i hi
    obtain ⟨hm, q, e, hq, he, hw⟩ := h.word i hi
    exact ⟨hm, q, e, by rw [Function.update_of_ne (hne i hi hm), hq],
      by rw [Function.update_of_ne (hne i hi hm), he], hw⟩
  · intro i hi
    by_cases heq : i = ⟨ws.length, hlt⟩
    · rw [heq, Function.update_self]
    · rw [Function.update_of_ne heq]
      exact h.null i hi

/-- The arrays read as `ArgsFrom` from each index of the WORDs on. -/
theorem ArgsHold.argsFrom (h : ArgsHold W argv eargv ws) (hlt : ws.length < maxargs) :
    ArgsFrom W argv eargv 0 ws := by
  -- induction on the number of WORDs from index `i` on
  suffices hk : ∀ k i, i + k = ws.length → ArgsFrom W argv eargv i (ws.drop i) by
    simpa using hk ws.length 0 (Nat.zero_add _)
  intro k
  induction k with
  | zero =>
    intro i hi
    rw [List.drop_eq_nil_of_le (by omega)]
    exact ⟨by omega, h.null _ (by simp; omega)⟩
  | succ k ih =>
    intro i hi
    have hi' : i < ws.length := by omega
    rw [List.drop_eq_getElem_cons hi']
    obtain ⟨hm, q, e, hq, he, hw⟩ := h.word i hi'
    exact ⟨hm, q, e, hq, he, hw, ih (i + 1) (by omega)⟩

end Args

section Step

variable {b : Bytes n} {es : Nat} {l : ExecLocals}

theorem execLoop_peek (h : CmdLine b es) (hp : l.ps ≤ es)
    (ht : peeks [124, 41, 38, 59] (tokens b es l.ps) = true) :
    ∃ p', execLoop b es l = .ok { l with ps := p' } ∧ tokens b es p' = tokens b es l.ps ∧
      l.ps ≤ p' ∧ p' ≤ es := by
  obtain ⟨hpk, htoks, hle, hle'⟩ := peek_spec h hp _ stop_mem_symbols
  refine ⟨_, ?_, htoks, hle, hle'⟩
  rw [execLoop, if_pos (hpk.trans ht)]

theorem execLoop_nil (h : CmdLine b es) (hp : l.ps ≤ es) (ht : tokens b es l.ps = []) :
    execLoop b es l = .ok { l with ps := es } := by
  obtain ⟨hpk, htoks, -, hle'⟩ := peek_spec h hp [124, 41, 38, 59] stop_mem_symbols
  obtain ⟨hret, hps⟩ := gettoken_nil h hle' (htoks.trans ht)
  rw [execLoop, if_neg (by rw [hpk, ht]; decide)]
  simp only [hret, hps, if_true]

theorem execLoop_word (h : CmdLine b es) (hp : l.ps ≤ es) {w : List UInt8} {ts : List Tok}
    (ht : tokens b es l.ps = .word w :: ts) (hlt : l.argc + 1 < maxargs) :
    ∃ q e p', WordAt b q e w ∧ tokens b es p' = ts ∧ l.ps < p' ∧ p' ≤ es ∧
      execLoop b es l = parseredirs b es l.ret p' >>= fun r =>
        execLoop b es ⟨r.1, Function.update l.argv ⟨l.argc, by omega⟩ (some q),
          Function.update l.eargv ⟨l.argc, by omega⟩ (some e), l.argc + 1, r.2⟩ := by
  obtain ⟨hpk, htoks, hle, hle'⟩ := peek_spec h hp [124, 41, 38, 59] stop_mem_symbols
  rw [← htoks] at ht
  obtain ⟨hret, htoks₂, hlt₂, hle₂, hword⟩ := gettoken_cons h hle' ht
  refine ⟨_, _, _, hword w rfl, htoks₂, by omega, hle₂, ?_⟩
  rw [execLoop, if_neg (by simp [hpk, ← htoks, ht, peeks, Tok.startsWith])]
  simp only [hret, Tok.code, storeArg_of_lt _ (show l.argc < maxargs by omega), bind, Except.bind,
    if_neg (show ¬ maxargs ≤ l.argc + 1 by omega)]
  rfl

theorem execLoop_too_many (h : CmdLine b es) (hp : l.ps ≤ es) {w : List UInt8} {ts : List Tok}
    (ht : tokens b es l.ps = .word w :: ts) (hlt : l.argc < maxargs) (hge : maxargs ≤ l.argc + 1) :
    execLoop b es l = .error "too many args" := by
  obtain ⟨hpk, htoks, -, hle'⟩ := peek_spec h hp [124, 41, 38, 59] stop_mem_symbols
  rw [← htoks] at ht
  obtain ⟨hret, -⟩ := gettoken_cons h hle' ht
  rw [execLoop, if_neg (by simp [hpk, ← htoks, ht, peeks, Tok.startsWith])]
  simp only [hret, Tok.code, storeArg_of_lt _ hlt, bind, Except.bind, if_pos hge]
  rfl

theorem execLoop_not_word (h : CmdLine b es) (hp : l.ps ≤ es) {t : Tok} {ts : List Tok}
    (ht : tokens b es l.ps = t :: ts) (hpk : peeks [124, 41, 38, 59] (t :: ts) = false)
    (hw : ∀ w, t ≠ .word w) : execLoop b es l = .error "syntax" := by
  obtain ⟨hpk', htoks, -, hle'⟩ := peek_spec h hp [124, 41, 38, 59] stop_mem_symbols
  rw [← htoks] at ht
  obtain ⟨hret, -⟩ := gettoken_cons h hle' ht
  rw [execLoop, if_neg (by rw [hpk', ← htoks, ht, hpk]; decide)]
  simp only [hret, if_neg (Tok.code_ne_zero t), if_pos (Tok.code_ne_a hw)]

end Step

/-! ## The word loop of `parseexec` -/

/-- What the loop of `parseexec` has read from `p0` when its locals are `l`:
the redirections `rs'`, then the WORDs of `items`, each with the redirections
after it. `ret` is the exec node inside the redirections read so far, and the
arrays hold the WORDs. -/
structure ExecRead (b : Bytes n) (es p0 : Nat) (rs' : List Redir)
    (items : List (List UInt8 × List Redir)) (l : ExecLocals) : Prop where
  ret : ∃ rs, l.ret = execcmd.wrap rs ∧
    List.Forall₂ (RedirRep (WordAt b)) rs (rs' ++ items.flatMap Prod.snd)
  toks : tokens b es p0 = redirToks rs' ++ itemToks items ++ tokens b es l.ps
  argc : l.argc = items.length
  lt : l.argc < maxargs
  args : ArgsHold (WordAt b) l.argv l.eargv (items.map Prod.fst)
  le : p0 ≤ l.ps
  le_es : l.ps ≤ es

section Loop

variable {b : Bytes n} {es p0 : Nat} {rs' : List Redir} {items : List (List UInt8 × List Redir)}
  {l : ExecLocals}

/-- The loop stops without taking a token. -/
theorem ExecRead.stop (hr : ExecRead b es p0 rs' items l) {p' : Nat}
    (htoks : tokens b es p' = tokens b es l.ps) (hle : l.ps ≤ p') (hle' : p' ≤ es) :
    ExecRead b es p0 rs' items { l with ps := p' } :=
  ⟨hr.ret, hr.toks.trans (by rw [htoks]), hr.argc, hr.lt, hr.args, hr.le.trans hle, hle'⟩

/-- A pass over the WORD `w` and the redirections `rs₂'` after it. -/
theorem ExecRead.push (hr : ExecRead b es p0 rs' items l) {w : List UInt8} {ts : List Tok}
    (ht : tokens b es l.ps = .word w :: ts) (hlt : l.argc + 1 < maxargs) {q e p₁ : Nat}
    (hword : WordAt b q e w) (htoks : tokens b es p₁ = ts) (hp₁ : l.ps < p₁)
    {c : Cmd} {p₂ : Nat} {rs₂ : List Redircmd} {rs₂' : List Redir} (hc : c = l.ret.wrap rs₂)
    (hrs : List.Forall₂ (RedirRep (WordAt b)) rs₂ rs₂')
    (htoks₂ : tokens b es p₁ = redirToks rs₂' ++ tokens b es p₂) (hle : p₁ ≤ p₂) (hle' : p₂ ≤ es) :
    ExecRead b es p0 rs' (items ++ [(w, rs₂')])
      ⟨c, Function.update l.argv ⟨l.argc, by omega⟩ (some q),
        Function.update l.eargv ⟨l.argc, by omega⟩ (some e), l.argc + 1, p₂⟩ := by
  obtain ⟨rs, hret, hrs₀⟩ := hr.ret
  have hlen : (items.map Prod.fst).length < maxargs := by
    rw [List.length_map, ← hr.argc]
    exact hr.lt
  have hidx : (⟨l.argc, by omega⟩ : Fin maxargs) = ⟨(items.map Prod.fst).length, hlen⟩ :=
    Fin.ext (by simp [hr.argc])
  constructor
  · refine ⟨rs ++ rs₂, by rw [hc, hret, Cmd.wrap_append], ?_⟩
    have happ : rs' ++ (items ++ [(w, rs₂')]).flatMap Prod.snd =
        (rs' ++ items.flatMap Prod.snd) ++ rs₂' := by simp
    rw [happ]
    exact List.rel_append hrs₀ hrs
  · rw [hr.toks, ht, ← htoks, htoks₂]
    simp [itemToks]
  · simp [hr.argc]
  · exact hlt
  · rw [hidx, List.map_append]
    exact hr.args.push hlen hword
  · exact (hr.le.trans hp₁.le).trans hle
  · exact hle'

/-- The loop starts after the redirections before the first WORD, with no WORDs. -/
theorem ExecRead.start {c : Cmd} {rs : List Redircmd} {p₁ : Nat} (hc : c = execcmd.wrap rs)
    (hrs : List.Forall₂ (RedirRep (WordAt b)) rs rs')
    (htoks : tokens b es p0 = redirToks rs' ++ tokens b es p₁) (hle : p0 ≤ p₁) (hle' : p₁ ≤ es) :
    ExecRead b es p0 rs' [] ⟨c, fun _ => none, fun _ => none, 0, p₁⟩ :=
  ⟨⟨rs, hc, by simpa using hrs⟩, by simpa [itemToks] using htoks, rfl, (by decide : 0 < maxargs),
    ArgsHold.nil, hle, hle'⟩

/-- Each pass of the loop reads a WORD and its redirections; it stops before
a `|)&;` or at the end of the line, and panics otherwise. -/
theorem execLoop_sound (h : CmdLine b es) :
    ∀ (l : ExecLocals) (items : List (List UInt8 × List Redir)), ExecRead b es p0 rs' items l →
      Post (· ∈ panics) (fun l' => ∃ items', ExecRead b es p0 rs' (items ++ items') l')
        (execLoop b es l) := by
  intro l
  -- each pass stores a WORD, and the loop panics at `MAXARGS`
  induction hm : maxargs - l.argc using Nat.strong_induction_on generalizing l with
  | _ m ih =>
    intro items hr
    cases ht : tokens b es l.ps with
    | nil =>
      rw [execLoop_nil h hr.le_es ht]
      exact ⟨[], by
        rw [List.append_nil]
        exact hr.stop (by rw [ht, tokens_of_le le_rfl]) hr.le_es le_rfl⟩
    | cons t ts =>
      cases hpk : peeks [124, 41, 38, 59] (t :: ts) with
      | true =>
        obtain ⟨p₁, hl, htoks, hle, hle'⟩ := execLoop_peek h hr.le_es (ht ▸ hpk)
        rw [hl]
        exact ⟨[], by
          rw [List.append_nil]
          exact hr.stop htoks hle hle'⟩
      | false =>
        by_cases hw : ∃ w, t = .word w
        · obtain ⟨w, rfl⟩ := hw
          by_cases hlt : l.argc + 1 < maxargs
          · obtain ⟨q, e, p₁, hword, htoks, hlt₁, hle₁, hl⟩ := execLoop_word h hr.le_es ht hlt
            rw [hl]
            refine Post.bind (parseredirs_panics h l.ret hle₁) ?_
            rintro ⟨c, p₂⟩ ⟨rs₂, rs₂', hc, hrs₂, htoks₂, hle₂, hle₂'⟩
            have hr' := hr.push ht hlt hword htoks hlt₁ hc hrs₂ htoks₂ hle₂ hle₂'
            refine (ih (maxargs - (l.argc + 1)) (by omega) _ rfl _ hr').mono ?_
            rintro l' ⟨items', hr''⟩
            rw [List.append_assoc, List.singleton_append] at hr''
            exact ⟨_, hr''⟩
          · rw [execLoop_too_many h hr.le_es ht hr.lt (by omega)]
            simp [Post, panics]
        · rw [execLoop_not_word h hr.le_es ht hpk (by simpa using hw)]
          simp [Post, panics]

/-- The exec node that `parseexec` returns after the loop, with the null
pointers stored at `argc`, stands for the WORDs and redirections read. -/
theorem ExecRead.rep (hr : ExecRead b es p0 rs' items l) :
    Rep (WordAt b) (l.ret.setArgs (Function.update l.argv ⟨l.argc, hr.lt⟩ none)
        (Function.update l.eargv ⟨l.argc, hr.lt⟩ none))
      ((Ast.exec (items.map Prod.fst)).wrap (rs' ++ items.flatMap Prod.snd)) := by
  obtain ⟨rs, hret, hrs⟩ := hr.ret
  have hlen : (items.map Prod.fst).length < maxargs := by
    rw [List.length_map, ← hr.argc]
    exact hr.lt
  have hidx : (⟨l.argc, hr.lt⟩ : Fin maxargs) = ⟨(items.map Prod.fst).length, hlen⟩ :=
    Fin.ext (by simp [hr.argc])
  rw [hret, Cmd.setArgs_wrap]
  refine Rep.wrap ?_ hrs
  show ArgsFrom (WordAt b) _ _ 0 _
  rw [hidx]
  exact (hr.args.store_none hlen).argsFrom hlen

end Loop
/-- What a parser call for `cat` from `p` has read when it returns `r`: the
tokens of a phrase of `cat`, whose derivation `r.1` stands for. -/
def PhraseRead (b : Bytes n) (es : Nat) (cat : Cat) (p : Nat) (r : Cmd × Nat) : Prop :=
  ∃ ts t, Derives cat ts t ∧ Rep (WordAt b) r.1 t ∧ tokens b es p = ts ++ tokens b es r.2 ∧
    p ≤ r.2 ∧ r.2 ≤ es

section Descent

variable {b : Bytes n} {es : Nat} {fuel : Nat}

/-- `parseline` on `fuel + 1` from what `parsepipe` and `parseline` do on `fuel`. -/
theorem parseline_sound_succ (h : CmdLine b es)
    (hpipe : ∀ p, p ≤ es → 4 * (es - p) + 3 ≤ fuel →
      Post (· ∈ panics) (PhraseRead b es .pipe p) (parsepipe b es fuel p))
    (hline : ∀ p, p ≤ es → 4 * (es - p) + 4 ≤ fuel →
      Post (· ∈ panics) (PhraseRead b es .line p) (parseline b es fuel p))
    {p : Nat} (hp : p ≤ es) (hf : 4 * (es - p) + 4 ≤ fuel + 1) :
    Post (· ∈ panics) (PhraseRead b es .line p) (parseline b es (fuel + 1) p) := by
  rw [parseline]
  refine Post.bind (hpipe p hp (by omega)) ?_
  rintro ⟨c₁, p₁⟩ ⟨ts₁, t₁, hd₁, hrep₁, htoks₁, hle₁, hle₁'⟩
  -- the `&`s after the pipe, then what follows them
  obtain ⟨k, rest, hrest, hamp⟩ := exists_amps (tokens b es p₁)
  obtain ⟨p₂, hback, htoks₂, hle₂, hle₂'⟩ := backLoop_spec h k c₁ hle₁' hrest hamp
  dsimp only
  rw [hback]
  dsimp only
  obtain ⟨hpk, htoks₃, hle₃, hle₃'⟩ := peek_spec h hle₂' [59] (singleton_mem_symbols (by simp [symbols]))
  by_cases hsemi : peeks [59] rest = true
  · -- `;` and the line after it
    obtain ⟨rest', rfl⟩ := eq_of_peeks_singleton (by decide) hsemi
    rw [if_pos (hpk.trans (htoks₂ ▸ hsemi))]
    obtain ⟨-, htoks₄, hlt₄, hle₄, -⟩ := gettoken_cons h hle₃' (htoks₃.trans htoks₂)
    refine Post.bind (hline _ hle₄ (by omega)) ?_
    rintro ⟨c₂, p₅⟩ ⟨ts₂, t₂, hd₂, hrep₂, htoks₅, hle₅, hle₅'⟩
    refine ⟨_, _, .list k hd₁ hd₂, ⟨hrep₁.iterate_back k, hrep₂⟩, ?_, by omega, hle₅'⟩
    rw [htoks₁, hrest, ← htoks₄, htoks₅]
    simp [symTok]
  · rw [if_neg (by rw [hpk, htoks₂]; exact hsemi)]
    refine ⟨_, _, .back k hd₁, hrep₁.iterate_back k, ?_, by omega, hle₃'⟩
    rw [htoks₁, hrest, htoks₃, htoks₂, List.append_assoc]

/-- `parsepipe` on `fuel + 1` from what `parseexec` and `parsepipe` do on `fuel`. -/
theorem parsepipe_sound_succ (h : CmdLine b es)
    (hexec : ∀ p, p ≤ es → 4 * (es - p) + 2 ≤ fuel →
      Post (· ∈ panics) (PhraseRead b es .exec p) (parseexec b es fuel p))
    (hpipe : ∀ p, p ≤ es → 4 * (es - p) + 3 ≤ fuel →
      Post (· ∈ panics) (PhraseRead b es .pipe p) (parsepipe b es fuel p))
    {p : Nat} (hp : p ≤ es) (hf : 4 * (es - p) + 3 ≤ fuel + 1) :
    Post (· ∈ panics) (PhraseRead b es .pipe p) (parsepipe b es (fuel + 1) p) := by
  rw [parsepipe]
  refine Post.bind (hexec p hp (by omega)) ?_
  rintro ⟨c₁, p₁⟩ ⟨ts₁, t₁, hd₁, hrep₁, htoks₁, hle₁, hle₁'⟩
  dsimp only at hrep₁ htoks₁ hle₁ hle₁' ⊢
  obtain ⟨hpk, htoks₂, hle₂, hle₂'⟩ := peek_spec h hle₁' [124] (singleton_mem_symbols (by simp [symbols]))
  by_cases hbar : peeks [124] (tokens b es p₁) = true
  · -- `|` and the pipe after it
    obtain ⟨rest, hrest⟩ := eq_of_peeks_singleton (by decide) hbar
    rw [if_pos (hpk.trans hbar)]
    obtain ⟨-, htoks₃, hlt₃, hle₃, -⟩ := gettoken_cons h hle₂' (htoks₂.trans hrest)
    refine Post.bind (hpipe _ hle₃ (by omega)) ?_
    rintro ⟨c₂, p₄⟩ ⟨ts₂, t₂, hd₂, hrep₂, htoks₄, hle₄, hle₄'⟩
    refine ⟨_, _, .pipe hd₁ hd₂, ⟨hrep₁, hrep₂⟩, ?_, by omega, hle₄'⟩
    rw [htoks₁, hrest, ← htoks₃, htoks₄]
    simp [symTok]
  · rw [if_neg (by rw [hpk]; exact hbar)]
    exact ⟨_, _, .exec hd₁, hrep₁, by rw [htoks₁, htoks₂], by omega, hle₂'⟩

/-- `parseexec` on `fuel + 1` from what `parseblock` does on `fuel`. -/
theorem parseexec_sound_succ (h : CmdLine b es)
    (hblock : ∀ p, p ≤ es → 4 * (es - p) + 1 ≤ fuel →
      Post (· ∈ panics) (PhraseRead b es .exec p) (parseblock b es fuel p))
    {p : Nat} (hp : p ≤ es) (hf : 4 * (es - p) + 2 ≤ fuel + 1) :
    Post (· ∈ panics) (PhraseRead b es .exec p) (parseexec b es (fuel + 1) p) := by
  obtain ⟨hpk, htoks, hle, hle'⟩ := peek_spec h hp [40] (singleton_mem_symbols (by simp [symbols]))
  rw [parseexec]
  by_cases hlpar : (peek b es p [40]).1 = true
  · -- a block
    rw [if_pos hlpar]
    refine (hblock _ hle' (by omega)).mono ?_
    rintro r ⟨ts, t, hd, hrep, htoks₁, hle₁, hle₁'⟩
    exact ⟨ts, t, hd, hrep, by rw [← htoks, htoks₁], by omega, hle₁'⟩
  · -- redirections, then the word loop from no WORDs
    rw [if_neg hlpar]
    refine Post.bind (parseredirs_panics h execcmd hle') ?_
    rintro ⟨c₁, p₁⟩ ⟨rs, rs', hc, hrs, htoks₁, hle₁, hle₁'⟩
    refine Post.bind (execLoop_sound h _ [] (ExecRead.start hc hrs htoks₁ hle₁ hle₁')) ?_
    rintro l ⟨items, hr⟩
    rw [List.nil_append] at hr
    simp only [storeArg_of_lt _ hr.lt, bind, Except.bind, pure, Except.pure]
    refine ⟨_, _, .simple rs' items (hr.argc ▸ hr.lt), hr.rep, by rw [← htoks, hr.toks], by
      have := hr.le
      omega, hr.le_es⟩

/-- `parseblock` on `fuel + 1` from what `parseline` does on `fuel`. -/
theorem parseblock_sound_succ (h : CmdLine b es)
    (hline : ∀ p, p ≤ es → 4 * (es - p) + 4 ≤ fuel →
      Post (· ∈ panics) (PhraseRead b es .line p) (parseline b es fuel p))
    {p : Nat} (hp : p ≤ es) (hf : 4 * (es - p) + 1 ≤ fuel + 1) :
    Post (· ∈ panics) (PhraseRead b es .exec p) (parseblock b es (fuel + 1) p) := by
  obtain ⟨hpk, htoks, hle, hle'⟩ := peek_spec h hp [40] (singleton_mem_symbols (by simp [symbols]))
  rw [parseblock]
  by_cases hlpar : (peek b es p [40]).1 = true
  · rw [if_neg (by simp [hlpar])]
    obtain ⟨ts, hts⟩ := eq_of_peeks_singleton (by decide) (hpk ▸ hlpar)
    obtain ⟨-, htoks₂, hlt₂, hle₂, -⟩ := gettoken_cons h hle' (htoks.trans hts)
    refine Post.bind (hline _ hle₂ (by omega)) ?_
    rintro ⟨c₁, p₁⟩ ⟨ts₁, t₁, hd₁, hrep₁, htoks₁, hle₁, hle₁'⟩
    dsimp only at hrep₁ htoks₁ hle₁ hle₁' ⊢
    obtain ⟨hpk₃, htoks₃, hle₃, hle₃'⟩ :=
      peek_spec h hle₁' [41] (singleton_mem_symbols (by simp [symbols]))
    by_cases hrpar : (peek b es p₁ [41]).1 = true
    · -- `)` and the redirections of the block
      rw [if_neg (by simp [hrpar])]
      obtain ⟨ts', hts'⟩ := eq_of_peeks_singleton (by decide) (hpk₃ ▸ hrpar)
      obtain ⟨-, htoks₄, hlt₄, hle₄, -⟩ := gettoken_cons h hle₃' (htoks₃.trans hts')
      refine (parseredirs_panics h c₁ hle₄).mono ?_
      rintro ⟨c₂, p₅⟩ ⟨rs, rs', hc, hrs, htoks₅, hle₅, hle₅'⟩
      dsimp only at hc htoks₅ hle₅ hle₅' ⊢
      refine ⟨_, _, .block rs' hd₁, hc ▸ hrep₁.wrap hrs, ?_, by omega, hle₅'⟩
      rw [hts, ← htoks₂, htoks₁, hts', ← htoks₄, htoks₅]
      simp [symTok]
    · rw [if_pos (by simp [hrpar])]
      simp [Post, panics]
  · rw [if_pos (by simp [hlpar])]
    simp [Post, panics]

/-- The four parser functions read phrases of the grammar or panic, given
four calls of fuel for each byte left. -/
theorem parse_sound (h : CmdLine b es) : ∀ fuel,
    (∀ p, p ≤ es → 4 * (es - p) + 4 ≤ fuel →
      Post (· ∈ panics) (PhraseRead b es .line p) (parseline b es fuel p)) ∧
    (∀ p, p ≤ es → 4 * (es - p) + 3 ≤ fuel →
      Post (· ∈ panics) (PhraseRead b es .pipe p) (parsepipe b es fuel p)) ∧
    (∀ p, p ≤ es → 4 * (es - p) + 2 ≤ fuel →
      Post (· ∈ panics) (PhraseRead b es .exec p) (parseexec b es fuel p)) ∧
    (∀ p, p ≤ es → 4 * (es - p) + 1 ≤ fuel →
      Post (· ∈ panics) (PhraseRead b es .exec p) (parseblock b es fuel p)) := by
  intro fuel
  induction fuel with
  | zero => exact ⟨fun _ _ hf => by omega, fun _ _ hf => by omega, fun _ _ hf => by omega,
      fun _ _ hf => by omega⟩
  | succ fuel ih =>
    obtain ⟨hline, hpipe, hexec, hblock⟩ := ih
    exact ⟨fun _ hp hf => parseline_sound_succ h hpipe hline hp hf,
      fun _ hp hf => parsepipe_sound_succ h hexec hpipe hp hf,
      fun _ hp hf => parseexec_sound_succ h hblock hp hf,
      fun _ hp hf => parseblock_sound_succ h hline hp hf⟩

end Descent

end Xv6.User.Sh
