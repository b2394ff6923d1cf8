import Xv6.User.Sh.Grammar
import Xv6.Lib.Buffer

/-!
# `gettoken` and `peek` (`user/sh.c`)

The shell reads its command line through two functions. `gettoken` skips
whitespace, returns the token it finds (its symbol, `'+'` for `>>`, `'a'` for
a WORD, `0` at the end of the line), stores where the token's text starts and
ends, and skips the whitespace after it. `peek` skips whitespace and says
whether the next byte is one of the symbols it is given. A pointer into the
line is an offset in the buffer; `es` points at the line's NUL.

xv6's `strchr` never finds the NUL, so `strchr(whitespace, c)` is
`c ∈ whitespace` and `!strchr(whitespace, c) && !strchr(symbols, c)` is
`IsWordByte c` for every byte `c`.

The parser's proofs never look at bytes: they read the line as the tokens
`tokens b es p` that `lex` makes of the bytes from `p` to `es`, through
`gettoken_nil`, `gettoken_cons` and `peek_spec`. A WORD that `gettoken` reads
is `WordAt` its text: the text holds its bytes and the byte after it ends it.
-/

namespace Xv6.User.Sh

open Xv6.Lib

variable {n : Nat}

/-! ## The code -/

/-- `while (s < es && strchr(whitespace, *s)) s++;` -/
def skipWhite (b : Bytes n) (es s : Nat) : Nat :=
  if s < es ∧ b.get s ∈ whitespace then skipWhite b es (s + 1) else s
termination_by es - s

/-- `while (s < es && !strchr(whitespace, *s) && !strchr(symbols, *s)) s++;` -/
def skipWord (b : Bytes n) (es s : Nat) : Nat :=
  if s < es ∧ IsWordByte (b.get s) then skipWord b es (s + 1) else s
termination_by es - s

/-- The `switch (*s)` of `gettoken`: what it returns for the token at `s`, and
where the token's text ends. -/
def token (b : Bytes n) (es s : Nat) : UInt8 × Nat :=
  if b.get s = 0 then (0, s)
  -- '|' '(' ')' ';' '&' '<'
  else if b.get s ∈ [124, 40, 41, 59, 38, 60] then (b.get s, s + 1)
  -- '>', and '+' for ">>"
  else if b.get s = 62 then
    if b.get (s + 1) = 62 then (43, s + 2) else (62, s + 1)
  -- 'a'
  else (97, skipWord b es s)

/-- What `gettoken` returns and stores through its pointer arguments: the
token `ret`, the token's text `[q, eq)`, and the new `*ps`. -/
structure Scan where
  ret : UInt8
  q : Nat
  eq : Nat
  ps : Nat

/-- `gettoken(ps, es, q, eq)`. -/
def gettoken (b : Bytes n) (es ps : Nat) : Scan :=
  let s := skipWhite b es ps
  ⟨(token b es s).1, s, (token b es s).2, skipWhite b es (token b es s).2⟩

/-- `peek(ps, es, toks)`: whether the next byte is one of `toks`, and the new `*ps`. -/
def peek (b : Bytes n) (es ps : Nat) (toks : List UInt8) : Bool × Nat :=
  let s := skipWhite b es ps
  (decide (b.get s ≠ 0) && decide (b.get s ∈ toks), s)

/-! ## Progress, on any buffer -/

section Progress

variable (b : Bytes n) (es : Nat)

theorem le_skipWhite (s : Nat) : s ≤ skipWhite b es s := by
  fun_induction skipWhite b es s with
  | case1 s _ ih => omega
  | case2 s _ => exact le_rfl

theorem skipWhite_of_not_white {s : Nat} (hs : b.get s ∉ whitespace) : skipWhite b es s = s := by
  rw [skipWhite, if_neg (fun h => hs h.2)]

theorem not_white_skipWhite (s : Nat) (hs : skipWhite b es s < es) :
    b.get (skipWhite b es s) ∉ whitespace := by
  fun_induction skipWhite b es s with
  | case1 s _ ih => exact ih hs
  | case2 s hstop => exact fun hw => hstop ⟨hs, hw⟩

theorem le_skipWord (s : Nat) : s ≤ skipWord b es s := by
  fun_induction skipWord b es s with
  | case1 s _ ih => omega
  | case2 s _ => exact le_rfl

theorem le_token (s : Nat) : s ≤ (token b es s).2 := by
  unfold token
  split_ifs <;> first | omega | exact le_skipWord b es s

theorem le_gettoken (ps : Nat) : ps ≤ (gettoken b es ps).ps :=
  calc ps ≤ skipWhite b es ps := le_skipWhite b es ps
    _ ≤ (token b es (skipWhite b es ps)).2 := le_token b es _
    _ ≤ skipWhite b es (token b es (skipWhite b es ps)).2 := le_skipWhite b es _

theorem le_peek (ps : Nat) (toks : List UInt8) : ps ≤ (peek b es ps toks).2 :=
  le_skipWhite b es ps

/-- When `peek` sees a symbol, the byte is inside the buffer and `gettoken`
moves past it: the loops that peek and then take a token make progress. -/
theorem lt_gettoken_of_peek {ps : Nat} {toks : List UInt8} (htoks : ∀ c ∈ toks, c ∈ symbols)
    (h : (peek b es ps toks).1 = true) :
    (peek b es ps toks).2 < n ∧ (peek b es ps toks).2 < (gettoken b es (peek b es ps toks).2).ps := by
  simp only [peek, Bool.and_eq_true, decide_eq_true_eq] at h ⊢
  obtain ⟨hz, hsym⟩ := h
  set s := skipWhite b es ps
  have hs : s < n := by
    by_contra hn
    exact hz (by simp [Bytes.get, hn])
  have hnw : b.get s ∉ whitespace := by
    have := htoks _ hsym
    simp only [symbols, whitespace, List.mem_cons, List.not_mem_nil] at this ⊢
    rcases this with h | h | h | h | h | h | h | h <;> simp [h]
  refine ⟨hs, ?_⟩
  simp only [gettoken, skipWhite_of_not_white b es hnw]
  have hlt : s < (token b es s).2 := by
    have := htoks _ hsym
    unfold token
    split_ifs with h0 hbar hgt hgt2 <;> first | omega | simp_all [symbols]
  exact Nat.lt_of_lt_of_le hlt (le_skipWhite b es _)

end Progress

/-! ## The line as tokens -/

/-- The buffer holds a command line: `es` bytes, none of them NUL, then a NUL. -/
structure CmdLine (b : Bytes n) (es : Nat) : Prop where
  lt : es < n
  nul : b.get es = 0
  ne : ∀ i < es, b.get i ≠ 0

/-- The tokens of the line from `p` on. -/
def tokens (b : Bytes n) (es p : Nat) : List Tok := lex (b.slice p (es - p))

/-- What `gettoken` returns for a token. -/
def Tok.code : Tok → UInt8
  | .word _ => 97
  | .lt => 60
  | .gt => 62
  | .app => 43
  | .bar => 124
  | .amp => 38
  | .semi => 59
  | .lpar => 40
  | .rpar => 41

/-- Whether a token starts with one of the symbols `cs`. -/
def Tok.startsWith (cs : List UInt8) : Tok → Bool
  | .word _ => false
  | .lt => decide (60 ∈ cs)
  | .gt | .app => decide (62 ∈ cs)
  | .bar => decide (124 ∈ cs)
  | .amp => decide (38 ∈ cs)
  | .semi => decide (59 ∈ cs)
  | .lpar => decide (40 ∈ cs)
  | .rpar => decide (41 ∈ cs)

/-- What `peek` sees: whether the tokens start with one of the symbols `cs`. -/
def peeks (cs : List UInt8) : List Tok → Bool
  | t :: _ => t.startsWith cs
  | [] => false

/-- A byte that ends a WORD: the NUL, whitespace or a symbol. -/
def Stop (c : UInt8) : Prop := c = 0 ∨ ¬ IsWordByte c

/-- The WORD `w` is the text `[q, eq)` of the buffer, and the byte at `eq`
ends it. -/
structure WordAt (b : Bytes n) (q eq : Nat) (w : List UInt8) : Prop where
  slice : b.slice q w.length = w
  len : q + w.length = eq
  word : ∀ c ∈ w, ¬ Stop c
  stop : Stop (b.get eq)
  lt : eq < n

section Line

variable {b : Bytes n} {es : Nat}

theorem CmdLine.lt_of_ne_zero (h : CmdLine b es) {i : Nat} (hi : i ≤ es) (hz : b.get i ≠ 0) :
    i < es :=
  Nat.lt_of_le_of_ne hi fun he => hz (he ▸ h.nul)

theorem slice_rest {p : Nat} (hp : p < es) :
    b.slice p (es - p) = b.get p :: b.slice (p + 1) (es - (p + 1)) := by
  obtain ⟨k, hk⟩ : ∃ k, es - p = k + 1 := ⟨es - p - 1, by omega⟩
  rw [hk, Bytes.slice_succ, show es - (p + 1) = k by omega]

theorem tokens_of_le {p : Nat} (hp : es ≤ p) : tokens b es p = [] := by
  rw [tokens, show es - p = 0 by omega, Bytes.slice_zero, lex]

theorem head_slice_rest (h : CmdLine b es) {p : Nat} (hp : p ≤ es) :
    ∀ d ∈ (b.slice p (es - p)).head?, d = b.get p ∧ d ≠ 0 := by
  intro d hd
  rcases Nat.lt_or_ge p es with hlt | hge
  · rw [slice_rest hlt] at hd
    cases hd
    exact ⟨rfl, h.ne p hlt⟩
  · rw [show es - p = 0 by omega] at hd
    cases hd

theorem tokens_white {p : Nat} (hp : p < es) (hw : b.get p ∈ whitespace) :
    tokens b es p = tokens b es (p + 1) := by
  rw [tokens, slice_rest hp, lex_white hw]
  rfl

/-- Skipping whitespace keeps the tokens. -/
theorem skipWhite_spec {p : Nat} (hp : p ≤ es) :
    skipWhite b es p ≤ es ∧ tokens b es (skipWhite b es p) = tokens b es p := by
  fun_induction skipWhite b es p with
  | case1 p hw ih =>
    obtain ⟨hle, htoks⟩ := ih (by omega)
    exact ⟨hle, htoks.trans (tokens_white hw.1 hw.2).symm⟩
  | case2 p _ => exact ⟨hp, rfl⟩

/-- `skipWord` stops at the first byte from `s` that is not a WORD byte. -/
theorem skipWord_spec (b : Bytes n) (es s : Nat) :
    (∀ i, s ≤ i → i < skipWord b es s → i < es ∧ IsWordByte (b.get i)) ∧
    (skipWord b es s < es → ¬ IsWordByte (b.get (skipWord b es s))) := by
  fun_induction skipWord b es s with
  | case1 s hword ih =>
    refine ⟨fun i hi hlt => ?_, ih.2⟩
    rcases Nat.lt_or_ge i (s + 1) with his | his
    · obtain rfl : i = s := by omega
      exact hword
    · exact ih.1 i his hlt
  | case2 s hstop =>
    exact ⟨fun i hi hlt => absurd hlt (by omega), fun hlt hw => hstop ⟨hlt, hw⟩⟩

theorem mem_slice {o len : Nat} {c : UInt8} (hc : c ∈ b.slice o len) :
    ∃ k < len, b.get (o + k) = c := by
  simpa [Bytes.slice] using hc

/-- A WORD at `s`: its text runs to `skipWord`, and it is one token. -/
theorem tokens_word (h : CmdLine b es) {s : Nat} (hs : s < es) (hw : IsWordByte (b.get s)) :
    s < skipWord b es s ∧ skipWord b es s ≤ es ∧
    tokens b es s = .word (b.slice s (skipWord b es s - s)) :: tokens b es (skipWord b es s) ∧
    WordAt b s (skipWord b es s) (b.slice s (skipWord b es s - s)) := by
  set e := skipWord b es s with he
  obtain ⟨hin, hend⟩ := skipWord_spec b es s
  rw [← he] at hin hend
  have hse : s < e := by
    rw [he, skipWord, if_pos ⟨hs, hw⟩]
    exact Nat.lt_of_lt_of_le (Nat.lt_succ_self s) (le_skipWord b es (s + 1))
  have hes : e ≤ es := by
    by_contra hgt
    exact absurd (hin es (by omega) (by omega)).1 (lt_irrefl es)
  have hword : ∀ c ∈ b.slice s (e - s), IsWordByte c ∧ c ≠ 0 := by
    intro c hc
    obtain ⟨k, hk, rfl⟩ := mem_slice hc
    have := hin (s + k) (by omega) (by omega)
    exact ⟨this.2, h.ne _ this.1⟩
  have hstop : Stop (b.get e) := by
    rcases Nat.lt_or_ge e es with hlt | hge
    · exact .inr (hend hlt)
    · exact .inl (show e = es by omega ▸ h.nul)
  have hsplit : b.slice s (es - s) = b.slice s (e - s) ++ b.slice e (es - e) := by
    have := Bytes.slice_add b s (e - s) (es - e)
    rwa [show s + (e - s) = e by omega, show e - s + (es - e) = es - s by omega] at this
  refine ⟨hse, hes, ?_, ⟨by simp, by simp; omega, fun c hc hs => ?_, hstop, by have := h.lt; omega⟩⟩
  · rw [tokens, hsplit, lex_word ?_ (fun c hc => (hword c hc).1) ?_]
    · rfl
    · rw [← List.length_pos_iff, Bytes.length_slice]
      omega
    · intro d hd
      obtain ⟨rfl, -⟩ := head_slice_rest h hes d hd
      rcases hstop with h0 | hnw
      · exact absurd h0 (head_slice_rest h hes _ hd).2
      · exact hnw
  · rcases hs with h0 | hnw
    · exact (hword c hc).2 h0
    · exact hnw (hword c hc).1

/-- The one-byte symbols other than `>`, as `gettoken` lists them. -/
theorem symTok_of_oneByte {c : UInt8} (h : c ∈ [124, 40, 41, 59, 38, 60]) :
    c ∈ symbols ∧ c ≠ 62 ∧ (symTok c).code = c ∧ (∀ cs, (symTok c).startsWith cs = decide (c ∈ cs)) ∧
      ∀ w, symTok c ≠ .word w := by
  simp only [List.mem_cons, List.not_mem_nil, or_false] at h
  rcases h with rfl | rfl | rfl | rfl | rfl | rfl <;> simp [symbols, symTok, Tok.code, Tok.startsWith]

theorem isWordByte_of_not_symbol {c : UInt8} (hw : c ∉ whitespace)
    (h1 : c ∉ [124, 40, 41, 59, 38, 60]) (h2 : c ≠ 62) : IsWordByte c := by
  refine ⟨hw, fun hmem => ?_⟩
  simp only [symbols, List.mem_cons, List.not_mem_nil, or_false] at h1 hmem
  tauto

/-- The token at `s`, which is not whitespace: `token` returns its code and
the end of its text, and the tokens go on from there. -/
theorem tokens_token (h : CmdLine b es) {s : Nat} (hs : s < es) (hnw : b.get s ∉ whitespace) :
    ∃ t, tokens b es s = t :: tokens b es (token b es s).2 ∧ (token b es s).1 = t.code ∧
      s < (token b es s).2 ∧ (token b es s).2 ≤ es ∧
      (∀ cs, (∀ c ∈ cs, c ∈ symbols) → decide (b.get s ∈ cs) = t.startsWith cs) ∧
      ∀ w, t = .word w → WordAt b s (token b es s).2 w := by
  have hz : b.get s ≠ 0 := h.ne s hs
  have hrest := slice_rest (b := b) hs
  unfold token
  rw [if_neg hz]
  split_ifs with hsym hgt hgt2 <;> dsimp only
  · -- one of the one-byte symbols
    obtain ⟨hmem, hgt, hcode, hstarts, hword⟩ := symTok_of_oneByte hsym
    refine ⟨symTok (b.get s), ?_, hcode.symm, by omega, by omega, fun cs _ => (hstarts cs).symm,
      fun w hw => absurd hw (hword w)⟩
    rw [tokens, hrest, lex_symbol hmem hgt]
    rfl
  · -- `>>`
    have hs1 : s + 1 < es := h.lt_of_ne_zero (by omega) (by rw [hgt2]; decide)
    refine ⟨.app, ?_, rfl, by omega, by omega, fun cs _ => by simp [hgt, Tok.startsWith], by simp⟩
    rw [tokens, hrest, slice_rest hs1, hgt, hgt2, lex_app, show es - (s + 1 + 1) = es - (s + 2) by omega]
    rfl
  · -- a lone `>`
    refine ⟨.gt, ?_, rfl, by omega, by omega, fun cs _ => by simp [hgt, Tok.startsWith], by simp⟩
    rw [tokens, hrest, hgt, lex_gt]
    · rfl
    · intro d hd
      obtain ⟨rfl, -⟩ := head_slice_rest h (by omega) d hd
      exact hgt2
  · -- a WORD
    have hword : IsWordByte (b.get s) := isWordByte_of_not_symbol hnw hsym hgt
    obtain ⟨hlt, hle, htoks, hat⟩ := tokens_word h hs hword
    refine ⟨_, htoks, rfl, hlt, hle, fun cs hcs => ?_, fun w hw => ?_⟩
    · simp only [Tok.startsWith, decide_eq_false_iff_not]
      exact fun hmem => hword.2 (hcs _ hmem)
    · cases hw
      exact hat

/-! ## `gettoken` and `peek` on the tokens -/

theorem skipWhite_eq_of_nil (h : CmdLine b es) {p : Nat} (hp : p ≤ es) (ht : tokens b es p = []) :
    skipWhite b es p = es := by
  obtain ⟨hle, htoks⟩ := skipWhite_spec (b := b) hp
  by_contra hne
  have hlt : skipWhite b es p < es := by omega
  obtain ⟨t, ht', -⟩ := tokens_token h hlt (not_white_skipWhite b es p hlt)
  rw [htoks, ht] at ht'
  cases ht'

theorem tokens_nil_of_skipWhite {p : Nat} (hp : p ≤ es)
    (hs : skipWhite b es p = es) : tokens b es p = [] := by
  rw [← (skipWhite_spec (b := b) hp).2, hs, tokens_of_le le_rfl]

/-- At the end of the line `gettoken` returns `0` and leaves `*ps` at `es`. -/
theorem gettoken_nil (h : CmdLine b es) {p : Nat} (hp : p ≤ es) (ht : tokens b es p = []) :
    (gettoken b es p).ret = 0 ∧ (gettoken b es p).ps = es := by
  have hs := skipWhite_eq_of_nil h hp ht
  have htok : token b es es = (0, es) := by rw [token, if_pos h.nul]
  simp only [gettoken, hs, htok, true_and]
  exact skipWhite_of_not_white b es (by rw [h.nul]; decide)

/-- `gettoken` returns the next token, moves past it, and stores a WORD's text. -/
theorem gettoken_cons (h : CmdLine b es) {p : Nat} (hp : p ≤ es) {t : Tok} {ts : List Tok}
    (ht : tokens b es p = t :: ts) :
    (gettoken b es p).ret = t.code ∧ tokens b es (gettoken b es p).ps = ts ∧
      p < (gettoken b es p).ps ∧ (gettoken b es p).ps ≤ es ∧
      ∀ w, t = .word w → WordAt b (gettoken b es p).q (gettoken b es p).eq w := by
  obtain ⟨hle, htoks⟩ := skipWhite_spec (b := b) hp
  set s := skipWhite b es p with hs
  have hlt : s < es := by
    by_contra hge
    rw [tokens_of_le (show es ≤ s by omega)] at htoks
    rw [← htoks] at ht
    cases ht
  obtain ⟨t', ht', hcode, hlt', hle', -, hword⟩ := tokens_token h hlt (not_white_skipWhite b es p hlt)
  rw [htoks, ht, List.cons.injEq] at ht'
  obtain ⟨rfl, hts⟩ := ht'
  obtain ⟨hle'', htoks''⟩ := skipWhite_spec (b := b) hle'
  simp only [gettoken, ← hs]
  refine ⟨hcode, htoks''.trans hts.symm, ?_, hle'', hword⟩
  have := le_skipWhite b es p
  have := le_skipWhite b es (token b es s).2
  omega

/-- `peek` sees the symbols of the next token, and keeps the tokens. -/
theorem peek_spec (h : CmdLine b es) {p : Nat} (hp : p ≤ es) (cs : List UInt8)
    (hcs : ∀ c ∈ cs, c ∈ symbols) :
    (peek b es p cs).1 = peeks cs (tokens b es p) ∧ tokens b es (peek b es p cs).2 = tokens b es p ∧
      p ≤ (peek b es p cs).2 ∧ (peek b es p cs).2 ≤ es := by
  obtain ⟨hle, htoks⟩ := skipWhite_spec (b := b) hp
  refine ⟨?_, htoks, le_skipWhite b es p, hle⟩
  simp only [peek]
  rcases Nat.lt_or_ge (skipWhite b es p) es with hlt | hge
  · obtain ⟨t, ht, -, -, -, hsw, -⟩ := tokens_token h hlt (not_white_skipWhite b es p hlt)
    rw [← htoks, ht, peeks, ← hsw cs hcs, decide_eq_true (h.ne _ hlt), Bool.true_and]
  · have hes : skipWhite b es p = es := by omega
    rw [← htoks, hes, h.nul, tokens_of_le le_rfl]
    rfl

/-- `peek(ps, es, "")` reaches `es` exactly when no token is left. -/
theorem peek_nil_eq_iff (h : CmdLine b es) {p : Nat} (hp : p ≤ es) :
    (peek b es p []).2 = es ↔ tokens b es p = [] :=
  ⟨tokens_nil_of_skipWhite hp, skipWhite_eq_of_nil h hp⟩

end Line

end Xv6.User.Sh
