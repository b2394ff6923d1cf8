import Xv6.User.Sh.Complete

/-!
# `parsecmd` and `nulterminate` (`user/sh.c`)

`parsecmd_accepts_grammar`: on every NUL-terminated command line, `parsecmd`
returns exactly when the grammar derives the line's tokens, and then returns
the derivation; otherwise it panics. It rests on `parse_sound` and
`parse_complete` for `parseline`, and on what `nulterminate` does:

* `Nuls b b'`: `b'` is `b` with some bytes that end a WORD set to NUL.
* `nulterminate_spec`: on a tree whose pointers stand for WORDs of the line,
  `nulterminate` succeeds, only writes NULs over bytes that end WORDs, and
  leaves a NUL at the end of every WORD of the tree.
* `Rep.read`: a tree whose pointers point at its WORDs as strings reads back
  as its command; `nulterminate_read` puts the two together.
-/

namespace Xv6.User.Sh

open Xv6.Lib

variable {n : Nat}

/-! ## NULs over the ends of WORDs -/

/-- `b'` is `b` with some bytes that end a WORD set to NUL. -/
def Nuls (b b' : Bytes n) : Prop := ∀ i, b'.get i = b.get i ∨ (b'.get i = 0 ∧ Stop (b.get i))

section Nuls

variable {b b₁ b₂ : Bytes n}

theorem Nuls.refl (b : Bytes n) : Nuls b b := fun _ => .inl rfl

theorem Nuls.trans (h₁ : Nuls b b₁) (h₂ : Nuls b₁ b₂) : Nuls b b₂ := by
  intro i
  rcases h₂ i with h | ⟨h0, hs⟩
  · rw [h]
    exact h₁ i
  · -- the byte was a stop in `b₁`, so it was one in `b` or a NUL put there
    rcases h₁ i with h' | ⟨h0', hs'⟩
    · exact .inr ⟨h0, h' ▸ hs⟩
    · exact .inr ⟨h0, hs'⟩

/-- A NUL stays a NUL. -/
theorem Nuls.zero (h : Nuls b b₁) {i : Nat} (hz : b.get i = 0) : b₁.get i = 0 := by
  rcases h i with h' | ⟨h0, -⟩
  · rw [h', hz]
  · exact h0

/-- A byte that ends a WORD still ends one. -/
theorem Nuls.stop (h : Nuls b b₁) {i : Nat} (hs : Stop (b.get i)) : Stop (b₁.get i) := by
  rcases h i with h' | ⟨h0, -⟩
  · rwa [h']
  · exact .inl h0

/-- Writing a NUL over a byte that ends a WORD. -/
theorem Nuls.set {e : Nat} (hs : Stop (b.get e)) : Nuls b (b.set e 0) := by
  intro i
  by_cases hi : e = i
  · subst hi
    by_cases he : e < n
    · exact .inr ⟨Bytes.get_set_self b he 0, hs⟩
    · exact .inl (by simp [Bytes.get, he])
  · exact .inl (Bytes.get_set_of_ne b hi 0)

end Nuls

/-- A WORD whose end has become a NUL is a string. -/
theorem WordAt.cstring {b b' : Bytes n} {q e : Nat} {w : List UInt8} (hw : WordAt b q e w)
    (hb : Nuls b b') (hz : b'.get e = 0) : b'.cstring q = .ok w := by
  -- the bytes of the WORD do not end a WORD, so none of them was written
  have hword : b'.slice q w.length = w := by
    refine (Bytes.slice_congr fun k hk => ?_).trans hw.slice
    have hk' : b.get (q + k) ∈ w := hw.slice ▸ List.mem_map.mpr ⟨k, List.mem_range.mpr hk, rfl⟩
    rcases hb (q + k) with h | ⟨-, hs⟩
    · exact h
    · exact absurd hs (hw.word _ hk')
  have hslice : b'.slice q (w.length + 1) = w ++ [0] := by
    rw [Bytes.slice_add, hword, Bytes.slice_succ, Bytes.slice_zero, hw.len, hz]
  have hnz : 0 ∉ w := fun h0 => hw.word 0 h0 (.inl rfl)
  exact Bytes.cstring_of_slice w hslice hnz (hw.len ▸ hw.lt)

/-! ## `nulterminate` -/

section Nulterminate

variable {b₀ : Bytes n}

/-- The loop over `argv` writes a NUL at the end of each WORD. -/
theorem nulArgs_spec {argv eargv : Args} {ws : List (List UInt8)} :
    ∀ {i : Nat} (b : Bytes n), ArgsFrom (WordAt b₀) argv eargv i ws → Nuls b₀ b →
      ∃ b', nulArgs b argv eargv i = .ok b' ∧ Nuls b b' ∧
        ArgsFrom (fun _ e _ => b'.get e = 0) argv eargv i ws := by
  induction ws with
  | nil =>
    -- the null pointer after the WORDs ends the loop
    rintro i b ⟨hi, hnull⟩ -
    refine ⟨b, ?_, Nuls.refl b, hi, hnull⟩
    simp only [nulArgs, dif_pos hi, hnull]
  | cons w ws ih =>
    rintro i b ⟨hi, q, e, hq, he, hw, hrest⟩ hb
    have hs : Stop (b.get e) := hb.stop hw.stop
    obtain ⟨b', hb', hn, hargs⟩ := ih (b.set e 0) hrest (hb.trans (Nuls.set hs))
    refine ⟨b', ?_, (Nuls.set hs).trans hn,
      hi, q, e, hq, he, hn.zero (Bytes.get_set_self b hw.lt 0), hargs⟩
    rw [nulArgs, dif_pos hi]
    simp only [hq, he, bind, Except.bind, Bytes.store_of_lt hw.lt]
    exact hb'

/-- What `nulterminate` does to a tree on `b`, for each `b` reached from `b₀`. -/
def NulsDone (b₀ : Bytes n) (c : Cmd) (t : Ast) : Prop :=
  ∀ b, Nuls b₀ b → ∃ b', nulterminate b c = .ok b' ∧ Nuls b b' ∧ Rep (fun _ e _ => b'.get e = 0) c t

/-- The two subtrees of a pipe or a list, the left one first. -/
theorem nulterminate_two {l r : Cmd} {tl tr : Ast} (hl : NulsDone b₀ l tl) (hr : NulsDone b₀ r tr)
    (b : Bytes n) (hb : Nuls b₀ b) :
    ∃ b', (nulterminate b l >>= fun b₁ => nulterminate b₁ r) = .ok b' ∧ Nuls b b' ∧
      Rep (fun _ e _ => b'.get e = 0) l tl ∧ Rep (fun _ e _ => b'.get e = 0) r tr := by
  obtain ⟨b₁, h₁, hn₁, hrep₁⟩ := hl b hb
  obtain ⟨b₂, h₂, hn₂, hrep₂⟩ := hr b₁ (hb.trans hn₁)
  refine ⟨b₂, ?_, hn₁.trans hn₂, hrep₁.mono fun _ _ _ h => hn₂.zero h, hrep₂⟩
  rw [h₁]
  exact h₂

/-- On a tree whose pointers stand for WORDs of `b₀`, `nulterminate` writes
NULs only over bytes that end WORDs, and leaves one at the end of every WORD of
the tree. -/
theorem nulterminate_spec : ∀ {c : Cmd} {t : Ast}, Rep (WordAt b₀) c t → NulsDone b₀ c t := by
  intro c
  induction c with
  | exec argv eargv =>
    intro t hc b hb
    cases t <;> simp only [Rep] at hc
    exact nulArgs_spec b hc hb
  | redir c file efile mode fd ih =>
    intro t hc b hb
    cases t <;> simp only [Rep] at hc
    obtain ⟨hc, hw, hmode, hfd⟩ := hc
    obtain ⟨b₁, h₁, hn₁, hrep₁⟩ := ih hc b hb
    -- the file's WORD ends at `efile`, which the subtree has left a stop
    have hs : Stop (b₁.get efile) := (hb.trans hn₁).stop hw.stop
    refine ⟨b₁.set efile 0, ?_, hn₁.trans (Nuls.set hs),
      hrep₁.mono fun _ _ _ h => (Nuls.set hs).zero h, Bytes.get_set_self _ hw.lt 0, hmode, hfd⟩
    simp only [nulterminate, bind, Except.bind, h₁]
    exact Bytes.store_of_lt hw.lt 0
  | pipe l r ihl ihr =>
    intro t hc b hb
    cases t <;> simp only [Rep] at hc
    exact nulterminate_two (ihl hc.1) (ihr hc.2) b hb
  | list l r ihl ihr =>
    intro t hc b hb
    cases t <;> simp only [Rep] at hc
    exact nulterminate_two (ihl hc.1) (ihr hc.2) b hb
  | back c ih =>
    intro t hc b hb
    cases t <;> simp only [Rep] at hc
    exact ih hc b hb

end Nulterminate

/-! ## Reading the tree back -/

section Read

variable {b : Bytes n} {W W' : Nat → Nat → List UInt8 → Prop}

theorem ArgsFrom.and {argv eargv : Args} :
    ∀ {i : Nat} {ws : List (List UInt8)}, ArgsFrom W argv eargv i ws → ArgsFrom W' argv eargv i ws →
      ArgsFrom (fun q e w => W q e w ∧ W' q e w) argv eargv i ws := by
  intro i ws
  induction ws generalizing i with
  | nil => exact fun h _ => h
  | cons w ws ih =>
    rintro ⟨hi, q, e, hq, he, hw, hrest⟩ ⟨_, q', e', hq', he', hw', hrest'⟩
    obtain rfl : q = q' := Option.some.inj (hq.symm.trans hq')
    obtain rfl : e = e' := Option.some.inj (he.symm.trans he')
    exact ⟨hi, q, e, hq, he, ⟨hw, hw'⟩, ih hrest hrest'⟩

/-- Two facts of each WORD of a tree are one fact of each. -/
theorem Rep.and : ∀ {c : Cmd} {t : Ast}, Rep W c t → Rep W' c t →
    Rep (fun q e w => W q e w ∧ W' q e w) c t := by
  intro c
  induction c with
  | exec argv eargv =>
    intro t h h'
    cases t <;> simp only [Rep] at h h' ⊢
    exact h.and h'
  | redir c file efile mode fd ih =>
    intro t h h'
    cases t <;> simp only [Rep] at h h' ⊢
    exact ⟨ih h.1 h'.1, ⟨h.2.1, h'.2.1⟩, h.2.2⟩
  | pipe l r ihl ihr =>
    intro t h h'
    cases t <;> simp only [Rep] at h h' ⊢
    exact ⟨ihl h.1 h'.1, ihr h.2 h'.2⟩
  | list l r ihl ihr =>
    intro t h h'
    cases t <;> simp only [Rep] at h h' ⊢
    exact ⟨ihl h.1 h'.1, ihr h.2 h'.2⟩
  | back c ih =>
    intro t h h'
    cases t <;> simp only [Rep] at h h' ⊢
    exact ih h h'

theorem readArgs_of_argsFrom {argv eargv : Args} :
    ∀ {i : Nat} {ws : List (List UInt8)}, ArgsFrom (fun q _ w => b.cstring q = .ok w) argv eargv i ws →
      readArgs b argv i = .ok ws := by
  intro i ws
  induction ws generalizing i with
  | nil =>
    rintro ⟨hi, hnull⟩
    simp only [readArgs, dif_pos hi, hnull]
  | cons w ws ih =>
    rintro ⟨hi, q, e, hq, -, hw, hrest⟩
    rw [readArgs, dif_pos hi]
    simp only [hq, bind, Except.bind, hw, ih hrest]
    rfl

/-- A tree whose pointers point at its WORDs as strings reads back as its command. -/
theorem Rep.read : ∀ {c : Cmd} {t : Ast}, Rep (fun q _ w => b.cstring q = .ok w) c t → c.read b = .ok t := by
  intro c
  induction c with
  | exec argv eargv =>
    intro t h
    cases t <;> simp only [Rep] at h
    simp only [Cmd.read, readArgs_of_argsFrom h]
    rfl
  | redir c file efile mode fd ih =>
    intro t h
    cases t <;> simp only [Rep] at h
    obtain ⟨hc, hw, rfl, rfl⟩ := h
    simp only [Cmd.read, ih hc, hw, bind, Except.bind]
    rfl
  | pipe l r ihl ihr =>
    intro t h
    cases t <;> simp only [Rep] at h
    simp only [Cmd.read, ihl h.1, ihr h.2, bind, Except.bind]
    rfl
  | list l r ihl ihr =>
    intro t h
    cases t <;> simp only [Rep] at h
    simp only [Cmd.read, ihl h.1, ihr h.2, bind, Except.bind]
    rfl
  | back c ih =>
    intro t h
    cases t <;> simp only [Rep] at h
    simp only [Cmd.read, ih h]
    rfl

end Read

/-- After `nulterminate`, a tree that `parsecmd` reads off the line `b` reads
back as its command, and the buffer is the line with NULs at ends of WORDs. -/
theorem nulterminate_read {b : Bytes n} {c : Cmd} {t : Ast} (hc : Rep (WordAt b) c t) :
    ∃ b', nulterminate b c = .ok b' ∧ Nuls b b' ∧ c.read b' = .ok t := by
  obtain ⟨b', hb', hn, hz⟩ := nulterminate_spec hc b (Nuls.refl b)
  exact ⟨b', hb', hn, Rep.read ((hc.and hz).mono fun _ _ _ h => h.1.cstring hn h.2)⟩

/-! ## `parsecmd` -/

section Parsecmd

variable {b : Bytes n} {es : Nat}

/-- What `parsecmd` returns on a line it accepts: the line with NULs at ends
of WORDs, and a tree that reads back there as a derivation of the line. -/
def Accepted (b : Bytes n) (es : Nat) (r : Cmd × Bytes n) : Prop :=
  Nuls b r.2 ∧ ∃ t, Derives .line (tokens b es 0) t ∧ r.1.read r.2 = .ok t

theorem parsecmd_sound (h : CmdLine b es) : Post (· ∈ panics) (Accepted b es) (parsecmd b) := by
  rw [parsecmd, strlen_of_nul h.lt h.nul h.ne 0 (Nat.zero_le _), Nat.sub_zero]
  simp only [bind, Except.bind]
  refine Post.bind ((parse_sound h (4 * es + 4)).1 0 (Nat.zero_le _) (by omega)) ?_
  rintro ⟨c, p⟩ ⟨ts, t, hd, hrep, htoks, -, hle⟩
  dsimp only at hrep htoks hle ⊢
  by_cases hend : tokens b es p = []
  · -- no tokens are left: the tree is written out
    rw [if_neg (by rw [(peek_nil_eq_iff h hle).mpr hend]; exact fun h => h rfl)]
    obtain ⟨b', hb', hn, hread⟩ := nulterminate_read hrep
    rw [hb']
    refine ⟨hn, t, ?_, hread⟩
    rwa [htoks, hend, List.append_nil]
  · rw [if_pos (fun h' => hend ((peek_nil_eq_iff h hle).mp h'))]
    simp [Post, panics]

theorem parsecmd_complete (h : CmdLine b es) {t : Ast} (hd : Derives .line (tokens b es 0) t) :
    ∃ c b', parsecmd b = .ok (c, b') ∧ c.read b' = .ok t := by
  obtain ⟨⟨c, p⟩, hr, hrep, htoks, -, hle⟩ := parse_complete h hd (4 * es + 4) 0 []
    (Nat.zero_le _) (List.append_nil _).symm (fun _ h => by cases h) (by simp [Cat.slack])
  dsimp only at hrep htoks hle
  obtain ⟨b', hb', -, hread⟩ := nulterminate_read hrep
  refine ⟨c, b', ?_, hread⟩
  rw [parsecmd, strlen_of_nul h.lt h.nul h.ne 0 (Nat.zero_le _), Nat.sub_zero]
  simp only [parseCat] at hr
  simp only [bind, Except.bind, hr]
  rw [if_neg (by rw [(peek_nil_eq_iff h hle).mpr htoks]; exact fun h => h rfl), hb']
  rfl

/-- The shell's parser accepts exactly its grammar. On a command line `b` of
`es` bytes before its NUL, `parsecmd` fails only by one of the panics of
`sh.c` (so it never stores past `MAXARGS`), and only on a line that the
grammar does not derive. What it returns on the others is the line with NULs
written over bytes that end WORDs, and a tree that reads back there as a
derivation of the line; and for each derivation of the line, that is the tree
it returns. -/
theorem parsecmd_accepts_grammar (h : CmdLine b es) :
    (∀ e, parsecmd b = .error e → e ∈ panics ∧ ¬ ∃ t, Derives .line (lex (b.slice 0 es)) t) ∧
    (∀ c b', parsecmd b = .ok (c, b') →
      Nuls b b' ∧ ∃ t, Derives .line (lex (b.slice 0 es)) t ∧ c.read b' = .ok t) ∧
    (∀ t, Derives .line (lex (b.slice 0 es)) t → ∃ c b', parsecmd b = .ok (c, b') ∧ c.read b' = .ok t) := by
  have hlex : lex (b.slice 0 es) = tokens b es 0 := by rw [tokens, Nat.sub_zero]
  rw [hlex]
  refine ⟨fun e he => ⟨(parsecmd_sound h).of_error he, ?_⟩,
    fun c b' hok => (parsecmd_sound h).of_ok hok, fun t hd => parsecmd_complete h hd⟩
  -- a derivation would make `parsecmd` return
  rintro ⟨t, hd⟩
  obtain ⟨c, b', hok, -⟩ := parsecmd_complete h hd
  rw [hok] at he
  cases he

/-- `ls > f`: the exec of `ls` inside the redirection of its standard output
to `f`, created or truncated. -/
theorem parsecmd_ls_redirect :
    ∃ c b', parsecmd ((Bytes.zero : Bytes 7).setList 0 [108, 115, 32, 62, 32, 102, 0]) = .ok (c, b') ∧
      c.read b' = .ok (.redir (.exec [[108, 115]]) [102] (oWronly ||| oCreate ||| oTrunc) 1) := by
  have hlex : lex (((Bytes.zero : Bytes 7).setList 0 [108, 115, 32, 62, 32, 102, 0]).slice 0 6) =
      redirToks [] ++ itemToks [([108, 115], [⟨.gt, [102]⟩])] ++ List.replicate 0 .amp := by
    decide
  have hd := Derives.back 0 (Derives.exec (Derives.simple [] [([108, 115], [⟨.gt, [102]⟩])] (by decide)))
  rw [← hlex] at hd
  exact (parsecmd_accepts_grammar ⟨by decide, by decide, by decide⟩).2.2 _ hd

end Parsecmd

end Xv6.User.Sh
