import Mathlib.Data.Fintype.BigOperators
import Xv6.Kernel.Fs.Sysfile
import Xv6.Lib.Count

/-!
# References to files and pipes (`kernel/file.c`, `kernel/pipe.c`)

A `struct file` is shared by the descriptors that name it, and `f->ref` is
meant to count them: `filealloc` hands a file out with one reference,
`fdalloc` gives it to a descriptor, `sys_dup` and `fork` add one for each new
descriptor, and `fileclose` takes one away, closing the pipe end or dropping
the inode with the last. `FileInv` is that bookkeeping at the boundary of
every call, with what it implies for the counts `Ksys` keeps: an inode
reference put in a file is given back once, each end of a pipe is closed
once, and a pipe is freed once, after both of its ends.

Inside a call the count is off by the references the call holds in its own
variables (`f`, `rf`, `wf`). `FileInvAt s held` is the invariant with those
made explicit as the multiset `held`: each step of a call moves a reference
between a descriptor, `held` and nothing, and each kind of move is one lemma
below. A call's proof is the sequence of its moves, ending at `held = 0`.
-/

namespace Xv6.Kernel

open Xv6.Lib

/-! ## Who holds a file -/

/-- The descriptors of `p` that name `f`. -/
def Proc.holds (p : Proc) (f : Fptr) : Nat := count p.ofile (some f)

/-- The descriptors of a slot of the process table that name `f`: none when
the slot is free. -/
def Proc.slotHolds : Option Proc → Fptr → Nat
  | none, _ => 0
  | some p, f => p.holds f

/-- The pairs `(pid, fd)` whose `proc[pid].ofile[fd]` is `f`. -/
def Ksys.holders (s : Ksys) (f : Fptr) : Nat :=
  (Finset.univ.filter fun x : Fin nProc × Fin noFile =>
    ((s.procs x.1).bind fun p => p.ofile x.2) = some f).card

namespace Ksys

variable {s : Ksys}

theorem holders_eq_sum (s : Ksys) (f : Fptr) :
    s.holders f = ∑ pid, Proc.slotHolds (s.procs pid) f := by
  rw [holders, Finset.card_filter, Fintype.sum_prod_type]
  refine Finset.sum_congr rfl fun pid _ => ?_
  cases hp : s.procs pid with
  | none => simp [hp, Proc.slotHolds]
  | some p =>
    rw [Proc.slotHolds, Proc.holds, count, Finset.card_filter]
    simp only [hp, Option.bind_some]

/-- Setting one slot of the process table trades its holds for the new ones. -/
theorem holders_setProc (s : Ksys) (pid : Fin nProc) (o : Option Proc) (f : Fptr) :
    (s.setProc pid o).holders f + Proc.slotHolds (s.procs pid) f =
      s.holders f + Proc.slotHolds o f := by
  have hrest : ∑ x ∈ Finset.univ.erase pid, Proc.slotHolds ((s.setProc pid o).procs x) f =
      ∑ x ∈ Finset.univ.erase pid, Proc.slotHolds (s.procs x) f := by
    refine Finset.sum_congr rfl fun x hx => ?_
    rw [setProc_procs, Function.update_of_ne (Finset.ne_of_mem_erase hx)]
  rw [holders_eq_sum, holders_eq_sum, ← Finset.sum_erase_add _ _ (Finset.mem_univ pid),
    ← Finset.sum_erase_add _ _ (Finset.mem_univ pid), hrest, setProc_procs,
    Function.update_self]
  omega

/-- Only the descriptors are read. -/
theorem holders_congr {s' : Ksys} (h : s'.procs = s.procs) : s'.holders = s.holders := by
  funext f
  unfold holders
  rw [h]

end Ksys

/-- A descriptor filled with `f`: one more hold of `f`, and of no other file. -/
theorem Proc.holds_install {p : Proc} {fd : Fin noFile} {f : Fptr} (h : p.ofile fd = none)
    (g : Fptr) :
    Proc.holds { p with ofile := Function.update p.ofile fd (some f) } g =
      p.holds g + if g = f then 1 else 0 := by
  unfold Proc.holds
  by_cases hgf : g = f
  · subst hgf
    rw [if_pos rfl]
    exact count_update_enter (by rw [h]; simp)
  · rw [if_neg hgf, Nat.add_zero]
    exact count_update_same (by rw [h]; simp [Ne.symm hgf])

/-- A descriptor of `f` cleared: one hold of `f` less. -/
theorem Proc.holds_clear {p : Proc} {fd : Fin noFile} {f : Fptr} (h : p.ofile fd = some f)
    (g : Fptr) :
    Proc.holds { p with ofile := Function.update p.ofile fd none } g +
      (if g = f then 1 else 0) = p.holds g := by
  unfold Proc.holds
  by_cases hgf : g = f
  · subst hgf
    rw [if_pos rfl]
    exact count_update_leave h (by simp)
  · rw [if_neg hgf, Nat.add_zero]
    exact count_update_same (by rw [h]; simp [Ne.symm hgf])

/-- Every descriptor of `p`, in order, read through `filterMap`: the loops of
`fork` and `exit` go over them so. -/
theorem Proc.count_filterMap (p : Proc) (g : Fptr) :
    ((List.finRange noFile).filterMap p.ofile).count g = p.holds g := by
  rw [List.count_filterMap, List.countP_eq_length_filter, Proc.holds, count, Fin.univ_def,
    Finset.card, Finset.filter_val]
  simp only [Multiset.filter_coe, Multiset.coe_card, Bool.beq_eq_decide_eq]

/-! ## Pipes and inodes behind the files -/

/-- Whether end `w` of a pipe is open: `pi->writeopen` for the write end,
`pi->readopen` for the read end. -/
def PipeEnds.isOpen (e : PipeEnds) (w : Bool) : Bool := if w then e.writeopen else e.readopen

/-- End `w` of pipe `pi` is open: the pipe has its page and the end is not closed. -/
def Ksys.endOpen (s : Ksys) (pi : Nat) (w : Bool) : Bool :=
  match s.pipes pi with
  | none => false
  | some e => e.isOpen w

/-- The inode references a file holds. -/
def FileKind.inodeRefs : FileKind → Nat
  | .inode _ => 1
  | _ => 0

/-- What the files refer to agrees with the pipes and with the counts:
a free file refers to nothing; the inode references put in a file and not
given back are the one it holds; the open pipe ends are those of the files,
each of one file; pages the kernel has not handed out yet belong to no
pipe; an end was closed once if it is not open, and a pipe freed once if it
has no page, and neither happened to a pipe not yet made. -/
structure KindInv (s : Ksys) : Prop where
  none_of_free : ∀ f, (s.ftable f).ref = 0 → (s.ftable f).kind = .none
  inode : ∀ f, s.iopens f = s.iputs f + (s.ftable f).kind.inodeRefs
  end_open : ∀ f pi w, (s.ftable f).kind = .pipe pi w → s.endOpen pi w = true
  end_held : ∀ pi w, s.endOpen pi w = true → ∃ f, (s.ftable f).kind = .pipe pi w
  end_unique : ∀ f g pi w, (s.ftable f).kind = .pipe pi w → (s.ftable g).kind = .pipe pi w →
    f = g
  fresh : ∀ pi, s.nextPipe ≤ pi → s.pipes pi = none
  closes : ∀ pi w,
    s.pcloses (pi, w) = if pi < s.nextPipe ∧ s.endOpen pi w = false then 1 else 0
  frees : ∀ pi, s.pfrees pi = if pi < s.nextPipe ∧ s.pipes pi = none then 1 else 0

/-- `f->ref` counts the descriptors that name `f` and the references `held`
by the call in progress. -/
structure FileInvAt (s : Ksys) (held : Multiset Fptr) : Prop where
  ref : ∀ f, (s.ftable f).ref = s.holders f + held.count f
  kinds : KindInv s

/-- The invariant at a call boundary: every reference is a descriptor's. -/
def FileInv (s : Ksys) : Prop := FileInvAt s 0

/-! ## What the file operations do -/

namespace Ksys

variable (s : Ksys) (f : Fptr) (e : File)

@[simp] theorem setFile_procs : (s.setFile f e).procs = s.procs := rfl
@[simp] theorem setFile_pipes : (s.setFile f e).pipes = s.pipes := rfl
@[simp] theorem setFile_nextPipe : (s.setFile f e).nextPipe = s.nextPipe := rfl
@[simp] theorem setFile_iopens : (s.setFile f e).iopens = s.iopens := rfl
@[simp] theorem setFile_iputs : (s.setFile f e).iputs = s.iputs := rfl
@[simp] theorem setFile_pcloses : (s.setFile f e).pcloses = s.pcloses := rfl
@[simp] theorem setFile_pfrees : (s.setFile f e).pfrees = s.pfrees := rfl
@[simp] theorem endOpen_setFile : (s.setFile f e).endOpen = s.endOpen := rfl

end Ksys

section Ops

variable {sb : Superblock} {s s' : Ksys} {f : Fptr}

theorem filealloc_eq (h : filealloc s = some (f, s')) :
    (s.ftable f).ref = 0 ∧ s' = s.setFile f { s.ftable f with ref := 1 } := by
  simp only [filealloc, Option.map_eq_some_iff, Prod.mk.injEq] at h
  obtain ⟨g, hg, rfl, rfl⟩ := h
  exact ⟨by simpa using List.find?_some hg, rfl⟩

theorem fdalloc_eq {p p' : Proc} {fd : Fin noFile} (h : fdalloc p f = some (fd, p')) :
    p.ofile fd = none ∧ p' = { p with ofile := Function.update p.ofile fd (some f) } := by
  simp only [fdalloc, Option.map_eq_some_iff, Prod.mk.injEq] at h
  obtain ⟨g, hg, rfl, rfl⟩ := h
  exact ⟨by simpa using List.find?_some hg, rfl⟩

theorem filedup_eq (h : filedup s f = .ok s') :
    1 ≤ (s.ftable f).ref ∧ s' = s.setFile f { s.ftable f with ref := (s.ftable f).ref + 1 } := by
  unfold filedup at h
  by_cases h1 : (s.ftable f).ref < 1
  · rw [if_pos h1] at h
    cases h
  · rw [if_neg h1] at h
    cases h
    exact ⟨by omega, rfl⟩

/-- What `pipeclose(pi, w)` does, seen from outside: end `w` of `pi` closed
and counted, the page freed and counted when it was the last end, and
nothing else changed. -/
structure PipeClosed (t t' : Ksys) (pi : Nat) (w : Bool) : Prop where
  ftable : t'.ftable = t.ftable
  procs : t'.procs = t.procs
  nextPipe : t'.nextPipe = t.nextPipe
  iopens : t'.iopens = t.iopens
  iputs : t'.iputs = t.iputs
  pcloses : t'.pcloses = Function.update t.pcloses (pi, w) (t.pcloses (pi, w) + 1)
  endOpen : ∀ pi' w', t'.endOpen pi' w' = (t.endOpen pi' w' && !(pi' == pi && w' == w))
  pipes : ∀ pi', pi' ≠ pi → t'.pipes pi' = t.pipes pi'
  pfrees : ∀ pi', t'.pfrees pi' = t.pfrees pi' + if pi' = pi ∧ t'.pipes pi = none then 1 else 0

theorem pipeclose_spec {t t' : Ksys} {pi : Nat} {w : Bool} (h : pipeclose t pi w = .ok t') :
    PipeClosed t t' pi w := by
  unfold pipeclose at h
  cases he : t.pipes pi with
  | none =>
    rw [he] at h
    cases h
  | some e =>
    rw [he] at h
    simp only at h
    -- `e'`: the ends once `w` is closed
    generalize he' : (if w then { e with writeopen := false } else { e with readopen := false } :
      PipeEnds) = e' at h
    have hiso : ∀ w', e'.isOpen w' = (e.isOpen w' && !(w' == w)) := by
      subst he'
      intro w'
      cases w <;> cases w' <;> simp [PipeEnds.isOpen]
    split_ifs at h with hfree <;> cases h
    · -- the last end: the page goes
      have hclosed : ∀ w', e'.isOpen w' = false := fun w' => by
        cases w' <;> simp_all [PipeEnds.isOpen]
      refine ⟨rfl, rfl, rfl, rfl, rfl, rfl, fun pi' w' => ?_, fun pi' hp => ?_, fun pi' => ?_⟩
      · by_cases hp : pi' = pi
        · subst hp
          have hw := hiso w'
          rw [hclosed] at hw
          simp [Ksys.endOpen, he, hw]
        · simp [Ksys.endOpen, hp]
      · simp [hp]
      · by_cases hp : pi' = pi
        · subst hp
          simp
        · simp [hp]
    · -- one end left open
      refine ⟨rfl, rfl, rfl, rfl, rfl, rfl, fun pi' w' => ?_, fun pi' hp => ?_, fun pi' => ?_⟩
      · by_cases hp : pi' = pi
        · subst hp
          simp [Ksys.endOpen, he, hiso]
        · simp [Ksys.endOpen, hp]
      · simp [hp]
      · simp

/-- `fileclose(f)` that returns: a reference dropped, or the last one, after
which the file refers to nothing and what it referred to is let go. -/
theorem fileclose_cases (h : fileclose sb s f = .ok s') :
    (1 < (s.ftable f).ref ∧ s' = s.setFile f { s.ftable f with ref := (s.ftable f).ref - 1 }) ∨
    ((s.ftable f).ref = 1 ∧
      (((s.ftable f).kind = .none ∧ s' = s.setFile f ⟨0, .none⟩) ∨
       (∃ pi w, (s.ftable f).kind = .pipe pi w ∧
          pipeclose (s.setFile f ⟨0, .none⟩) pi w = .ok s') ∨
       (∃ ip k, (s.ftable f).kind = .inode ip ∧
          s' = { (s.setFile f ⟨0, .none⟩).setKfs k with
            iputs := Function.update s.iputs f (s.iputs f + 1) }))) := by
  unfold fileclose at h
  by_cases h1 : (s.ftable f).ref < 1
  · rw [if_pos h1] at h
    cases h
  rw [if_neg h1] at h
  by_cases h2 : 0 < (s.ftable f).ref - 1
  · rw [if_pos h2] at h
    cases h
    exact .inl ⟨by omega, rfl⟩
  rw [if_neg h2] at h
  refine .inr ⟨by omega, ?_⟩
  cases hk : (s.ftable f).kind with
  | none =>
    rw [hk] at h
    cases h
    exact .inl ⟨rfl, rfl⟩
  | pipe pi w =>
    rw [hk] at h
    exact .inr (.inl ⟨pi, w, rfl, h⟩)
  | inode ip =>
    rw [hk] at h
    cases hput : (s.setFile f ⟨0, .none⟩).kfs.iput sb ip with
    | error msg =>
      simp [hput, bind, Except.bind] at h
    | ok k =>
      simp only [hput, bind, Except.bind, pure, Except.pure, Except.ok.injEq] at h
      exact .inr (.inr ⟨ip, k, rfl, h.symm⟩)

/-- What `fileclose` does to the counts: one reference of `f` less. -/
theorem fileclose_ref (h : fileclose sb s f = .ok s') (g : Fptr) :
    (s'.ftable g).ref + (if g = f then 1 else 0) = (s.ftable g).ref := by
  by_cases hgf : g = f
  · subst hgf
    rw [if_pos rfl]
    rcases fileclose_cases h with ⟨h1, rfl⟩ | ⟨h1, ⟨-, rfl⟩ | ⟨pi, w, -, hc⟩ | ⟨ip, k, -, rfl⟩⟩
    · simp only [Ksys.setFile_ftable, Function.update_self]
      omega
    · simp [h1]
    · rw [(pipeclose_spec hc).ftable]
      simp [h1]
    · show (Function.update s.ftable g ⟨0, .none⟩ g).ref + 1 = _
      simp [h1]
  · rw [if_neg hgf, Nat.add_zero]
    rcases fileclose_cases h with ⟨-, rfl⟩ | ⟨-, ⟨-, rfl⟩ | ⟨pi, w, -, hc⟩ | ⟨ip, k, -, rfl⟩⟩
    · simp [Function.update_of_ne hgf]
    · simp [Function.update_of_ne hgf]
    · rw [(pipeclose_spec hc).ftable]
      simp [Function.update_of_ne hgf]
    · show (Function.update s.ftable f ⟨0, .none⟩ g).ref = _
      rw [Function.update_of_ne hgf]

theorem filedup_procs (h : filedup s f = .ok s') : s'.procs = s.procs := by
  obtain ⟨-, rfl⟩ := filedup_eq h
  rfl

/-- `filedup` reads and writes the file table only. -/
theorem filedup_setProc {pid : Fin nProc} {o : Option Proc}
    (h : filedup (s.setProc pid o) f = .ok s') :
    ∃ t, filedup s f = .ok t ∧ s' = t.setProc pid o := by
  obtain ⟨h1, rfl⟩ := filedup_eq h
  refine ⟨s.setFile f { s.ftable f with ref := (s.ftable f).ref + 1 }, ?_, rfl⟩
  have h1' : ¬ (s.ftable f).ref < 1 := by
    change 1 ≤ (s.ftable f).ref at h1
    omega
  unfold filedup
  rw [if_neg h1']

/-- `fileclose` leaves the descriptors alone. -/
theorem fileclose_procs (h : fileclose sb s f = .ok s') : s'.procs = s.procs := by
  rcases fileclose_cases h with ⟨-, rfl⟩ | ⟨-, ⟨-, rfl⟩ | ⟨pi, w, -, hc⟩ | ⟨ip, k, -, rfl⟩⟩
  · rfl
  · rfl
  · exact (pipeclose_spec hc).procs
  · rfl

end Ops

/-! ## What the files refer to, across each operation -/

namespace KindInv

variable {sb : Superblock} {s s' : Ksys} {f : Fptr}

/-- A file's count changed and what it refers to kept; a count reaching `0`
only on a file that refers to nothing. -/
theorem setFile (hI : KindInv s) {e : File} (hk : e.kind = (s.ftable f).kind)
    (hz : e.ref = 0 → e.kind = .none) : KindInv (s.setFile f e) := by
  have hkind : ∀ g, ((s.setFile f e).ftable g).kind = (s.ftable g).kind := by
    intro g
    by_cases hgf : g = f
    · subst hgf
      simp [hk]
    · simp [Function.update_of_ne hgf]
  refine ⟨fun g hg => ?_, fun g => ?_, fun g pi w hg => ?_, fun pi w hpw => ?_,
    fun g g' pi w hg hg' => ?_, hI.fresh, hI.closes, hI.frees⟩
  · by_cases hgf : g = f
    · subst hgf
      simp only [Ksys.setFile_ftable, Function.update_self] at hg ⊢
      exact hz hg
    · simp only [Ksys.setFile_ftable, Function.update_of_ne hgf] at hg ⊢
      exact hI.none_of_free g hg
  · rw [hkind]
    exact hI.inode g
  · rw [hkind] at hg
    exact hI.end_open g pi w hg
  · obtain ⟨g, hg⟩ := hI.end_held pi w hpw
    exact ⟨g, by rw [hkind]; exact hg⟩
  · rw [hkind] at hg hg'
    exact hI.end_unique g g' pi w hg hg'

/-- The descriptors are not read. -/
theorem setProc (hI : KindInv s) (pid : Fin nProc) (o : Option Proc) :
    KindInv (s.setProc pid o) :=
  ⟨hI.none_of_free, hI.inode, hI.end_open, hI.end_held, hI.end_unique, hI.fresh, hI.closes,
    hI.frees⟩

/-- Nor is the disk. -/
theorem setKfs (hI : KindInv s) (k : Kfs) : KindInv (s.setKfs k) :=
  ⟨hI.none_of_free, hI.inode, hI.end_open, hI.end_held, hI.end_unique, hI.fresh, hI.closes,
    hI.frees⟩

/-- A pipe end that is open lies below the next page. -/
theorem lt_of_endOpen (hI : KindInv s) {pi : Nat} {w : Bool} (h : s.endOpen pi w = true) :
    pi < s.nextPipe := by
  by_contra hge
  have hnone := hI.fresh pi (by omega)
  simp [Ksys.endOpen, hnone] at h

/-- The last reference to a pipe end dropped: `pipeclose` on the end of `f`,
which now refers to nothing. -/
theorem pipeclose (hI : KindInv s) {pi : Nat} {w : Bool} (hk : (s.ftable f).kind = .pipe pi w)
    (h : Xv6.Kernel.pipeclose (s.setFile f ⟨0, .none⟩) pi w = .ok s') : KindInv s' := by
  have hc := pipeclose_spec h
  have hopen : s.endOpen pi w = true := hI.end_open f pi w hk
  have hlt : pi < s.nextPipe := hI.lt_of_endOpen hopen
  -- the files: `f` released, the others as they were
  have hft : ∀ g, s'.ftable g = if g = f then ⟨0, .none⟩ else s.ftable g := by
    intro g
    rw [hc.ftable, Ksys.setFile_ftable, Function.update_apply]
  have hend : ∀ pi' w', s'.endOpen pi' w' = (s.endOpen pi' w' && !(pi' == pi && w' == w)) :=
    hc.endOpen
  refine ⟨fun g hg => ?_, fun g => ?_, fun g pi' w' hg => ?_, fun pi' w' hpw => ?_,
    fun g g' pi' w' hg hg' => ?_, fun pi' hpi' => ?_, fun pi' w' => ?_, fun pi' => ?_⟩
  · -- a free file: `f`, or one that was free
    rw [hft] at hg ⊢
    split_ifs at hg ⊢ with hgf
    · rfl
    · exact hI.none_of_free g hg
  · rw [hc.iopens, hc.iputs, hft, Ksys.setFile_iopens, Ksys.setFile_iputs]
    split_ifs with hgf
    · subst hgf
      rw [hI.inode g, hk]
      rfl
    · exact hI.inode g
  · -- a file still on a pipe end is not `f`, so not on `(pi, w)`
    rw [hft] at hg
    split_ifs at hg with hgf
    have hne : ¬ (pi' = pi ∧ w' = w) := by
      rintro ⟨rfl, rfl⟩
      exact hgf (hI.end_unique g f pi' w' hg hk)
    rw [hend, hI.end_open g pi' w' hg]
    rcases not_and_or.mp hne with h1 | h1 <;> simp [h1]
  · rw [hend, Bool.and_eq_true] at hpw
    obtain ⟨hpw, hne⟩ := hpw
    obtain ⟨g, hg⟩ := hI.end_held pi' w' hpw
    have hgf : g ≠ f := by
      rintro rfl
      rw [hk] at hg
      cases hg
      simp at hne
    exact ⟨g, by rw [hft, if_neg hgf]; exact hg⟩
  · -- two files on one end: neither is `f`
    rw [hft] at hg hg'
    split_ifs at hg hg'
    exact hI.end_unique g g' pi' w' hg hg'
  · rw [hc.nextPipe, Ksys.setFile_nextPipe] at hpi'
    rw [hc.pipes pi' (by omega), Ksys.setFile_pipes]
    exact hI.fresh pi' hpi'
  · rw [hc.pcloses, hc.nextPipe, hend, Ksys.setFile_pcloses, Ksys.setFile_nextPipe]
    by_cases hp : (pi', w') = (pi, w)
    · -- the end closed here: its count goes from `0` to `1`
      obtain ⟨rfl, rfl⟩ := Prod.mk.inj hp
      rw [Function.update_self, hI.closes, hopen]
      simp [hlt]
    · rw [Function.update_of_ne hp, hI.closes]
      have hne : ¬ (pi' = pi ∧ w' = w) := fun ⟨h1, h2⟩ => hp (by rw [h1, h2])
      simp [hne]
  · rw [hc.pfrees, hc.nextPipe, Ksys.setFile_pfrees, Ksys.setFile_nextPipe, hI.frees]
    by_cases hp : pi' = pi
    · subst hp
      have hsome : s.pipes pi' ≠ none := by
        intro h0
        simp [Ksys.endOpen, h0] at hopen
      simp [hsome, hlt]
    · rw [hc.pipes pi' hp, Ksys.setFile_pipes]
      simp [hp]

/-- A file that refers to no pipe gets a new count and a target that is no
pipe either, and the pipes stay as they are; how the inode counts move is
the caller's to say. -/
theorem retag (hI : KindInv s) {e : File} (hold : ∀ pi w, (s.ftable f).kind ≠ .pipe pi w)
    (hnew : ∀ pi w, e.kind ≠ .pipe pi w) (hz : e.ref = 0 → e.kind = .none)
    (hft : s'.ftable = Function.update s.ftable f e) (hpipes : s'.pipes = s.pipes)
    (hnext : s'.nextPipe = s.nextPipe) (hpc : s'.pcloses = s.pcloses) (hpf : s'.pfrees = s.pfrees)
    (hinode : ∀ g, s'.iopens g = s'.iputs g + (s'.ftable g).kind.inodeRefs) : KindInv s' := by
  have hend : s'.endOpen = s.endOpen := by
    funext pi w
    simp only [Ksys.endOpen, hpipes]
  -- the files on pipe ends are the same
  have hpipe : ∀ g pi w, (s'.ftable g).kind = .pipe pi w ↔ (s.ftable g).kind = .pipe pi w := by
    intro g pi w
    rw [hft]
    by_cases hgf : g = f
    · subst hgf
      rw [Function.update_self]
      exact ⟨fun h => absurd h (hnew pi w), fun h => absurd h (hold pi w)⟩
    · rw [Function.update_of_ne hgf]
  refine ⟨fun g hg => ?_, hinode, fun g pi w hg => ?_, fun pi w hpw => ?_,
    fun g g' pi w hg hg' => ?_, fun pi hpi => ?_, fun pi w => ?_, fun pi => ?_⟩
  · rw [hft] at hg ⊢
    by_cases hgf : g = f
    · subst hgf
      rw [Function.update_self] at hg ⊢
      exact hz hg
    · rw [Function.update_of_ne hgf] at hg ⊢
      exact hI.none_of_free g hg
  · rw [hend]
    exact hI.end_open g pi w ((hpipe g pi w).mp hg)
  · rw [hend] at hpw
    obtain ⟨g, hg⟩ := hI.end_held pi w hpw
    exact ⟨g, (hpipe g pi w).mpr hg⟩
  · exact hI.end_unique g g' pi w ((hpipe g pi w).mp hg) ((hpipe g' pi w).mp hg')
  · rw [hpipes]
    exact hI.fresh pi (hnext ▸ hpi)
  · rw [hpc, hnext, hend]
    exact hI.closes pi w
  · rw [hpf, hnext, hpipes]
    exact hI.frees pi

/-- The last reference to an inode dropped: the file refers to nothing and
its inode reference is counted as given back. -/
theorem iput (hI : KindInv s) {ip : Iptr} (hk : (s.ftable f).kind = .inode ip) (k : Kfs) :
    KindInv { (s.setFile f ⟨0, .none⟩).setKfs k with
      iputs := Function.update s.iputs f (s.iputs f + 1) } := by
  refine hI.retag (by rw [hk]; intro pi w h; cases h) (fun _ _ h => by cases h) (fun _ => rfl)
    rfl rfl rfl rfl rfl (fun g => ?_)
  show s.iopens g = Function.update s.iputs f (s.iputs f + 1) g +
    (Function.update s.ftable f ⟨0, .none⟩ g).kind.inodeRefs
  by_cases hgf : g = f
  · subst hgf
    rw [hI.inode g, hk]
    simp [FileKind.inodeRefs]
  · rw [Function.update_of_ne hgf, Function.update_of_ne hgf]
    exact hI.inode g

/-- `sys_open` puts an inode in a file it allocated: one more inode
reference put in. -/
theorem openInode (hI : KindInv s) (hk : (s.ftable f).kind = .none) (ip : Iptr)
    (pid : Fin nProc) (o : Option Proc) :
    KindInv { (s.setFile f ⟨1, .inode ip⟩).setProc pid o with
      iopens := Function.update s.iopens f (s.iopens f + 1) } := by
  refine hI.retag (by rw [hk]; intro pi w h; cases h) (fun _ _ h => by cases h)
    (fun h => by cases h) rfl rfl rfl rfl rfl (fun g => ?_)
  show Function.update s.iopens f (s.iopens f + 1) g = s.iputs g +
    (Function.update s.ftable f ⟨1, .inode ip⟩ g).kind.inodeRefs
  by_cases hgf : g = f
  · subst hgf
    rw [hI.inode g, hk]
    simp [FileKind.inodeRefs]
  · rw [Function.update_of_ne hgf, Function.update_of_ne hgf]
    exact hI.inode g

/-- `pipealloc` gives the two ends of a new pipe, on the next page, to two
files it allocated. -/
theorem newPipe (hI : KindInv s) {f0 f1 : Fptr} (hne : f0 ≠ f1)
    (h0 : s.ftable f0 = ⟨1, .none⟩) (h1 : s.ftable f1 = ⟨1, .none⟩)
    (hft : ∀ g, s'.ftable g = if g = f1 then ⟨1, .pipe s.nextPipe true⟩
      else if g = f0 then ⟨1, .pipe s.nextPipe false⟩ else s.ftable g)
    (hpipes : s'.pipes = Function.update s.pipes s.nextPipe (some ⟨true, true⟩))
    (hnext : s'.nextPipe = s.nextPipe + 1) (hio : s'.iopens = s.iopens)
    (hip : s'.iputs = s.iputs) (hpc : s'.pcloses = s.pcloses) (hpf : s'.pfrees = s.pfrees) :
    KindInv s' := by
  have hend : ∀ pi w, s'.endOpen pi w = if pi = s.nextPipe then true else s.endOpen pi w := by
    intro pi w
    by_cases hp : pi = s.nextPipe
    · rw [if_pos hp, hp]
      cases w <;> simp [Ksys.endOpen, hpipes, PipeEnds.isOpen]
    · simp [Ksys.endOpen, hpipes, hp]
  -- the files on an end: on the new pipe, `f0` and `f1`; on the others, as before
  have hwho : ∀ g pi w, (s'.ftable g).kind = .pipe pi w →
      (pi = s.nextPipe ∧ g = if w then f1 else f0) ∨
      (pi ≠ s.nextPipe ∧ (s.ftable g).kind = .pipe pi w) := by
    intro g pi w hg
    rw [hft] at hg
    split_ifs at hg with hg1 hg0
    · cases hg
      exact .inl ⟨rfl, by simp [hg1]⟩
    · cases hg
      exact .inl ⟨rfl, by simp [hg0]⟩
    · refine .inr ⟨fun hp => ?_, hg⟩
      have := hI.lt_of_endOpen (hI.end_open g pi w hg)
      omega
  refine ⟨fun g hg => ?_, fun g => ?_, fun g pi w hg => ?_, fun pi w hpw => ?_,
    fun g g' pi w hg hg' => ?_, fun pi hpi => ?_, fun pi w => ?_, fun pi => ?_⟩
  · rw [hft] at hg ⊢
    split_ifs at hg ⊢
    exact hI.none_of_free g hg
  · rw [hio, hip, hft]
    split_ifs with hg1 hg0
    · rw [hI.inode g, hg1, h1]
      rfl
    · rw [hI.inode g, hg0, h0]
      rfl
    · exact hI.inode g
  · rw [hend]
    rcases hwho g pi w hg with ⟨hp, -⟩ | ⟨hp, hg⟩
    · rw [if_pos hp]
    · rw [if_neg hp]
      exact hI.end_open g pi w hg
  · rw [hend] at hpw
    split_ifs at hpw with hp
    · -- an end of the new pipe: its file is `f0` or `f1`
      refine ⟨if w then f1 else f0, ?_⟩
      rw [hft, hp]
      cases w
      · simp [hne]
      · simp
    · obtain ⟨g, hg⟩ := hI.end_held pi w hpw
      have hg0 : g ≠ f0 := by
        rintro rfl
        rw [h0] at hg
        cases hg
      have hg1 : g ≠ f1 := by
        rintro rfl
        rw [h1] at hg
        cases hg
      exact ⟨g, by rw [hft, if_neg hg1, if_neg hg0]; exact hg⟩
  · rcases hwho g pi w hg with ⟨hp, rfl⟩ | ⟨hp, hg⟩ <;>
      rcases hwho g' pi w hg' with ⟨hp', rfl⟩ | ⟨hp', hg'⟩
    · rfl
    · exact absurd hp hp'
    · exact absurd hp' hp
    · exact hI.end_unique g g' pi w hg hg'
  · rw [hnext] at hpi
    rw [hpipes, Function.update_of_ne (by omega)]
    exact hI.fresh pi (by omega)
  · rw [hpc, hnext, hend, hI.closes]
    by_cases hp : pi = s.nextPipe
    · simp [hp]
    · have hlt : pi < s.nextPipe + 1 ↔ pi < s.nextPipe := by omega
      simp [hp, hlt]
  · rw [hpf, hnext, hpipes, hI.frees]
    by_cases hp : pi = s.nextPipe
    · simp [hp]
    · have hlt : pi < s.nextPipe + 1 ↔ pi < s.nextPipe := by omega
      simp [Function.update_of_ne hp, hlt]

/-- `fileclose` keeps what the files refer to in step with the pipes and the counts. -/
theorem fileclose (hI : KindInv s) (h : Xv6.Kernel.fileclose sb s f = .ok s') : KindInv s' := by
  rcases fileclose_cases h with ⟨h1, rfl⟩ | ⟨-, ⟨hk, rfl⟩ | ⟨pi, w, hk, hc⟩ | ⟨ip, k, hk, rfl⟩⟩
  · exact hI.setFile rfl (by intro h0; simp at h0; omega)
  · exact hI.setFile hk.symm (fun _ => rfl)
  · exact hI.pipeclose hk hc
  · exact hI.iput hk k

end KindInv

/-! ## Moving references

Each lemma is one move of a reference: out of nothing into the call's hands
(`filealloc`, `filedup`), from the call's hands to a descriptor
(`install`) and back (`clear`), and from the call's hands to nothing
(`fileclose`). -/

namespace FileInvAt

variable {sb : Superblock} {s s' : Ksys} {f : Fptr} {held : Multiset Fptr}

/-- The counts of a file changed by `d`, the references held by the call by
the same: the descriptors did not move. -/
theorem of_ref (hI : FileInvAt s held) (hk : KindInv s') (hp : s'.procs = s.procs)
    {held' : Multiset Fptr}
    (hd : ∀ g, (s'.ftable g).ref + held.count g = (s.ftable g).ref + held'.count g) :
    FileInvAt s' held' := by
  refine ⟨fun g => ?_, hk⟩
  have hg := hI.ref g
  have hd := hd g
  rw [Ksys.holders_congr hp]
  omega

/-- `filealloc`: a free file, now held by the call. -/
theorem filealloc (hI : FileInvAt s held) (h : Xv6.Kernel.filealloc s = some (f, s')) :
    FileInvAt s' (f ::ₘ held) := by
  obtain ⟨h0, rfl⟩ := filealloc_eq h
  have hk : KindInv (s.setFile f { s.ftable f with ref := 1 }) :=
    hI.kinds.setFile rfl (fun h1 => by cases h1)
  refine hI.of_ref hk rfl (fun g => ?_)
  have hg := hI.ref g
  rw [Multiset.count_cons, Ksys.setFile_ftable]
  by_cases hgf : g = f
  · subst hgf
    simp only [Function.update_self, ↓reduceIte]
    omega
  · simp only [Function.update_of_ne hgf, if_neg hgf, Nat.add_zero]

/-- `filedup`: one more reference, held by the call. -/
theorem filedup (hI : FileInvAt s held) (h : Xv6.Kernel.filedup s f = .ok s') :
    FileInvAt s' (f ::ₘ held) := by
  obtain ⟨h1, rfl⟩ := filedup_eq h
  have hk : KindInv (s.setFile f { s.ftable f with ref := (s.ftable f).ref + 1 }) :=
    hI.kinds.setFile rfl (fun h0 => by simp at h0)
  refine hI.of_ref hk rfl (fun g => ?_)
  rw [Multiset.count_cons, Ksys.setFile_ftable]
  by_cases hgf : g = f
  · subst hgf
    simp only [Function.update_self, ↓reduceIte]
    omega
  · simp only [Function.update_of_ne hgf, if_neg hgf, Nat.add_zero]

/-- `fileclose` of a file the call holds: the reference is gone. -/
theorem fileclose (hI : FileInvAt s (f ::ₘ held)) (h : Xv6.Kernel.fileclose sb s f = .ok s') :
    FileInvAt s' held := by
  refine hI.of_ref (hI.kinds.fileclose h) (fileclose_procs h) (fun g => ?_)
  have hg := fileclose_ref h g
  rw [Multiset.count_cons]
  omega

/-- A slot of the process table set: the descriptors it loses and gains are
traded against the references the call holds. -/
theorem setProc (hI : FileInvAt s held) {pid : Fin nProc} {o : Option Proc}
    {held' : Multiset Fptr}
    (hcount : ∀ g, Proc.slotHolds (s.procs pid) g + held.count g =
      Proc.slotHolds o g + held'.count g) :
    FileInvAt (s.setProc pid o) held' := by
  refine ⟨fun g => ?_, hI.kinds.setProc pid o⟩
  have hg := hI.ref g
  have hc := hcount g
  have hs := s.holders_setProc pid o g
  show (s.ftable g).ref = _
  omega

/-- `fdalloc`: the file the call holds goes to a free descriptor. -/
theorem install (hI : FileInvAt s (f ::ₘ held)) {pid : Fin nProc} {p p' : Proc}
    {fd : Fin noFile} (hp : s.procs pid = some p) (h : fdalloc p f = some (fd, p')) :
    FileInvAt (s.setProc pid (some p')) held := by
  obtain ⟨hfd, rfl⟩ := fdalloc_eq h
  refine hI.setProc fun g => ?_
  rw [hp, Multiset.count_cons]
  show p.holds g + _ = Proc.holds _ g + _
  rw [Proc.holds_install hfd]
  omega

/-- A descriptor cleared: its file is held by the call, to be closed. -/
theorem clear (hI : FileInvAt s held) {pid : Fin nProc} {p : Proc} {fd : Fin noFile}
    (hp : s.procs pid = some p) (hfd : p.ofile fd = some f) :
    FileInvAt (s.setProc pid (some { p with ofile := Function.update p.ofile fd none }))
      (f ::ₘ held) := by
  refine hI.setProc fun g => ?_
  rw [hp, Multiset.count_cons]
  show p.holds g + _ = Proc.holds _ g + _
  have := Proc.holds_clear hfd g
  omega

/-- The disk and the major numbers are not read. -/
theorem setFs (hI : FileInvAt s held) (k : Kfs) (m : Nat → Int) :
    FileInvAt { s with kfs := k, major := m } held :=
  ⟨hI.ref, ⟨hI.kinds.none_of_free, hI.kinds.inode, hI.kinds.end_open, hI.kinds.end_held,
    hI.kinds.end_unique, hI.kinds.fresh, hI.kinds.closes, hI.kinds.frees⟩⟩

theorem setKfs (hI : FileInvAt s held) (k : Kfs) : FileInvAt (s.setKfs k) held :=
  hI.setFs k s.major

/-- `sys_open` fills a file it holds with the inode and gives it to a free
descriptor. -/
theorem openInode (hI : FileInvAt s (f ::ₘ held)) (hf : (s.ftable f).ref = 1)
    (hk : (s.ftable f).kind = .none) {pid : Fin nProc} {p p' : Proc} {fd : Fin noFile}
    (hp : s.procs pid = some p) (hfd : fdalloc p f = some (fd, p')) (ip : Iptr) :
    FileInvAt { (s.setFile f ⟨1, .inode ip⟩).setProc pid (some p') with
      iopens := Function.update s.iopens f (s.iopens f + 1) } held := by
  have hins := hI.install hp hfd
  refine hins.of_ref (hI.kinds.openInode hk ip pid (some p')) rfl (fun g => ?_)
  show (Function.update s.ftable f ⟨1, .inode ip⟩ g).ref + _ = (s.ftable g).ref + _
  by_cases hgf : g = f
  · subst hgf
    rw [Function.update_self, hf]
  · rw [Function.update_of_ne hgf]

/-- `pipealloc` that returns: both files given back, or both held by the
call on the two ends of a new pipe; the descriptors untouched. -/
theorem pipealloc (hI : FileInvAt s held) {page : Bool} {r : Option (Fptr × Fptr)}
    (h : Xv6.Kernel.pipealloc sb s page = .ok (r, s')) :
    s'.procs = s.procs ∧
      ((r = none ∧ FileInvAt s' held) ∨
       (∃ rf wf, r = some (rf, wf) ∧ FileInvAt s' (rf ::ₘ wf ::ₘ held))) := by
  unfold Xv6.Kernel.pipealloc at h
  cases h0 : Xv6.Kernel.filealloc s with
  | none =>
    rw [h0] at h
    cases h
    exact ⟨rfl, .inl ⟨rfl, hI⟩⟩
  | some x =>
    obtain ⟨f0, s1⟩ := x
    rw [h0] at h
    simp only at h
    have hI1 := hI.filealloc h0
    obtain ⟨hr0, hs1⟩ := filealloc_eq h0
    have hp1 : s1.procs = s.procs := by rw [hs1]; rfl
    cases h1 : Xv6.Kernel.filealloc s1 with
    | none =>
      -- `bad`: the first file given back
      rw [h1] at h
      obtain ⟨s2, h2, h⟩ := bind_eq_ok h
      cases h
      exact ⟨(fileclose_procs h2).trans hp1, .inl ⟨rfl, hI1.fileclose h2⟩⟩
    | some y =>
      obtain ⟨f1, s2⟩ := y
      rw [h1] at h
      simp only at h
      have hI2 := hI1.filealloc h1
      obtain ⟨hr1, hs2⟩ := filealloc_eq h1
      have hp2 : s2.procs = s.procs := by rw [hs2]; exact hp1
      cases page with
      | false =>
        -- no page: both files given back
        simp only [Bool.false_eq_true, if_false] at h
        obtain ⟨s3, h3, h⟩ := bind_eq_ok h
        obtain ⟨s4, h4, h⟩ := bind_eq_ok h
        cases h
        rw [Multiset.cons_swap] at hI2
        refine ⟨((fileclose_procs h4).trans (fileclose_procs h3)).trans hp2, .inl ⟨rfl, ?_⟩⟩
        exact (hI2.fileclose h3).fileclose h4
      | true =>
        simp only [if_true] at h
        cases h
        -- the two files are distinct, each with one reference and no target
        have hk0 : s.ftable f0 = ⟨0, .none⟩ := by
          rw [← hr0, ← hI.kinds.none_of_free f0 hr0]
        have h10 : s1.ftable f0 = ⟨1, .none⟩ := by
          rw [hs1, Ksys.setFile_ftable, Function.update_self, hk0]
        have hne : f0 ≠ f1 := by
          rintro rfl
          rw [h10] at hr1
          cases hr1
        have h11 : s1.ftable f1 = ⟨0, .none⟩ := by
          rw [← hr1, ← hI1.kinds.none_of_free f1 hr1]
        have h20 : s2.ftable f0 = ⟨1, .none⟩ := by
          rw [hs2, Ksys.setFile_ftable, Function.update_of_ne hne, h10]
        have h21 : s2.ftable f1 = ⟨1, .none⟩ := by
          rw [hs2, Ksys.setFile_ftable, Function.update_self, h11]
        -- the two files get the two ends of the pipe on the next page
        have hft : ∀ g, (Function.update (Function.update s2.ftable f0
            { s2.ftable f0 with kind := .pipe s2.nextPipe false }) f1
            { Function.update s2.ftable f0 { s2.ftable f0 with kind := .pipe s2.nextPipe false } f1
              with kind := .pipe s2.nextPipe true }) g =
            if g = f1 then ⟨1, .pipe s2.nextPipe true⟩
            else if g = f0 then ⟨1, .pipe s2.nextPipe false⟩ else s2.ftable g := by
          intro g
          by_cases hg1 : g = f1
          · subst hg1
            rw [Function.update_self, Function.update_of_ne (Ne.symm hne), h21, if_pos rfl]
          · rw [Function.update_of_ne hg1, if_neg hg1]
            by_cases hg0 : g = f0
            · subst hg0
              rw [Function.update_self, h20, if_pos rfl]
            · rw [Function.update_of_ne hg0, if_neg hg0]
        refine ⟨hp2, .inr ⟨f0, f1, rfl, hI2.of_ref ?_ (by rfl) (fun g => ?_)⟩⟩
        · exact hI2.kinds.newPipe hne h20 h21 hft rfl rfl rfl rfl rfl rfl
        rw [Multiset.cons_swap]
        -- the counts are those `filealloc` left
        refine (congrArg (· + Multiset.count g _) (congrArg File.ref (hft g))).trans ?_
        by_cases hg1 : g = f1
        · subst hg1
          rw [if_pos rfl, h21]
        · by_cases hg0 : g = f0
          · subst hg0
            rw [if_neg hg1, if_pos rfl, h20]
          · rw [if_neg hg1, if_neg hg0]

end FileInvAt

/-! ## The calls -/

section Calls

variable {sb : Superblock} {s s' : Ksys} {pid : Fin nProc} {p : Proc} {r : Int}

/-- The end of `create` writes the disk only. -/
theorem createLink_frame {dp ip : Iptr} {name : List UInt8} {type : Int} {ro : Option Iptr}
    (h : createLink sb s dp ip name type = .ok (ro, s')) : ∃ k, s' = s.setKfs k := by
  unfold createLink at h
  simp only [bind, Except.bind, pure, Except.pure] at h
  repeat' split at h
  all_goals first | (cases h; done) | (cases h; exact ⟨_, rfl⟩)

/-- `create` writes the disk and the major numbers only. -/
theorem create_frame {cwd : Iptr} {path : List UInt8} {type major : Int} {ro : Option Iptr}
    (h : create sb s cwd path type major = .ok (ro, s')) :
    ∃ k m, s' = { s with kfs := k, major := m } := by
  unfold create at h
  simp only [bind, Except.bind, pure, Except.pure] at h
  repeat' split at h
  all_goals first
    | (cases h; done)
    | (cases h; exact ⟨_, _, rfl⟩)
    | (obtain ⟨k, rfl⟩ := createLink_frame h; exact ⟨k, _, rfl⟩)

theorem sysLink_frame {old new : List UInt8} (h : sysLink sb s p old new = .ok (r, s')) :
    ∃ k, s' = s.setKfs k := by
  unfold sysLink at h
  simp only [bind, Except.bind, pure, Except.pure] at h
  repeat' split at h
  all_goals first | (cases h; done) | (cases h; exact ⟨_, rfl⟩)

theorem sysUnlink_frame {path : List UInt8} (h : sysUnlink sb s p path = .ok (r, s')) :
    ∃ k, s' = s.setKfs k := by
  unfold sysUnlink at h
  simp only [bind, Except.bind, pure, Except.pure] at h
  repeat' split at h
  all_goals first | (cases h; done) | (cases h; exact ⟨_, rfl⟩)

theorem sysMknod_frame {path : List UInt8} {type major : Int}
    (h : sysMknod sb s p path type major = .ok (r, s')) :
    ∃ k m, s' = { s with kfs := k, major := m } := by
  unfold sysMknod at h
  split_ifs at h
  · cases h
    exact ⟨s.kfs, s.major, rfl⟩
  obtain ⟨⟨ro, s1⟩, h1, h⟩ := bind_eq_ok h
  obtain ⟨k, m, rfl⟩ := create_frame h1
  cases ro with
  | none =>
    cases h
    exact ⟨k, m, rfl⟩
  | some ip =>
    obtain ⟨k', -, h⟩ := bind_eq_ok h
    cases h
    exact ⟨k', m, rfl⟩

/-- `sys_chdir` writes the disk and the caller's current directory only. -/
theorem sysChdir_frame {path : List UInt8} (h : sysChdir sb s pid p path = .ok (r, s')) :
    ∃ k, s' = s.setKfs k ∨ ∃ ip, s' = (s.setKfs k).setProc pid (some { p with cwd := ip }) := by
  unfold sysChdir at h
  simp only [bind, Except.bind, pure, Except.pure] at h
  repeat' split at h
  all_goals first
    | (cases h; done)
    | (cases h; exact ⟨_, .inl rfl⟩)
    | (cases h; exact ⟨_, .inr ⟨_, rfl⟩⟩)

end Calls

/-! ## The invariant across the calls -/

namespace FileInv

variable {sb : Superblock} {s s' : Ksys} {pid : Fin nProc} {p : Proc} {r : Int}

theorem sysOpen (hI : FileInv s) (hp : s.procs pid = some p) {path : List UInt8}
    {omode : UInt32} (h : Xv6.Kernel.sysOpen sb s pid p path omode = .ok (r, s')) :
    FileInv s' := by
  unfold Xv6.Kernel.sysOpen at h
  by_cases hlen : maxPath ≤ path.length
  · rw [if_pos hlen] at h
    cases h
    exact hI
  rw [if_neg hlen] at h
  -- `J`: the rest of the call, where the two ways to the inode join
  revert h
  lift_lets
  intro J h
  have hJ : ∀ ro k m, J (ro, { s with kfs := k, major := m }) = .ok (r, s') → FileInv s' := by
    intro ro k m hj
    have hI1 : FileInv { s with kfs := k, major := m } := FileInvAt.setFs hI k m
    simp only [J] at hj
    cases ro with
    | none =>
      cases hj
      exact hI1
    | some ip =>
      simp only at hj
      split at hj
      · -- a device with no driver
        obtain ⟨k', -, hj⟩ := bind_eq_ok hj
        cases hj
        exact FileInvAt.setKfs hI1 k'
      cases hfa : filealloc { s with kfs := k, major := m } with
      | none =>
        rw [hfa] at hj
        simp only at hj
        obtain ⟨k', -, hj⟩ := bind_eq_ok hj
        cases hj
        exact FileInvAt.setKfs hI1 k'
      | some x =>
        obtain ⟨f, s2⟩ := x
        rw [hfa] at hj
        simp only at hj
        have hI2 := FileInvAt.filealloc hI1 hfa
        obtain ⟨hr, hs2⟩ := filealloc_eq hfa
        have hp2 : s2.procs pid = some p := by
          rw [hs2]
          exact hp
        cases hfd : fdalloc p f with
        | none =>
          -- no descriptor: the file given back
          rw [hfd] at hj
          simp only at hj
          obtain ⟨s3, h3, hj⟩ := bind_eq_ok hj
          obtain ⟨k', -, hj⟩ := bind_eq_ok hj
          cases hj
          exact FileInvAt.setKfs (hI2.fileclose h3) k'
        | some y =>
          obtain ⟨fd, p'⟩ := y
          rw [hfd] at hj
          simp only at hj
          -- the file gets the inode and goes to the descriptor
          have hf1 : (s2.ftable f).ref = 1 := by
            rw [hs2, Ksys.setFile_ftable, Function.update_self]
          have hfk : (s2.ftable f).kind = .none := by
            rw [hs2, Ksys.setFile_ftable, Function.update_self]
            exact hI1.kinds.none_of_free f hr
          have hI3 := hI2.openInode hf1 hfk hp2 hfd ip
          -- `itrunc` and `iunlock` write the disk only
          obtain ⟨k', rfl⟩ : ∃ k', s' = Ksys.setKfs { (s2.setFile f ⟨1, .inode ip⟩).setProc pid
              (some p') with iopens := Function.update s2.iopens f (s2.iopens f + 1) } k' := by
            simp only [bind, Except.bind, pure, Except.pure] at hj
            repeat' split at hj
            all_goals first | (cases hj; done) | (cases hj; exact ⟨_, rfl⟩)
          exact FileInvAt.setKfs hI3 k'
  -- the lookup, by `create` or by `namei`, writes the disk only
  split at h
  · obtain ⟨⟨ro, s1⟩, h1, h⟩ := bind_eq_ok h
    obtain ⟨k, m, rfl⟩ := create_frame h1
    exact hJ ro k m h
  · obtain ⟨⟨r0, k0⟩, -, h⟩ := bind_eq_ok h
    cases r0 with
    | none =>
      obtain ⟨x, hx, h⟩ := bind_eq_ok h
      cases hx
      exact hJ none k0 s.major h
    | some ip =>
      obtain ⟨k1, -, h⟩ := bind_eq_ok h
      split at h
      · obtain ⟨k2, -, h⟩ := bind_eq_ok h
        obtain ⟨x, hx, h⟩ := bind_eq_ok h
        cases hx
        exact hJ none k2 s.major h
      · obtain ⟨x, hx, h⟩ := bind_eq_ok h
        cases hx
        exact hJ (some ip) k1 s.major h

theorem sysClose (hI : FileInv s) (hp : s.procs pid = some p) {fd : Int}
    (h : Xv6.Kernel.sysClose sb s pid p fd = .ok (r, s')) : FileInv s' := by
  unfold Xv6.Kernel.sysClose at h
  split at h
  · dsimp only at h
    split at h
    · cases h
      exact hI
    · rename_i f hf
      obtain ⟨s2, h2, h⟩ := bind_eq_ok h
      cases h
      exact (FileInvAt.clear hI hp hf).fileclose h2
  · cases h
    exact hI

theorem sysDup (hI : FileInv s) (hp : s.procs pid = some p) {fd : Int}
    (h : Xv6.Kernel.sysDup s pid p fd = .ok (r, s')) : FileInv s' := by
  unfold Xv6.Kernel.sysDup at h
  split at h
  · split at h
    · cases h
      exact hI
    · split at h
      · cases h
        exact hI
      · rename_i f _ fd' p' hal
        obtain ⟨s2, h2, h⟩ := bind_eq_ok h
        cases h
        -- `filedup` does not read the descriptor just filled
        obtain ⟨t, ht, rfl⟩ := filedup_setProc h2
        have htp : t.procs pid = some p := by
          rw [filedup_procs ht]
          exact hp
        exact (FileInvAt.filedup hI ht).install htp hal
  · cases h
    exact hI

theorem sysPipe (hI : FileInv s) (hp : s.procs pid = some p) {page copy : Bool}
    (h : Xv6.Kernel.sysPipe sb s pid p page copy = .ok (r, s')) : FileInv s' := by
  unfold Xv6.Kernel.sysPipe at h
  obtain ⟨⟨ro, s1⟩, h1, h⟩ := bind_eq_ok h
  obtain ⟨hps1, ⟨rfl, hI1⟩ | ⟨rf, wf, rfl, hI1⟩⟩ := FileInvAt.pipealloc hI h1
  · cases h
    exact hI1
  have hp1 : s1.procs pid = some p := by
    rw [hps1]
    exact hp
  simp only at h
  cases hfd0 : fdalloc p rf with
  | none =>
    -- no descriptor for the read end: both files given back
    rw [hfd0] at h
    simp only at h
    obtain ⟨s2, h2, h⟩ := bind_eq_ok h
    obtain ⟨s3, h3, h⟩ := bind_eq_ok h
    cases h
    exact (hI1.fileclose h2).fileclose h3
  | some x =>
    obtain ⟨fd0, p1⟩ := x
    rw [hfd0] at h
    simp only at h
    have hI2 := hI1.install hp1 hfd0
    have hp2 : (s1.setProc pid (some p1)).procs pid = some p1 := by simp
    have h0 : p1.ofile fd0 = some rf := by
      rw [(fdalloc_eq hfd0).2]
      simp
    cases hfd1 : fdalloc p1 wf with
    | none =>
      -- no descriptor for the write end: `p->ofile[fd0] = 0`, both files given back
      rw [hfd1] at h
      simp only at h
      obtain ⟨s2, h2, h⟩ := bind_eq_ok h
      obtain ⟨s3, h3, h⟩ := bind_eq_ok h
      cases h
      exact ((hI2.clear hp2 h0).fileclose h2).fileclose h3
    | some y =>
      obtain ⟨fd1, p2⟩ := y
      rw [hfd1] at h
      simp only at h
      have hI4 := hI2.install hp2 hfd1
      split at h
      · cases h
        exact hI4
      · -- `copyout` failed: both descriptors cleared, both files given back
        obtain ⟨s2, h2, h⟩ := bind_eq_ok h
        obtain ⟨s3, h3, h⟩ := bind_eq_ok h
        cases h
        obtain ⟨hfree1, hp2⟩ := fdalloc_eq hfd1
        have hne : fd1 ≠ fd0 := by
          rintro rfl
          rw [h0] at hfree1
          cases hfree1
        have h20 : p2.ofile fd0 = some rf := by
          rw [hp2]
          show Function.update p1.ofile fd1 (some wf) fd0 = some rf
          rw [Function.update_of_ne hne.symm, h0]
        have h21 : p2.ofile fd1 = some wf := by
          rw [hp2]
          show Function.update p1.ofile fd1 (some wf) fd1 = some wf
          rw [Function.update_self]
        have hI5 := hI4.clear
          (by simp : ((s1.setProc pid (some p1)).setProc pid (some p2)).procs pid = some p2) h20
        have hI6 := hI5.clear (by simp : (((s1.setProc pid (some p1)).setProc pid
            (some p2)).setProc pid (some { p2 with ofile := Function.update p2.ofile fd0 none })).procs pid =
            some { p2 with ofile := Function.update p2.ofile fd0 none })
          (show Function.update p2.ofile fd0 none fd1 = some wf by
            rw [Function.update_of_ne hne, h21])
        rw [Ksys.setProc_setProc, Multiset.cons_swap] at hI6
        exact (hI6.fileclose h2).fileclose h3

/-- The files of `l`'s descriptors, as a multiset, one more at the end. -/
theorem coe_filterMap_concat (p : Proc) (l : List (Fin noFile)) {fd : Fin noFile} {f : Fptr}
    (hfd : p.ofile fd = some f) :
    (((l ++ [fd]).filterMap p.ofile : List Fptr) : Multiset Fptr) =
      f ::ₘ ((l.filterMap p.ofile : List Fptr) : Multiset Fptr) := by
  rw [List.filterMap_append, List.filterMap_cons, hfd, List.filterMap_nil, Multiset.cons_coe]
  exact Multiset.coe_eq_coe.mpr (List.perm_append_singleton f _)

theorem sysFork (hI : FileInv s) (h : Xv6.Kernel.sysFork s p = .ok (r, s')) : FileInv s' := by
  unfold Xv6.Kernel.sysFork at h
  split at h
  · cases h
    exact hI
  rename_i child hchild
  obtain ⟨t, ht, h⟩ := bind_eq_ok h
  cases h
  -- the loop: each descriptor's file duplicated, the new references held by the call
  have hloop := foldlM_ok_inv
    (fun pre fd t₁ t₂ (h₁ : FileInvAt t₁ ((pre.filterMap p.ofile : List Fptr) : Multiset Fptr) ∧
      t₁.procs = s.procs) hstep => by
      obtain ⟨hI₁, hp₁⟩ := h₁
      cases hfd : p.ofile fd with
      | none =>
        rw [hfd] at hstep
        cases hstep
        rw [List.filterMap_append, List.filterMap_cons, hfd, List.filterMap_nil,
          List.append_nil]
        exact ⟨hI₁, hp₁⟩
      | some f =>
        rw [hfd] at hstep
        rw [coe_filterMap_concat p pre hfd]
        exact ⟨hI₁.filedup hstep, (filedup_procs hstep).trans hp₁⟩)
    (show FileInvAt s ((([] : List (Fin noFile)).filterMap p.ofile : List Fptr) : Multiset Fptr) ∧
      s.procs = s.procs from ⟨hI, rfl⟩) ht
  obtain ⟨hIt, hpt⟩ := hloop
  -- the child takes them over
  have hfree : (t.procs child) = none := by
    rw [hpt]
    simpa using List.find?_some hchild
  refine FileInvAt.setProc (FileInvAt.setKfs hIt _) fun g => ?_
  show Proc.slotHolds (t.procs child) g + _ = p.holds g + _
  rw [hfree, Multiset.coe_count, List.nil_append, Proc.count_filterMap]
  simp [Proc.slotHolds]

theorem sysExit (hI : FileInv s) (hp : s.procs pid = some p)
    (h : Xv6.Kernel.sysExit sb s pid p = .ok (r, s')) : FileInv s' := by
  unfold Xv6.Kernel.sysExit at h
  split at h
  · cases h
  obtain ⟨t, ht, h⟩ := bind_eq_ok h
  obtain ⟨k, -, h⟩ := bind_eq_ok h
  cases h
  -- the loop: each descriptor's file closed, the process still naming it
  have hloop := foldlM_ok_inv
    (fun pre fd t₁ t₂ (h₁ : KindInv t₁ ∧ t₁.procs = s.procs ∧
      ∀ g, (t₁.ftable g).ref + (pre.filterMap p.ofile).count g = (s.ftable g).ref) hstep => by
      obtain ⟨hk₁, hp₁, href₁⟩ := h₁
      cases hfd : p.ofile fd with
      | none =>
        rw [hfd] at hstep
        cases hstep
        rw [List.filterMap_append, List.filterMap_cons, hfd, List.filterMap_nil,
          List.append_nil]
        exact ⟨hk₁, hp₁, href₁⟩
      | some f =>
        rw [hfd] at hstep
        refine ⟨hk₁.fileclose hstep, (fileclose_procs hstep).trans hp₁, fun g => ?_⟩
        have h1 := fileclose_ref hstep g
        have h2 := href₁ g
        rw [List.filterMap_append, List.filterMap_cons, hfd, List.filterMap_nil,
          List.count_append, List.count_singleton]
        by_cases hgf : g = f
        · subst hgf
          simp only [beq_self_eq_true, ↓reduceIte] at h1 ⊢
          omega
        · simp only [beq_iff_eq, if_neg hgf, if_neg (Ne.symm hgf)] at h1 ⊢
          omega)
    (show KindInv s ∧ s.procs = s.procs ∧ ∀ g, (s.ftable g).ref +
      (([] : List (Fin noFile)).filterMap p.ofile).count g = (s.ftable g).ref from
      ⟨hI.kinds, rfl, fun g => by simp⟩) ht
  obtain ⟨hkt, hpt, href⟩ := hloop
  -- then the process goes, with the descriptors it named
  refine ⟨fun g => ?_, (hkt.setKfs k).setProc pid none⟩
  have hs := (t.setKfs k).holders_setProc pid none g
  have hpk : (t.setKfs k).procs pid = some p := by
    show t.procs pid = some p
    rw [hpt]
    exact hp
  rw [hpk, Ksys.holders_congr (show (t.setKfs k).procs = s.procs from hpt)] at hs
  have hg := hI.ref g
  have hl := href g
  rw [List.nil_append, Proc.count_filterMap] at hl
  simp only [Proc.slotHolds, Multiset.count_zero, Nat.add_zero] at hs hg ⊢
  show (t.ftable g).ref = _
  omega

theorem sysLink (hI : FileInv s) {old new : List UInt8}
    (h : Xv6.Kernel.sysLink sb s p old new = .ok (r, s')) : FileInv s' := by
  obtain ⟨k, rfl⟩ := sysLink_frame h
  exact FileInvAt.setKfs hI k

theorem sysUnlink (hI : FileInv s) {path : List UInt8}
    (h : Xv6.Kernel.sysUnlink sb s p path = .ok (r, s')) : FileInv s' := by
  obtain ⟨k, rfl⟩ := sysUnlink_frame h
  exact FileInvAt.setKfs hI k

theorem sysMknod (hI : FileInv s) {path : List UInt8} {type major : Int}
    (h : Xv6.Kernel.sysMknod sb s p path type major = .ok (r, s')) : FileInv s' := by
  obtain ⟨k, m, rfl⟩ := sysMknod_frame h
  exact FileInvAt.setFs hI k m

theorem sysChdir (hI : FileInv s) (hp : s.procs pid = some p) {path : List UInt8}
    (h : Xv6.Kernel.sysChdir sb s pid p path = .ok (r, s')) : FileInv s' := by
  obtain ⟨k, rfl | ⟨ip, rfl⟩⟩ := sysChdir_frame h
  · exact FileInvAt.setKfs hI k
  · -- the new current directory is no file
    refine FileInvAt.setProc (FileInvAt.setKfs hI k) fun g => ?_
    show Proc.slotHolds (s.procs pid) g + _ = _
    rw [hp]
    rfl

theorem sysCall (hI : FileInv s) (hp : s.procs pid = some p) {c : Call}
    (h : Xv6.Kernel.sysCall sb s pid p c = .ok (r, s')) : FileInv s' := by
  cases c with
  | «open» path omode => exact hI.sysOpen hp h
  | close fd => exact hI.sysClose hp h
  | dup fd => exact hI.sysDup hp h
  | pipe page copy => exact hI.sysPipe hp h
  | link old new => exact hI.sysLink h
  | unlink path => exact hI.sysUnlink h
  | mkdir path => exact hI.sysMknod h
  | mknod path major minor => exact hI.sysMknod h
  | chdir path => exact hI.sysChdir hp h
  | fork => exact hI.sysFork h
  | exit => exact hI.sysExit hp h

theorem step (hI : FileInv s) {e : Fin nProc × Call} (h : s.step sb e = .ok s') :
    FileInv s' := by
  unfold Ksys.step at h
  split at h
  · cases h
  · rename_i p hp
    cases hc : Xv6.Kernel.sysCall sb s e.1 p e.2 with
    | error msg =>
      rw [hc] at h
      cases h
    | ok x =>
      rw [hc] at h
      cases h
      exact hI.sysCall hp hc

end FileInv

/-- At boot no file is open and no pipe made. -/
theorem fileInv_boot (fs : FsState) : FileInv (boot fs) := by
  have hheld : ∀ f, (boot fs).holders f = 0 := by
    intro f
    rw [Ksys.holders, Finset.card_eq_zero, Finset.filter_eq_empty_iff]
    intro x _
    by_cases hx : x.1 = 0 <;> simp [boot, hx]
  refine ⟨fun f => by rw [hheld]; rfl, ⟨fun f _ => rfl, fun f => rfl, fun f pi w h => ?_,
    fun pi w h => ?_, fun f g pi w h => ?_, fun pi _ => rfl, fun pi w => ?_, fun pi => ?_⟩⟩
  · cases h
  · simp [Ksys.endOpen, boot] at h
  · cases h
  · simp [boot]
  · simp [boot]

theorem fileInv_invariant : sysfileSys.Invariant FileInv :=
  TSys.Invariant.of_inductive (fun _ ⟨_, m, _, hs⟩ => hs ▸ fileInv_boot m.fs)
    (fun _ _ _ hI h => hI.step h)

/-- At every call boundary: a file's count is the number of descriptors that
name it, and a file no descriptor names refers to nothing; every inode
reference put in a file was given back once, but for the one it holds; the
open ends of pipes are those of the files; an end was closed once exactly
when it is no longer open, and a pipe freed once exactly when its page is
gone, after both of its ends were closed. -/
theorem file_refcounts {s : Ksys} (hs : sysfileSys.Reachable s) :
    (∀ f, (s.ftable f).ref = s.holders f) ∧
    (∀ f, (s.ftable f).ref = 0 → (s.ftable f).kind = .none) ∧
    (∀ f, s.iopens f = s.iputs f + (s.ftable f).kind.inodeRefs) ∧
    (∀ pi w, s.endOpen pi w = true ↔ ∃ f, (s.ftable f).kind = .pipe pi w) ∧
    (∀ pi w, s.pcloses (pi, w) = if pi < s.nextPipe ∧ s.endOpen pi w = false then 1 else 0) ∧
    (∀ pi, s.pfrees pi = if pi < s.nextPipe ∧ s.pipes pi = none then 1 else 0) ∧
    (∀ pi, s.pfrees pi = 1 → s.pcloses (pi, false) = 1 ∧ s.pcloses (pi, true) = 1) := by
  have hI := fileInv_invariant s hs
  have hk := hI.kinds
  refine ⟨fun f => ?_, hk.none_of_free, hk.inode,
    fun pi w => ⟨hk.end_held pi w, fun ⟨f, hf⟩ => hk.end_open f pi w hf⟩, hk.closes, hk.frees,
    fun pi h1 => ?_⟩
  · have href := hI.ref f
    rwa [Multiset.count_zero, Nat.add_zero] at href
  -- a freed pipe has no page, so neither of its ends is open
  have hfree : pi < s.nextPipe ∧ s.pipes pi = none := by
    rw [hk.frees pi] at h1
    split_ifs at h1 with hc
    exact hc
  have hclosed : ∀ w, s.endOpen pi w = false := fun w => by
    simp [Ksys.endOpen, hfree.2]
  exact ⟨by rw [hk.closes, if_pos ⟨hfree.1, hclosed false⟩],
    by rw [hk.closes, if_pos ⟨hfree.1, hclosed true⟩]⟩

/-- The state `userinit` leaves on the image of no files is one such. -/
theorem file_refcounts_boot : ∃ m : Mkfs, mkfsImage [] = some m ∧
    sysfileSys.Reachable (boot m.fs) ∧ ∀ f, ((boot m.fs).ftable f).ref = (boot m.fs).holders f := by
  cases h : mkfsImage [] with
  | none => exact absurd h (by decide)
  | some m =>
    have hreach : sysfileSys.Reachable (boot m.fs) := .init ⟨[], m, h, rfl⟩
    exact ⟨m, rfl, hreach, (file_refcounts hreach).1⟩

end Xv6.Kernel
