import Xv6.Lib.Bytes

/-!
# Checked access to a byte buffer

C code that indexes an array past its end has no meaning. A model of such
code reads and writes its buffer through `load`, `store`, `loadU32`,
`storeU32`, `loadSlice`, `storeList` and `cstring`, which fail past the end, so that a proof that the
code never fails is a proof that every access stays inside the array.

The proofs look at a buffer through `slice b o len`, the bytes of a range as
a list: `slice_succ` and `slice_add` split a range, `slice_set_of_lt_or_le`
and `slice_setList_of_le` are the frame rules of a store, `slice_setList_self`
reads a stored list back, and `cstring_of_slice` reads back a string followed
by its NUL.
-/

namespace Xv6.Lib

namespace Bytes

variable {n : Nat}

/-- The `len` bytes from offset `o`. -/
def slice (b : Bytes n) (o len : Nat) : List UInt8 :=
  (List.range len).map fun k => b.get (o + k)

/-- `b[i]`, an error past the end. -/
def load (b : Bytes n) (i : Nat) : Except String UInt8 :=
  if i < n then .ok (b.get i) else .error "read past the end of the buffer"

/-- `b[i] = v`, an error past the end. -/
def store (b : Bytes n) (i : Nat) (v : UInt8) : Except String (Bytes n) :=
  if i < n then .ok (b.set i v) else .error "write past the end of the buffer"

/-- The bytes `[o, o + len)`, as a system call copies them out of the buffer. -/
def loadSlice (b : Bytes n) (o len : Nat) : Except String (List UInt8) :=
  if o + len ≤ n then .ok (b.slice o len) else .error "read past the end of the buffer"

/-- The bytes `cs` stored from offset `o` on, as a system call copies them in. -/
def storeList (b : Bytes n) (o : Nat) (cs : List UInt8) : Except String (Bytes n) :=
  if o + cs.length ≤ n then .ok (b.setList o cs) else .error "write past the end of the buffer"

/-- The little-endian 32-bit word at offset `o`, an error past the end. -/
def loadU32 (b : Bytes n) (o : Nat) : Except String UInt32 :=
  if o + 4 ≤ n then .ok (b.getU32 o) else .error "read past the end of the buffer"

/-- Store a little-endian 32-bit word at offset `o`, an error past the end. -/
def storeU32 (b : Bytes n) (o : Nat) (v : UInt32) : Except String (Bytes n) :=
  if o + 4 ≤ n then .ok (b.setU32 o v) else .error "write past the end of the buffer"

/-- The NUL-terminated string at offset `i`, read a byte at a time. -/
def cstring (b : Bytes n) (i : Nat) : Except String (List UInt8) :=
  if i < n then
    if b.get i = 0 then .ok []
    else (b.cstring (i + 1)).map (b.get i :: ·)
  else .error "read past the end of the buffer"
termination_by n - i

variable {b : Bytes n}

theorem load_of_lt {i : Nat} (h : i < n) : b.load i = .ok (b.get i) := if_pos h

theorem store_of_lt {i : Nat} (h : i < n) (v : UInt8) : b.store i v = .ok (b.set i v) :=
  if_pos h

theorem loadU32_of_le {o : Nat} (h : o + 4 ≤ n) : b.loadU32 o = .ok (b.getU32 o) := if_pos h

theorem storeU32_of_le {o : Nat} (h : o + 4 ≤ n) (v : UInt32) : b.storeU32 o v = .ok (b.setU32 o v) :=
  if_pos h

theorem loadSlice_of_le {o len : Nat} (h : o + len ≤ n) : b.loadSlice o len = .ok (b.slice o len) :=
  if_pos h

theorem storeList_of_le {o : Nat} {cs : List UInt8} (h : o + cs.length ≤ n) :
    b.storeList o cs = .ok (b.setList o cs) :=
  if_pos h

/-! ## Slices -/

@[simp] theorem length_slice (b : Bytes n) (o len : Nat) : (b.slice o len).length = len := by
  simp [slice]

@[simp] theorem slice_zero (b : Bytes n) (o : Nat) : b.slice o 0 = [] := rfl

theorem slice_succ (b : Bytes n) (o len : Nat) :
    b.slice o (len + 1) = b.get o :: b.slice (o + 1) len := by
  simp only [slice, List.range_succ_eq_map, List.map_cons, List.map_map, Nat.add_zero]
  congr 1
  apply List.map_congr_left
  intro k _
  simp only [Function.comp_apply]
  congr 1
  omega

theorem slice_add (b : Bytes n) (o len len' : Nat) :
    b.slice o (len + len') = b.slice o len ++ b.slice (o + len) len' := by
  simp only [slice, List.range_add, List.map_append, List.map_map]
  congr 1
  apply List.map_congr_left
  intro k _
  simp only [Function.comp_apply, Nat.add_assoc]

/-- A range that holds `a ++ c` holds `a`, then `c`. -/
theorem slice_append {o : Nat} {a c : List UInt8} (h : b.slice o (a ++ c).length = a ++ c) :
    b.slice o a.length = a ∧ b.slice (o + a.length) c.length = c := by
  rw [List.length_append, slice_add] at h
  exact List.append_inj h (length_slice b o a.length)

/-- Two ranges with the same bytes have the same slice. -/
theorem slice_congr {b' : Bytes n} {o o' len : Nat}
    (h : ∀ k < len, b.get (o + k) = b'.get (o' + k)) : b.slice o len = b'.slice o' len := by
  apply List.map_congr_left
  intro k hk
  exact h k (List.mem_range.mp hk)

/-- A store outside a range leaves its bytes alone. -/
theorem slice_set_of_lt_or_le {i o len : Nat} (h : i < o ∨ o + len ≤ i) (v : UInt8) :
    (b.set i v).slice o len = b.slice o len :=
  slice_congr fun k hk => get_set_of_ne b (by omega) v

/-- A stored list leaves every byte outside its range alone. -/
theorem get_setList_of_lt_or_le (cs : List UInt8) :
    ∀ {b : Bytes n} {o i : Nat}, (i < o ∨ o + cs.length ≤ i) → (b.setList o cs).get i = b.get i := by
  induction cs with
  | nil => intro b o i _; rfl
  | cons c cs ih =>
    intro b o i h
    rw [setList, ih (by simp at h; omega), get_set_of_ne b (by simp at h; omega)]

theorem slice_setList_of_le {o o' len : Nat} (cs : List UInt8) (h : o' + len ≤ o) :
    (b.setList o cs).slice o' len = b.slice o' len :=
  slice_congr fun k hk => get_setList_of_lt_or_le cs (by omega)

theorem slice_setList_self (cs : List UInt8) :
    ∀ {b : Bytes n} {o : Nat}, o + cs.length ≤ n → (b.setList o cs).slice o cs.length = cs := by
  induction cs with
  | nil => intro b o _; rfl
  | cons c cs ih =>
    intro b o h
    simp only [List.length_cons] at h
    rw [List.length_cons, slice_succ, setList, ih (by omega),
      get_setList_of_lt_or_le cs (by omega), get_set_self b (by omega)]

/-- A string followed by its NUL reads back as the string. -/
theorem cstring_of_slice (s : List UInt8) :
    ∀ {i : Nat}, b.slice i (s.length + 1) = s ++ [0] → 0 ∉ s → i + s.length < n →
      b.cstring i = .ok s := by
  induction s with
  | nil =>
    intro i hs _ hi
    rw [List.length_nil, slice_succ, List.nil_append, List.cons.injEq] at hs
    rw [cstring, if_pos (by simpa using hi), if_pos hs.1]
  | cons x s ih =>
    intro i hs h0 hi
    rw [List.length_cons, slice_succ, List.cons_append, List.cons.injEq] at hs
    have hx : b.get i ≠ 0 := by
      rw [hs.1]
      exact fun h => h0 (h ▸ List.mem_cons_self)
    rw [cstring, if_pos (by simp at hi; omega), if_neg hx,
      ih hs.2 (fun h => h0 (List.mem_cons_of_mem x h)) (by simp at hi; omega), hs.1]
    rfl

/-! ## Writes confined to a range -/

/-- `b'` is `b` outside the range `[o, o + len)`. -/
def SameOutside (b b' : Bytes n) (o len : Nat) : Prop :=
  ∀ k, k < o ∨ o + len ≤ k → b'.get k = b.get k

theorem SameOutside.refl (b : Bytes n) (o len : Nat) : SameOutside b b o len := fun _ _ => rfl

/-- A store at `o`, then writes confined to the range after it. -/
theorem SameOutside.set_cons {o len : Nat} {v : UInt8} {b' : Bytes n}
    (h : SameOutside (b.set o v) b' (o + 1) len) : SameOutside b b' o (len + 1) := fun k hk => by
  rw [h k (by omega), get_set_of_ne b (by omega) v]

/-- What a store at `o` followed by writes after it leaves at `o`. -/
theorem SameOutside.slice_cons {o len : Nat} (ho : o < n) {v : UInt8} {b' : Bytes n}
    (h : SameOutside (b.set o v) b' (o + 1) len) (m : Nat) :
    b'.slice o (m + 1) = v :: b'.slice (o + 1) m := by
  rw [slice_succ, h o (.inl (Nat.lt_succ_self o)), get_set_self b ho v]

end Bytes

end Xv6.Lib
