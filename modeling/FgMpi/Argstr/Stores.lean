import FgMpi.Argstr.RoundTrip

/-! The writers of `util/mem/argstr.c`, store by store. -/

namespace FgMpi.Argstr.Stores
open Argstr.Encoding Argstr.RoundTrip

def nul : Char := Char.ofNat 0

/-- The memory by offsets from the beginning of the buffer, and whether anything outside of it has
been written. -/
structure Area where
  size : Nat
  mem : Nat → Char
  outside : Bool

def Area.store (s : Area) (i : Nat) (c : Char) : Area :=
  { s with mem := Function.update s.mem i c, outside := s.outside || decide (s.size ≤ i) }

def Area.write (s : Area) (i : Nat) : List Char → Area
  | [] => s
  | c :: t => (s.store i c).write (i + 1) t

/-- `*str_ptr`, as an offset, and `*maxlen_ptr`. -/
structure Output where
  area : Area
  strPtr : Nat
  maxlen : Int

inductive Code
  | success
  | fail
  | nomem
deriving Repr, DecidableEq

section Functions
variable (a : Alphabet)

def snprintfAt (s : Area) (i : Nat) (maxlen : Int) (t : List Char) : Area × Int :=
  (if maxlen = 0 then s else s.write i ((snprintf maxlen t).1 ++ [nul]), t.length)

/-- `quoted_printf` does not terminate the string when it reaches `maxlen`. -/
def quotedPrintfAt (s : Area) (i : Nat) (maxlen : Int) (val : List Char) : Area × Int :=
  let printed := quotedPrintf a maxlen val
  (s.write i (if printed.2 < maxlen then printed.1 ++ [nul] else printed.1), printed.2)

def printFlagAt (s : Area) (i : Nat) (maxlen : Int) (flag : List Char) : Area × Int :=
  if needsQuotes a flag then quotedPrintfAt a s i maxlen flag else snprintfAt s i maxlen flag

def printValAt (s : Area) (i : Nat) (maxlen : Int) (val : List Char) : Area × Int :=
  if needsQuotes a val then quotedPrintfAt a s i maxlen val
  else if val = [] then snprintfAt s i maxlen [a.quote, a.quote]
  else snprintfAt s i maxlen val

/-- `MPIU_Str_add_string` -/
def addStringAt (o : Output) (val : List Char) : Output × Code :=
  if isSpecial a val then
    let printed := quotedPrintfAt a o.area o.strPtr o.maxlen val
    let i := o.strPtr + printed.2.toNat
    if printed.2 = o.maxlen then (⟨printed.1.store o.strPtr nul, o.strPtr, o.maxlen⟩, .fail)
    else if printed.2 < o.maxlen - 1 then
      (⟨(printed.1.store i a.separ).store (i + 1) nul, i + 1, o.maxlen - (printed.2 + 1)⟩, .success)
    else (⟨printed.1.store i nul, i, o.maxlen - printed.2⟩, .success)
  else
    let printed := snprintfAt o.area o.strPtr o.maxlen
      (if val = [] then [a.quote, a.quote] else val ++ [a.separ])
    if printed.2 = o.maxlen then (⟨printed.1.store o.strPtr nul, o.strPtr, o.maxlen⟩, .fail)
    else (⟨printed.1, o.strPtr + printed.2.toNat, o.maxlen - printed.2⟩, .success)

/-- The first half of `MPIU_Str_add_string_arg` and `MPIU_Str_add_binary_arg`: the key and the
delimiter. -/
def addFlagAt (o : Output) (flag : List Char) : Output × Code :=
  if o.maxlen < 1 then (o, .fail)
  else
    let key := printFlagAt a o.area o.strPtr o.maxlen flag
    let left := o.maxlen - key.2
    let i := o.strPtr + key.2.toNat
    if left < 1 then (⟨key.1.store o.strPtr nul, o.strPtr, left⟩, .nomem)
    else (⟨key.1.store i a.delim, i + 1, left - 1⟩, .success)

/-- The last lines of both.  `orig_str_ptr` is the same pointer as `str_ptr`, which has moved on. -/
def finishAt (s : Area) (i : Nat) (left : Int) : Output × Code :=
  if left < 2 then (⟨s.store i nul, i, left⟩, .nomem)
  else (⟨(s.store i a.separ).store (i + 1) nul, i + 1, left - 1⟩, .success)

/-- `MPIU_Str_add_string_arg` -/
def addStringArgAt (o : Output) (flag val : List Char) : Output × Code :=
  match addFlagAt a o flag with
  | (o, .success) =>
    let value := printValAt a o.area o.strPtr o.maxlen val
    finishAt a value.1 (o.strPtr + value.2.toNat) (o.maxlen - value.2)
  | failed => failed

/-- The loop of `encode_buffer`: the bytes encoded, and those left. -/
def encodeLoopAt : Area → Nat → Int → List Byte → Nat → Area × Nat × List Byte
  | s, _, _, [], n => (s, n, [])
  | s, i, destLength, c :: src, n =>
    if destLength = 0 then (s, n, c :: src)
    else
      encodeLoopAt (snprintfAt s i destLength (hexByte c)).1 (i + 2) (destLength - 2) src (n + 1)

def encodeBufferAt (s : Area) (i : Nat) (destLength : Int) (src : List Byte) : Area × Nat × Code :=
  if src = [] then
    if 2 < destLength then (s.write i [a.quote, a.quote, nul], 0, .success) else (s, 0, .nomem)
  else
    let r := encodeLoopAt s i destLength src 0
    (r.1, r.2.1, if r.2.2 = [] then .success else .nomem)

/-- `MPIU_Str_add_binary_arg` -/
def addBinaryArgAt (o : Output) (flag : List Char) (buffer : List Byte) : Output × Code :=
  match addFlagAt a o flag with
  | (o, .success) =>
    match encodeBufferAt a o.area o.strPtr o.maxlen buffer with
    | (s, n, .success) => finishAt a s (o.strPtr + 2 * n) (o.maxlen - 2 * n)
    | (s, _, code) => (⟨s.store o.strPtr nul, o.strPtr, o.maxlen⟩, code)
  | failed => failed

inductive Call
  | string (val : List Char)
  | stringArg (flag val : List Char)
  | binaryArg (flag : List Char) (buffer : List Byte)

def call (o : Output) : Call → Output × Code
  | .string val => addStringAt a o val
  | .stringArg flag val => addStringArgAt a o flag val
  | .binaryArg flag buffer => addBinaryArgAt a o flag buffer

end Functions

section Stores
variable (s : Area) (i j : Nat) (c : Char) (t : List Char)

@[simp] theorem store_size : (s.store i c).size = s.size := rfl

@[simp] theorem store_outside : (s.store i c).outside = false ↔ s.outside = false ∧ i < s.size := by
  simp [Area.store]

theorem store_same : (s.store i c).mem i = c := Function.update_self _ _ _

theorem store_other (h : j ≠ i) : (s.store i c).mem j = s.mem j := Function.update_of_ne h _ _

@[simp] theorem write_size : (s.write i t).size = s.size := by
  induction t generalizing s i with
  | nil => rfl
  | cons c t ih => rw [Area.write, ih, store_size]

theorem write_outside (h : i + t.length ≤ s.size) : (s.write i t).outside = false ↔ s.outside = false := by
  induction t generalizing s i with
  | nil => rfl
  | cons c t ih =>
    rw [List.length_cons] at h
    rw [Area.write, ih _ _ (by rw [store_size]; omega), store_outside]
    exact and_iff_left (by omega)

theorem write_before (h : j < i) : (s.write i t).mem j = s.mem j := by
  induction t generalizing s i with
  | nil => rfl
  | cons c t ih => rw [Area.write, ih _ _ (by omega), store_other _ _ _ _ (by omega)]

theorem write_get (h : j < t.length) : (s.write i t).mem (i + j) = t[j] := by
  induction t generalizing s i j with
  | nil => exact absurd h (Nat.not_lt_zero _)
  | cons c t ih =>
    rw [Area.write]
    cases j with
    | zero =>
      show ((s.store i c).write (i + 1) t).mem i = c
      rw [write_before _ _ _ _ (Nat.lt_add_one i), store_same]
    | succ j =>
      have hrest := ih (s.store i c) (i + 1) j (Nat.lt_of_succ_lt_succ h)
      rw [Nat.add_assoc, Nat.add_comm 1 j] at hrest
      exact hrest

theorem store_store (d : Char) : (s.store i c).store i d = s.store i d := by
  unfold Area.store
  rw [Function.update_idem, Bool.or_assoc]
  congr 2
  exact Bool.or_self _

theorem write_append (u : List Char) : s.write i (t ++ u) = (s.write i t).write (i + t.length) u := by
  induction t generalizing s i with
  | nil => rfl
  | cons c t ih =>
    show (s.store i c).write (i + 1) (t ++ u) = _
    rw [ih, List.length_cons, Nat.add_assoc, Nat.add_comm 1]
    rfl

theorem write_snoc : (s.write i t).store (i + t.length) c = s.write i (t ++ [c]) :=
  (write_append s i t [c]).symm

theorem write_terminated (d : Char) (u : List Char) :
    (s.write i (t ++ [d])).write (i + t.length) (c :: u) = s.write i (t ++ c :: u) := by
  rw [write_append, write_append]
  show (((s.write i t).store (i + t.length) d).store (i + t.length) c).write _ u = _
  rw [store_store]
  rfl

theorem store_terminated (d : Char) : (s.write i (t ++ [d])).store (i + t.length) c = s.write i (t ++ [c]) :=
  write_terminated s i c t d []

end Stores

section Printing
variable {a : Alphabet}

structure Printed (maxlen : Int) (t w : List Char) (n : Int) : Prop where
  nonneg : 0 ≤ n
  short : (w.length : Int) ≤ maxlen
  fits : n < maxlen ↔ (t.length : Int) < maxlen
  whole : n < maxlen → n = t.length ∧ w = t ++ [nul]

variable {maxlen : Int}

theorem snprintfAt_printed (s : Area) (i : Nat) (hmax : 0 ≤ maxlen)
    (t : List Char) : ∃ w, (snprintfAt s i maxlen t).1 = s.write i w ∧
      Printed maxlen t w (snprintfAt s i maxlen t).2 := by
  unfold snprintfAt
  by_cases hzero : maxlen = 0
  · refine ⟨[], by rw [if_pos hzero]; rfl, Int.natCast_nonneg _, by simpa using hmax, Iff.rfl, ?_⟩
    intro h
    dsimp only at h
    omega
  · refine ⟨_, by rw [if_neg hzero], Int.natCast_nonneg _, ?_, Iff.rfl, ?_⟩
    · have hneg : ¬ maxlen < 0 := by omega
      simp only [snprintf, if_neg hneg, List.length_append, List.length_take, List.length_singleton]
      omega
    · intro h
      refine ⟨rfl, ?_⟩
      rw [snprintf_of_room h]

variable (a) in
def quoted (s : List Char) : List Char := a.quote :: escaped a s ++ [a.quote]

theorem length_quotedBody_le (n : Nat) (val : List Char) : (quotedBody a n val).length ≤ n := by
  induction n, val using quotedBody.induct a with
  | case1 val => simp [quotedBody]
  | case2 n => simp [quotedBody]
  | case3 val => simp [quotedBody]
  | case4 c val hc => simp [quotedBody, hc]
  | case5 n val ih =>
    simp only [quotedBody, if_pos, List.length_cons]
    omega
  | case6 n c val hc ih =>
    simp only [quotedBody, if_neg hc, List.length_cons]
    omega

theorem quotedPrintf_fits (a : Alphabet) (val : List Char) (hpos : 1 ≤ maxlen) :
    (quotedPrintf a maxlen val).2 < maxlen ↔ ((quoted a val).length : Int) < maxlen := by
  have hneg : ¬ maxlen < 1 := by omega
  simp only [quotedPrintf, if_neg hneg, quoted, List.length_append, List.length_cons, List.length_nil]
  constructor
  · intro h
    rw [quotedBody_of_room (by omega), List.length_append, List.length_singleton] at h
    omega
  · intro h
    rw [quotedBody_of_escaped (by omega), List.length_append, List.length_singleton]
    omega

theorem quotedPrintf_le (hmax : 0 ≤ maxlen) (val : List Char) : (quotedPrintf a maxlen val).2 ≤ maxlen := by
  have hbody := length_quotedBody_le (a := a) (maxlen.toNat - 1) val
  unfold quotedPrintf
  split
  · exact hmax
  · simp only [List.length_cons]
    omega

theorem quotedPrintfAt_printed (s : Area) (i : Nat) (hmax : 0 ≤ maxlen)
    (val : List Char) : ∃ w, (quotedPrintfAt a s i maxlen val).1 = s.write i w ∧
      Printed maxlen (quoted a val) w (quotedPrintfAt a s i maxlen val).2 := by
  refine ⟨_, rfl, ?_⟩
  simp only [quotedPrintfAt]
  by_cases hpos : 1 ≤ maxlen
  · have hneg : ¬ maxlen < 1 := by omega
    have hcount : (quotedPrintf a maxlen val).2 = ((quotedPrintf a maxlen val).1.length : Int) := by
      simp only [quotedPrintf, if_neg hneg]
    have hle := quotedPrintf_le (a := a) hmax val
    refine ⟨by omega, ?_, quotedPrintf_fits _ _ hpos, ?_⟩
    · split
      · rw [List.length_append, List.length_singleton]
        omega
      · omega
    · intro h
      have htext := quotedPrintf_of_room hpos h
      rw [if_pos h, hcount, htext]
      exact ⟨rfl, rfl⟩
  · have hzero : maxlen = 0 := by omega
    subst hzero
    have hprint : quotedPrintf a 0 val = ([], 0) := rfl
    rw [hprint]
    refine ⟨Int.le_refl 0, by simp, ?_, fun h => absurd h (Int.lt_irrefl 0)⟩
    constructor <;> intro h <;> omega

variable (a) in
def flagText (flag : List Char) : List Char := if needsQuotes a flag then quoted a flag else flag

theorem printFlagAt_printed (s : Area) (i : Nat) (hmax : 0 ≤ maxlen)
    (flag : List Char) : ∃ w, (printFlagAt a s i maxlen flag).1 = s.write i w ∧
      Printed maxlen (flagText a flag) w (printFlagAt a s i maxlen flag).2 := by
  unfold printFlagAt flagText
  by_cases hq : needsQuotes a flag = true
  · rw [if_pos hq, if_pos hq]
    exact quotedPrintfAt_printed s i hmax flag
  · rw [if_neg hq, if_neg hq]
    exact snprintfAt_printed s i hmax flag

theorem printValAt_printed (s : Area) (i : Nat) (hmax : 0 ≤ maxlen)
    (val : List Char) : ∃ w, (printValAt a s i maxlen val).1 = s.write i w ∧
      Printed maxlen (token a val) w (printValAt a s i maxlen val).2 := by
  unfold printValAt token
  by_cases hq : needsQuotes a val = true
  · rw [if_pos hq, if_pos hq]
    exact quotedPrintfAt_printed s i hmax val
  · rw [if_neg hq, if_neg hq]
    by_cases hempty : val = []
    · rw [if_pos hempty, if_pos hempty]
      exact snprintfAt_printed s i hmax _
    · rw [if_neg hempty, if_neg hempty]
      exact snprintfAt_printed s i hmax val

end Printing

end FgMpi.Argstr.Stores
