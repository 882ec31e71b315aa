import FgMpi.Argstr.Binary
import FgMpi.Argstr.Stores

namespace FgMpi.Argstr.Atomicity
open Argstr.Encoding Argstr.RoundTrip Argstr.Stores

/-- The C string at the beginning of the buffer. -/
structure Holds (s : Area) (text : List Char) : Prop where
  chars : ∀ (i : Nat) (h : i < text.length), s.mem i = text[i]
  ended : s.mem text.length = nul

/-- A buffer that is filled up to the cursor, which is where the string ends. -/
structure Filled (o : Output) (text : List Char) : Prop where
  inside : o.area.outside = false
  holds : Holds o.area text
  strPtr : o.strPtr = text.length
  room : 1 ≤ o.maxlen
  size : (o.strPtr : Int) + o.maxlen = o.area.size

/-- Nothing is written outside the buffer; a successful call leaves a cursor with room at the end of
a string, and a failing one the string as it was. -/
structure Atomic (o : Output) (text : List Char) (r : Output × Code) : Prop where
  inside : r.1.area.outside = false
  succeeds : r.2 = .success → (r.1.strPtr : Int) + r.1.maxlen = o.strPtr + o.maxlen ∧
    1 ≤ r.1.maxlen ∧ r.1.area.mem r.1.strPtr = nul
  fails : r.2 ≠ .success → Holds r.1.area text

section Conditions
variable (a : Alphabet)

/-- There is room for all of it with the NUL, or not even for the key; a string that is not quoted
may also miss the room by exactly one character. -/
def Fits (maxlen : Int) : Call → Prop
  | .string val =>
    isSpecial a val = true ∨
      (if val = [] then 2 else (val.length : Int) + 1) ≤ maxlen
  | .stringArg flag val =>
    maxlen ≤ (flagText a flag).length ∨
      ((flagText a flag).length : Int) + (token a val).length + 3 ≤ maxlen
  | .binaryArg flag buffer =>
    maxlen ≤ (flagText a flag).length ∨
      ((flagText a flag).length : Int) + (if buffer = [] then 1 else 2 * (buffer.length : Int)) + 3
        ≤ maxlen

instance (maxlen : Int) : (c : Call) → Decidable (Fits a maxlen c)
  | .string _ => inferInstanceAs (Decidable (_ ∨ _))
  | .stringArg _ _ => inferInstanceAs (Decidable (_ ∨ _))
  | .binaryArg _ _ => inferInstanceAs (Decidable (_ ∨ _))

def Terminated : Call → Prop
  | .string val => nul ∉ val
  | .stringArg flag val => nul ∉ flag ∧ nul ∉ val
  | .binaryArg flag _ => nul ∉ flag

instance : (c : Call) → Decidable (Terminated c)
  | .string _ => inferInstanceAs (Decidable (_ ∉ _))
  | .stringArg _ _ => inferInstanceAs (Decidable (_ ∧ _))
  | .binaryArg _ _ => inferInstanceAs (Decidable (_ ∉ _))

end Conditions

/-- An alphabet without the NUL. -/
structure TextAlphabet extends Alphabet where
  visible : nul ∉ [delim, separ, quote, escape]

def standardText : TextAlphabet := ⟨standard, by decide⟩

section Lemmas
variable {s : Area} {text : List Char} {i : Nat}

theorem Holds.restored (h : Holds s text) (w : List Char) :
    Holds ((s.write text.length w).store text.length nul) text where
  chars j hj := by
    rw [store_other _ _ _ _ (Nat.ne_of_lt hj), write_before _ _ _ _ hj, h.chars j hj]
  ended := store_same _ _ _

end Lemmas

section Results
variable {o : Output} {text : List Char} {r : Output × Code}

theorem not_atomic (hfail : r.2 ≠ .success) (hmem : r.1.area.mem text.length ≠ nul) : ¬ Atomic o text r :=
  fun h => hmem (h.fails hfail).ended

theorem atomic_restored (h : Filled o text) {code : Code} (hcode : code ≠ .success) (m : Int)
    {w : List Char} (hw : (w.length : Int) ≤ o.maxlen) :
    Atomic o text (⟨(o.area.write o.strPtr w).store o.strPtr nul, o.strPtr, m⟩, code) where
  inside := by
    have hsize := h.size
    have hroom := h.room
    rw [store_outside, write_outside _ _ _ (by omega), write_size]
    exact ⟨h.inside, by omega⟩
  succeeds hs := absurd hs hcode
  fails _ := by
    rw [h.strPtr]
    exact h.holds.restored w

def added (o : Output) (w : List Char) : Output × Code :=
  (⟨o.area.write o.strPtr (w ++ [nul]), o.strPtr + w.length, o.maxlen - w.length⟩, .success)

theorem atomic_added (h : Filled o text) {w : List Char} (hw : (w.length : Int) < o.maxlen) :
    Atomic o text (added o w) where
  inside := by
    have hsize := h.size
    show (o.area.write o.strPtr (w ++ [nul])).outside = false
    rw [write_outside _ _ _ (by rw [List.length_append, List.length_singleton]; omega)]
    exact h.inside
  succeeds _ := by
    refine ⟨?_, ?_, ?_⟩
    · show ((o.strPtr + w.length : Nat) : Int) + (o.maxlen - w.length) = _
      omega
    · show 1 ≤ o.maxlen - (w.length : Int)
      omega
    · show (o.area.write o.strPtr (w ++ [nul])).mem (o.strPtr + w.length) = nul
      rw [write_get _ _ _ _ (by simp)]
      exact List.getElem_concat_length rfl _
  fails hf := absurd rfl hf

end Results

section Strings
variable {a : Alphabet} {o : Output} {text val : List Char}

theorem addStringAt_atomic_special (h : Filled o text) (hs : isSpecial a val = true) :
    Atomic o text (addStringAt a o val) := by
  have hroom := h.room
  have hle := quotedPrintf_le (a := a) (show 0 ≤ o.maxlen by omega) val
  obtain ⟨w, harea, hprinted⟩ := quotedPrintfAt_printed (a := a) o.area o.strPtr
    (show 0 ≤ o.maxlen by omega) val
  unfold addStringAt
  rw [if_pos hs]
  dsimp only
  rw [harea]
  by_cases hfull : (quotedPrintfAt a o.area o.strPtr o.maxlen val).2 = o.maxlen
  · rw [if_pos hfull]
    exact atomic_restored h (by decide) _ hprinted.short
  · have hlt : (quotedPrintfAt a o.area o.strPtr o.maxlen val).2 < o.maxlen :=
      Int.lt_iff_le_and_ne.mpr ⟨hle, hfull⟩
    obtain ⟨hcount, rfl⟩ := hprinted.whole hlt
    rw [if_neg hfull, hcount, Int.toNat_natCast, store_terminated]
    rw [hcount] at hlt
    by_cases hsepar : ((quoted a val).length : Int) < o.maxlen - 1
    · rw [if_pos hsepar]
      have hw : ((quoted a val ++ [a.separ]).length : Int) = (quoted a val).length + 1 := by
        rw [List.length_append, List.length_singleton]
        rfl
      have hadded := atomic_added h (w := quoted a val ++ [a.separ]) (by omega)
      unfold added at hadded
      rw [← write_snoc, hw, List.length_append, List.length_singleton, ← Nat.add_assoc] at hadded
      exact hadded
    · rw [if_neg hsepar]
      have hadded := atomic_added h hlt
      unfold added at hadded
      rw [store_terminated]
      exact hadded

def unquoted (a : Alphabet) (val : List Char) : List Char :=
  if val = [] then [a.quote, a.quote] else val ++ [a.separ]

theorem length_unquoted (val : List Char) : ((unquoted a val).length : Int) =
    if val = [] then 2 else (val.length : Int) + 1 := by
  unfold unquoted
  split <;> simp

theorem addStringAt_atomic_iff (h : Filled o text) (hs : isSpecial a val ≠ true) :
    Atomic o text (addStringAt a o val) ↔ ((unquoted a val).length : Int) ≤ o.maxlen := by
  have hroom := h.room
  obtain ⟨w, harea, hprinted⟩ := snprintfAt_printed o.area o.strPtr
    (show 0 ≤ o.maxlen by omega) (unquoted a val)
  have hcount : (snprintfAt o.area o.strPtr o.maxlen (unquoted a val)).2 = (unquoted a val).length := rfl
  unfold addStringAt
  rw [if_neg hs]
  dsimp only
  rw [← unquoted, harea, hcount]
  by_cases hfull : ((unquoted a val).length : Int) = o.maxlen
  · rw [if_pos hfull]
    exact iff_of_true (atomic_restored h (by decide) _ hprinted.short) (Int.le_of_eq hfull)
  · rw [if_neg hfull, Int.toNat_natCast]
    constructor
    · intro hatomic
      have hleft : 1 ≤ o.maxlen - ((unquoted a val).length : Int) := (hatomic.succeeds rfl).2.1
      omega
    · intro hle
      have hlt := Int.lt_iff_le_and_ne.mpr ⟨hle, hfull⟩
      obtain ⟨-, rfl⟩ := hprinted.whole hlt
      exact atomic_added h hlt

end Strings

section Keys
variable {a : Alphabet} {o : Output} {text flag : List Char}

theorem addFlagAt_fails (flag : List Char) (h : Filled o text) (hlen : o.maxlen ≤ ((flagText a flag).length : Int)) :
    (addFlagAt a o flag).2 ≠ .success ∧ Atomic o text (addFlagAt a o flag) := by
  have hroom := h.room
  obtain ⟨w, harea, hprinted⟩ := printFlagAt_printed (a := a) o.area o.strPtr
    (show 0 ≤ o.maxlen by omega) flag
  have hfits := hprinted.fits
  unfold addFlagAt
  rw [if_neg (by omega)]
  dsimp only
  rw [harea, if_pos (by omega)]
  exact ⟨nofun, atomic_restored h (by decide) _ hprinted.short⟩

theorem addFlagAt_succeeds (h : Filled o text) (hlen : ((flagText a flag).length : Int) < o.maxlen) :
    addFlagAt a o flag = (⟨o.area.write o.strPtr (flagText a flag ++ [a.delim]),
      o.strPtr + (flagText a flag).length + 1, o.maxlen - (flagText a flag).length - 1⟩,
      .success) := by
  have hroom := h.room
  obtain ⟨w, harea, hprinted⟩ := printFlagAt_printed (a := a) o.area o.strPtr
    (show 0 ≤ o.maxlen by omega) flag
  obtain ⟨hcount, rfl⟩ := hprinted.whole (hprinted.fits.mpr hlen)
  unfold addFlagAt
  rw [if_neg (by omega)]
  dsimp only
  rw [harea, hcount, if_neg (by omega), Int.toNat_natCast, store_terminated]

theorem quoted_eq (s : List Char) : quoted a s = a.quote :: (escaped a s ++ [a.quote]) := rfl

theorem flag_visible (hvisible : nul ∉ [a.delim, a.separ, a.quote, a.escape])
    (hflag : nul ∉ flag) (s : Area) (i : Nat) :
    (s.write i (flagText a flag ++ [a.delim])).mem i ≠ nul := by
  have hdelim : a.delim ≠ nul := fun h => hvisible (by simp [h])
  have hquote : a.quote ≠ nul := fun h => hvisible (by simp [h])
  have hpos : 0 < (flagText a flag ++ [a.delim]).length := by simp
  have hget : (s.write i (flagText a flag ++ [a.delim])).mem i =
      (flagText a flag ++ [a.delim])[0] := write_get s i 0 _ hpos
  rw [hget]
  unfold flagText at *
  by_cases hq : needsQuotes a flag = true
  · simp only [if_pos hq, quoted_eq, List.cons_append, List.getElem_cons_zero]
    exact hquote
  · simp only [if_neg hq]
    cases flag with
    | nil => exact hdelim
    | cons c flag => exact fun hc => hflag (by rw [← hc]; exact List.mem_cons_self)

theorem finishAt_fails {s : Area} {i : Nat} {left : Int} (h : left < 2) :
    (finishAt a s i left).2 ≠ .success ∧
      ∀ j < i, (finishAt a s i left).1.area.mem j = s.mem j := by
  unfold finishAt
  rw [if_pos h]
  exact ⟨nofun, fun j hj => store_other _ _ _ _ (Nat.ne_of_lt hj)⟩

theorem finishAt_succeeds (s : Area) (i : Nat) (t : List Char) {left : Int} (h : 2 ≤ left) :
    finishAt a (s.write i (t ++ [nul])) (i + t.length) left =
      (⟨s.write i (t ++ [a.separ] ++ [nul]), i + (t.length + 1), left - 1⟩, .success) := by
  unfold finishAt
  rw [if_neg (by omega), store_terminated, ← write_snoc s i nul (t ++ [a.separ]),
    List.length_append, List.length_singleton]
  rfl

end Keys

section Values
variable {a : Alphabet} {o : Output} {text flag val : List Char}

theorem addStringArgAt_of_fails (h : (addFlagAt a o flag).2 ≠ .success) :
    addStringArgAt a o flag val = addFlagAt a o flag := by
  unfold addStringArgAt
  split
  · next heq => exact absurd (congrArg Prod.snd heq) h
  · rfl

theorem addBinaryArgAt_of_fails {buffer : List Byte} (h : (addFlagAt a o flag).2 ≠ .success) :
    addBinaryArgAt a o flag buffer = addFlagAt a o flag := by
  unfold addBinaryArgAt
  split
  · next heq => exact absurd (congrArg Prod.snd heq) h
  · rfl

def addValAt (a : Alphabet) (o : Output) (val : List Char) : Output × Code :=
  let value := printValAt a o.area o.strPtr o.maxlen val
  finishAt a value.1 (o.strPtr + value.2.toNat) (o.maxlen - value.2)

theorem addValAt_fails (a : Alphabet) (val : List Char) (hmax : 0 ≤ o.maxlen) (hroom : o.maxlen < (token a val).length + 2) :
    (addValAt a o val).2 ≠ .success ∧
      ∀ j < o.strPtr, (addValAt a o val).1.area.mem j = o.area.mem j := by
  obtain ⟨w, harea, hprinted⟩ := printValAt_printed (a := a) o.area o.strPtr hmax val
  have hnonneg := hprinted.nonneg
  have hleft : o.maxlen - (printValAt a o.area o.strPtr o.maxlen val).2 < 2 := by
    rcases Int.lt_or_le (printValAt a o.area o.strPtr o.maxlen val).2 o.maxlen with hlt | hge
    · have hcount := (hprinted.whole hlt).1
      omega
    · omega
  obtain ⟨hcode, hmem⟩ := finishAt_fails (a := a)
    (s := (printValAt a o.area o.strPtr o.maxlen val).1)
    (i := o.strPtr + (printValAt a o.area o.strPtr o.maxlen val).2.toNat) hleft
  refine ⟨hcode, fun j hj => ?_⟩
  show (finishAt a _ _ _).1.area.mem j = _
  rw [hmem j (by omega), harea, write_before _ _ _ _ hj]

theorem addValAt_succeeds (hroom : ((token a val).length : Int) + 2 ≤ o.maxlen) :
    addValAt a o val = added o (token a val ++ [a.separ]) := by
  obtain ⟨w, harea, hprinted⟩ := printValAt_printed (a := a) o.area o.strPtr
    (show 0 ≤ o.maxlen by omega) val
  obtain ⟨hcount, rfl⟩ := hprinted.whole (hprinted.fits.mpr (by omega))
  unfold addValAt
  dsimp only
  rw [harea, hcount, Int.toNat_natCast, finishAt_succeeds _ _ _ (by omega)]
  unfold added
  rw [List.length_append, List.length_singleton, Int.sub_sub]
  rfl

theorem addStringArgAt_of_succeeds {o' : Output} (h : addFlagAt a o flag = (o', .success)) :
    addStringArgAt a o flag val = addValAt a o' val := by
  unfold addStringArgAt
  rw [h]
  rfl

theorem added_after (o : Output) (w w' : List Char) :
    added ⟨o.area.write o.strPtr w, o.strPtr + w.length, o.maxlen - w.length⟩ w' =
      added o (w ++ w') := by
  unfold added
  dsimp only
  rw [List.append_assoc, write_append o.area o.strPtr w (w' ++ [nul]), List.length_append,
    Nat.add_assoc, Int.sub_sub]
  rfl

theorem addFlagAt_written (h : Filled o text) (hkey : ((flagText a flag).length : Int) < o.maxlen) :
    addFlagAt a o flag = (⟨o.area.write o.strPtr (flagText a flag ++ [a.delim]),
      o.strPtr + (flagText a flag ++ [a.delim]).length,
      o.maxlen - (flagText a flag ++ [a.delim]).length⟩, .success) := by
  rw [addFlagAt_succeeds h hkey, List.length_append, List.length_singleton, Nat.add_assoc, Int.sub_sub]
  rfl

end Values

section Bytes
variable {a : Alphabet} {o : Output} {text flag : List Char}

theorem encodeLoopAt_count (s : Area) (i : Nat) (d : Int) (src : List Byte) (n : Nat) :
    (encodeLoopAt s i d src n).2.1 + (encodeLoopAt s i d src n).2.2.length = n + src.length := by
  induction src generalizing s i d n with
  | nil => rfl
  | cons c src ih =>
    unfold encodeLoopAt
    split
    · rfl
    · rw [ih, List.length_cons, Nat.add_assoc, Nat.add_comm 1]

theorem snprintfAt_before (s : Area) {i j : Nat} (d : Int) (t : List Char) (h : j < i) :
    (snprintfAt s i d t).1.mem j = s.mem j := by
  unfold snprintfAt
  dsimp only
  split
  · rfl
  · exact write_before _ _ _ _ h

theorem encodeLoopAt_before (s : Area) {i j : Nat} (d : Int) (src : List Byte) (n : Nat)
    (h : j < i) : (encodeLoopAt s i d src n).1.mem j = s.mem j := by
  induction src generalizing s i d n with
  | nil => rfl
  | cons c src ih =>
    unfold encodeLoopAt
    split
    · rfl
    · rw [ih _ _ _ (by omega), snprintfAt_before _ _ _ h]

theorem snprintfAt_of_room (s : Area) (i : Nat) {d : Int} {t : List Char} (h : (t.length : Int) < d) :
    (snprintfAt s i d t).1 = s.write i (t ++ [nul]) := by
  have hsnprintf : (snprintf d t).1 = t := snprintf_of_room h
  unfold snprintfAt
  dsimp only
  rw [if_neg (by omega), hsnprintf]

theorem encodeLoopAt_of_room (s : Area) (i : Nat) {d : Int} (c : Byte) (src : List Byte) (n : Nat)
    (h : 2 * ((c :: src).length : Int) < d) :
    encodeLoopAt s i d (c :: src) n =
      (s.write i ((c :: src).flatMap hexByte ++ [nul]), n + (c :: src).length, []) := by
  induction src generalizing s i d c n with
  | nil =>
    have hbyte : (((hexByte c).length : Nat) : Int) < d := h
    unfold encodeLoopAt
    rw [if_neg (by omega), snprintfAt_of_room _ _ hbyte]
    simp only [encodeLoopAt, List.flatMap_cons, List.flatMap_nil, List.append_nil, List.length_singleton]
  | cons c' src ih =>
    rw [List.length_cons] at h
    have hbyte : (((hexByte c).length : Nat) : Int) < d := by
      show (2 : Int) < d
      omega
    have hwrite : (s.write i (hexByte c ++ [nul])).write (i + 2)
        ((c' :: src).flatMap hexByte ++ [nul]) =
        s.write i ((c :: c' :: src).flatMap hexByte ++ [nul]) :=
      write_terminated s i (hexDigit (c'.toNat / 16)) (hexByte c) nul
        (hexDigit (c'.toNat % 16) :: src.flatMap hexByte ++ [nul])
    unfold encodeLoopAt
    rw [if_neg (by omega), snprintfAt_of_room _ _ hbyte, ih _ _ c' _ (by omega), hwrite,
      Nat.add_assoc, Nat.add_comm 1]
    rfl

def addBytesAt (a : Alphabet) (o : Output) (buffer : List Byte) : Output × Code :=
  match encodeBufferAt a o.area o.strPtr o.maxlen buffer with
  | (s, n, .success) => finishAt a s (o.strPtr + 2 * n) (o.maxlen - 2 * n)
  | (s, _, code) => (⟨s.store o.strPtr nul, o.strPtr, o.maxlen⟩, code)

theorem addBinaryArgAt_of_succeeds {o' : Output} {buffer : List Byte}
    (h : addFlagAt a o flag = (o', .success)) :
    addBinaryArgAt a o flag buffer = addBytesAt a o' buffer := by
  unfold addBinaryArgAt
  rw [h]
  rfl

theorem encodeBufferAt_before (s : Area) {i j : Nat} (d : Int) (src : List Byte) (h : j < i) :
    (encodeBufferAt a s i d src).1.mem j = s.mem j := by
  unfold encodeBufferAt
  split
  · split
    · exact write_before _ _ _ _ h
    · rfl
  · exact encodeLoopAt_before _ _ _ _ h

theorem encodeBufferAt_count (s : Area) (i : Nat) (d : Int) (src : List Byte)
    (h : (encodeBufferAt a s i d src).2.2 = .success) :
    (encodeBufferAt a s i d src).2.1 = src.length ∧ (src = [] → 2 < d) := by
  have hcount := encodeLoopAt_count s i d src 0
  unfold encodeBufferAt at *
  by_cases hempty : src = []
  · subst hempty
    rw [if_pos rfl] at h ⊢
    by_cases hd : 2 < d
    · rw [if_pos hd]
      exact ⟨rfl, fun _ => hd⟩
    · rw [if_neg hd] at h
      exact absurd h nofun
  · rw [if_neg hempty] at h ⊢
    dsimp only at h ⊢
    by_cases hrest : (encodeLoopAt s i d src 0).2.2 = []
    · rw [hrest, List.length_nil] at hcount
      exact ⟨by omega, fun hs => absurd hs hempty⟩
    · rw [if_neg hrest] at h
      exact absurd h nofun

def bytesRoom (buffer : List Byte) : Int :=
  (if buffer = [] then 1 else 2 * (buffer.length : Int)) + 2

theorem addBytesAt_fails (a : Alphabet) (buffer : List Byte) (hroom : o.maxlen < bytesRoom buffer) :
    (addBytesAt a o buffer).2 ≠ .success ∧
      ∀ j < o.strPtr, (addBytesAt a o buffer).1.area.mem j = o.area.mem j := by
  have hbefore : ∀ j < o.strPtr,
      (encodeBufferAt a o.area o.strPtr o.maxlen buffer).1.mem j = o.area.mem j :=
    fun j hj => encodeBufferAt_before _ _ _ hj
  have hcount := encodeBufferAt_count (a := a) o.area o.strPtr o.maxlen buffer
  unfold addBytesAt
  generalize encodeBufferAt a o.area o.strPtr o.maxlen buffer = r at hbefore hcount ⊢
  obtain ⟨s, n, code⟩ := r
  cases code with
  | success =>
    obtain ⟨hn, hempty⟩ := hcount rfl
    dsimp only at hn hbefore ⊢
    have hleft : o.maxlen - 2 * (n : Int) < 2 := by
      unfold bytesRoom at hroom
      split at hroom
      · next h => have hmax := hempty h; omega
      · omega
    obtain ⟨hcode, hmem⟩ := finishAt_fails (a := a) (s := s) (i := o.strPtr + 2 * n) hleft
    exact ⟨hcode, fun j hj => (hmem j (by omega)).trans (hbefore j hj)⟩
  | fail =>
    exact ⟨nofun, fun j hj => (store_other _ _ _ _ (Nat.ne_of_lt hj)).trans (hbefore j hj)⟩
  | nomem =>
    exact ⟨nofun, fun j hj => (store_other _ _ _ _ (Nat.ne_of_lt hj)).trans (hbefore j hj)⟩

theorem addBytesAt_succeeds (c : Byte) (src : List Byte) (hroom : bytesRoom (c :: src) ≤ o.maxlen) :
    addBytesAt a o (c :: src) = added o ((c :: src).flatMap hexByte ++ [a.separ]) := by
  have hlen : ((c :: src).flatMap hexByte).length = 2 * (c :: src).length := Binary.length_hex _
  unfold bytesRoom at hroom
  rw [if_neg (List.cons_ne_nil _ _)] at hroom
  have hencode : encodeBufferAt a o.area o.strPtr o.maxlen (c :: src) =
      (o.area.write o.strPtr ((c :: src).flatMap hexByte ++ [nul]), (c :: src).length,
        .success) := by
    unfold encodeBufferAt
    rw [if_neg (List.cons_ne_nil _ _), encodeLoopAt_of_room _ _ _ _ _ (by omega)]
    dsimp only
    rw [if_pos rfl, Nat.zero_add]
  unfold addBytesAt added
  rw [hencode]
  dsimp only
  rw [← hlen, finishAt_succeeds _ _ _ (by omega), List.length_append, List.length_singleton, hlen,
    Int.sub_sub]
  rfl

theorem addBytesAt_nil (hroom : bytesRoom [] ≤ o.maxlen) :
    addBytesAt a o [] = (⟨((o.area.write o.strPtr [a.quote, a.quote, nul]).store o.strPtr
      a.separ).store (o.strPtr + 1) nul, o.strPtr + 1, o.maxlen - 1⟩, .success) := by
  have hmax : 2 < o.maxlen := hroom
  unfold addBytesAt encodeBufferAt finishAt
  rw [if_pos rfl, if_pos hmax]
  dsimp only
  have hzero : o.maxlen - 2 * ((0 : Nat) : Int) = o.maxlen := by omega
  rw [hzero, if_neg (by omega)]
  rfl

end Bytes

section Calls
variable {a : Alphabet} {o : Output} {text flag val : List Char} {buffer : List Byte}

theorem not_atomic_behind {r : Output × Code}
    (hvisible : nul ∉ [a.delim, a.separ, a.quote, a.escape]) (hflag : nul ∉ flag)
    (h : Filled o text) (hfail : r.2 ≠ .success)
    (hmem : ∀ j < o.strPtr + (flagText a flag ++ [a.delim]).length, r.1.area.mem j =
      (o.area.write o.strPtr (flagText a flag ++ [a.delim])).mem j) : ¬ Atomic o text r := by
  apply not_atomic hfail
  rw [← h.strPtr, hmem _ (by rw [List.length_append, List.length_singleton]; omega)]
  exact flag_visible hvisible hflag _ _

theorem length_key (a : Alphabet) (flag : List Char) : ((flagText a flag ++ [a.delim]).length : Int) =
    (flagText a flag).length + 1 := by
  rw [List.length_append, List.length_singleton]
  rfl

theorem stringArg_atomic_iff (hvisible : nul ∉ [a.delim, a.separ, a.quote, a.escape])
    (hflag : nul ∉ flag) (h : Filled o text) :
    Atomic o text (addStringArgAt a o flag val) ↔ Fits a o.maxlen (.stringArg flag val) := by
  have hlen := length_key a flag
  unfold Fits
  rcases Int.lt_or_le ((flagText a flag).length : Int) o.maxlen with hkey | hkey
  · rw [addStringArgAt_of_succeeds (addFlagAt_written h hkey)]
    by_cases hroom : ((flagText a flag).length : Int) + (token a val).length + 3 ≤ o.maxlen
    · refine iff_of_true ?_ (.inr hroom)
      rw [addValAt_succeeds (by dsimp only; omega), added_after]
      apply atomic_added h
      simp only [List.length_append, List.length_singleton]
      omega
    · refine iff_of_false ?_ (by omega)
      obtain ⟨hcode, hmem⟩ := addValAt_fails a val
        (o := ⟨o.area.write o.strPtr (flagText a flag ++ [a.delim]),
          o.strPtr + (flagText a flag ++ [a.delim]).length,
          o.maxlen - (flagText a flag ++ [a.delim]).length⟩)
        (by dsimp only; omega) (by dsimp only; omega)
      exact not_atomic_behind hvisible hflag h hcode hmem
  · obtain ⟨hcode, hatomic⟩ := addFlagAt_fails flag h hkey
    rw [addStringArgAt_of_fails hcode]
    exact iff_of_true hatomic (.inl hkey)

theorem addBytesAt_nil_atomic (h : Filled o text)
    (hroom : ((flagText a flag).length : Int) + 1 + bytesRoom [] ≤ o.maxlen) :
    Atomic o text (addBytesAt a ⟨o.area.write o.strPtr (flagText a flag ++ [a.delim]),
      o.strPtr + (flagText a flag ++ [a.delim]).length,
      o.maxlen - (flagText a flag ++ [a.delim]).length⟩ []) := by
  have hlen := length_key a flag
  have hsize := h.size
  have hthree : bytesRoom [] = 3 := rfl
  rw [addBytesAt_nil (by dsimp only; omega)]
  refine ⟨?_, fun _ => ⟨?_, ?_, store_same _ _ _⟩, fun hf => absurd rfl hf⟩
  · dsimp only
    simp only [store_outside, store_size, write_size]
    rw [write_outside _ _ _ (by simp only [write_size, List.length_cons, List.length_nil]; omega),
      write_outside _ _ _ (by omega)]
    exact ⟨⟨h.inside, by omega⟩, by omega⟩
  · dsimp only
    omega
  · dsimp only
    omega

theorem binaryArg_atomic_iff (hvisible : nul ∉ [a.delim, a.separ, a.quote, a.escape])
    (hflag : nul ∉ flag) (h : Filled o text) :
    Atomic o text (addBinaryArgAt a o flag buffer) ↔ Fits a o.maxlen (.binaryArg flag buffer) := by
  have hlen := length_key a flag
  have hbytes : bytesRoom buffer + 1 =
      (if buffer = [] then 1 else 2 * (buffer.length : Int)) + 3 :=
    Int.add_assoc _ 2 1
  unfold Fits
  rcases Int.lt_or_le ((flagText a flag).length : Int) o.maxlen with hkey | hkey
  · rw [addBinaryArgAt_of_succeeds (addFlagAt_written h hkey)]
    by_cases hroom : ((flagText a flag).length : Int) + 1 + bytesRoom buffer ≤ o.maxlen
    · refine iff_of_true ?_ (.inr (by omega))
      cases buffer with
      | nil => exact addBytesAt_nil_atomic h hroom
      | cons c src =>
        rw [addBytesAt_succeeds c src (by dsimp only; omega), added_after]
        apply atomic_added h
        have hhex : ((c :: src).flatMap hexByte).length = 2 * (c :: src).length := Binary.length_hex _
        unfold bytesRoom at hroom
        rw [if_neg (List.cons_ne_nil _ _)] at hroom
        simp only [List.length_append, List.length_singleton, hhex]
        omega
    · refine iff_of_false ?_ (by omega)
      obtain ⟨hcode, hmem⟩ := addBytesAt_fails a buffer
        (o := ⟨o.area.write o.strPtr (flagText a flag ++ [a.delim]),
          o.strPtr + (flagText a flag ++ [a.delim]).length,
          o.maxlen - (flagText a flag ++ [a.delim]).length⟩) (by dsimp only; omega)
      exact not_atomic_behind hvisible hflag h hcode hmem
  · obtain ⟨hcode, hatomic⟩ := addFlagAt_fails flag h hkey
    rw [addBinaryArgAt_of_fails hcode]
    exact iff_of_true hatomic (.inl hkey)

end Calls

/-- A writer is all or nothing exactly when what it adds fits, or the key alone does not. -/
theorem atomic_iff (a : TextAlphabet) {o : Output} {text : List Char} (h : Filled o text) (c : Call)
    (hc : Terminated c) :
    Atomic o text (call a.toAlphabet o c) ↔ Fits a.toAlphabet o.maxlen c := by
  cases c with
  | string val =>
    show Atomic o text (addStringAt a.toAlphabet o val) ↔ _
    unfold Fits
    by_cases hs : isSpecial a.toAlphabet val = true
    · exact iff_of_true (addStringAt_atomic_special h hs) (.inl hs)
    · rw [addStringAt_atomic_iff h hs, length_unquoted]
      exact (or_iff_right hs).symm
  | stringArg flag val => exact stringArg_atomic_iff a.visible hc.1 h
  | binaryArg flag buffer => exact binaryArg_atomic_iff a.visible hc h

/- The other token set. -/
example : nul ∉
    [humanReadable.delim, humanReadable.separ, humanReadable.quote, humanReadable.escape] := by
  decide

def empty : Output := ⟨⟨16, fun _ => nul, false⟩, 0, 16⟩

theorem atomic_empty : Atomic empty [] (call standard empty (.stringArg ['k', 'e', 'y'] ['a', ' ', 'b'])) :=
  (atomic_iff standardText
    ⟨rfl, ⟨fun _ h => absurd h (Nat.not_lt_zero _), rfl⟩, rfl, by decide, rfl⟩
    (.stringArg ['k', 'e', 'y'] ['a', ' ', 'b']) (by decide)).mpr (by decide)

theorem partial_visible :
    ¬ Atomic ⟨⟨4, fun _ => nul, false⟩, 0, 4⟩ []
      (call standard ⟨⟨4, fun _ => nul, false⟩, 0, 4⟩ (.stringArg ['k'] ['v'])) ∧
    (call standard ⟨⟨2, fun _ => nul, false⟩, 0, 2⟩ (.string ['a', 'b'])).2 = .success ∧
    (call standard ⟨⟨2, fun _ => nul, false⟩, 0, 2⟩ (.string ['a', 'b'])).1.maxlen = -1 :=
  ⟨fun h => absurd ((h.fails (by decide)).ended) (by decide), by decide, by decide⟩

end FgMpi.Argstr.Atomicity
