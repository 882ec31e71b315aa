import FgMpi.Machine.Ints
import Mathlib.Data.List.TakeWhile
import Mathlib.Tactic.Linarith

/-! `parse_mapping` (`mpid/ch3/src/mpid_vc.c:866`). -/

namespace FgMpi.Procmap.Mapping
open Machine.Ints

def isSpace (c : Char) : Bool := c = ' ' ∨ ('\t' ≤ c ∧ c ≤ '\r')

def digitValue (c : Char) : Nat :=
  if c.isDigit then c.toNat - '0'.toNat
  else if 'a' ≤ c ∧ c ≤ 'f' then c.toNat - 'a'.toNat + 10
  else if 'A' ≤ c ∧ c ≤ 'F' then c.toNat - 'A'.toNat + 10
  else 16

def readDigits (base : Nat) : Nat → List Char → Nat × List Char
  | value, [] => (value, [])
  | value, c :: cs => if digitValue c < base then readDigits base (base * value + digitValue c) cs else (value, c :: cs)

/-- `strtol` with base 0 at a digit, before the value is bounded. -/
def strtol : List Char → Nat × List Char
  | '0' :: x :: d :: cs =>
    if (x = 'x' ∨ x = 'X') ∧ digitValue d < 16 then readDigits 16 0 (d :: cs) else readDigits 8 0 ('0' :: x :: d :: cs)
  | '0' :: cs => readDigits 8 0 ('0' :: cs)
  | cs => readDigits 10 0 cs

/-- `LONG_MAX` for larger values, and then as `int`. -/
def longInt (value : Nat) : Int := toInt (min value (2 ^ 63 - 1) : Nat)

def isIdent (c : Char) : Bool := c.isAlphanum ∨ c = '-' ∨ c = '_'

def skipSpace (c : List Char) : List Char := c.dropWhile isSpace

def expectAndSkip (e : Char) : List Char → Option (List Char)
  | [] => none
  | c :: cs => if c = e then some cs else none

def vector : List Char := ['v', 'e', 'c', 't', 'o', 'r']

/-- `expect_s(d, VECTOR)`; what is behind it. -/
def expectVector (d : List Char) : Option (List Char) :=
  if d.take vector.length = vector ∧ ¬ (d.drop vector.length).head?.any isIdent then some (d.drop vector.length) else none

/-- `map_block_t`. -/
structure MapBlock where
  startId : Int
  count : Int
  size : Int
deriving Repr, DecidableEq

def parseNum (c : List Char) : Option (Int × List Char) :=
  if c.head?.any Char.isDigit then some (longInt (strtol c).1, (strtol c).2) else none

def parseBlock (c : List Char) : Option (MapBlock × List Char) := do
  let c ← expectAndSkip ',' c
  let c ← expectAndSkip '(' (skipSpace c)
  let (startId, c) ← parseNum (skipSpace c)
  let c ← expectAndSkip ',' (skipSpace c)
  let (count, c) ← parseNum (skipSpace c)
  let c ← expectAndSkip ',' (skipSpace c)
  let (size, c) ← parseNum (skipSpace c)
  let c ← expectAndSkip ')' c
  some (⟨startId, count, size⟩, skipSpace c)

def parseBlocks : Nat → List Char → Option (List MapBlock × List Char)
  | 0, c => some ([], c)
  | i + 1, c => do
    let (block, c) ← parseBlock c
    let (map, c) ← parseBlocks i c
    some (block :: map, c)

/-- `mapping_type_t`, with the map. -/
inductive MappingType
  | null
  | vector (map : List MapBlock)
deriving DecidableEq

/-- `parse_mapping`; `none` is a parse error. -/
def parseMapping (mapStr : List Char) : Option MappingType :=
  if mapStr = [] then some .null
  else do
    let c ← expectAndSkip '(' (skipSpace mapStr)
    let c ← expectVector (skipSpace c)
    let c := skipSpace c
    let (map, c) ← parseBlocks (c.count '(') c
    let _ ← expectAndSkip ')' c
    some (.vector map)

abbrev Spaces := { l : List Char // ∀ c ∈ l, isSpace c = true }

def Digits (base : Nat) (ds : List Char) : Prop := ∀ d ∈ ds, digitValue d < base

def number (base : Nat) (ds : List Char) : Nat := ds.foldl (fun value d => base * value + digitValue d) 0

/-- An integer constant as in C. -/
inductive IsNum : List Char → Nat → Prop
  | decimal (d : Char) (ds : List Char) (first : d ≠ '0') (digits : Digits 10 (d :: ds)) :
    IsNum (d :: ds) (number 10 (d :: ds))
  | octal (ds : List Char) (digits : Digits 8 ds) : IsNum ('0' :: ds) (number 8 ds)
  | hexadecimal (x d : Char) (ds : List Char) (letter : x = 'x' ∨ x = 'X') (digits : Digits 16 (d :: ds)) :
    IsNum ('0' :: x :: d :: ds) (number 16 (d :: ds))

structure Num where
  text : List Char
  value : Nat
  isNum : IsNum text value

structure Field where
  before : Spaces
  num : Num
  after : Spaces

structure Triple where
  space : Spaces
  startId : Field
  count : Field
  size : Field
  after : Spaces

/-- `'(' vector` and the triples up to the closing parenthesis, and what is behind it. -/
structure Written where
  before : Spaces
  inside : Spaces
  afterVector : Spaces
  triples : List Triple
  tail : List Char

def Field.text (f : Field) : List Char := f.before.val ++ f.num.text ++ f.after.val

def Triple.text (t : Triple) : List Char :=
  ',' :: t.space.val ++ '(' :: t.startId.text ++ ',' :: t.count.text ++ ',' :: t.size.text ++ ')' :: t.after.val

def Written.text (w : Written) : List Char :=
  w.before.val ++ '(' :: w.inside.val ++ vector ++ w.afterVector.val ++ w.triples.flatMap Triple.text ++ ')' :: w.tail

def Triple.values (t : Triple) : MapBlock := ⟨t.startId.num.value, t.count.num.value, t.size.num.value⟩

def Grammar (s : List Char) (map : List MapBlock) : Prop :=
  ∃ w : Written, w.text = s ∧ w.triples ≠ [] ∧ w.tail = [] ∧ map = w.triples.map Triple.values

/-- Exactly the strings of the grammar are accepted, with their triples; every other one that is not empty is an
error. -/
def AcceptsRight (s : List Char) : Prop :=
  (∀ map, parseMapping s = some (.vector map) ↔ Grammar s map) ∧
    (s ≠ [] → (∀ map, ¬ Grammar s map) → parseMapping s = none)

def Triple.Tight (t : Triple) : Prop := t.size.after.val = []

def Triple.Fits (t : Triple) : Prop :=
  t.startId.num.value < 2 ^ 31 ∧ t.count.num.value < 2 ^ 31 ∧ t.size.num.value < 2 ^ 31

def Written.Taken (w : Written) : Prop := (∀ t ∈ w.triples, t.Tight) ∧ '(' ∉ w.tail

def Written.Proper (w : Written) : Prop := w.triples ≠ [] ∧ w.tail = []

def Written.Agrees (w : Written) : Prop := (w.Taken ↔ w.Proper) ∧ (w.Proper → ∀ t ∈ w.triples, t.Fits)

section Characters
variable {c : Char} {base : Nat}

theorem isSpace_iff : isSpace c = true ↔ c.toNat = 32 ∨ (9 ≤ c.toNat ∧ c.toNat ≤ 13) := by
  unfold isSpace
  rw [decide_eq_true_iff, ← Char.toNat_inj]
  rfl

theorem isDigit_iff : c.isDigit = true ↔ 48 ≤ c.toNat ∧ c.toNat ≤ 57 := by
  unfold Char.isDigit
  rw [Bool.and_eq_true, decide_eq_true_iff, decide_eq_true_iff]
  rfl

theorem isAlphanum_iff : c.isAlphanum = true ↔
    (65 ≤ c.toNat ∧ c.toNat ≤ 90) ∨ (97 ≤ c.toNat ∧ c.toNat ≤ 122) ∨ (48 ≤ c.toNat ∧ c.toNat ≤ 57) := by
  unfold Char.isAlphanum Char.isAlpha
  rw [Bool.or_eq_true, Bool.or_eq_true, isDigit_iff, or_assoc]
  unfold Char.isUpper Char.isLower
  rw [decide_eq_true_iff, Bool.and_eq_true, decide_eq_true_iff, decide_eq_true_iff]
  rfl

theorem digitValue_lt_ten : digitValue c < 10 ↔ c.isDigit = true := by
  have hzero : '0'.toNat = 48 := rfl
  unfold digitValue
  by_cases hdigit : c.isDigit = true
  · rw [if_pos hdigit]
    rw [isDigit_iff] at hdigit ⊢
    omega
  · rw [if_neg hdigit]
    refine iff_of_false ?_ hdigit
    split
    · omega
    · split <;> omega

theorem isAlphanum_of_digitValue (h : digitValue c < 16) : c.isAlphanum = true := by
  rw [isAlphanum_iff]
  unfold digitValue at h
  by_cases hdigit : c.isDigit = true
  · rw [isDigit_iff] at hdigit
    omega
  · rw [if_neg hdigit] at h
    by_cases hlower : 'a' ≤ c ∧ c ≤ 'f'
    · have hle : 97 ≤ c.toNat ∧ c.toNat ≤ 102 := hlower
      omega
    · rw [if_neg hlower] at h
      by_cases hupper : 'A' ≤ c ∧ c ≤ 'F'
      · have hle : 65 ≤ c.toNat ∧ c.toNat ≤ 70 := hupper
        omega
      · rw [if_neg hupper] at h
        exact absurd h (Nat.lt_irrefl 16)

theorem not_space_of_alphanum (h : c.isAlphanum = true) : isSpace c = false := by
  rw [Bool.eq_false_iff, ne_eq, isSpace_iff]
  rw [isAlphanum_iff] at h
  omega

theorem not_alphanum_of_space (h : isSpace c = true) : c.isAlphanum = false := by
  rw [Bool.eq_false_iff]
  intro halnum
  rw [not_space_of_alphanum halnum] at h
  exact nomatch h

end Characters

section Spans
variable {α : Type} {p : α → Bool} {a a' r r' : List α} {c c' : α}

theorem dropWhile_span (ha : ∀ x ∈ a, p x = true) (hc : p c = false) : (a ++ c :: r).dropWhile p = c :: r := by
  rw [List.dropWhile_append_of_pos ha, List.dropWhile_cons_of_neg]
  simp [hc]

theorem span_inj (ha : ∀ x ∈ a, p x = true) (ha' : ∀ x ∈ a', p x = true) (hc : p c = false) (hc' : p c' = false)
    (h : a ++ c :: r = a' ++ c' :: r') : a = a' ∧ c = c' ∧ r = r' := by
  have hdrop := congrArg (List.dropWhile p) h
  rw [dropWhile_span ha hc, dropWhile_span ha' hc'] at hdrop
  obtain ⟨rfl, rfl⟩ := List.cons.inj hdrop
  exact ⟨List.append_cancel_right h, rfl, rfl⟩

end Spans

section Numbers
variable {base value : Nat} {ds r text s : List Char}

def Stops (r : List Char) : Prop := ∀ c ∈ r.head?, c.isAlphanum = false

theorem readDigits_append (hbase : base ≤ 16) (hds : Digits base ds) (hr : Stops r) :
    readDigits base value (ds ++ r) = (ds.foldl (fun value d => base * value + digitValue d) value, r) := by
  induction ds generalizing value with
  | nil =>
    cases r with
    | nil => rfl
    | cons c r =>
      have hc := hr c rfl
      refine if_neg ?_
      intro hlt
      rw [isAlphanum_of_digitValue (by omega)] at hc
      exact nomatch hc
  | cons d ds ih =>
    obtain ⟨hd, hrest⟩ := List.forall_mem_cons.mp hds
    rw [List.cons_append]
    unfold readDigits
    rw [if_pos hd, ih hrest]
    rfl

theorem readDigits_eq (base value : Nat) (s : List Char) :
    ∃ ds r, s = ds ++ r ∧ Digits base ds ∧
      readDigits base value s = (ds.foldl (fun value d => base * value + digitValue d) value, r) := by
  induction s generalizing value with
  | nil => exact ⟨[], [], rfl, fun _ hd => absurd hd List.not_mem_nil, rfl⟩
  | cons c s ih =>
    unfold readDigits
    by_cases hc : digitValue c < base
    · obtain ⟨ds, r, rfl, hds, hread⟩ := ih (base * value + digitValue c)
      rw [if_pos hc, hread]
      exact ⟨c :: ds, r, rfl, List.forall_mem_cons.mpr ⟨hc, hds⟩, rfl⟩
    · rw [if_neg hc]
      exact ⟨[], c :: s, rfl, fun _ hd => absurd hd List.not_mem_nil, rfl⟩

theorem strtol_of_ne {d : Char} (hd : d ≠ '0') : strtol (d :: s) = readDigits 10 0 (d :: s) := by
  unfold strtol
  split
  · next heq => exact absurd (List.cons.inj heq).1 hd
  · next heq => exact absurd (List.cons.inj heq).1 hd
  · rfl

theorem strtol_zero (hs : ∀ c ∈ s.head?, c ≠ 'x' ∧ c ≠ 'X') : strtol ('0' :: s) = readDigits 8 0 s := by
  cases s with
  | nil => rfl
  | cons x s =>
    cases s with
    | nil => rfl
    | cons d s =>
      have hx := hs x rfl
      exact if_neg fun h => h.1.elim hx.1 hx.2

theorem strtol_hexadecimal {x d : Char} (hx : x = 'x' ∨ x = 'X') (hd : digitValue d < 16) :
    strtol ('0' :: x :: d :: s) = readDigits 16 0 (d :: s) := if_pos ⟨hx, hd⟩

theorem not_letter_of_octal {c : Char} (hc : digitValue c < 8) : c ≠ 'x' ∧ c ≠ 'X' := by
  constructor <;> rintro rfl <;> exact absurd hc (by decide)

theorem strtol_append (h : IsNum text value) (hr : Stops r) : strtol (text ++ r) = (value, r) := by
  cases h with
  | decimal d ds first digits =>
    rw [List.cons_append, strtol_of_ne first, ← List.cons_append]
    exact readDigits_append (by decide) digits hr
  | octal ds digits =>
    rw [List.cons_append, strtol_zero]
    · exact readDigits_append (by decide) digits hr
    · intro c hc
      cases ds with
      | nil =>
        have hstop := hr c hc
        constructor <;> rintro rfl <;> exact nomatch hstop
      | cons d ds =>
        obtain rfl : d = c := Option.some.inj hc
        exact not_letter_of_octal (digits d List.mem_cons_self)
  | hexadecimal x d ds letter digits =>
    show strtol ('0' :: x :: d :: (ds ++ r)) = _
    rw [strtol_hexadecimal letter (digits d List.mem_cons_self), ← List.cons_append]
    exact readDigits_append (by decide) digits hr

theorem strtol_eq (hs : s.head?.any Char.isDigit = true) :
    ∃ n : Num, s = n.text ++ (strtol s).2 ∧ (strtol s).1 = n.value := by
  cases s with
  | nil => exact nomatch hs
  | cons d s =>
    have hd : d.isDigit = true := hs
    by_cases hzero : d = '0'
    · subst hzero
      by_cases hhex : ∃ x e t, s = x :: e :: t ∧ (x = 'x' ∨ x = 'X') ∧ digitValue e < 16
      · obtain ⟨x, e, t, rfl, hx, he⟩ := hhex
        obtain ⟨ds, r, rfl, hds, hread⟩ := readDigits_eq 16 (16 * 0 + digitValue e) t
        have hdigits : Digits 16 (e :: ds) := List.forall_mem_cons.mpr ⟨he, hds⟩
        rw [strtol_hexadecimal hx he]
        unfold readDigits
        rw [if_pos he, hread]
        exact ⟨⟨_, _, .hexadecimal x e ds hx hdigits⟩, rfl, rfl⟩
      · have hoctal : strtol ('0' :: s) = readDigits 8 0 s := by
          cases s with
          | nil => rfl
          | cons x s =>
            cases s with
            | nil => rfl
            | cons e s => exact if_neg fun h => hhex ⟨x, e, s, rfl, h⟩
        obtain ⟨ds, r, rfl, hds, hread⟩ := readDigits_eq 8 0 s
        rw [hoctal, hread]
        exact ⟨⟨_, _, .octal ds hds⟩, rfl, rfl⟩
    · obtain ⟨ds, r, rfl, hds, hread⟩ := readDigits_eq 10 (10 * 0 + digitValue d) s
      have hlt : digitValue d < 10 := digitValue_lt_ten.mpr hd
      rw [strtol_of_ne hzero]
      unfold readDigits
      rw [if_pos hlt, hread]
      exact ⟨⟨_, _, .decimal d ds hzero (List.forall_mem_cons.mpr ⟨hlt, hds⟩)⟩, rfl, rfl⟩

theorem alphanum_of_digits (hbase : base ≤ 16) (hds : Digits base ds) : ∀ c ∈ ds, c.isAlphanum = true :=
  fun c hc => isAlphanum_of_digitValue (Nat.lt_of_lt_of_le (hds c hc) hbase)

theorem IsNum.alphanum (h : IsNum text value) : ∀ c ∈ text, c.isAlphanum = true := by
  cases h with
  | decimal d ds first digits => exact alphanum_of_digits (by decide) digits
  | octal ds digits => exact List.forall_mem_cons.mpr ⟨rfl, alphanum_of_digits (by decide) digits⟩
  | hexadecimal x d ds letter digits =>
    refine List.forall_mem_cons.mpr ⟨rfl, List.forall_mem_cons.mpr ⟨?_, alphanum_of_digits (by decide) digits⟩⟩
    rcases letter with rfl | rfl <;> rfl

theorem IsNum.first (h : IsNum text value) : ∃ d ds, text = d :: ds ∧ d.isDigit = true := by
  cases h with
  | decimal d ds first digits => exact ⟨d, ds, rfl, digitValue_lt_ten.mp (digits d List.mem_cons_self)⟩
  | octal ds digits => exact ⟨'0', ds, rfl, rfl⟩
  | hexadecimal x d ds letter digits => exact ⟨'0', x :: d :: ds, rfl, rfl⟩

theorem IsNum.unique {value' : Nat} (h : IsNum text value) (h' : IsNum text value') : value = value' := by
  have hstop : Stops [] := fun c hc => nomatch hc
  have hread := strtol_append h hstop
  rw [strtol_append h' hstop] at hread
  exact (Prod.mk.inj hread).1.symm

end Numbers

section Tokens
variable {c e : Char} {r s : List Char}

theorem skipSpace_append (sp : Spaces) (hc : isSpace c = false) : skipSpace (sp.val ++ c :: r) = c :: r :=
  dropWhile_span sp.property hc

theorem skipSpace_eq (s : List Char) : ∃ sp : Spaces, s = sp.val ++ skipSpace s :=
  ⟨⟨s.takeWhile isSpace, fun _ hc => List.mem_takeWhile_imp hc⟩, List.takeWhile_append_dropWhile.symm⟩

theorem expectAndSkip_self : expectAndSkip e (e :: s) = some s := if_pos rfl

theorem expectAndSkip_eq (h : expectAndSkip e s = some r) : s = e :: r := by
  cases s with
  | nil => exact nomatch h
  | cons c s =>
    by_cases hc : c = e
    · have hrest : (if c = e then some s else none) = some r := h
      rw [if_pos hc] at hrest
      rw [hc, Option.some.inj hrest]
    · have hrest : (if c = e then some s else none) = some r := h
      rw [if_neg hc] at hrest
      exact nomatch hrest

theorem stops_spaces (sp : Spaces) (he : e.isAlphanum = false) : Stops (sp.val ++ e :: r) := by
  intro c hc
  obtain ⟨l, hl⟩ := sp
  cases l with
  | nil =>
    obtain rfl : e = c := Option.some.inj hc
    exact he
  | cons x l =>
    obtain rfl : x = c := Option.some.inj hc
    exact not_alphanum_of_space (hl x List.mem_cons_self)

theorem parseNum_append (n : Num) (hr : Stops r) : parseNum (n.text ++ r) = some (longInt n.value, r) := by
  obtain ⟨d, ds, htext, hd⟩ := n.isNum.first
  have hhead : (n.text ++ r).head?.any Char.isDigit = true := by
    rw [htext]
    exact hd
  unfold parseNum
  rw [if_pos hhead, strtol_append n.isNum hr]

theorem parseNum_eq {v : Int} (h : parseNum s = some (v, r)) : ∃ n : Num, s = n.text ++ r ∧ v = longInt n.value := by
  unfold parseNum at h
  by_cases hs : s.head?.any Char.isDigit = true
  · rw [if_pos hs] at h
    obtain ⟨rfl, rfl⟩ := Prod.mk.inj (Option.some.inj h)
    obtain ⟨n, htext, hvalue⟩ := strtol_eq hs
    exact ⟨n, htext, congrArg longInt hvalue⟩
  · rw [if_neg hs] at h
    exact nomatch h

theorem expect_space (h : expectAndSkip e (skipSpace s) = some r) : ∃ sp : Spaces, s = sp.val ++ e :: r := by
  obtain ⟨sp, hsp⟩ := skipSpace_eq s
  rw [expectAndSkip_eq h] at hsp
  exact ⟨sp, hsp⟩

theorem parseNum_space {v : Int} (h : parseNum (skipSpace s) = some (v, r)) :
    ∃ (sp : Spaces) (n : Num), s = sp.val ++ (n.text ++ r) ∧ v = longInt n.value := by
  obtain ⟨sp, hsp⟩ := skipSpace_eq s
  obtain ⟨n, hn, hv⟩ := parseNum_eq h
  rw [hn] at hsp
  exact ⟨sp, n, hsp, hv⟩

theorem Field.parse (f : Field) (he : e.isAlphanum = false) :
    parseNum (skipSpace (f.text ++ e :: r)) = some (longInt f.num.value, f.after.val ++ e :: r) := by
  obtain ⟨d, ds, htext, hd⟩ := f.num.isNum.first
  have halnum : d.isAlphanum = true := isAlphanum_iff.mpr (.inr (.inr (isDigit_iff.mp hd)))
  have hskip : skipSpace (f.text ++ e :: r) = f.num.text ++ (f.after.val ++ e :: r) := by
    unfold Field.text
    rw [List.append_assoc, List.append_assoc, htext, List.cons_append]
    exact skipSpace_append f.before (not_space_of_alphanum halnum)
  rw [hskip]
  exact parseNum_append f.num (stops_spaces f.after he)

def Triple.block (t : Triple) : MapBlock :=
  ⟨longInt t.startId.num.value, longInt t.count.num.value, longInt t.size.num.value⟩

theorem parseBlock_append (t : Triple) :
    parseBlock (t.text ++ e :: r) =
      (expectAndSkip ')' (t.size.after.val ++ ')' :: (t.after.val ++ e :: r))).map fun c => (t.block, skipSpace c) := by
  have htext : t.text ++ e :: r = ',' :: (t.space.val ++ '(' :: (t.startId.text ++ ',' :: (t.count.text ++ ',' ::
      (t.size.text ++ ')' :: (t.after.val ++ e :: r))))) := by
    unfold Triple.text
    simp only [List.append_assoc, List.cons_append]
  rw [htext]
  unfold parseBlock
  rw [expectAndSkip_self]
  simp only [Option.bind_eq_bind, Option.bind_some]
  rw [skipSpace_append t.space rfl, expectAndSkip_self]
  simp only [Option.bind_some]
  rw [Field.parse t.startId rfl]
  simp only [Option.bind_some]
  rw [skipSpace_append t.startId.after rfl, expectAndSkip_self]
  simp only [Option.bind_some]
  rw [Field.parse t.count rfl]
  simp only [Option.bind_some]
  rw [skipSpace_append t.count.after rfl, expectAndSkip_self]
  simp only [Option.bind_some]
  rw [Field.parse t.size rfl]
  simp only [Option.bind_some]
  cases expectAndSkip ')' (t.size.after.val ++ ')' :: (t.after.val ++ e :: r)) <;> rfl

theorem parseBlock_tight {t : Triple} (ht : t.Tight) (he : isSpace e = false) :
    parseBlock (t.text ++ e :: r) = some (t.block, e :: r) := by
  have hnil : t.size.after.val = [] := ht
  rw [parseBlock_append t, hnil, List.nil_append, expectAndSkip_self, Option.map_some, skipSpace_append t.after he]

theorem parseBlock_loose {t : Triple} (ht : ¬ t.Tight) : parseBlock (t.text ++ e :: r) = none := by
  rw [parseBlock_append t]
  cases hafter : t.size.after.val with
  | nil => exact absurd hafter ht
  | cons x l =>
    have hx : isSpace x = true := t.size.after.property x (by rw [hafter]; exact List.mem_cons_self)
    have hne : x ≠ ')' := by
      rintro rfl
      exact nomatch hx
    have hnone : expectAndSkip ')' (x :: l ++ ')' :: (t.after.val ++ e :: r)) = none := if_neg hne
    rw [hnone]
    rfl

theorem parseBlock_eq {block : MapBlock} (h : parseBlock s = some (block, r)) :
    ∃ t : Triple, s = t.text ++ r ∧ t.Tight ∧ t.block = block := by
  unfold parseBlock at h
  simp only [Option.bind_eq_bind, Option.bind_eq_some_iff, Prod.exists] at h
  obtain ⟨c1, h1, c2, h2, v1, c3, h3, c4, h4, v2, c5, h5, c6, h6, v3, c7, h7, c8, h8, heq⟩ := h
  obtain ⟨rfl, rfl⟩ := Prod.mk.inj (Option.some.inj heq)
  have hs := expectAndSkip_eq h1
  obtain ⟨sp0, hc1⟩ := expect_space h2
  obtain ⟨sp1, n1, hc2, hv1⟩ := parseNum_space h3
  obtain ⟨sp2, hc3⟩ := expect_space h4
  obtain ⟨sp3, n2, hc4, hv2⟩ := parseNum_space h5
  obtain ⟨sp4, hc5⟩ := expect_space h6
  obtain ⟨sp5, n3, hc6, hv3⟩ := parseNum_space h7
  have hc7 := expectAndSkip_eq h8
  obtain ⟨sp6, hc8⟩ := skipSpace_eq c8
  refine ⟨⟨sp0, ⟨sp1, n1, sp2⟩, ⟨sp3, n2, sp4⟩, ⟨sp5, n3, ⟨[], fun _ hc => absurd hc List.not_mem_nil⟩⟩, sp6⟩, ?_, rfl, ?_⟩
  · unfold Triple.text Field.text
    simp only [List.append_assoc, List.cons_append, List.nil_append]
    rw [← hc8, ← hc7, ← hc6, ← hc5, ← hc4, ← hc3, ← hc2, ← hc1, hs]
  · unfold Triple.block
    rw [hv1, hv2, hv3]

end Tokens

section Triples
variable {ts : List Triple} {n : Nat} {tail r s : List Char} {map : List MapBlock}

theorem following (ts : List Triple) (tail : List Char) :
    ∃ e r, ts.flatMap Triple.text ++ ')' :: tail = e :: r ∧ isSpace e = false ∧ isIdent e = false := by
  cases ts with
  | nil => exact ⟨')', tail, rfl, rfl, rfl⟩
  | cons t ts => exact ⟨',', _, rfl, rfl, rfl⟩

theorem parseBlocks_append (hall : ∀ t ∈ ts, t.Tight) :
    parseBlocks ts.length (ts.flatMap Triple.text ++ ')' :: tail) = some (ts.map Triple.block, ')' :: tail) := by
  induction ts with
  | nil => rfl
  | cons t ts ih =>
    obtain ⟨ht, hrest⟩ := List.forall_mem_cons.mp hall
    obtain ⟨e, r, hnext, he, -⟩ := following ts tail
    have ih' := ih hrest
    rw [List.flatMap_cons, List.append_assoc, List.length_cons]
    unfold parseBlocks
    rw [hnext] at ih' ⊢
    rw [parseBlock_tight ht he]
    simp only [Option.bind_eq_bind, Option.bind_some]
    rw [ih']
    rfl

theorem parseBlocks_none (hn : ts.length ≤ n) (h : (∀ t ∈ ts, t.Tight) → ts.length < n) :
    parseBlocks n (ts.flatMap Triple.text ++ ')' :: tail) = none := by
  induction ts generalizing n with
  | nil =>
    have hpos := h fun t ht => absurd ht List.not_mem_nil
    cases n with
    | zero => exact absurd hpos (Nat.lt_irrefl 0)
    | succ n => rfl
  | cons t ts ih =>
    cases n with
    | zero => exact absurd hn (by simp)
    | succ n =>
      obtain ⟨e, r, hnext, he, -⟩ := following ts tail
      rw [List.flatMap_cons, List.append_assoc]
      unfold parseBlocks
      by_cases ht : t.Tight
      · have hrest := ih (Nat.le_of_succ_le_succ hn) fun hall =>
          Nat.lt_of_succ_lt_succ (h (List.forall_mem_cons.mpr ⟨ht, hall⟩))
        rw [hnext] at hrest ⊢
        rw [parseBlock_tight ht he]
        simp only [Option.bind_eq_bind, Option.bind_some]
        rw [hrest]
        rfl
      · rw [hnext, parseBlock_loose ht]
        rfl

theorem parseBlocks_eq (h : parseBlocks n s = some (map, r)) :
    ∃ ts : List Triple, s = ts.flatMap Triple.text ++ r ∧ ts.length = n ∧ (∀ t ∈ ts, t.Tight) ∧
      ts.map Triple.block = map := by
  induction n generalizing s map with
  | zero =>
    obtain ⟨rfl, rfl⟩ := Prod.mk.inj (Option.some.inj h)
    exact ⟨[], rfl, rfl, fun _ ht => absurd ht List.not_mem_nil, rfl⟩
  | succ n ih =>
    unfold parseBlocks at h
    simp only [Option.bind_eq_bind, Option.bind_eq_some_iff, Prod.exists] at h
    obtain ⟨block, c, hblock, map', c', hblocks, heq⟩ := h
    obtain ⟨rfl, rfl⟩ := Prod.mk.inj (Option.some.inj heq)
    obtain ⟨t, rfl, ht, rfl⟩ := parseBlock_eq hblock
    obtain ⟨ts, rfl, rfl, hall, rfl⟩ := ih hblocks
    refine ⟨t :: ts, ?_, rfl, List.forall_mem_cons.mpr ⟨ht, hall⟩, rfl⟩
    rw [List.flatMap_cons, List.append_assoc]

theorem count_spaces (sp : Spaces) : sp.val.count '(' = 0 := by
  apply List.count_eq_zero_of_not_mem
  intro hmem
  exact nomatch sp.property _ hmem

theorem count_num (n : Num) : n.text.count '(' = 0 := by
  apply List.count_eq_zero_of_not_mem
  intro hmem
  exact nomatch n.isNum.alphanum _ hmem

theorem count_text (t : Triple) : t.text.count '(' = 1 := by
  unfold Triple.text Field.text
  simp [List.count_append, count_spaces, count_num]

theorem count_triples (ts : List Triple) (tail : List Char) :
    (ts.flatMap Triple.text ++ ')' :: tail).count '(' = ts.length + tail.count '(' := by
  induction ts with
  | nil => simp
  | cons t ts ih =>
    rw [List.flatMap_cons, List.append_assoc, List.count_append, count_text, ih, List.length_cons]
    omega

end Triples

section Strings
variable {w w' : Written} {s : List Char} {map : List MapBlock}

theorem expectVector_append (sp : Spaces) (ts : List Triple) (tail : List Char) :
    expectVector (vector ++ (sp.val ++ (ts.flatMap Triple.text ++ ')' :: tail))) =
      some (sp.val ++ (ts.flatMap Triple.text ++ ')' :: tail)) := by
  have hhead : (sp.val ++ (ts.flatMap Triple.text ++ ')' :: tail)).head?.any isIdent = false := by
    obtain ⟨e, r, hnext, -, hident⟩ := following ts tail
    rw [hnext]
    obtain ⟨l, hl⟩ := sp
    cases l with
    | nil => exact hident
    | cons x l =>
      have hx := hl x List.mem_cons_self
      show isIdent x = false
      unfold isIdent
      rw [not_alphanum_of_space hx, decide_eq_false_iff_not]
      rintro (h | rfl | rfl)
      · exact nomatch h
      · exact nomatch hx
      · exact nomatch hx
  unfold expectVector
  rw [List.take_left, List.drop_left, if_pos ⟨rfl, by rw [hhead]; decide⟩]

theorem expectVector_eq {r : List Char} (h : expectVector s = some r) : s = vector ++ r := by
  unfold expectVector at h
  by_cases hs : s.take vector.length = vector ∧ ¬ (s.drop vector.length).head?.any isIdent
  · rw [if_pos hs] at h
    have hsplit := List.take_append_drop vector.length s
    rw [hs.1, Option.some.inj h] at hsplit
    exact hsplit.symm
  · rw [if_neg hs] at h
    exact nomatch h

theorem parseMapping_text (w : Written) :
    parseMapping w.text = (do
      let (map, c) ← parseBlocks (w.triples.length + w.tail.count '(') (w.triples.flatMap Triple.text ++ ')' :: w.tail)
      let _ ← expectAndSkip ')' c
      some (.vector map)) := by
  have htext : w.text = w.before.val ++ '(' :: (w.inside.val ++ (vector ++ (w.afterVector.val ++
      (w.triples.flatMap Triple.text ++ ')' :: w.tail)))) := by
    unfold Written.text
    simp only [List.append_assoc, List.cons_append]
  have hne : w.text ≠ [] := by
    rw [htext]
    simp
  have hinside : skipSpace (w.inside.val ++ (vector ++ (w.afterVector.val ++
      (w.triples.flatMap Triple.text ++ ')' :: w.tail)))) = vector ++ (w.afterVector.val ++
      (w.triples.flatMap Triple.text ++ ')' :: w.tail)) := skipSpace_append w.inside rfl
  have hafter : skipSpace (w.afterVector.val ++ (w.triples.flatMap Triple.text ++ ')' :: w.tail)) =
      w.triples.flatMap Triple.text ++ ')' :: w.tail := by
    obtain ⟨e, r, hnext, he, -⟩ := following w.triples w.tail
    rw [hnext]
    exact skipSpace_append w.afterVector he
  unfold parseMapping
  rw [if_neg hne, htext, skipSpace_append w.before rfl, expectAndSkip_self]
  simp only [Option.bind_eq_bind, Option.bind_some]
  rw [hinside, expectVector_append]
  simp only [Option.bind_some]
  rw [hafter, count_triples]

theorem parseMapping_taken (h : w.Taken) : parseMapping w.text = some (.vector (w.triples.map Triple.block)) := by
  rw [parseMapping_text, List.count_eq_zero_of_not_mem h.2, Nat.add_zero, parseBlocks_append h.1]
  rfl

theorem parseMapping_refused (h : ¬ w.Taken) : parseMapping w.text = none := by
  have hfew : (∀ t ∈ w.triples, t.Tight) → w.triples.length < w.triples.length + w.tail.count '(' := by
    intro hall
    have hmem : '(' ∈ w.tail := by
      by_contra hnot
      exact h ⟨hall, hnot⟩
    have hpos := List.count_pos_iff.mpr hmem
    omega
  rw [parseMapping_text, parseBlocks_none (Nat.le_add_right _ _) hfew]
  rfl

theorem parseMapping_eq (h : parseMapping s = some (.vector map)) :
    ∃ w : Written, w.text = s ∧ w.Taken ∧ map = w.triples.map Triple.block := by
  unfold parseMapping at h
  by_cases hnil : s = []
  · rw [if_pos hnil] at h
    exact nomatch h
  · rw [if_neg hnil] at h
    simp only [Option.bind_eq_bind, Option.bind_eq_some_iff, Prod.exists] at h
    obtain ⟨c1, h1, c2, h2, map', c3, h3, c4, h4, heq⟩ := h
    obtain rfl := MappingType.vector.inj (Option.some.inj heq)
    obtain ⟨sp1, hs⟩ := expect_space h1
    obtain ⟨sp2, hc1⟩ := skipSpace_eq c1
    obtain ⟨sp3, hc2⟩ := skipSpace_eq c2
    obtain ⟨ts, hts, hlength, hall, hmap⟩ := parseBlocks_eq h3
    have hc3 := expectAndSkip_eq h4
    have hvector := expectVector_eq h2
    rw [hts, hc3, count_triples] at hlength
    refine ⟨⟨sp1, sp2, sp3, ts, c4⟩, ?_, ⟨hall, ?_⟩, hmap.symm⟩
    · unfold Written.text
      simp only [List.append_assoc, List.cons_append]
      rw [← hc3, ← hts, ← hc2, ← hvector, ← hc1, ← hs]
    · have hcount : c4.count '(' = 0 := by omega
      exact List.count_eq_zero.mp hcount

theorem parseMapping_null (h : parseMapping s = some .null) : s = [] := by
  unfold parseMapping at h
  by_contra hnil
  rw [if_neg hnil] at h
  simp only [Option.bind_eq_bind, Option.bind_eq_some_iff, Prod.exists] at h
  obtain ⟨c1, -, c2, -, map, c3, -, c4, -, heq⟩ := h
  exact nomatch heq

theorem Field.inj {f f' : Field} {e e' : Char} {r r' : List Char} (he : isSpace e = false ∧ e.isAlphanum = false)
    (he' : isSpace e' = false ∧ e'.isAlphanum = false) (h : f.text ++ e :: r = f'.text ++ e' :: r') :
    f.num.value = f'.num.value ∧ e = e' ∧ r = r' := by
  obtain ⟨d, ds, htext, hd⟩ := f.num.isNum.first
  obtain ⟨d', ds', htext', hd'⟩ := f'.num.isNum.first
  have hspace : ∀ {c : Char}, c.isDigit = true → isSpace c = false := fun hc =>
    not_space_of_alphanum (isAlphanum_iff.mpr (.inr (.inr (isDigit_iff.mp hc))))
  have hbefore : f.num.text ++ (f.after.val ++ e :: r) = f'.num.text ++ (f'.after.val ++ e' :: r') := by
    unfold Field.text at h
    rw [List.append_assoc, List.append_assoc, List.append_assoc, List.append_assoc, htext, htext', List.cons_append,
      List.cons_append] at h
    obtain ⟨-, rfl, heq⟩ := span_inj f.before.property f'.before.property (hspace hd) (hspace hd') h
    rw [htext, htext', List.cons_append, List.cons_append, heq]
  have hstops : ∀ (sp : Spaces) {e : Char} (r : List Char), e.isAlphanum = false →
      ∃ c q, sp.val ++ e :: r = c :: q ∧ c.isAlphanum = false := by
    rintro ⟨l, hl⟩ e r halnum
    cases l with
    | nil => exact ⟨e, r, rfl, halnum⟩
    | cons x l => exact ⟨x, _, rfl, not_alphanum_of_space (hl x List.mem_cons_self)⟩
  obtain ⟨c, q, hcq, hc⟩ := hstops f.after r he.2
  obtain ⟨c', q', hcq', hc'⟩ := hstops f'.after r' he'.2
  rw [hcq, hcq'] at hbefore
  obtain ⟨hnum, rfl, rfl⟩ := span_inj f.num.isNum.alphanum f'.num.isNum.alphanum hc hc' hbefore
  obtain ⟨-, hmark, hrest⟩ := span_inj f.after.property f'.after.property he.1 he'.1 (hcq.trans hcq'.symm)
  have hvalue : IsNum f.num.text f'.num.value := by
    rw [hnum]
    exact f'.num.isNum
  exact ⟨f.num.isNum.unique hvalue, hmark, hrest⟩

theorem Triple.inj {t t' : Triple} {e e' : Char} {r r' : List Char} (he : isSpace e = false) (he' : isSpace e' = false)
    (h : t.text ++ e :: r = t'.text ++ e' :: r') : t.values = t'.values ∧ e :: r = e' :: r' := by
  unfold Triple.text at h
  simp only [List.append_assoc, List.cons_append] at h
  obtain ⟨-, -, h1⟩ := span_inj t.space.property t'.space.property rfl rfl (List.cons.inj h).2
  obtain ⟨hstart, -, h2⟩ := Field.inj ⟨rfl, rfl⟩ ⟨rfl, rfl⟩ h1
  obtain ⟨hcount, -, h3⟩ := Field.inj ⟨rfl, rfl⟩ ⟨rfl, rfl⟩ h2
  obtain ⟨hsize, -, h4⟩ := Field.inj ⟨rfl, rfl⟩ ⟨rfl, rfl⟩ h3
  obtain ⟨-, hmark, hrest⟩ := span_inj t.after.property t'.after.property he he' h4
  unfold Triple.values
  rw [hstart, hcount, hsize, hmark, hrest]
  exact ⟨rfl, rfl⟩

theorem triples_inj {ts ts' : List Triple} {tail tail' : List Char}
    (h : ts.flatMap Triple.text ++ ')' :: tail = ts'.flatMap Triple.text ++ ')' :: tail') :
    ts.map Triple.values = ts'.map Triple.values ∧ tail = tail' := by
  induction ts generalizing ts' with
  | nil =>
    cases ts' with
    | nil => exact ⟨rfl, (List.cons.inj h).2⟩
    | cons t' ts' => exact absurd (List.cons.inj h).1 (by decide)
  | cons t ts ih =>
    cases ts' with
    | nil => exact absurd (List.cons.inj h).1 (by decide)
    | cons t' ts' =>
      obtain ⟨e, r, hnext, he, -⟩ := following ts tail
      obtain ⟨e', r', hnext', he', -⟩ := following ts' tail'
      rw [List.flatMap_cons, List.flatMap_cons, List.append_assoc, List.append_assoc, hnext, hnext'] at h
      obtain ⟨hvalues, hrest⟩ := Triple.inj he he' h
      rw [← hnext, ← hnext'] at hrest
      obtain ⟨hmap, htail⟩ := ih hrest
      rw [List.map_cons, List.map_cons, hvalues, hmap]
      exact ⟨rfl, htail⟩

theorem Written.inj (h : w.text = w'.text) :
    w.triples.map Triple.values = w'.triples.map Triple.values ∧ w.tail = w'.tail := by
  unfold Written.text at h
  simp only [List.append_assoc, List.cons_append] at h
  obtain ⟨-, -, h1⟩ := span_inj w.before.property w'.before.property rfl rfl h
  have hv : isSpace 'v' = false := rfl
  obtain ⟨-, -, h2⟩ := span_inj w.inside.property w'.inside.property hv hv h1
  have h3 := List.append_cancel_left (show vector.tail ++ _ = vector.tail ++ _ from h2)
  obtain ⟨e, r, hnext, he, -⟩ := following w.triples w.tail
  obtain ⟨e', r', hnext', he', -⟩ := following w'.triples w'.tail
  rw [hnext, hnext'] at h3
  obtain ⟨-, rfl, rfl⟩ := span_inj w.afterVector.property w'.afterVector.property he he' h3
  exact triples_inj (hnext.trans hnext'.symm)

theorem grammar_text : Grammar w.text map ↔ w.Proper ∧ map = w.triples.map Triple.values := by
  constructor
  · rintro ⟨w', htext, hne, htail, rfl⟩
    obtain ⟨hvalues, htail'⟩ := Written.inj htext
    refine ⟨⟨?_, htail'.symm.trans htail⟩, hvalues⟩
    rintro hnil
    rw [hnil] at hvalues
    exact hne (List.map_eq_nil_iff.mp hvalues)
  · rintro ⟨⟨hne, htail⟩, rfl⟩
    exact ⟨w, rfl, hne, htail, rfl⟩

theorem longInt_eq_iff (value : Nat) : longInt value = value ↔ value < 2 ^ 31 := by
  unfold longInt
  constructor
  · intro h
    have hlt := (toInt_bounds (min value (2 ^ 63 - 1) : Nat)).2
    rw [h] at hlt
    omega
  · intro h
    have hmin : min value (2 ^ 63 - 1) = value := Nat.min_eq_left (by omega)
    rw [hmin]
    exact toInt_eq (by omega) (by omega)

theorem block_eq_iff (t : Triple) : t.block = t.values ↔ t.Fits := by
  unfold Triple.block Triple.values Triple.Fits
  rw [MapBlock.mk.injEq, longInt_eq_iff, longInt_eq_iff, longInt_eq_iff]

theorem acceptsRight_text (w : Written) : AcceptsRight w.text ↔ w.Agrees := by
  unfold AcceptsRight Written.Agrees
  by_cases htaken : w.Taken
  · rw [parseMapping_taken htaken]
    simp only [grammar_text, Option.some.injEq, MappingType.vector.injEq]
    have hblocks : w.triples.map Triple.block = w.triples.map Triple.values ↔ ∀ t ∈ w.triples, t.Fits := by
      rw [List.map_inj_left]
      exact forall₂_congr fun t _ => block_eq_iff t
    constructor
    · rintro ⟨hall, -⟩
      obtain ⟨hproper, heq⟩ := (hall _).mp rfl
      exact ⟨iff_of_true htaken hproper, fun _ => hblocks.mp heq⟩
    · rintro ⟨hiff, hfits⟩
      have hproper := hiff.mp htaken
      have heq := hblocks.mpr (hfits hproper)
      rw [heq]
      refine ⟨fun map => ⟨fun h => ⟨hproper, h.symm⟩, fun h => h.2.symm⟩, ?_⟩
      intro _ hnone
      exact absurd ⟨hproper, rfl⟩ (hnone (w.triples.map Triple.values))
  · rw [parseMapping_refused htaken]
    simp only [grammar_text]
    constructor
    · rintro ⟨hall, -⟩
      have himproper : ¬ w.Proper := fun h => nomatch (hall _).mpr ⟨h, rfl⟩
      exact ⟨iff_of_false htaken himproper, fun h => absurd h himproper⟩
    · rintro ⟨hiff, -⟩
      refine ⟨fun map => iff_of_false (fun h => nomatch h) fun h => htaken (hiff.mpr h.1), ?_⟩
      exact fun _ _ => trivial

/-- The parser accepts the grammar exactly, except where a string that can be read is taken without being proper, or
proper without being taken, or has a number that is not an `int`. -/
theorem parse_mapping_iff (s : List Char) : AcceptsRight s ↔ ∀ w : Written, w.text = s → w.Agrees := by
  constructor
  · rintro h w rfl
    exact (acceptsRight_text w).mp h
  · intro hall
    by_cases hread : ∃ w : Written, w.text = s
    · obtain ⟨w, rfl⟩ := hread
      exact (acceptsRight_text w).mpr (hall w rfl)
    · have hgrammar : ∀ map, ¬ Grammar s map := fun map ⟨w, htext, _⟩ => hread ⟨w, htext⟩
      have hvector : ∀ map, parseMapping s ≠ some (.vector map) := fun map h =>
        have ⟨w, htext, _⟩ := parseMapping_eq h
        hread ⟨w, htext⟩
      refine ⟨fun map => iff_of_false (hvector map) (hgrammar map), ?_⟩
      intro hne _
      cases hparse : parseMapping s with
      | none => rfl
      | some m =>
        cases m with
        | null => exact absurd (parseMapping_null hparse) hne
        | vector map => exact absurd hparse (hvector map)

end Strings

theorem vector_alone : ¬ AcceptsRight ['(', 'v', 'e', 'c', 't', 'o', 'r', ')'] := by
  rintro ⟨hall, -⟩
  obtain ⟨w, -, hne, -, hmap⟩ := (hall []).mp (by decide)
  exact hne (List.map_eq_nil_iff.mp hmap.symm)

end FgMpi.Procmap.Mapping
