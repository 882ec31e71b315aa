import FgMpi.Argstr.RoundTrip

namespace FgMpi.Argstr.Binary
open Argstr.Encoding Argstr.RoundTrip

/-- An alphabet in which the digits are ordinary characters. -/
structure HexAlphabet extends Alphabet where
  digits : ∀ n < 16, hexDigit n ∉ [delim, separ, quote, escape]

def standardHex : HexAlphabet := ⟨standard, by decide⟩

inductive Arg
  | string (val : List Char)
  | binary (bytes : List Byte)
deriving Repr, DecidableEq

section Writer
variable (a : Alphabet)

def addArg (b : Buffer) (key : List Char) : Arg → Except Status Buffer
  | .string val => addStringArg a b key val
  | .binary bytes => addBinaryArg a b key bytes

def addArgs (b : Buffer) (args : List (List Char × Arg)) : Except Status Buffer :=
  args.foldlM (fun b arg => addArg a b arg.1 arg.2) b

def shown : Arg → List Char
  | .string val => token a val
  | .binary bytes => bytes.flatMap hexByte

def argText (arg : List Char × Arg) : List Char := arg.1 ++ a.delim :: shown a arg.2 ++ [a.separ]

def Plain (s : List Char) : Prop := ∀ c ∈ s, c ∉ [a.delim, a.separ, a.quote, a.escape]

instance (s : List Char) : Decidable (Plain a s) := List.decidableBAll _ s

end Writer

theorem hexValue_hexDigit : ∀ n < 16, hexValue (hexDigit n) = some n := by
  decide

theorem sscanfHex_hexByte (c : Byte) :
    sscanfHex (hexDigit (c.toNat / 16)) (hexDigit (c.toNat % 16)) = some c := by
  have hlt : c.toNat < 256 := c.isLt
  unfold sscanfHex
  rw [hexValue_hexDigit _ (by omega), hexValue_hexDigit _ (Nat.mod_lt _ (by decide))]
  dsimp only
  rw [Nat.div_add_mod, BitVec.ofNat_toNat, BitVec.setWidth_eq]

section Digits
variable {a : HexAlphabet}

theorem mem_hexByte {c : Byte} {d : Char} (h : d ∈ hexByte c) :
    d ∉ [a.delim, a.separ, a.quote, a.escape] := by
  have hlt : c.toNat < 256 := c.isLt
  rcases List.mem_pair.mp h with rfl | rfl
  · exact a.digits _ (by omega)
  · exact a.digits _ (Nat.mod_lt _ (by decide))

theorem plain_hex (bytes : List Byte) : Plain a.toAlphabet (bytes.flatMap hexByte) := by
  intro d hd
  obtain ⟨c, -, hc⟩ := List.mem_flatMap.mp hd
  exact mem_hexByte hc

theorem stops_of_plain {c : Char} (h : c ∉ [a.delim, a.separ, a.quote, a.escape]) :
    stops a.toAlphabet c = false := by
  simp only [List.mem_cons, not_or] at h
  simp [stops, h.2.1, h.2.2.1]

theorem decodeLoop_hex {bytes : List Byte} {rest : List Char} {n : Nat} {value : Option Byte}
    {out : List (Option Byte)} (hrest : ∀ c ∈ rest.head?, stops a.toAlphabet c = true)
    (hn : bytes.length ≤ n) :
    decodeLoop a.toAlphabet (bytes.flatMap hexByte ++ rest) n value out =
      .success (out ++ bytes.map some) := by
  induction bytes generalizing n value out with
  | nil =>
    rw [List.flatMap_nil, List.nil_append, List.map_nil, List.append_nil]
    cases rest with
    | nil => rfl
    | cons c rest =>
      have hc := hrest c rfl
      cases n with
      | zero => rw [decodeLoop, if_pos hc]
      | succ n =>
        cases rest with
        | nil => rw [decodeLoop, if_pos hc]
        | cons d rest => rw [decodeLoop, if_pos hc]
  | cons c bytes ih =>
    rw [List.length_cons] at hn
    obtain ⟨m, rfl⟩ : ∃ m, n = m + 1 := ⟨n - 1, by omega⟩
    have hstop : stops a.toAlphabet (hexDigit (c.toNat / 16)) = false :=
      stops_of_plain (mem_hexByte (c := c) (by simp [hexByte]))
    show decodeLoop _ (hexDigit (c.toNat / 16) :: hexDigit (c.toNat % 16) ::
      (bytes.flatMap hexByte ++ rest)) (m + 1) value out = _
    rw [decodeLoop, if_neg (by simp [hstop])]
    dsimp only
    rw [sscanfHex_hexByte, Option.some_or, ih (by omega), List.append_assoc]
    rfl

end Digits

section Written
variable {a : Alphabet}

theorem length_hex (bytes : List Byte) : (bytes.flatMap hexByte).length = 2 * bytes.length := by
  induction bytes with
  | nil => rfl
  | cons c bytes ih =>
    rw [List.flatMap_cons, List.length_append, ih, List.length_cons]
    simp only [hexByte, List.length_cons, List.length_nil]
    omega

theorem encodeLoop_count (d : Int) (src : List Byte) (out : List Char) (n : Nat) :
    (encodeLoop d src out n).2.1 + (encodeLoop d src out n).2.2.length = n + src.length := by
  induction src generalizing d out n with
  | nil => rfl
  | cons c src ih =>
    rw [encodeLoop]
    split
    · rfl
    · rw [ih, List.length_cons]
      omega

theorem encodeLoop_room {d : Int} {src : List Byte} {out : List Char} {n : Nat}
    (h : 2 * (src.length : Int) < d) :
    encodeLoop d src out n = (out ++ src.flatMap hexByte, n + src.length, []) := by
  induction src generalizing d out n with
  | nil => simp [encodeLoop]
  | cons c src ih =>
    rw [List.length_cons] at h
    push_cast at h
    have hprint : (snprintf d (hexByte c)).1 = hexByte c := by
      apply snprintf_of_room
      simp only [snprintf, hexByte, List.length_cons, List.length_nil]
      omega
    rw [encodeLoop, if_neg (by omega), hprint, ih (by omega), List.flatMap_cons, List.append_assoc,
      List.length_cons]
    congr 2
    omega

variable {b' : Buffer}

theorem addBinaryArg_written {b : Buffer} {flag : List Char} {buffer : List Byte}
    (h : addBinaryArg a b flag buffer = .ok b') :
    1 ≤ b.maxlen ∧ (printFlag a b.maxlen flag).2 < b.maxlen ∧
      b'.text = b.text ++ (printFlag a b.maxlen flag).1 ++
        a.delim :: buffer.flatMap hexByte ++ [a.separ] := by
  dsimp only [addBinaryArg] at h
  split at h
  · cases h
  · rename_i hroom
    split at h
    · cases h
    · rename_i hkey
      cases hvalue : encodeBuffer a (b.maxlen - (printFlag a b.maxlen flag).2 - 1) buffer with
      | error e =>
        rw [hvalue] at h
        cases h
      | ok value =>
        rw [hvalue] at h
        dsimp only at h
        split at h
        · cases h
        · rename_i hval
          cases h
          refine ⟨by omega, by omega, ?_⟩
          suffices htake : value.1.take (2 * value.2) = buffer.flatMap hexByte by rw [htake]
          unfold encodeBuffer at hvalue
          by_cases hempty : buffer = []
          · rw [if_pos hempty] at hvalue
            split at hvalue
            · cases hvalue
              rw [hempty]
              rfl
            · cases hvalue
          · rw [if_neg hempty] at hvalue
            dsimp only at hvalue
            split at hvalue
            · rename_i hleft
              have hcount := encodeLoop_count (b.maxlen - (printFlag a b.maxlen flag).2 - 1) buffer
                [] 0
              rw [hleft, List.length_nil, Nat.add_zero, Nat.zero_add] at hcount
              cases hvalue
              rw [hcount] at hval ⊢
              rw [encodeLoop_room (by omega), List.nil_append]
              exact List.take_of_length_le (Nat.le_of_eq (length_hex buffer))
            · cases hvalue

theorem not_needsQuotes_of_plain {s : List Char} (h : Plain a s) : needsQuotes a s ≠ true := by
  intro hq
  simp only [needsQuotes, decide_eq_true_eq] at hq
  rcases hq with hsepar | hdelim | hhead
  · exact h _ hsepar (by simp)
  · exact h _ hdelim (by simp)
  · exact h _ (List.mem_of_mem_head? hhead) (by simp)

theorem printFlag_plain {s : List Char} (h : Plain a s) {maxlen : Int}
    (hroom : (printFlag a maxlen s).2 < maxlen) : (printFlag a maxlen s).1 = s := by
  unfold printFlag at hroom ⊢
  rw [if_neg (not_needsQuotes_of_plain h)] at hroom ⊢
  exact snprintf_of_room hroom

theorem addArg_text {b : Buffer} {key : List Char} {arg : Arg} (hkey : Plain a key)
    (h : addArg a b key arg = .ok b') : b'.text = b.text ++ argText a (key, arg) := by
  cases arg with
  | string val =>
    obtain ⟨-, hroom, htext⟩ := addStringArg_written h
    rw [htext, printFlag_plain hkey hroom, argText, shown]
    simp
  | binary bytes =>
    obtain ⟨-, hroom, htext⟩ := addBinaryArg_written h
    rw [htext, printFlag_plain hkey hroom, argText, shown]
    simp

theorem addArgs_text {args : List (List Char × Arg)} {b : Buffer}
    (hkeys : ∀ arg ∈ args, Plain a arg.1) (h : addArgs a b args = .ok b') :
    b'.text = b.text ++ args.flatMap (argText a) := by
  induction args generalizing b with
  | nil =>
    cases h
    simp
  | cons arg args ih =>
    simp only [addArgs, List.foldlM_cons] at h
    cases hadd : addArg a b arg.1 arg.2 with
    | error e =>
      rw [hadd] at h
      cases h
    | ok b₁ =>
      rw [hadd] at h
      have htext := addArg_text (hkeys arg List.mem_cons_self) hadd
      rw [ih (fun x hx => hkeys x (List.mem_cons_of_mem arg hx)) h, htext]
      simp

end Written

section Search
variable (a : Alphabet)

def word : Arg → Option (List Char)
  | .string val => some val
  | .binary [] => none
  | .binary (c :: bytes) => some ((c :: bytes).flatMap hexByte)

def valueMatches (flag : List Char) (arg : Arg) : Bool :=
  (word arg).any fun s =>
    decide (flag = s) || needsQuotes a s && (flag ++ [a.quote]).isPrefixOf s

/-- The value that is found under a key, with the arguments after it.  Before the delimiter of an
empty key stands the value of the argument before, `matched` says whether that is taken for the
key. -/
def locate (flag : List Char) : Bool → List (List Char × Arg) → Option (Arg × List (List Char × Arg))
  | _, [] => none
  | matched, arg :: args =>
    if arg.1 = [] ∧ matched = true ∨ arg.1 ≠ [] ∧ arg.1 = flag then some (arg.2, args)
    else locate flag (valueMatches a flag arg.2) args

def Ready : Arg → Prop
  | .string val => WellEnded a val
  | .binary _ => True

instance : (arg : Arg) → Decidable (Ready a arg)
  | .string _ => inferInstanceAs (Decidable (_ → _))
  | .binary _ => isTrue trivial

end Search

section Turns
variable {a : HexAlphabet} {ρ : Type} {fail overrun : ρ} {use : List Char → ρ}
  {flag key : List Char} {arg : Arg} {args : List (List Char × Arg)} {fuel : Nat}

variable {s : List Char}

theorem reads_plain {rest : List Char} (hs : Plain a.toAlphabet s) (hne : s ≠ [])
    (hrest : Ends a.toAlphabet rest) : Reads a.toAlphabet s rest (s ++ rest) := by
  cases s with
  | nil => exact absurd rfl hne
  | cons c s => exact reads_literal (not_needsQuotes_of_plain hs) hrest

theorem hex_ne_nil (c : Byte) (bytes : List Byte) : (c :: bytes).flatMap hexByte ≠ [] := by
  simp [hexByte]

theorem reads_word (rest : List Char) (hready : Ready a.toAlphabet arg) (hs : word arg = some s) :
    Reads a.toAlphabet s (a.separ :: rest) (shown a.toAlphabet arg ++ a.separ :: rest) := by
  cases arg with
  | string val =>
    cases hs
    exact reads_token hready (ends_separ rest)
  | binary bytes =>
    cases bytes with
    | nil => cases hs
    | cons c bytes =>
      cases hs
      exact reads_plain (plain_hex _) (hex_ne_nil c bytes) (ends_separ rest)

theorem valueMatches_iff (hs : word arg = some s) :
    valueMatches a.toAlphabet flag arg = true ↔ Matches a.toAlphabet s flag := by
  simp only [valueMatches, hs, Option.any_some, Bool.or_eq_true, Bool.and_eq_true,
    decide_eq_true_eq, List.isPrefixOf_iff_prefix]
  apply or_congr Iff.rfl
  apply and_congr Iff.rfl
  constructor
  · rintro ⟨r, hr⟩
    exact ⟨r, by rw [← hr]; simp⟩
  · rintro ⟨r, hr⟩
    exact ⟨r, by rw [hr]; simp⟩

variable (fail use) in
def outcome (a : HexAlphabet) : Option (Arg × List (List Char × Arg)) → ρ
  | none => fail
  | some (arg, args) =>
    match firstToken a.toAlphabet
        (shown a.toAlphabet arg ++ a.separ :: args.flatMap (argText a.toAlphabet)) with
    | none => fail
    | some token => use token

theorem argText_append (arg : List Char × Arg) (rest : List Char) :
    argText a.toAlphabet arg ++ rest =
      arg.1 ++ a.delim :: (shown a.toAlphabet arg.2 ++ a.separ :: rest) := by
  simp [argText]

theorem compare_next (hkeys : ∀ x ∈ args, Plain a.toAlphabet x.1) :
    compareToken a.toAlphabet (firstToken a.toAlphabet (args.flatMap (argText a.toAlphabet)))
      [a.delim] = true ↔ ∃ v rest, args = ([], v) :: rest := by
  cases args with
  | nil => simp [firstToken, compareToken]
  | cons x args =>
    obtain ⟨k, v⟩ := x
    rw [List.flatMap_cons, argText_append]
    by_cases hk : k = []
    · subst hk
      rw [List.nil_append, firstToken_cons _ delim_ne_separ]
      exact ⟨fun _ => ⟨v, args, rfl⟩, fun _ => (compareToken_delim _ _).mpr rfl⟩
    · have hreads := reads_plain (hkeys _ List.mem_cons_self) hk (ends_delim
        (shown a.toAlphabet v ++ a.separ :: args.flatMap (argText a.toAlphabet)))
      rw [hreads.first, hreads.compare]
      constructor
      · intro hm
        rcases hm with hm | ⟨hq, -⟩
        · have hdelim : a.delim ∈ k := by
            rw [show k = [a.delim] from hm.symm]
            exact List.mem_singleton_self _
          exact absurd (by simp) (hkeys _ List.mem_cons_self a.delim hdelim)
        · exact absurd hq (not_needsQuotes_of_plain (hkeys _ List.mem_cons_self))
      · rintro ⟨v', rest, hcons⟩
        exact absurd (congrArg Prod.fst (List.cons.inj hcons).1) hk

theorem locate_congr (hhead : ∀ v rest, args ≠ ([], v) :: rest) (m m' : Bool) :
    locate a.toAlphabet flag m args = locate a.toAlphabet flag m' args := by
  cases args with
  | nil => rfl
  | cons x args =>
    have hk : x.1 ≠ [] := by
      intro hk
      exact hhead x.2 args (by rw [← hk])
    simp only [locate, hk, false_and, false_or]

theorem findLoop_value (hkeys : ∀ x ∈ args, Plain a.toAlphabet x.1) (hready : Ready a.toAlphabet arg)
    (ih : ∀ n, (args.flatMap (argText a.toAlphabet)).length ≤ n →
      findLoop a.toAlphabet fail overrun use flag n
          (firstToken a.toAlphabet (args.flatMap (argText a.toAlphabet))) =
        outcome fail use a (locate a.toAlphabet flag false args))
    (hfuel : (args.flatMap (argText a.toAlphabet)).length ≤ fuel) :
    findLoop a.toAlphabet fail overrun use flag (fuel + 1) (firstToken a.toAlphabet
        (shown a.toAlphabet arg ++ a.separ :: args.flatMap (argText a.toAlphabet))) =
      outcome fail use a (locate a.toAlphabet flag (valueMatches a.toAlphabet flag arg) args) := by
  cases hword : word arg with
  | none =>
    have hempty : arg = .binary [] := by
      cases arg with
      | string val => cases hword
      | binary bytes =>
        cases bytes with
        | nil => rfl
        | cons c bytes => cases hword
    subst hempty
    rw [shown, List.flatMap_nil, List.nil_append, firstToken_separ]
    exact ih (fuel + 1) (by omega)
  | some s =>
    have hreads := reads_word (args.flatMap (argText a.toAlphabet)) hready hword
    rw [hreads.first, findLoop, hreads.next, firstToken_separ]
    by_cases hm : valueMatches a.toAlphabet flag arg = true
    · have hmatch := (valueMatches_iff hword).mp hm
      rw [if_pos ((hreads.compare flag).mpr hmatch), hm]
      by_cases hhead : ∃ v rest, args = ([], v) :: rest
      · rw [if_pos ((compare_next hkeys).mpr hhead)]
        obtain ⟨v, rest, rfl⟩ := hhead
        rewrite [List.flatMap_cons, argText_append, List.nil_append,
          firstToken_cons _ delim_ne_separ, Option.bind_some, nextToken_delim, locate,
          if_pos (Or.inl ⟨rfl, rfl⟩), outcome]
        cases firstToken a.toAlphabet
          (shown a.toAlphabet v ++ a.separ :: rest.flatMap (argText a.toAlphabet)) <;> rfl
      · rw [if_neg (fun h => hhead ((compare_next hkeys).mp h)), ih fuel hfuel]
        have hne : ∀ v rest, args ≠ ([], v) :: rest := fun v rest h => hhead ⟨v, rest, h⟩
        rw [locate_congr hne false true]
    · have hmatch : ¬ Matches a.toAlphabet s flag := fun h => hm ((valueMatches_iff hword).mpr h)
      rw [if_neg (fun h => hmatch ((hreads.compare flag).mp h)), ih fuel hfuel, Bool.eq_false_iff.mpr hm]

theorem findLoop_args (hflag : Plain a.toAlphabet flag)
    (hkeys : ∀ x ∈ args, Plain a.toAlphabet x.1) (hready : ∀ x ∈ args, Ready a.toAlphabet x.2)
    (hfuel : (args.flatMap (argText a.toAlphabet)).length ≤ fuel) :
    findLoop a.toAlphabet fail overrun use flag fuel
        (firstToken a.toAlphabet (args.flatMap (argText a.toAlphabet))) =
      outcome fail use a (locate a.toAlphabet flag false args) := by
  induction args generalizing fuel with
  | nil =>
    cases fuel <;> rfl
  | cons x args ih =>
    obtain ⟨k, v⟩ := x
    have hkeys' := fun y hy => hkeys y (List.mem_cons_of_mem _ hy)
    have hready' := fun y hy => hready y (List.mem_cons_of_mem _ hy)
    have hvalue := fun n (hn : (args.flatMap (argText a.toAlphabet)).length ≤ n) =>
      @findLoop_value a ρ fail overrun use flag v args n hkeys'
        (hready _ List.mem_cons_self) (fun n hn => ih hkeys' hready' hn) hn
    rw [List.flatMap_cons, argText_append] at hfuel ⊢
    simp only [List.length_append, List.length_cons] at hfuel
    have hdelim : flag ≠ [a.delim] := by
      rintro rfl
      exact hflag a.delim (by simp) (by simp)
    by_cases hk : k = []
    · -- without a key the delimiter comes first, and it is not the key
      subst hk
      obtain ⟨m, rfl⟩ : ∃ m, fuel = m + 2 := ⟨fuel - 2, by omega⟩
      rw [List.nil_append, firstToken_cons _ delim_ne_separ, findLoop,
        if_neg (fun h => hdelim ((compareToken_delim _ _).mp h)), nextToken_delim,
        hvalue m (by omega), locate, if_neg (by simp)]
    · have hlen := List.length_pos_of_ne_nil hk
      obtain ⟨m, rfl⟩ : ∃ m, fuel = m + 3 := ⟨fuel - 3, by omega⟩
      have hreads := reads_plain (hkeys _ List.mem_cons_self) hk (ends_delim
        (shown a.toAlphabet v ++ a.separ :: args.flatMap (argText a.toAlphabet)))
      have hmatch : Matches a.toAlphabet k flag ↔ k = flag := by
        constructor
        · rintro (h | ⟨hq, -⟩)
          · exact h.symm
          · exact absurd hq (not_needsQuotes_of_plain (hkeys _ List.mem_cons_self))
        · exact fun h => Or.inl h.symm
      rw [hreads.first]
      by_cases heq : k = flag
      · rewrite [findLoop_found hreads (hmatch.mpr heq), locate, if_pos (Or.inr ⟨hk, heq⟩), outcome]
        cases firstToken a.toAlphabet
          (shown a.toAlphabet v ++ a.separ :: args.flatMap (argText a.toAlphabet)) <;> rfl
      · have hloc : ¬ (k = [] ∧ false = true ∨ k ≠ [] ∧ k = flag) := by
          rintro (h | h)
          · exact hk h.1
          · exact heq h.2
        rw [findLoop, if_neg (fun h => heq (hmatch.mp ((hreads.compare _).mp h))), hreads.next,
          firstToken_cons _ delim_ne_separ, findLoop,
          if_neg (fun h => hdelim ((compareToken_delim _ _).mp h)), nextToken_delim,
          hvalue m (by omega), locate, if_neg hloc]

end Turns

section Readable
variable {a : Alphabet}

theorem findLoop_cases {ρ : Type} (fail overrun : ρ) (use : List Char → ρ) (flag : List Char)
    (n : Nat) (str : Option (List Char)) :
    findLoop a fail overrun use flag n str = fail ∨
      findLoop a fail overrun use flag n str = overrun ∨
      ∃ token, findLoop a fail overrun use flag n str = use token := by
  induction n generalizing str with
  | zero =>
    cases str with
    | none => exact .inl rfl
    | some str => exact .inr (.inl rfl)
  | succ n ih =>
    cases str with
    | none => exact .inl rfl
    | some str =>
      rw [findLoop]
      split
      · split
        · split
          · exact .inl rfl
          · exact .inr (.inr ⟨_, rfl⟩)
        · exact ih _
      · exact ih _

variable {n : Nat} {val : List Char}

theorem copyQuoted_last {text out : List Char} (h : copyQuoted a n text out = .success val) :
    (text.head? = some a.quote ∧ val = out) ∨ val.getLast? ≠ some a.escape := by
  induction n, text, out using copyQuoted.induct a with
  | case1 => cases h
  | case2 => cases h
  | case3 out n ih =>
    rw [copyQuoted, if_pos rfl] at h
    rcases ih h with ⟨hhead, -⟩ | hlast
    · cases hhead
    · exact .inr hlast
  | case4 out n hc =>
    rw [copyQuoted, if_neg hc, if_pos rfl] at h
    cases h
    exact .inl ⟨rfl, rfl⟩
  | case5 out n c hc hq ih =>
    rw [copyQuoted, if_neg hc, if_neg hq] at h
    rcases ih h with ⟨hhead, -⟩ | hlast
    · cases hhead
    · exact .inr hlast
  | case6 out n t ih =>
    rw [copyQuoted, if_pos rfl, if_pos rfl] at h
    rcases ih h with ⟨-, rfl⟩ | hlast
    · right
      rw [List.getLast?_concat]
      exact fun he => quote_ne_escape (Option.some.inj he)
    · exact .inr hlast
  | case7 out n q t hq ih =>
    rw [copyQuoted, if_pos rfl, if_neg hq] at h
    rcases ih h with ⟨hhead, -⟩ | hlast
    · exact absurd (Option.some.inj hhead) hq
    · exact .inr hlast
  | case8 out n q t hc =>
    rw [copyQuoted, if_neg hc, if_pos rfl] at h
    cases h
    exact .inl ⟨rfl, rfl⟩
  | case9 out n c q t hc hq ih =>
    rw [copyQuoted, if_neg hc, if_neg hq] at h
    rcases ih h with ⟨-, rfl⟩ | hlast
    · right
      rw [List.getLast?_concat]
      exact fun he => hc (Option.some.inj he)
    · exact .inr hlast

theorem copyLiteral_taken {text out : List Char} (h : copyLiteral a n text out = .success val) :
    ∃ w, val = out ++ w ∧ w <+: text ∧ ∀ c ∈ w, inLiteral a c = true := by
  induction n generalizing text out with
  | zero => cases h
  | succ n ih =>
    cases text with
    | nil =>
      cases h
      exact ⟨[], by simp, List.nil_prefix, fun c hc => absurd hc List.not_mem_nil⟩
    | cons c t =>
      rw [copyLiteral] at h
      split at h
      · rename_i hc
        obtain ⟨w, rfl, hprefix, hall⟩ := ih h
        refine ⟨c :: w, by simp, (List.cons_prefix_cons).mpr ⟨rfl, hprefix⟩, ?_⟩
        intro d hd
        rcases List.mem_cons.mp hd with rfl | hd
        · exact hc
        · exact hall d hd
      · cases h
        exact ⟨[], by simp, List.nil_prefix, fun c hc => absurd hc List.not_mem_nil⟩

theorem wellEnded_of_tokenCopy {token : List Char}
    (h : tokenCopy a token n = .success val) : WellEnded a val := by
  have hnil : WellEnded a [] := fun _ hlast => nomatch hlast
  unfold tokenCopy at h
  split at h
  · cases h
  · split at h
    · cases h
      exact hnil
    · split at h
      · cases h
        exact hnil
      · cases h
        exact hnil
      · rename_i c t htoken
        split at h
        · cases h
          intro _ hlast
          have := a.distinct
          simp at this hlast
          tauto
        · split at h
          · rename_i hc
            intro _
            rcases copyQuoted_last h with ⟨-, rfl⟩ | hlast
            · exact fun he => nomatch he
            · exact hlast
          · rename_i hquote
            obtain ⟨w, hw, hprefix, hall⟩ := copyLiteral_taken h
            rw [List.nil_append] at hw
            subst hw
            intro hq
            exfalso
            simp only [needsQuotes, decide_eq_true_eq] at hq
            rcases hq with hsepar | hdelim | hhead
            · exact (inLiteral_iff.mp (hall _ hsepar)).1 rfl
            · exact (inLiteral_iff.mp (hall _ hdelim)).2 rfl
            · cases val with
              | nil => cases hhead
              | cons d w =>
                obtain ⟨rfl, -⟩ := List.cons_prefix_cons.mp hprefix
                exact hquote (Option.some.inj hhead)

theorem decodeLoop_isPrefix {str : List Char} {value : Option Byte}
    {out bytes : List (Option Byte)} (h : decodeLoop a str n value out = .success bytes) :
    out <+: bytes := by
  induction str, n, value, out using decodeLoop.induct a with
  | case1 =>
    cases h
    exact List.prefix_rfl
  | case2 c tail value out hc =>
    rw [decodeLoop, if_pos hc] at h
    cases h
    exact List.prefix_rfl
  | case3 c tail value out hc =>
    rw [decodeLoop, if_neg hc] at h
    cases h
  | case4 c n value out hc =>
    rw [decodeLoop, if_pos hc] at h
    cases h
    exact List.prefix_rfl
  | case5 c n value out hc =>
    rw [decodeLoop, if_neg hc] at h
    cases h
  | case6 c d str n value out hc =>
    rw [decodeLoop, if_pos hc] at h
    cases h
    exact List.prefix_rfl
  | case7 c d str n value out hc new ih =>
    rw [decodeLoop, if_neg hc] at h
    exact (List.prefix_append _ _).trans (ih h)

theorem decodeBuffer_ne_nil {c : Char} {s : List Char} (hc : stops a c = false)
    (hn : 1 ≤ n) : decodeBuffer a (c :: s) n ≠ .success [] := by
  intro h
  obtain ⟨m, rfl⟩ : ∃ m, n = m + 1 := ⟨n - 1, by omega⟩
  have hquote : c ≠ a.quote := by
    rintro rfl
    simp [stops] at hc
  rw [decodeBuffer, if_neg hquote] at h
  cases s with
  | nil =>
    rw [decodeLoop, if_neg (by simp [hc])] at h
    cases h
  | cons d s =>
    rw [decodeLoop, if_neg (by simp [hc])] at h
    have hprefix := (decodeLoop_isPrefix h).length_le
    simp at hprefix

end Readable

section Located
variable (a : Alphabet)

def opens : Arg → Bool
  | .string val => val = [] ∨ val.head? = some a.quote
  | .binary _ => false

/-- An argument with the empty key comes right after one whose value the empty key is found in. -/
def Preceded : Bool → List (List Char × Arg) → Prop
  | _, [] => True
  | opened, arg :: args => (arg.1 = [] → opened = true) ∧ Preceded (opens a arg.2) args

instance : (opened : Bool) → (args : List (List Char × Arg)) → Decidable (Preceded a opened args)
  | _, [] => isTrue trivial
  | opened, arg :: args =>
    have := instDecidablePreceded (opens a arg.2) args
    inferInstanceAs (Decidable ((arg.1 = [] → opened = true) ∧ Preceded a (opens a arg.2) args))

end Located

section Found
variable {a : HexAlphabet} {flag : List Char} {v : Arg} {args pre post : List (List Char × Arg)}

theorem valueMatches_nil (arg : Arg) : valueMatches a.toAlphabet [] arg = opens a.toAlphabet arg := by
  cases arg with
  | string val =>
    cases val with
    | nil => rfl
    | cons c val =>
      by_cases hc : c = a.quote
      · simp [valueMatches, word, opens, needsQuotes, hc]
      · simp [valueMatches, word, opens, List.isPrefixOf, hc, Ne.symm hc]
  | binary bytes =>
    cases bytes with
    | nil => rfl
    | cons c bytes =>
      have hquotes := not_needsQuotes_of_plain (plain_hex (a := a) (c :: bytes))
      simp only [valueMatches, word, opens, Option.any_some, hquotes, Bool.false_and,
        Bool.or_false, decide_eq_false_iff_not]
      exact fun h => hex_ne_nil c bytes h.symm

theorem valueMatches_of_opens (hflag : Plain a.toAlphabet flag) (hne : flag ≠ []) {arg : Arg}
    (h : opens a.toAlphabet arg = true) : valueMatches a.toAlphabet flag arg = false := by
  cases arg with
  | binary bytes => cases h
  | string val =>
    cases flag with
    | nil => exact absurd rfl hne
    | cons d flag =>
      have hd : d ≠ a.quote := by
        rintro rfl
        exact hflag a.quote (by simp) (by simp)
      cases val with
      | nil => simp [valueMatches, word]
      | cons c val =>
        obtain rfl : c = a.quote := by simpa [opens] using h
        simp [valueMatches, word, List.isPrefixOf, hd]

theorem locate_key (hflag : Plain a.toAlphabet flag) (hne : flag ≠ []) {m opened : Bool}
    (hm : opened = true → m = false) (hpre : Preceded a.toAlphabet opened (pre ++ (flag, v) :: post))
    (hnew : ∀ x ∈ pre, x.1 ≠ flag) :
    locate a.toAlphabet flag m (pre ++ (flag, v) :: post) = some (v, post) := by
  induction pre generalizing m opened with
  | nil => rw [List.nil_append, locate, if_pos (Or.inr ⟨hne, rfl⟩)]
  | cons x pre ih =>
    obtain ⟨hempty, hrest⟩ := hpre
    have hx : ¬ (x.1 = [] ∧ m = true ∨ x.1 ≠ [] ∧ x.1 = flag) := by
      rintro (⟨hk, htrue⟩ | ⟨-, heq⟩)
      · rw [hm (hempty hk)] at htrue
        cases htrue
      · exact hnew x List.mem_cons_self heq
    rw [List.cons_append, locate, if_neg hx]
    exact ih (valueMatches_of_opens hflag hne) hrest fun y hy => hnew y (List.mem_cons_of_mem x hy)

theorem locate_none (h : ∀ x ∈ args, x.1 ≠ []) (m : Bool) : locate a.toAlphabet [] m args = none := by
  induction args generalizing m with
  | nil => rfl
  | cons x args ih =>
    have hx := h x List.mem_cons_self
    rw [locate, if_neg (by rintro (h | h); exact hx h.1; exact hx h.2)]
    exact ih (fun y hy => h y (List.mem_cons_of_mem x hy)) _

theorem preceded_of_keys (h : ∀ x ∈ args, x.1 ≠ []) (opened : Bool) : Preceded a.toAlphabet opened args := by
  induction args generalizing opened with
  | nil => trivial
  | cons x args ih =>
    exact ⟨fun hx => absurd hx (h x List.mem_cons_self),
      ih (fun y hy => h y (List.mem_cons_of_mem x hy)) _⟩

theorem locate_empty (hpre : ∀ x ∈ pre, x.1 ≠ []) (hpost : ∀ x ∈ post, x.1 ≠ []) (m : Bool) :
    (Preceded a.toAlphabet m (pre ++ ([], v) :: post) ∧
        locate a.toAlphabet [] m (pre ++ ([], v) :: post) = some (v, post)) ∨
      (¬ Preceded a.toAlphabet m (pre ++ ([], v) :: post) ∧
        locate a.toAlphabet [] m (pre ++ ([], v) :: post) = none) := by
  induction pre generalizing m with
  | nil =>
    rw [List.nil_append, locate]
    cases m with
    | true =>
      left
      exact ⟨⟨fun _ => rfl, preceded_of_keys hpost _⟩, if_pos (Or.inl ⟨rfl, rfl⟩)⟩
    | false =>
      right
      refine ⟨fun h => (nomatch h.1 rfl), ?_⟩
      rw [if_neg (by simp)]
      exact locate_none hpost _
  | cons x pre ih =>
    have hx := hpre x List.mem_cons_self
    have hloc : locate a.toAlphabet [] m (x :: pre ++ ([], v) :: post) =
        locate a.toAlphabet [] (opens a.toAlphabet x.2) (pre ++ ([], v) :: post) := by
      rw [List.cons_append, locate, if_neg (by rintro (h | h); exact hx h.1; exact hx h.2),
        valueMatches_nil]
    have hprec : Preceded a.toAlphabet m (x :: pre ++ ([], v) :: post) ↔
        Preceded a.toAlphabet (opens a.toAlphabet x.2) (pre ++ ([], v) :: post) :=
      ⟨fun h => h.2, fun h => ⟨fun hk => absurd hk hx, h⟩⟩
    rw [hloc, hprec]
    exact ih (fun y hy => hpre y (List.mem_cons_of_mem x hy)) _

theorem locate_found (hkeys : ∀ x ∈ args, Plain a.toAlphabet x.1) (hnodup : (args.map Prod.fst).Nodup)
    (hprec : Preceded a.toAlphabet false args) {x : List Char × Arg} (hx : x ∈ args) :
    ∃ post, locate a.toAlphabet x.1 false args = some (x.2, post) ∧ ∀ y ∈ post, y ∈ args := by
  obtain ⟨key, v⟩ := x
  obtain ⟨pre, post, rfl⟩ := List.append_of_mem hx
  rw [List.map_append, List.map_cons, List.nodup_append] at hnodup
  obtain ⟨-, hpost, hdisjoint⟩ := hnodup
  have hpre : ∀ y ∈ pre, y.1 ≠ key := fun y hy =>
    hdisjoint y.1 (List.mem_map_of_mem hy) key List.mem_cons_self
  refine ⟨post, ?_, fun y hy => by simp [hy]⟩
  by_cases hkey : key = []
  · subst hkey
    have hpost' : ∀ y ∈ post, y.1 ≠ [] := fun y hy he =>
      (List.nodup_cons.mp hpost).1 (List.mem_map.mpr ⟨y, hy, he⟩)
    rcases locate_empty (v := v) hpre hpost' false with ⟨-, hloc⟩ | ⟨hnot, -⟩
    · exact hloc
    · exact absurd hprec hnot
  · exact locate_key (hkeys _ hx) hkey (fun _ => rfl) hprec hpre

end Found

section ReadBack
variable (a : HexAlphabet)

def ReadsBack (text : List Char) (args : List (List Char × Arg)) : Prop :=
  ∀ x ∈ args, match x.2 with
    | .string val => ∀ n, val.length < n → getStringArg a.toAlphabet text x.1 n = .success val
    | .binary bytes => ∀ n, max 1 bytes.length ≤ n →
        getBinaryArg a.toAlphabet text x.1 n = .success (bytes.map some)

/-- No buffer is empty, no string that is quoted ends in the escape character, and the empty key comes
right after an empty string or one that begins with a quote. -/
structure Readable (args : List (List Char × Arg)) : Prop where
  filled : ∀ x ∈ args, x.2 ≠ .binary []
  ready : ∀ x ∈ args, Ready a.toAlphabet x.2
  preceded : Preceded a.toAlphabet false args

variable {a} {args : List (List Char × Arg)} {flag : List Char} {n : Nat}

theorem getStringArg_args (hflag : Plain a.toAlphabet flag)
    (hkeys : ∀ x ∈ args, Plain a.toAlphabet x.1) (hready : ∀ x ∈ args, Ready a.toAlphabet x.2) (hn : 1 ≤ n) :
    getStringArg a.toAlphabet (args.flatMap (argText a.toAlphabet)) flag n =
      outcome .fail (tokenCopy a.toAlphabet · n) a (locate a.toAlphabet flag false args) := by
  rw [getStringArg, if_neg (by omega), getLoop_eq]
  exact findLoop_args hflag hkeys hready (Nat.le_refl _)

theorem getBinaryArg_args (hflag : Plain a.toAlphabet flag)
    (hkeys : ∀ x ∈ args, Plain a.toAlphabet x.1) (hready : ∀ x ∈ args, Ready a.toAlphabet x.2) (hn : 1 ≤ n) :
    getBinaryArg a.toAlphabet (args.flatMap (argText a.toAlphabet)) flag n =
      outcome .fail (decodeBuffer a.toAlphabet · n) a (locate a.toAlphabet flag false args) := by
  rw [getBinaryArg, if_neg (by omega)]
  exact findLoop_args hflag hkeys hready (Nat.le_refl _)

theorem decodeBuffer_shown {c : Byte} {bytes : List Byte} (rest : List Char)
    (hn : (c :: bytes).length ≤ n) :
    decodeBuffer a.toAlphabet (shown a.toAlphabet (.binary (c :: bytes)) ++ a.separ :: rest) n =
      .success ((c :: bytes).map some) := by
  have hquote : hexDigit (c.toNat / 16) ≠ a.quote := by
    intro h
    exact mem_hexByte (a := a) (c := c) (d := a.quote) (by simp [hexByte, h]) (by simp)
  have hdecode : decodeLoop a.toAlphabet ((c :: bytes).flatMap hexByte ++ a.separ :: rest) n none
      [] = .success ([] ++ (c :: bytes).map some) := decodeLoop_hex (by simp [stops]) hn
  rw [List.nil_append] at hdecode
  rw [← hdecode]
  show decodeLoop _ (if hexDigit (c.toNat / 16) = a.quote then _ else _) n none [] = _
  rw [if_neg hquote]
  rfl

theorem readsBack_of_readable (hkeys : ∀ x ∈ args, Plain a.toAlphabet x.1)
    (hnodup : (args.map Prod.fst).Nodup) (h : Readable a args) :
    ReadsBack a (args.flatMap (argText a.toAlphabet)) args := by
  intro x hx
  obtain ⟨post, hloc, -⟩ := locate_found hkeys hnodup h.preceded hx
  obtain ⟨key, v⟩ := x
  have hready := h.ready _ hx
  have hkey := hkeys _ hx
  cases v with
  | string val =>
    intro n hn
    have hreads := reads_word (post.flatMap (argText a.toAlphabet)) hready rfl
    rw [getStringArg_args hkey hkeys h.ready (by omega), hloc, outcome, hreads.first]
    exact hreads.copy n hn
  | binary bytes =>
    intro n hn
    cases bytes with
    | nil => exact absurd rfl (h.filled _ hx)
    | cons c bytes =>
      have hreads := reads_word (post.flatMap (argText a.toAlphabet)) hready rfl
      rw [getBinaryArg_args hkey hkeys h.ready (by omega), hloc, outcome, hreads.first]
      exact decodeBuffer_shown _ (by omega)

theorem ready_of_readsBack {text : List Char} (h : ReadsBack a text args) :
    ∀ x ∈ args, Ready a.toAlphabet x.2 := by
  intro x hx
  obtain ⟨key, v⟩ := x
  cases v with
  | binary bytes => trivial
  | string val =>
    have hread := h _ hx (val.length + 1) (Nat.lt_succ_self _)
    dsimp only at hread
    rw [getStringArg, if_neg (by omega), getLoop_eq] at hread
    rcases findLoop_cases (a := a.toAlphabet) .fail .overrun
        (tokenCopy a.toAlphabet · (val.length + 1)) key text.length
        (firstToken a.toAlphabet text) with hfail | hover | ⟨token, htoken⟩
    · rw [hfail] at hread
      cases hread
    · rw [hover] at hread
      cases hread
    · rw [htoken] at hread
      exact wellEnded_of_tokenCopy hread

section
variable (hkeys : ∀ x ∈ args, Plain a.toAlphabet x.1)
include hkeys

theorem located_of_readsBack
    (hready : ∀ x ∈ args, Ready a.toAlphabet x.2)
    (h : ReadsBack a (args.flatMap (argText a.toAlphabet)) args) {x : List Char × Arg}
    (hx : x ∈ args) : locate a.toAlphabet x.1 false args ≠ none := by
  intro hnone
  obtain ⟨key, v⟩ := x
  have hread := h _ hx
  cases v with
  | string val =>
    have hval := hread (val.length + 1) (Nat.lt_succ_self _)
    rw [getStringArg_args (hkeys _ hx) hkeys hready (by omega), hnone] at hval
    cases hval
  | binary bytes =>
    have hval := hread (max 1 bytes.length) (Nat.le_refl _)
    rw [getBinaryArg_args (hkeys _ hx) hkeys hready (by omega), hnone] at hval
    cases hval

theorem preceded_of_readsBack
    (hnodup : (args.map Prod.fst).Nodup) (h : ReadsBack a (args.flatMap (argText a.toAlphabet)) args) :
    Preceded a.toAlphabet false args := by
  by_cases hempty : ∃ x ∈ args, x.1 = []
  · obtain ⟨⟨key, v⟩, hx, rfl : key = []⟩ := hempty
    have hlocated := located_of_readsBack hkeys (ready_of_readsBack h) h hx
    obtain ⟨pre, post, rfl⟩ := List.append_of_mem hx
    rw [List.map_append, List.map_cons, List.nodup_append] at hnodup
    obtain ⟨-, hpost, hdisjoint⟩ := hnodup
    have hpre : ∀ y ∈ pre, y.1 ≠ [] := fun y hy =>
      hdisjoint y.1 (List.mem_map_of_mem hy) [] List.mem_cons_self
    have hpost' : ∀ y ∈ post, y.1 ≠ [] := fun y hy he =>
      (List.nodup_cons.mp hpost).1 (List.mem_map.mpr ⟨y, hy, he⟩)
    rcases locate_empty (v := v) hpre hpost' false with ⟨hprec, -⟩ | ⟨-, hnone⟩
    · exact hprec
    · exact absurd hnone hlocated
  · apply preceded_of_keys
    intro x hx hk
    exact hempty ⟨x, hx, hk⟩

theorem filled_of_readsBack (hnodup : (args.map Prod.fst).Nodup)
    (h : ReadsBack a (args.flatMap (argText a.toAlphabet)) args) :
    ∀ x ∈ args, x.2 ≠ .binary [] := by
  rintro ⟨key, v⟩ hx (rfl : v = .binary [])
  have hprec := preceded_of_readsBack hkeys hnodup h
  obtain ⟨post, hloc, hmem⟩ := locate_found hkeys hnodup hprec hx
  have hread := h _ hx 1 (Nat.le_refl _)
  dsimp only at hread
  rw [getBinaryArg_args (hkeys _ hx) hkeys (ready_of_readsBack h) (Nat.le_refl _), hloc, outcome,
    shown, List.flatMap_nil, List.nil_append, firstToken_separ] at hread
  -- what is decoded is the text of the next argument
  cases post with
  | nil => cases hread
  | cons y post =>
    obtain ⟨key', v'⟩ := y
    have hkey' := hkeys _ (hmem _ List.mem_cons_self)
    rw [List.flatMap_cons, argText_append] at hread
    cases key' with
    | nil =>
      rw [List.nil_append, firstToken_cons _ delim_ne_separ] at hread
      have hdelim : stops a.toAlphabet a.delim = false := by
        simp [stops, delim_ne_separ, delim_ne_quote]
      exact decodeBuffer_ne_nil hdelim (Nat.le_refl 1) hread
    | cons c key' =>
      have hc := stops_of_plain (hkey' c List.mem_cons_self)
      have hsepar : c ≠ a.separ := by
        rintro rfl
        exact hkey' a.separ List.mem_cons_self (by simp)
      rw [List.cons_append, firstToken_cons _ hsepar] at hread
      exact decodeBuffer_ne_nil hc (Nat.le_refl 1) hread

end

end ReadBack

/-- What successful calls have added under distinct keys without special characters is read back
exactly when no buffer is empty, no string that is quoted ends in the escape character, and the
empty key, if it is used, stands where it is found. -/
theorem readsBack_iff (a : HexAlphabet) (args : List (List Char × Arg)) (maxlen : Int) (b : Buffer)
    (hadd : addArgs a.toAlphabet ⟨[], maxlen⟩ args = .ok b)
    (hkeys : ∀ x ∈ args, Plain a.toAlphabet x.1) (hnodup : (args.map Prod.fst).Nodup) :
    ReadsBack a b.text args ↔ Readable a args := by
  rw [addArgs_text hkeys hadd, List.nil_append]
  constructor
  · intro h
    exact ⟨filled_of_readsBack hkeys hnodup h, ready_of_readsBack h, preceded_of_readsBack hkeys hnodup h⟩
  · intro h
    exact readsBack_of_readable hkeys hnodup h

/- The other token set. -/
example : ∀ n < 16, hexDigit n ∉
    [humanReadable.delim, humanReadable.separ, humanReadable.quote, humanReadable.escape] := by
  decide

def mixedArgs : List (List Char × Arg) :=
  [(['b'], .binary [0x00, 0xF1, 0x24]), (['s'], .string ['t']), (['t'], .string []),
    ([], .binary [0x7F]), (['u'], .string ['$', '\\', '"'])]

theorem mixed_readsBack :
    ∃ b, addArgs standard ⟨[], 64⟩ mixedArgs = .ok b ∧ ReadsBack standardHex b.text mixedArgs := by
  obtain ⟨b, hb⟩ : ∃ b, addArgs standard ⟨[], 64⟩ mixedArgs = .ok b := ⟨_, rfl⟩
  refine ⟨b, hb, (readsBack_iff standardHex mixedArgs 64 b hb (by decide) (by decide)).mpr ?_⟩
  exact ⟨by decide, by decide, by decide⟩

theorem emptyBuffer_lost :
    (∃ b, addArgs standard ⟨[], 64⟩ [(['a'], .binary [])] = .ok b ∧
      getBinaryArg standard b.text ['a'] 8 = .fail ∧
      ¬ ReadsBack standardHex b.text [(['a'], .binary [])]) ∧
    (∃ b, addArgs standard ⟨[], 64⟩ [(['a'], .binary []), (['F', '0'], .string ['v'])] = .ok b ∧
      getBinaryArg standard b.text ['a'] 1 = .nomem [some 0xF0]) := by
  refine ⟨⟨_, rfl, rfl, ?_⟩, ⟨_, rfl, rfl⟩⟩
  intro h
  exact nomatch h _ List.mem_cons_self 8 (by decide)

end FgMpi.Argstr.Binary
