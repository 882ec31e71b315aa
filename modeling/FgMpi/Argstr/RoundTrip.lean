import FgMpi.Argstr.Encoding
import Mathlib.Data.List.Chain

namespace FgMpi.Argstr.RoundTrip
open Argstr.Encoding

variable {a : Alphabet}

theorem delim_ne_separ : a.delim ≠ a.separ := by
  have := a.distinct
  simp at this
  tauto

theorem delim_ne_quote : a.delim ≠ a.quote := by
  have := a.distinct
  simp at this
  tauto

theorem separ_ne_quote : a.separ ≠ a.quote := by
  have := a.distinct
  simp at this
  tauto

theorem quote_ne_escape : a.quote ≠ a.escape := by
  have := a.distinct
  simp at this
  tauto

variable (a) in
/-- What `quoted_printf` writes between the quotes. -/
def escaped (s : List Char) : List Char :=
  s.flatMap fun c => if c = a.quote then [a.escape, c] else [c]

variable (a) in
def token (s : List Char) : List Char :=
  if needsQuotes a s then a.quote :: escaped a s ++ [a.quote]
  else if s = [] then [a.quote, a.quote]
  else s

variable (a) in
def entry (arg : List Char × List Char) : List Char :=
  token a arg.1 ++ a.delim :: token a arg.2 ++ [a.separ]

variable {n : Nat} {val s flag rest text : List Char}

theorem quotedBody_of_room (h : (quotedBody a n val).length < n) :
    quotedBody a n val = escaped a val ++ [a.quote] := by
  induction n, val using quotedBody.induct a with
  | case1 val => simp [quotedBody] at h
  | case2 n => simp [quotedBody, escaped]
  | case3 val => simp [quotedBody] at h
  | case4 c val hc => simp [quotedBody, hc] at h
  | case5 n val ih =>
    simp only [quotedBody, if_pos, List.length_cons] at h
    rw [quotedBody, if_pos rfl, ih (by omega)]
    simp [escaped]
  | case6 n c val hc ih =>
    simp only [quotedBody, if_neg hc, List.length_cons] at h
    rw [quotedBody, if_neg hc, ih (by omega)]
    simp [escaped, hc]

theorem quotedBody_of_escaped (h : (escaped a val).length < n) :
    quotedBody a n val = escaped a val ++ [a.quote] := by
  induction n, val using quotedBody.induct a with
  | case1 val => exact absurd h (Nat.not_lt_zero _)
  | case2 n => rfl
  | case3 val => simp [escaped] at h
  | case4 c val hc => simp [escaped, hc] at h
  | case5 n val ih =>
    rw [quotedBody, if_pos rfl, ih (by simp [escaped] at h ⊢; omega)]
    simp [escaped]
  | case6 n c val hc ih =>
    rw [quotedBody, if_neg hc, ih (by simp [escaped, hc] at h ⊢; omega)]
    simp [escaped, hc]

variable {maxlen : Int}

theorem quotedPrintf_of_room (hpos : 1 ≤ maxlen) (h : (quotedPrintf a maxlen val).2 < maxlen) :
    (quotedPrintf a maxlen val).1 = a.quote :: escaped a val ++ [a.quote] := by
  have hneg : ¬ maxlen < 1 := by omega
  simp only [quotedPrintf, if_neg hneg, List.length_cons] at h ⊢
  rw [quotedBody_of_room (by omega)]
  rfl

theorem snprintf_of_room (h : (snprintf maxlen s).2 < maxlen) : (snprintf maxlen s).1 = s := by
  simp only [snprintf] at h ⊢
  rw [if_neg (by omega)]
  exact List.take_of_length_le (by omega)

theorem printFlag_of_room (hpos : 1 ≤ maxlen) (hne : flag ≠ [])
    (h : (printFlag a maxlen flag).2 < maxlen) : (printFlag a maxlen flag).1 = token a flag := by
  unfold printFlag at h ⊢
  unfold token
  split at h
  · rename_i hq
    rw [if_pos hq, if_pos hq]
    exact quotedPrintf_of_room hpos h
  · rename_i hq
    rw [if_neg hq, if_neg hq, if_neg hne]
    exact snprintf_of_room h

theorem printVal_of_room (hpos : 1 ≤ maxlen)
    (h : (printVal a maxlen val).2 < maxlen) : (printVal a maxlen val).1 = token a val := by
  unfold printVal at h ⊢
  unfold token
  by_cases hq : needsQuotes a val = true
  · rw [if_pos hq] at h ⊢
    rw [if_pos hq]
    exact quotedPrintf_of_room hpos h
  · rw [if_neg hq] at h ⊢
    rw [if_neg hq]
    by_cases hv : val = []
    · rw [if_pos hv] at h ⊢
      rw [if_pos hv]
      exact snprintf_of_room h
    · rw [if_neg hv] at h ⊢
      rw [if_neg hv]
      exact snprintf_of_room h

theorem printVal_nonneg (maxlen : Int) (val : List Char) : 0 ≤ (printVal a maxlen val).2 := by
  unfold printVal
  split
  · unfold quotedPrintf
    split
    · exact Int.le_refl 0
    · exact Int.natCast_nonneg _
  · split
    · exact Int.natCast_nonneg _
    · exact Int.natCast_nonneg _

variable {b' : Buffer}

theorem addStringArg_written {b : Buffer} (h : addStringArg a b flag val = .ok b') :
    1 ≤ b.maxlen ∧ (printFlag a b.maxlen flag).2 < b.maxlen ∧
      b'.text = b.text ++ (printFlag a b.maxlen flag).1 ++ a.delim :: token a val ++ [a.separ] := by
  dsimp only [addStringArg] at h
  split at h
  · cases h
  · rename_i hroom
    split at h
    · cases h
    · rename_i hkey
      split at h
      · cases h
      · rename_i hval
        have hnonneg := printVal_nonneg (a := a) (b.maxlen - (printFlag a b.maxlen flag).2 - 1) val
        cases h
        refine ⟨by omega, by omega, ?_⟩
        rw [printVal_of_room (by omega) (by omega)]

theorem addStringArg_text {b : Buffer} (hne : flag ≠ [])
    (h : addStringArg a b flag val = .ok b') : b'.text = b.text ++ entry a (flag, val) := by
  obtain ⟨hpos, hroom, htext⟩ := addStringArg_written h
  rw [htext, printFlag_of_room hpos hne hroom, entry]
  simp

variable {args : List (List Char × List Char)}

theorem addStringArgs_text {b : Buffer}
    (hne : ∀ arg ∈ args, arg.1 ≠ []) (h : addStringArgs a b args = .ok b') :
    b'.text = b.text ++ args.flatMap (entry a) := by
  induction args generalizing b with
  | nil =>
    cases h
    simp
  | cons arg args ih =>
    simp only [addStringArgs, List.foldlM_cons] at h
    cases hadd : addStringArg a b arg.1 arg.2 with
    | error e =>
      rw [hadd] at h
      cases h
    | ok b₁ =>
      rw [hadd] at h
      have htext := addStringArg_text (hne arg List.mem_cons_self) hadd
      rw [ih (fun x hx => hne x (List.mem_cons_of_mem arg hx)) h, htext]
      simp

variable (a) in
/-- `text` is the rest of a quoted token that reads as `s`, up to and with its closing quote, and then
`rest`. -/
inductive Quoted (rest : List Char) : List Char → List Char → Prop
  | close : Quoted rest [] (a.quote :: rest)
  | quote {s text : List Char} : Quoted rest s text →
      Quoted rest (a.quote :: s) (a.escape :: a.quote :: text)
  | plain {c q : Char} {s text : List Char} : c ≠ a.quote → (c = a.escape → q ≠ a.quote) →
      Quoted rest s (q :: text) → Quoted rest (c :: s) (c :: q :: text)

variable (a) in
def WellEnded (s : List Char) : Prop := needsQuotes a s = true → s.getLast? ≠ some a.escape

theorem quoted_escaped (rest : List Char) (hend : s.getLast? ≠ some a.escape) :
    Quoted a rest s (escaped a s ++ a.quote :: rest) := by
  induction s with
  | nil => exact .close
  | cons c s ih =>
    have htail : s.getLast? ≠ some a.escape := by
      intro hs
      refine hend ?_
      rw [List.getLast?_cons, hs]
      rfl
    by_cases hc : c = a.quote
    · subst hc
      simpa [escaped] using Quoted.quote (ih htail)
    · cases s with
      | nil =>
        have hesc : c ≠ a.escape := by simpa using hend
        simpa [escaped, hc] using
          Quoted.plain hc (fun h => absurd h hesc) (.close : Quoted a rest [] _)
      | cons d s =>
        have hs := ih htail
        -- what follows an escape character is not a quote: a quote has its own escape before it
        by_cases hd : d = a.quote
        · simp only [escaped, List.flatMap_cons, if_neg hc, if_pos hd] at hs ⊢
          exact Quoted.plain hc (fun _ => quote_ne_escape.symm) hs
        · simp only [escaped, List.flatMap_cons, if_neg hc, if_neg hd] at hs ⊢
          exact Quoted.plain hc (fun _ => hd) hs

section
variable (h : Quoted a rest s text)
include h

theorem skipQuoted_quoted : skipQuoted a text = some rest := by
  induction h with
  | close =>
    cases rest with
    | nil => simp [skipQuoted]
    | cons q rest => simp [skipQuoted]
  | quote _ ih =>
    rw [skipQuoted, if_neg quote_ne_escape.symm, if_pos ⟨rfl, rfl⟩, ih]
  | plain hc hq _ ih =>
    rw [skipQuoted, if_neg hc, if_neg (fun h => hq h.1 h.2), ih]

theorem compareQuoted_quoted (k : List Char) :
    compareQuoted a text k = true ↔ k = s ∨ ∃ r, s = k ++ a.quote :: r := by
  induction h generalizing k with
  | close =>
    cases rest with
    | nil => simp [compareQuoted, quote_ne_escape]
    | cons q rest => simp [compareQuoted, quote_ne_escape]
  | quote _ ih =>
    cases k with
    | nil => simp [compareQuoted]
    | cons d k =>
      by_cases hd : d = a.quote
      · simp [compareQuoted, hd, ih]
      · simp [compareQuoted, hd, Ne.symm hd]
  | @plain c q s text hc hq _ ih =>
    by_cases hesc : c = a.escape
    · cases k with
      | nil => simp [compareQuoted, hesc, hq hesc, quote_ne_escape.symm]
      | cons d k =>
        by_cases hd : d = a.escape
        · simp [compareQuoted, hesc, hq hesc, hd, ih]
        · simp [compareQuoted, hesc, hq hesc, hd, Ne.symm hd]
    · cases k with
      | nil => simp [compareQuoted, hesc, hc]
      | cons d k =>
        by_cases hd : c = d
        · subst hd
          simp [compareQuoted, hesc, hc, ih]
        · simp [compareQuoted, hesc, hc, hd, Ne.symm hd]

theorem copyQuoted_quoted
    (out : List Char) (hn : s.length < n) : copyQuoted a n text out = .success (out ++ s) := by
  induction h generalizing n out with
  | close =>
    obtain ⟨m, rfl⟩ : ∃ m, n = m + 1 := ⟨n - 1, by omega⟩
    cases rest with
    | nil => simp [copyQuoted, quote_ne_escape]
    | cons q rest => simp [copyQuoted, quote_ne_escape]
  | quote _ ih =>
    rw [List.length_cons] at hn
    obtain ⟨m, rfl⟩ : ∃ m, n = m + 1 := ⟨n - 1, by omega⟩
    rw [copyQuoted, if_pos rfl, if_pos rfl, ih _ (by omega)]
    simp
  | @plain c q s text hc hq _ ih =>
    rw [List.length_cons] at hn
    obtain ⟨m, rfl⟩ : ∃ m, n = m + 1 := ⟨n - 1, by omega⟩
    rw [copyQuoted]
    by_cases hesc : c = a.escape
    · rw [if_pos hesc, if_neg (hq hesc), ih _ (by omega)]
      simp
    · rw [if_neg hesc, if_neg hc, ih _ (by omega)]
      simp

end

variable {c : Char}

theorem inLiteral_iff : inLiteral a c = true ↔ c ≠ a.separ ∧ c ≠ a.delim := by
  simp [inLiteral]

theorem inLiteral_of_mem (hq : needsQuotes a s ≠ true) (hc : c ∈ s) : inLiteral a c = true := by
  have hall : ¬ (a.separ ∈ s ∨ a.delim ∈ s ∨ s.head? = some a.quote) := by
    simpa [needsQuotes] using hq
  refine inLiteral_iff.2 ⟨?_, ?_⟩
  · rintro rfl
    exact hall (Or.inl hc)
  · rintro rfl
    exact hall (Or.inr (Or.inl hc))

def Ends (a : Alphabet) (rest : List Char) : Prop := ∀ c ∈ rest.head?, inLiteral a c = false

section
variable (hs : ∀ c ∈ s, inLiteral a c = true) (hrest : Ends a rest)
include hs hrest

theorem dropWhile_literal : (s ++ rest).dropWhile (inLiteral a) = rest := by
  induction s with
  | nil =>
    cases rest with
    | nil => rfl
    | cons c rest => rw [List.nil_append, List.dropWhile_cons, hrest c rfl]; rfl
  | cons c s ih =>
    rw [List.cons_append, List.dropWhile_cons, if_pos (hs c List.mem_cons_self)]
    exact ih fun d hd => hs d (List.mem_cons_of_mem c hd)

theorem compareLiteral_literal (k : List Char) : compareLiteral a (s ++ rest) k = true ↔ k = s := by
  induction s generalizing k with
  | nil =>
    cases rest with
    | nil => simp [compareLiteral]
    | cons c rest =>
      have hc := hrest c rfl
      cases k with
      | nil => simp [compareLiteral, hc]
      | cons d k => simp [compareLiteral, hc]
  | cons c s ih =>
    have hc := hs c List.mem_cons_self
    cases k with
    | nil => simp [compareLiteral, hc]
    | cons d k =>
      by_cases hd : c = d
      · subst hd
        simp only [List.cons_append, compareLiteral, hc, and_self, if_true]
        rw [ih fun e he => hs e (List.mem_cons_of_mem c he)]
        simp
      · simp [compareLiteral, hd, Ne.symm hd]

theorem copyLiteral_literal (out : List Char) (hn : s.length < n) :
    copyLiteral a n (s ++ rest) out = .success (out ++ s) := by
  induction s generalizing n out with
  | nil =>
    obtain ⟨m, rfl⟩ : ∃ m, n = m + 1 := ⟨n - 1, by omega⟩
    cases rest with
    | nil => simp [copyLiteral]
    | cons c rest => simp [copyLiteral, hrest c rfl]
  | cons c s ih =>
    rw [List.length_cons] at hn
    obtain ⟨m, rfl⟩ : ∃ m, n = m + 1 := ⟨n - 1, by omega⟩
    rw [List.cons_append, copyLiteral, if_pos (hs c List.mem_cons_self),
      ih (fun d hd => hs d (List.mem_cons_of_mem c hd)) _ (by omega)]
    simp

end

def Matches (a : Alphabet) (s k : List Char) : Prop :=
  k = s ∨ (needsQuotes a s = true ∧ ∃ r, s = k ++ a.quote :: r)

/-- `text` begins with a token that reads as `s`, and `rest` follows it. -/
structure Reads (a : Alphabet) (s rest text : List Char) : Prop where
  first : firstToken a text = some text
  next : nextToken a text = firstToken a rest
  compare : ∀ k, compareToken a (some text) k = true ↔ Matches a s k
  copy : ∀ n, s.length < n → tokenCopy a text n = .success s

theorem firstToken_cons (s : List Char) (hc : c ≠ a.separ) : firstToken a (c :: s) = some (c :: s) := by
  simp [firstToken, hc]

theorem firstToken_separ (s : List Char) : firstToken a (a.separ :: s) = firstToken a s := by
  simp [firstToken]

section
variable (h : Quoted a rest s text)
include h

theorem tokenCopy_quoted (hn : s.length < n) : tokenCopy a (a.quote :: text) n = .success s := by
  unfold tokenCopy
  rw [if_neg (by omega)]
  by_cases hone : n = 1
  · have hs : s = [] := List.length_eq_zero_iff.1 (by omega)
    rw [if_pos hone, hs]
  · rw [if_neg hone, firstToken_cons _ separ_ne_quote.symm]
    dsimp only
    rw [if_neg delim_ne_quote.symm, if_pos rfl, copyQuoted_quoted h _ hn]
    rfl

theorem nextToken_quoted : nextToken a (a.quote :: text) = firstToken a rest := by
  unfold nextToken
  rw [firstToken_cons _ separ_ne_quote.symm]
  dsimp only
  rw [if_pos rfl, skipQuoted_quoted h]
  rfl

theorem reads_quoted (hq : s = [] ∨ needsQuotes a s = true) : Reads a s rest (a.quote :: text) where
  first := firstToken_cons _ separ_ne_quote.symm
  next := nextToken_quoted h
  compare := by
    intro k
    unfold compareToken
    dsimp only
    rw [if_pos rfl, compareQuoted_quoted h]
    unfold Matches
    rcases hq with rfl | hq
    · simp
    · simp [hq]
  copy := fun n hn => tokenCopy_quoted h hn

end

theorem reads_literal (hq : needsQuotes a (c :: s) ≠ true)
    (hrest : Ends a rest) : Reads a (c :: s) rest (c :: s ++ rest) := by
  have hs : ∀ d ∈ c :: s, inLiteral a d = true := fun d hd => inLiteral_of_mem hq hd
  have hc := inLiteral_iff.1 (hs c List.mem_cons_self)
  have hquote : c ≠ a.quote := by
    rintro rfl
    exact hq (by simp [needsQuotes])
  refine ⟨firstToken_cons _ hc.1, ?_, ?_, ?_⟩
  · rw [nextToken, List.cons_append, firstToken_cons _ hc.1]
    dsimp only
    rw [if_neg hquote, if_neg hc.2, ← List.cons_append, dropWhile_literal hs hrest]
  · intro k
    unfold compareToken
    rw [List.cons_append]
    dsimp only
    rw [if_neg hquote, if_neg hc.2, ← List.cons_append, compareLiteral_literal hs hrest]
    simp [Matches, hq]
  · intro n hn
    have hlen : 1 < n := by
      rw [List.length_cons] at hn
      omega
    rw [tokenCopy, if_neg (by omega), if_neg (by omega), List.cons_append, firstToken_cons _ hc.1]
    dsimp only
    rw [if_neg hc.2, if_neg hquote, ← List.cons_append, copyLiteral_literal hs hrest _ hn]
    rfl

theorem reads_token (hend : WellEnded a s) (hrest : Ends a rest) : Reads a s rest (token a s ++ rest) := by
  unfold token
  by_cases hq : needsQuotes a s = true
  · rw [if_pos hq]
    simpa using reads_quoted (quoted_escaped rest (hend hq)) (Or.inr hq)
  · rw [if_neg hq]
    cases s with
    | nil => simpa using reads_quoted (.close : Quoted a rest [] _) (Or.inl rfl)
    | cons c s =>
      rw [if_neg (List.cons_ne_nil c s)]
      exact reads_literal hq hrest

theorem ends_delim (s : List Char) : Ends a (a.delim :: s) := by
  intro c hc
  cases hc
  simp [inLiteral]

theorem ends_separ (s : List Char) : Ends a (a.separ :: s) := by
  intro c hc
  cases hc
  simp [inLiteral]

theorem nextToken_delim (s : List Char) : nextToken a (a.delim :: s) = firstToken a s := by
  rw [nextToken, firstToken_cons _ delim_ne_separ]
  dsimp only
  rw [if_neg delim_ne_quote, if_pos rfl]

theorem compareToken_delim (s k : List Char) :
    compareToken a (some (a.delim :: s)) k = true ↔ k = [a.delim] := by
  unfold compareToken
  dsimp only
  rw [if_neg delim_ne_quote, if_pos rfl]
  cases k with
  | nil => simp
  | cons d k =>
    by_cases hd : d = a.delim
    · simp [hd]
    · simp [hd]

variable (a) in
/-- Two entries one after the other are told apart when the value of the first is not taken for a
delimiter, and the key of the second is not the delimiter unless that value is empty. -/
def Separable (x y : List Char × List Char) : Prop :=
  x.2 ≠ [a.delim] ∧ ¬ [a.delim, a.quote] <+: x.2 ∧ (y.1 = [a.delim] → x.2 = [])

variable (a) in
structure Unambiguous (args : List (List Char × List Char)) : Prop where
  keysEnd : ∀ arg ∈ args, WellEnded a arg.1
  valuesEnd : ∀ arg ∈ args, WellEnded a arg.2
  keys : ∀ arg ∈ args, needsQuotes a arg.1 = true → a.quote ∉ arg.1.tail
  separable : args.IsChain (Separable a)

theorem Unambiguous.tail {arg : List Char × List Char}
    (h : Unambiguous a (arg :: args)) : Unambiguous a args where
  keysEnd := fun x hx => h.keysEnd x (List.mem_cons_of_mem arg hx)
  valuesEnd := fun x hx => h.valuesEnd x (List.mem_cons_of_mem arg hx)
  keys := fun x hx => h.keys x (List.mem_cons_of_mem arg hx)
  separable := h.separable.tail

theorem matches_key {key k : List Char} (hkey : needsQuotes a key = true → a.quote ∉ key.tail)
    (hk : k ≠ []) : Matches a key k ↔ k = key := by
  refine ⟨?_, Or.inl⟩
  rintro (h | ⟨hq, r, hr⟩)
  · exact h
  · refine absurd ?_ (hkey hq)
    cases k with
    | nil => exact absurd rfl hk
    | cons c k =>
      rw [hr]
      simp

theorem not_matches_delim {x y : List Char × List Char} (h : Separable a x y) :
    ¬ Matches a x.2 [a.delim] := by
  rintro (hx | ⟨_, r, hr⟩)
  · exact h.1 hx.symm
  · exact h.2.1 ⟨r, hr.symm⟩

theorem entry_reads {arg : List Char × List Char} (rest : List Char) (hk : WellEnded a arg.1)
    (hv : WellEnded a arg.2) :
    Reads a arg.1 (a.delim :: (token a arg.2 ++ a.separ :: rest)) (entry a arg ++ rest) ∧
      Reads a arg.2 (a.separ :: rest) (token a arg.2 ++ a.separ :: rest) := by
  refine ⟨?_, reads_token hv (ends_separ rest)⟩
  simpa [entry] using reads_token hk (ends_delim (token a arg.2 ++ a.separ :: rest))

theorem getLoop_eq (flag : List Char) (maxlen n : Nat) (str : Option (List Char)) :
    getLoop a flag maxlen n str =
      findLoop a .fail .overrun (tokenCopy a · maxlen) flag n str := by
  induction n generalizing str with
  | zero => cases str <;> rfl
  | succ n ih =>
    cases str with
    | none => rfl
    | some str => simp only [getLoop, findLoop, ih]

section Entry
variable {ρ : Type} {fail overrun : ρ} {use : List Char → ρ}
variable {flag : List Char} {fuel : Nat} {key val text value rest : List Char}

section
variable (hkey : Reads a key (a.delim :: value) text)
include hkey

theorem findLoop_found (heq : Matches a key flag) :
    findLoop a fail overrun use flag (fuel + 1) (some text) =
      match firstToken a value with
      | none => fail
      | some token => use token := by
  have hdelim : nextToken a text = some (a.delim :: value) := by
    rw [hkey.next, firstToken_cons _ delim_ne_separ]
  rewrite [findLoop, if_pos ((hkey.compare flag).2 heq), hdelim,
    if_pos ((compareToken_delim value _).2 rfl), Option.bind_some, nextToken_delim]
  cases firstToken a value <;> rfl

theorem findLoop_entry
    (hval : Reads a val (a.separ :: rest) value) (hne : ¬ Matches a key flag)
    (hdelim : flag = [a.delim] → ¬ Matches a val [a.delim])
    (hnext : Matches a val flag → compareToken a (firstToken a rest) [a.delim] = false) :
    findLoop a fail overrun use flag (fuel + 3) (some text) =
      findLoop a fail overrun use flag fuel (firstToken a rest) := by
  have hfirst : findLoop a fail overrun use flag (fuel + 3) (some text) =
      findLoop a fail overrun use flag (fuel + 2) (some (a.delim :: value)) := by
    rw [findLoop, if_neg (fun h => hne ((hkey.compare flag).1 h)), hkey.next,
      firstToken_cons _ delim_ne_separ]
  have hsecond : findLoop a fail overrun use flag (fuel + 2) (some (a.delim :: value)) =
      findLoop a fail overrun use flag (fuel + 1) (some value) := by
    rw [findLoop, nextToken_delim, hval.first]
    by_cases hflag : flag = [a.delim]
    · have hvalue : ¬ compareToken a (some value) [a.delim] = true :=
        fun h => hdelim hflag ((hval.compare _).1 h)
      rw [if_pos ((compareToken_delim value flag).2 hflag), if_neg hvalue]
    · rw [if_neg (fun h => hflag ((compareToken_delim value flag).1 h))]
  have hthird : findLoop a fail overrun use flag (fuel + 1) (some value) =
      findLoop a fail overrun use flag fuel (firstToken a rest) := by
    rw [findLoop, hval.next, firstToken_separ]
    by_cases hmatch : Matches a val flag
    · rw [if_pos ((hval.compare flag).2 hmatch), hnext hmatch]
      rfl
    · rw [if_neg (fun h => hmatch ((hval.compare flag).1 h))]
  rw [hfirst, hsecond, hthird]

theorem findLoop_last
    (hval : Reads a val [a.separ] value) (hne : ¬ Matches a key [a.delim])
    (hmatch : Matches a val [a.delim]) :
    findLoop a fail overrun use [a.delim] (fuel + 2) (some text) = fail := by
  have hend : nextToken a value = none := by
    rw [hval.next, firstToken_separ]
    rfl
  rw [findLoop, if_neg (fun h => hne ((hkey.compare _).1 h)), hkey.next,
    firstToken_cons _ delim_ne_separ, findLoop, if_pos ((compareToken_delim value _).2 rfl),
    nextToken_delim, hval.first, if_pos ((hval.compare _).2 hmatch), Option.bind_some, hend]

end

end Entry

def expected (flag : List Char) (args : List (List Char × List Char)) : Result :=
  match args.lookup flag with
  | some val => .success val
  | none => .fail

theorem findLoop_entries
    {maxlen fuel : Nat} (h : Unambiguous a args) (hflag : flag ≠ [])
    (hlen : ∀ val, args.lookup flag = some val → val.length < maxlen)
    (hfuel : 3 * args.length ≤ fuel) :
    findLoop a .fail .overrun (tokenCopy a · maxlen) flag fuel
      (firstToken a (args.flatMap (entry a))) = expected flag args := by
  induction args generalizing fuel with
  | nil =>
    simp [expected, firstToken, findLoop]
  | cons arg args ih =>
    rw [List.length_cons] at hfuel
    obtain ⟨m, rfl⟩ : ∃ m, fuel = m + 3 := ⟨fuel - 3, by omega⟩
    obtain ⟨hkey, hval⟩ := entry_reads (args.flatMap (entry a)) (h.keysEnd arg List.mem_cons_self)
      (h.valuesEnd arg List.mem_cons_self)
    have hmatch := matches_key (h.keys arg List.mem_cons_self) hflag
    rw [List.flatMap_cons, hkey.first]
    by_cases heq : flag = arg.1
    · have hlookup : (arg :: args).lookup flag = some arg.2 := by rw [heq, List.lookup_cons_self]
      rw [findLoop_found hkey (hmatch.2 heq), hval.first, expected, hlookup]
      exact hval.copy maxlen (hlen _ hlookup)
    · have hlookup : (arg :: args).lookup flag = args.lookup flag := by
        have hbeq : (flag == arg.1) = false := by simpa using heq
        rw [List.lookup_cons, hbeq]
      have hexpected : expected flag (arg :: args) = expected flag args := by
        rw [expected, hlookup, expected]
      have hne : ¬ Matches a arg.1 flag := fun hm => heq (hmatch.1 hm)
      rw [hlookup] at hlen
      have hrest := @ih m h.tail hlen (by omega)
      rw [hexpected]
      cases args with
      | nil =>
        by_cases hlast : flag = [a.delim] ∧ Matches a arg.2 [a.delim]
        · obtain ⟨rfl, hv⟩ := hlast
          rw [findLoop_last hkey hval hne hv]
          rfl
        · rw [← hrest]
          exact findLoop_entry hkey hval hne (fun hf hv => hlast ⟨hf, hv⟩) (fun _ => rfl)
      | cons next args =>
        have hsep := (List.isChain_cons_cons.1 h.separable).1
        have hmem : next ∈ arg :: next :: args := List.mem_cons_of_mem arg List.mem_cons_self
        obtain ⟨hnext, _⟩ := entry_reads (args.flatMap (entry a)) (h.keysEnd next hmem)
          (h.valuesEnd next hmem)
        rw [← hrest]
        refine findLoop_entry hkey hval hne (fun _ => not_matches_delim hsep) fun hv => ?_
        -- a value that matches is not empty, so that the key after it is not the delimiter
        rw [List.flatMap_cons, hnext.first, Bool.eq_false_iff]
        intro hc
        have hkey₂ := (matches_key (h.keys next hmem) (by simp)).1 ((hnext.compare _).1 hc)
        have hempty := hsep.2.2 hkey₂.symm
        rw [hempty] at hv
        rcases hv with hv | ⟨_, r, hr⟩
        · exact hflag hv
        · simp at hr

theorem token_ne_nil (s : List Char) : 1 ≤ (token a s).length := by
  unfold token
  split
  · simp
  · split
    · simp
    · rename_i hs
      exact List.length_pos_of_ne_nil hs

theorem length_entries (args : List (List Char × List Char)) :
    3 * args.length ≤ (args.flatMap (entry a)).length := by
  induction args with
  | nil => simp
  | cons arg args ih =>
    have := token_ne_nil (a := a) arg.1
    simp only [List.flatMap_cons, List.length_append, List.length_cons, entry]
    omega

/-- A flag reads back the first value that was written with it, and no other flag is found. -/
theorem getStringArg_addStringArgs {args : List (List Char × List Char)} {b : Buffer}
    {maxlen : Int} {flag : List Char} (hne : ∀ arg ∈ args, arg.1 ≠ [])
    (hadd : addStringArgs a ⟨[], maxlen⟩ args = .ok b) (hargs : Unambiguous a args)
    (hflag : flag ≠ []) :
    (∀ val, args.lookup flag = some val →
      ∀ n, val.length < n → getStringArg a b.text flag n = .success val) ∧
    (args.lookup flag = none → ∀ n, getStringArg a b.text flag n = .fail) := by
  have htext : b.text = args.flatMap (entry a) := addStringArgs_text hne hadd
  constructor
  · intro val hlookup n hn
    rw [getStringArg, if_neg (by omega), htext, getLoop_eq,
      findLoop_entries hargs hflag ?_ (length_entries args), expected, hlookup]
    intro val' hval'
    rw [hlookup] at hval'
    cases hval'
    exact hn
  · intro hlookup n
    rw [getStringArg, htext]
    split
    · rfl
    · rw [getLoop_eq, findLoop_entries hargs hflag ?_ (length_entries args), expected, hlookup]
      intro val hval
      rw [hlookup] at hval
      cases hval

def mixed : List (List Char × List Char) :=
  [(['n'], ['D', '$', '"', 'A']), (['a', '$', 'b'], ['\\', '#', '\\', '"']), (['x', '\\'], []),
    (['#'], ['e', '"', 'q']), (['"', 'h', '#'], ['#', '"'])]

theorem mixed_unambiguous : Unambiguous standard mixed where
  keysEnd := by
    unfold WellEnded
    decide
  valuesEnd := by
    unfold WellEnded
    decide
  keys := by decide
  separable := by
    unfold mixed Separable
    decide

theorem getStringArg_mixed :
    ∃ b, addStringArgs standard ⟨[], 64⟩ mixed = .ok b ∧
      getStringArg standard b.text ['a', '$', 'b'] 64 = .success ['\\', '#', '\\', '"'] ∧
      getStringArg standard b.text ['x', '\\'] 64 = .success [] ∧
      getStringArg standard b.text ['e'] 64 = .fail := by
  obtain ⟨b, hb⟩ : ∃ b, addStringArgs standard ⟨[], 64⟩ mixed = .ok b := ⟨_, rfl⟩
  refine ⟨b, hb, ?_, ?_, ?_⟩
  · exact (getStringArg_addStringArgs (by decide) hb mixed_unambiguous (by decide)).1 _ rfl 64
      (by decide)
  · exact (getStringArg_addStringArgs (by decide) hb mixed_unambiguous (by decide)).1 _ rfl 64
      (by decide)
  · exact (getStringArg_addStringArgs (by decide) hb mixed_unambiguous (by decide)).2 rfl 64

theorem getStringArg_differs :
    (∃ b, addStringArgs standard ⟨[], 64⟩ [(['a'], ['$', '\\'])] = .ok b ∧
      getStringArg standard b.text ['a'] 64 = .overrun) ∧
    (∃ b, addStringArgs standard ⟨[], 64⟩ [(['$', '"', 'b'], ['v'])] = .ok b ∧
      getStringArg standard b.text ['$'] 64 = .success ['v']) ∧
    (∃ b, addStringArgs standard ⟨[], 64⟩ [(['a'], ['#']), (['b'], ['c'])] = .ok b ∧
      getStringArg standard b.text ['#'] 64 = .success ['b']) ∧
    (∃ b, addStringArgs standard ⟨[], 64⟩ [(['a'], ['k']), (['#'], ['v'])] = .ok b ∧
      getStringArg standard b.text ['k'] 64 = .success ['#']) :=
  ⟨⟨_, rfl, rfl⟩, ⟨_, rfl, rfl⟩, ⟨_, rfl, rfl⟩, ⟨_, rfl, rfl⟩⟩

end FgMpi.Argstr.RoundTrip
