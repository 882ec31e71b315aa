import Mathlib.Data.List.Basic

/-! Business cards are strings of `key#value$` entries (`util/mem/argstr.c`). -/

namespace FgMpi.Argstr.Encoding

/-- `MPIU_STR_DELIM_CHAR`, `MPIU_STR_SEPAR_CHAR`, `MPIU_STR_QUOTE_CHAR` and `MPIU_STR_ESCAPE_CHAR` of
`include/mpimem.h:95`; nothing depends on more than that they differ. -/
structure Alphabet where
  delim : Char
  separ : Char
  quote : Char
  escape : Char
  distinct : [delim, separ, quote, escape].Nodup

def standard : Alphabet := ⟨'#', '$', '"', '\\', by decide⟩

def humanReadable : Alphabet := ⟨'=', ' ', '"', '\\', by decide⟩

/-- What a call returns, with the string it leaves in the output.  `overrun` stands for a read past
the terminating NUL. -/
inductive Result
  | success (val : List Char)
  | nomem (val : List Char)
  | fail
  | overrun
deriving Repr, DecidableEq

inductive Status
  | nomem
  | fail
deriving Repr, DecidableEq

section Functions
variable (a : Alphabet)

def firstToken (str : List Char) : Option (List Char) :=
  match str.dropWhile (· = a.separ) with
  | [] => none
  | c :: s => some (c :: s)

/-- The loop of `next_token` from after the opening quote to after the closing one. -/
def skipQuoted : List Char → Option (List Char)
  | [] => none
  | [c] => if c = a.quote then some [] else none
  | c :: q :: s =>
    if c = a.quote then some (q :: s)
    else if c = a.escape ∧ q = a.quote then skipQuoted s
    else skipQuoted (q :: s)

def inLiteral (c : Char) : Bool := c ≠ a.separ ∧ c ≠ a.delim

def nextToken (str : List Char) : Option (List Char) :=
  match firstToken a str with
  | none => none
  | some [] => none
  | some (c :: s) =>
    if c = a.quote then (skipQuoted a s).bind (firstToken a)
    else if c = a.delim then firstToken a s
    else firstToken a ((c :: s).dropWhile (inLiteral a))

/-- The loop of `compare_token` from after the opening quote; whether it returns 0. -/
def compareQuoted : List Char → List Char → Bool
  | [], _ => false
  | [c], s =>
    if c = a.escape then
      match s with
      | [] => false
      | d :: s => if d = a.escape then compareQuoted [] s else false
    else if c = a.quote then s = []
    else
      match s with
      | [] => false
      | d :: s => if c = d then compareQuoted [] s else false
  | c :: q :: t, s =>
    if c = a.escape then
      if q = a.quote then
        -- the escape is skipped; at the end of the key the loop stops on the escaped quote
        match s with
        | [] => true
        | d :: s => if d = a.quote then compareQuoted t s else false
      else
        match s with
        | [] => false
        | d :: s => if d = a.escape then compareQuoted (q :: t) s else false
    else if c = a.quote then s = []
    else
      match s with
      | [] => false
      | d :: s => if c = d then compareQuoted (q :: t) s else false

def compareLiteral : List Char → List Char → Bool
  | [], s => s = []
  | c :: _, [] => ¬ inLiteral a c
  | c :: t, d :: s => if c = d ∧ inLiteral a c then compareLiteral t s else false

/-- `compare_token(token, str) == 0` -/
def compareToken (token : Option (List Char)) (str : List Char) : Bool :=
  match token with
  | none => false
  | some [] => compareLiteral a [] str
  | some (c :: t) =>
    if c = a.quote then compareQuoted a t str
    else if c = a.delim then
      match str with
      | [] => false
      | d :: s => if d = a.delim then s = [] else false
    else compareLiteral a (c :: t) str

/-- The quoted copy of `token_copy`; `out` is what has been copied. -/
def copyQuoted : Nat → List Char → List Char → Result
  | 0, _, out => .nomem out.dropLast
  | _ + 1, [], _ => .overrun
  | n + 1, [c], out =>
    if c = a.escape then copyQuoted n [] (out ++ [c])
    else if c = a.quote then .success out
    else copyQuoted n [] (out ++ [c])
  | n + 1, c :: q :: t, out =>
    if c = a.escape then
      if q = a.quote then copyQuoted n t (out ++ [q])
      else copyQuoted n (q :: t) (out ++ [c])
    else if c = a.quote then .success out
    else copyQuoted n (q :: t) (out ++ [c])

def copyLiteral : Nat → List Char → List Char → Result
  | 0, _, out => .nomem out.dropLast
  | _ + 1, [], out => .success out
  | n + 1, c :: t, out =>
    if inLiteral a c then copyLiteral n t (out ++ [c]) else .success out

def tokenCopy (token : List Char) (maxlen : Nat) : Result :=
  if maxlen < 1 then .fail
  else if maxlen = 1 then .success []
  else
    match firstToken a token with
    | none => .success []
    | some [] => .success []
    | some (c :: t) =>
      if c = a.delim then .success [a.delim]
      else if c = a.quote then copyQuoted a maxlen t []
      else copyLiteral a maxlen (c :: t) []

/-- The loop of `MPIU_Str_get_string_arg`.  Every turn moves on by a token, so that it ends within as
many turns as there are characters. -/
def getLoop (flag : List Char) (maxlen : Nat) : Nat → Option (List Char) → Result
  | _, none => .fail
  | 0, some _ => .overrun
  | n + 1, some str =>
    if compareToken a (some str) flag then
      if compareToken a (nextToken a str) [a.delim] then
        match (nextToken a str).bind (nextToken a) with
        | none => .fail
        | some token => tokenCopy a token maxlen
      else getLoop flag maxlen n (nextToken a str)
    else getLoop flag maxlen n (nextToken a str)

def getStringArg (str flag : List Char) (maxlen : Nat) : Result :=
  if maxlen < 1 then .fail else getLoop a flag maxlen str.length (firstToken a str)

/-- The search of `MPIU_Str_get_string_arg` and `MPIU_Str_get_binary_arg`, with what is done with the
token it finds. -/
def findLoop {ρ : Type} (fail overrun : ρ) (use : List Char → ρ) (flag : List Char) :
    Nat → Option (List Char) → ρ
  | _, none => fail
  | 0, some _ => overrun
  | n + 1, some str =>
    if compareToken a (some str) flag then
      if compareToken a (nextToken a str) [a.delim] then
        match (nextToken a str).bind (nextToken a) with
        | none => fail
        | some token => use token
      else findLoop fail overrun use flag n (nextToken a str)
    else findLoop fail overrun use flag n (nextToken a str)

abbrev Byte := BitVec 8

def hexValue (c : Char) : Option Nat :=
  if '0' ≤ c ∧ c ≤ '9' then some (c.toNat - '0'.toNat)
  else if 'A' ≤ c ∧ c ≤ 'F' then some (c.toNat - 'A'.toNat + 10)
  else if 'a' ≤ c ∧ c ≤ 'f' then some (c.toNat - 'a'.toNat + 10)
  else none

def isSpace (c : Char) : Bool := c.isWhitespace ∨ c = '\x0b' ∨ c = '\x0c'

/-- `sscanf(hex, "%X", &value)` on two characters, as the low byte of what it stores: it skips white
space, takes a sign, and stops at what is not a digit.  Without a digit it stores nothing, nor for
the prefix `0x` alone. -/
def sscanfHex (c d : Char) : Option Byte :=
  match hexValue c, hexValue d with
  | some x, some y => some (BitVec.ofNat 8 (16 * x + y))
  | some x, none => if c = '0' ∧ (d = 'x' ∨ d = 'X') then none else some (BitVec.ofNat 8 x)
  | none, some y =>
    if c = '-' then some (-BitVec.ofNat 8 y)
    else if c = '+' ∨ isSpace c then some (BitVec.ofNat 8 y)
    else none
  | none, none => none

/-- What `decode_buffer` returns, with the bytes it stored; a byte from an indeterminate `value` is
`none`. -/
inductive Decoded
  | success (bytes : List (Option Byte))
  | nomem (bytes : List (Option Byte))
  | fail
  | overrun
deriving Repr, DecidableEq

def stops (c : Char) : Bool := c = a.separ ∨ c = a.quote

/-- The loop of `decode_buffer` and what follows it. -/
def decodeLoop : List Char → Nat → Option Byte → List (Option Byte) → Decoded
  | [], _, _, out => .success out
  | c :: _, 0, _, out => if stops a c then .success out else .nomem out
  | [c], _ + 1, _, out => if stops a c then .success out else .overrun
  | c :: d :: str, n + 1, value, out =>
    if stops a c then .success out
    else
      let value := (sscanfHex c d).or value
      decodeLoop str n value (out ++ [value])

/-- `decode_buffer` for `length` at least 1. -/
def decodeBuffer (str : List Char) (length : Nat) : Decoded :=
  match str with
  | [] => decodeLoop a [] length none []
  | c :: s => decodeLoop a (if c = a.quote then s else c :: s) length none []

def getBinaryArg (str flag : List Char) (maxlen : Nat) : Decoded :=
  if maxlen < 1 then .fail
  else findLoop a .fail .overrun (decodeBuffer a · maxlen) flag str.length (firstToken a str)

/-- What has been written before `*str_ptr`, and `*maxlen_ptr`. -/
structure Buffer where
  text : List Char
  maxlen : Int
deriving Repr, DecidableEq

/-- `MPL_snprintf` as that of C99: the characters written and the length returned.  The size is
unsigned there, and a negative one larger than any string. -/
def snprintf (maxlen : Int) (s : List Char) : List Char × Int :=
  (if maxlen < 0 then s else s.take (maxlen.toNat - 1), s.length)

/-- The loop of `quoted_printf` and the closing quote. -/
def quotedBody : Nat → List Char → List Char
  | 0, _ => []
  | _ + 1, [] => [a.quote]
  | 1, c :: _ => if c = a.quote then [a.escape] else [c]
  | n + 2, c :: val =>
    if c = a.quote then a.escape :: c :: quotedBody n val else c :: quotedBody (n + 1) val

def quotedPrintf (maxlen : Int) (val : List Char) : List Char × Int :=
  if maxlen < 1 then ([], 0)
  else
    let written := a.quote :: quotedBody a (maxlen.toNat - 1) val
    (written, written.length)

/-- `strstr(s, SEPAR_STR) || strstr(s, DELIM_STR) || s[0] == QUOTE_CHAR` -/
def needsQuotes (s : List Char) : Bool := a.separ ∈ s ∨ a.delim ∈ s ∨ s.head? = some a.quote

def printFlag (maxlen : Int) (flag : List Char) : List Char × Int :=
  if needsQuotes a flag then quotedPrintf a maxlen flag else snprintf maxlen flag

def printVal (maxlen : Int) (val : List Char) : List Char × Int :=
  if needsQuotes a val then quotedPrintf a maxlen val
  else if val = [] then snprintf maxlen [a.quote, a.quote]
  else snprintf maxlen val

def addStringArg (b : Buffer) (flag val : List Char) : Except Status Buffer :=
  if b.maxlen < 1 then .error .fail
  else
    let key := printFlag a b.maxlen flag
    let left := b.maxlen - key.2
    if left < 1 then .error .nomem
    else
      let value := printVal a (left - 1) val
      let left := left - 1 - value.2
      if left < 2 then .error .nomem
      else .ok ⟨b.text ++ key.1 ++ a.delim :: value.1 ++ [a.separ], left - 1⟩

/-- `strchr(val, SEPAR_CHAR) || strchr(val, QUOTE_CHAR) || strchr(val, DELIM_CHAR)` -/
def isSpecial (s : List Char) : Bool := a.separ ∈ s ∨ a.quote ∈ s ∨ a.delim ∈ s

/-- `MPIU_Str_add_string`; the code is -1.  Only as many characters as there is room for count as
truncated, one more does not. -/
def addString (b : Buffer) (val : List Char) : Except Status Buffer :=
  if isSpecial a val then
    let printed := quotedPrintf a b.maxlen val
    if printed.2 = b.maxlen then .error .fail
    else if printed.2 < b.maxlen - 1 then
      .ok ⟨b.text ++ printed.1 ++ [a.separ], b.maxlen - (printed.2 + 1)⟩
    else .ok ⟨b.text ++ printed.1, b.maxlen - printed.2⟩
  else
    let printed := snprintf b.maxlen (if val = [] then [a.quote, a.quote] else val ++ [a.separ])
    if printed.2 = b.maxlen then .error .fail
    else .ok ⟨b.text ++ printed.1, b.maxlen - printed.2⟩

def addStrings (b : Buffer) (vals : List (List Char)) : Except Status Buffer :=
  vals.foldlM (addString a) b

/-- `MPIU_Str_get_string`: what it returns, with the pointer it leaves.  Where there is no token it
returns 0 too, with nothing in the output. -/
inductive Got
  | nothing
  | string (val : List Char) (next : Option (List Char))
  | truncated
  | failed
  | overrun
deriving Repr, DecidableEq

def getString (str : Option (List Char)) (maxlen : Nat) : Got :=
  if maxlen < 1 then .nothing
  else
    match str.bind (firstToken a) with
    | none => .nothing
    | some token =>
      match tokenCopy a token maxlen with
      | .success val => .string val (nextToken a token)
      | .nomem _ => .truncated
      | .fail => .failed
      | .overrun => .overrun

def getStrings (str : Option (List Char)) : List Nat → Option (List (List Char))
  | [] => some []
  | maxlen :: lens =>
    match getString a str maxlen with
    | .string val next => (getStrings next lens).map (val :: ·)
    | _ => none

def hexDigit (n : Nat) : Char :=
  if n < 10 then Char.ofNat ('0'.toNat + n) else Char.ofNat ('A'.toNat + (n - 10))

/-- `"%02X"` -/
def hexByte (c : Byte) : List Char := [hexDigit (c.toNat / 16), hexDigit (c.toNat % 16)]

/-- The loop of `encode_buffer`: the characters, how many bytes they stand for, and the bytes that are
left.  `dest` moves on by two even where `snprintf` had room for less. -/
def encodeLoop : Int → List Byte → List Char → Nat → List Char × Nat × List Byte
  | _, [], out, n => (out, n, [])
  | destLength, c :: src, out, n =>
    if destLength = 0 then (out, n, c :: src)
    else encodeLoop (destLength - 2) src (out ++ (snprintf destLength (hexByte c)).1) (n + 1)

def encodeBuffer (destLength : Int) (src : List Byte) : Except Status (List Char × Nat) :=
  if src = [] then
    if 2 < destLength then .ok ([a.quote, a.quote], 0) else .error .nomem
  else
    let r := encodeLoop destLength src [] 0
    if r.2.2 = [] then .ok (r.1, r.2.1) else .error .nomem

/-- `MPIU_Str_add_binary_arg`; the number of characters is taken to be twice the number of bytes, and
the rest of what was written is overwritten. -/
def addBinaryArg (b : Buffer) (flag : List Char) (buffer : List Byte) : Except Status Buffer :=
  if b.maxlen < 1 then .error .fail
  else
    let key := printFlag a b.maxlen flag
    let left := b.maxlen - key.2
    if left < 1 then .error .nomem
    else
      match encodeBuffer a (left - 1) buffer with
      | .error e => .error e
      | .ok value =>
        let left := left - 1 - 2 * value.2
        if left < 2 then .error .nomem
        else .ok ⟨b.text ++ key.1 ++ a.delim :: value.1.take (2 * value.2) ++ [a.separ], left - 1⟩

def addStringArgs (b : Buffer) (args : List (List Char × List Char)) : Except Status Buffer :=
  args.foldlM (fun b arg => addStringArg a b arg.1 arg.2) b

end Functions

end FgMpi.Argstr.Encoding
