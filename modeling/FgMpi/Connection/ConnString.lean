import FgMpi.Procmap.Mapping

/-! `mpid/ch3/src/mpidi_pg.c`. -/

namespace FgMpi.Connection.ConnString
open Procmap.Mapping (isSpace readDigits longInt)

def nul : Char := '\x00'

structure CString where
  val : List Char
  ended : nul ∉ val
deriving DecidableEq

/-- What `PMI_KVS_Get` gives, in a buffer of `MPIDI_MAX_KVS_VALUE_LEN` characters. -/
structure Card extends CString where
  short : val.length < 4096

/-- An access outside of an allocation and a signed overflow are undefined; the others are what the code
itself reports. -/
inductive Fault
  | outOfBounds
  | overflow
  | assertion
  | tooLong
deriving Repr, DecidableEq

def intBound : Nat := 2 ^ 31

def decimal (n : Int) : List Char :=
  if n < 0 then '-' :: Nat.toDigits 10 n.natAbs else Nat.toDigits 10 n.toNat

def atoi (s : List Char) : Int :=
  match s.dropWhile isSpace with
  | '-' :: s => Machine.Ints.toInt (-(min (readDigits 10 0 s).1 (2 ^ 63) : Nat))
  | '+' :: s => longInt (readDigits 10 0 s).1
  | s => longInt (readDigits 10 0 s).1

def readString : List Char → Except Fault (CString × List Char)
  | [] => .error .outOfBounds
  | c :: cs =>
    if h : nul = c then .ok (⟨[], List.not_mem_nil⟩, cs)
    else
      match readString cs with
      | .error e => .error e
      | .ok (s, rest) => .ok (⟨c :: s.val, List.not_mem_cons_of_ne_of_not_mem h s.ended⟩, rest)

/-- `string[len++] = c`, where what has been written so far are the first `len` characters. -/
def store (curSlen : Nat) (string : List Char) (c : Char) : Except Fault (List Char) :=
  if curSlen ≤ string.length then .error .outOfBounds
  else if intBound ≤ string.length + 1 then .error .overflow
  else .ok (string ++ [c])

def storeAll (curSlen : Nat) (string : List Char) : List Char → Except Fault (List Char)
  | [] => .ok string
  | c :: cs =>
    match store curSlen string c with
    | .error e => .error e
    | .ok string => storeAll curSlen string cs

def copyId (curSlen : Nat) (string : List Char) : List Char → Except Fault (List Char)
  | [] => .ok string
  | c :: cs =>
    if string.length < curSlen then
      match store curSlen string c with
      | .error e => .error e
      | .ok string => copyId curSlen string cs
    else .ok string

/-- `MPL_snprintf` writes what fits; then the end is looked for, which is read out of bounds when there is
no room at all. -/
def putSize (curSlen : Nat) (string : List Char) (size : Nat) : Except Fault (List Char) :=
  if curSlen ≤ string.length then .error .outOfBounds
  else .ok (string ++ (decimal size).take (curSlen - string.length - 1) ++ [nul])

def shmHost : List Char := ['$', 's', 'h', 'm', '_', 'h', 'o', 's', 't']

/-- `if ((p = strstr(buf, "$shm_host"))) p[1] = 0;` -/
def hideShm : List Char → List Char
  | [] => []
  | c :: cs => if shmHost.isPrefixOf (c :: cs) then [c] else c :: hideShm cs

def grow (curSlen len left vallen : Nat) : Nat :=
  if curSlen ≤ len + vallen + 1 then curSlen + left * (vallen + 1) else curSlen

/-- The last `left` cards, with the length allocated in the end. -/
def appendCards (value : Nat → Card) (size : Nat) : Nat → Nat → List Char → Except Fault (List Char × Nat)
  | 0, curSlen, string => .ok (string, curSlen)
  | left + 1, curSlen, string =>
    let buf := hideShm (value (size - (left + 1))).val
    let curSlen := grow curSlen string.length (left + 1) buf.length
    match storeAll curSlen string (buf ++ [nul]) with
    | .error e => .error e
    | .ok string => appendCards value size left curSlen string

/-- `10 + pg->size * 128` -/
def estimate (size : Nat) : Nat := 10 + size * 128

def connToStringKVS (id : CString) (size : Nat) (value : Nat → Card) : Except Fault (List Char) := do
  if intBound ≤ estimate size then
    throw .overflow
  let string ← copyId (estimate size) [] id.val
  let string ← store (estimate size) string nul
  let string ← putSize (estimate size) string size
  let (string, curSlen) ← appendCards value size size (estimate size) string
  if curSlen < string.length then
    throw .assertion
  return string

/-- `connData` with the functions that go with it: `connInfoToString` and `getConnInfo`. -/
inductive ConnData
  | kvs (value : Nat → Card)
  | connInfo (toStringLen : Nat) (connStrings : List CString)

/-- `MPIDI_PG_t` -/
structure Group where
  id : CString
  size : Int
  connData : ConnData

def Group.card (g : Group) (rank : Nat) : Option CString :=
  match g.connData with
  | .kvs value => some (value rank).toCString
  | .connInfo _ connStrings => connStrings[rank]?

def singinitKvs : List Char := ['s', 'i', 'n', 'g', 'i', 'n', 'i', 't', '_', 'k', 'v', 's']

def storeStrings (toStringLen : Nat) (string : List Char) : List CString → Except Fault (List Char)
  | [] => .ok string
  | s :: ss =>
    match storeAll toStringLen string (s.val ++ [nul]) with
    | .error e => .error e
    | .ok string => storeStrings toStringLen string ss

/-- The group of a singleton gets the name that it has in the key-value space by now. -/
def connToString (myName id : CString) (size : Int) (toStringLen : Nat) (connStrings : List CString) :
    Except Fault (List Char) := do
  let pgId := if singinitKvs.isPrefixOf id.val then myName else id
  let string ← storeAll toStringLen [] (pgId.val ++ [nul])
  let string ← storeAll toStringLen string ((decimal size).take 19 ++ [nul])
  if connStrings.length < size then
    throw .outOfBounds
  let string ← storeStrings toStringLen string (connStrings.take size.toNat)
  if toStringLen < string.length then
    throw .tooLong
  return string

def Group.toString (myName : CString) (g : Group) : Except Fault (List Char) :=
  match g.connData with
  | .kvs value => connToStringKVS g.id g.size.toNat value
  | .connInfo toStringLen connStrings => connToString myName g.id g.size toStringLen connStrings

def readStrings : Nat → List Char → Except Fault (List CString × List Char)
  | 0, buf => .ok ([], buf)
  | n + 1, buf =>
    match readString buf with
    | .error e => .error e
    | .ok (s, buf) =>
      match readStrings n buf with
      | .error e => .error e
      | .ok (ss, buf) => .ok (s :: ss, buf)

def connFromString (buf0 : List Char) : Except Fault (Int × ConnData) := do
  let (_, buf) ← readString buf0
  let (field, buf) ← readString buf
  let size := atoi field.val
  let (connStrings, buf) ← readStrings size.toNat buf
  let length := buf0.length - buf.length
  if intBound ≤ length + 1 then
    throw .overflow
  return (size, .connInfo (length + 1) connStrings)

/-- The group, whether it is new, and the list of the groups afterwards. -/
def createFromString (pgList : List Group) (str : List Char) :
    Except Fault (Group × Bool × List Group) := do
  let (id, _) ← readString str
  match pgList.find? fun g => g.id = id with
  | some existing => return (existing, false, pgList)
  | none =>
    let (size, connData) ← connFromString str
    let pg : Group := ⟨id, size, connData⟩
    return (pg, true, pgList ++ [pg])

end FgMpi.Connection.ConnString
