import FgMpi.Machine.Ints
import FgMpi.Topo.Primes
import Mathlib.Data.Int.Bitwise

/-! The functions of `mpi/topo/dims_create.c`. -/

namespace FgMpi.Topo.DimsCreate
open Machine.Ints Topo.Primes

structure Factors where
  val : Nat
  cnt : Nat
deriving Repr, DecidableEq

def maxFactors : Nat := 10

def maxDims : Nat := 20

/-- Why there is no result: the fuel is used up, an array is indexed outside of its bounds, or there
is a division by zero. -/
inductive Stop
  | fuel
  | outOfBounds
  | divideByZero
deriving Repr, DecidableEq

/-- `while (n_tmp) { n_root++; n_tmp >>= 1; }` -/
def rootLoop : Nat → Int → Nat → Except Stop Nat
  | 0, _, _ => .error .fuel
  | fuel + 1, nTmp, nRoot =>
    if nTmp = 0 then .ok nRoot else rootLoop fuel (nTmp >>> 1) (nRoot + 1)

/-- `while ((n % prime) == 0) { cnt++; n = n / prime; }` -/
def divideOut (prime : Nat) : Nat → Nat → Nat → Except Stop (Nat × Nat)
  | 0, _, _ => .error .fuel
  | fuel + 1, n, cnt =>
    if n % prime = 0 then divideOut prime fuel (n / prime) (cnt + 1) else .ok (n, cnt)

/-- `*ndivisors` is not set where there are too many factors. -/
structure Factored where
  factors : List Factors
  ndivisors : Option Nat
deriving Repr, DecidableEq

def lastFactor (n : Nat) (factors : List Factors) (nall : Nat) : Except Stop Factored :=
  if factors = [] then .ok ⟨[⟨n, 1⟩], some 1⟩
  else if 1 < n then
    if factors.length < maxFactors then .ok ⟨factors ++ [⟨n, 1⟩], some (nall + 1)⟩
    else .error .outOfBounds
  else .ok ⟨factors, some nall⟩

/-- The loop over the primes, from the index below `i` down to 0. -/
def factorLoop (fuel : Nat) : Nat → Nat → List Factors → Nat → Except Stop Factored
  | 0, n, factors, nall => lastFactor n factors nall
  | i + 1, n, factors, nall =>
    match primes[i]? with
    | none => .error .outOfBounds
    | some prime =>
      match divideOut prime fuel n 0 with
      | .error e => .error e
      | .ok (n, cnt) =>
        if 0 < cnt then
          if factors.length + 1 = maxFactors then .ok ⟨factors, none⟩
          else if factors.length < maxFactors then
            factorLoop fuel i n (factors ++ [⟨prime, cnt⟩]) (nall + cnt)
          else .error .outOfBounds
        else factorLoop fuel i n factors nall

def primeAbove (nRoot : Nat) : Nat := primes.findIdx fun prime => nRoot < prime

/-- A negative `n` never leaves the first loop. -/
def factor (fuel : Nat) (n : Int) : Except Stop Factored :=
  match rootLoop fuel n 0 with
  | .error e => .error e
  | .ok nRoot => factorLoop fuel (primeAbove (1 <<< (nRoot / 2)) + 1) n.toNat [] 0

/-- The search for the smallest entry, from the index `ii` on. -/
def minLoop : List Int → Nat → Int → Nat → Nat
  | [], _, _, iMin => iMin
  | c :: chosen, ii, cMin, iMin =>
    if c < cMin then minLoop chosen (ii + 1) c ii else minLoop chosen (ii + 1) cMin iMin

def minIndex (chosen : List Int) : Nat := minLoop chosen.tail 1 (chosen.getD 0 0) 0

def chooseStep (val : Int) (chosen : List Int) (i : Nat) : List Int × Nat :=
  let iMin := minIndex chosen
  let i := if (iMin : Int) < chosen.getD i 0 then iMin else i
  (chosen.set i (intMul (chosen.getD i 0) val), if chosen.length ≤ i + 1 then 0 else i + 1)

def chooseCopies (val : Int) : Nat → List Int → Nat → List Int × Nat
  | 0, chosen, i => (chosen, i)
  | cnt + 1, chosen, i =>
    let r := chooseStep val chosen i
    chooseCopies val cnt r.1 r.2

def chooseLoop : List Factors → List Int → Nat → List Int
  | [], chosen, _ => chosen
  | f :: factors, chosen, i =>
    let r := chooseCopies f.val f.cnt chosen i
    chooseLoop factors r.1 r.2

/-- The inner loop of the sort, with `chosen[i]` and what is behind it. -/
def sortPass : Int → List Int → Int × List Int
  | x, [] => (x, [])
  | x, y :: chosen =>
    if x < y then
      let r := sortPass y chosen
      (r.1, x :: r.2)
    else
      let r := sortPass x chosen
      (r.1, y :: r.2)

def sortLoop : Nat → List Int → List Int
  | 0, chosen => chosen
  | _ + 1, [] => []
  | n + 1, x :: chosen =>
    let r := sortPass x chosen
    r.1 :: sortLoop n r.2

def chooseFactors (factors : List Factors) (needed : Nat) : List Int :=
  sortLoop (needed - 1) (chooseLoop factors (List.replicate needed 1) 0)

inductive Code
  | success
  | argArrayNeg (i : Nat) (dim : Int)
  | dimsPartition
  | dimsMany (needed : Nat)
deriving Repr, DecidableEq

/-- The first loop: `dims_needed` and `dims_product`, or the index and the value of a negative entry. -/
def countLoop : List Int → Nat → Nat → Int → Except (Nat × Int) (Nat × Int)
  | [], _, needed, product => .ok (needed, product)
  | d :: dims, i, needed, product =>
    if d < 0 then .error (i, d)
    else if d = 0 then countLoop dims (i + 1) (needed + 1) product
    else countLoop dims (i + 1) needed (intMul product d)

/-- `for (i=0; i<ndims; i++) if (dims[i] == 0) dims[i] = chosen[j++];` -/
def fill : List Int → List Int → List Int
  | [], _ => []
  | d :: dims, [] => d :: fill dims []
  | d :: dims, c :: chosen => if d = 0 then c :: fill dims chosen else d :: fill dims (c :: chosen)

def powerLoop (factor : Int) : Nat → Nat → Nat → List Int → Except Stop (List Int)
  | 0, _, _, _ => .error .fuel
  | fuel + 1, cnt, i, dims =>
    if cnt = 0 then .ok dims
    else
      let next := if dims.length ≤ i + 1 then 0 else i + 1
      let d := dims.getD i 0
      if d < 0 then powerLoop factor fuel (cnt - 1) next (dims.set i (intMul d factor))
      else powerLoop factor fuel cnt next dims

def fillPowers (fuel : Nat) (f : Factors) (dims : List Int) : Except Stop (List Int) :=
  match powerLoop f.val fuel f.cnt 0 (dims.map fun d => if d = 0 then -1 else d) with
  | .error e => .error e
  | .ok dims => .ok (dims.map fun d => if d < 0 then -d else d)

def dimsCreate (fuel : Nat) (nnodes : Int) (dims : List Int) : Except Stop (Code × List Int) :=
  match countLoop dims 0 0 1 with
  | .error (i, d) => .ok (.argArrayNeg i d, dims)
  | .ok (needed, product) =>
    if product = 0 then .error .divideByZero
    else if intMul (nnodes.tdiv product) product ≠ nnodes then .ok (.dimsPartition, dims)
    else if needed = 0 then .ok (.success, dims)
    else if maxDims < needed then .ok (.dimsMany needed, dims)
    else
      match factor fuel (nnodes.tdiv product) with
      | .error e => .error e
      | .ok r =>
        if r.ndivisors.getD 0 ≤ needed then
          .ok (.success, fill dims (chooseFactors r.factors needed))
        else
          match r.factors with
          | [f] =>
            match fillPowers fuel f dims with
            | .error e => .error e
            | .ok dims => .ok (.success, dims)
          | factors => .ok (.success, fill dims (chooseFactors factors needed))

end FgMpi.Topo.DimsCreate
