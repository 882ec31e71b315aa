import FgMpi.Group.SetOperations
import FgMpi.Machine.Ints
import Mathlib.Tactic.Linarith

/-! `MPIR_Group_check_valid_ranges` (`mpi/group/grouputil.c:308`) and what it is called for. -/

namespace FgMpi.Group.Ranges
open Machine.Ints Group.LpidOrder Group.Groups Group.SetOperations

def IsInt (x : Int) : Prop := -2 ^ 31 ≤ x ∧ x < 2 ^ 31

instance (x : Int) : Decidable (IsInt x) := inferInstanceAs (Decidable (_ ∧ _))

/-- `ranges[i]`. -/
structure Range where
  first : Int
  last : Int
  stride : Int
  isInt : IsInt first ∧ IsInt last ∧ IsInt stride

section Functions
variable (memory : MpidGroup) (s : GroupMem) (h : Nat)

/-- `(last - first) / stride`; `none` where the division traps. -/
def quotient (r : Range) : Option Int :=
  let x := toInt (r.last - r.first)
  if r.stride = 0 ∨ (x = -2 ^ 31 ∧ r.stride = -1) then none else some (toInt (x.tdiv r.stride))

def actLast (r : Range) : Option Int := (quotient r).map fun q => toInt (r.first + toInt (r.stride * q))

/-- `j <= last`, or `j >= last` for a stride that is not positive. -/
def goesOn (last stride j : Int) : Bool := if 0 < stride then j ≤ last else last ≤ j

/-- `for (j = first; goesOn; j += stride)`; the body says whether it breaks.  `none` when the body has no outcome or the
fuel does not last. -/
def strideLoop {α : Type} (last stride : Int) (body : Int → α → Option (α × Bool)) : Nat → Int → α → Option α
  | 0, j, a => if goesOn last stride j then none else some a
  | fuel + 1, j, a =>
    if goesOn last stride j then do
      let (a, stop) ← body j a
      if stop then some a else strideLoop last stride body fuel (toInt (j + stride)) a
    else some a

inductive RangeError
  | rangestartinvalid (i : Nat) (first : Int) (size : Nat)
  | stridezero
  | rangeendinvalid (i : Nat) (last : Int) (size : Nat)
  | stride (first last stride : Int)
  | rangedup (j : Int) (i : Nat) (before : Int)
deriving Repr, DecidableEq

/-- The flags and `mpi_errno`. -/
abbrev Checking := (Nat → Int) × Option RangeError

def markRank (size i : Nat) (value j : Int) (c : Checking) : Option (Checking × Bool) := do
  let k ← element 0 size j
  if c.1 k ≠ 0 then some ((c.1, some (.rangedup j i (c.1 k - 1))), true)
  else some ((Function.update c.1 k value, c.2), false)

def checkRange (size i : Nat) (r : Range) (flag : Nat → Int) : Option Checking :=
  if r.first < 0 ∨ size ≤ r.first then some (flag, some (.rangestartinvalid i r.first size))
  else if r.stride = 0 then some (flag, some .stridezero)
  else do
    let actLast ← actLast r
    if r.last < 0 ∨ size ≤ actLast then some (flag, some (.rangeendinvalid i r.last size))
    else if (0 < r.stride ∧ r.last < r.first) ∨ (r.stride < 0 ∧ r.first < r.last) then
      some (flag, some (.stride r.first r.last r.stride))
    else
      strideLoop r.last r.stride (markRank size i (if 0 < r.stride then 1 else i + 1)) size r.first (flag, none)

def checkFrom (size : Nat) : Nat → List Range → (Nat → Int) → Option Checking
  | _, [], flag => some (flag, none)
  | i, r :: ranges, flag => do
    let (flag, errno) ← checkRange size i r flag
    if errno ≠ none then some (flag, errno) else checkFrom size (i + 1) ranges flag

/-- `MPIR_Group_check_valid_ranges`; the flags are written first. -/
def checkValidRanges (ranges : List Range) : Option (GroupMem × Option RangeError) :=
  if (s.group h).readable = true then do
    let (flag, errno) ← checkFrom (s.group h).size 0 ranges (clearFlags (s.group h))
    some (s.set h { s.group h with flag := flag }, errno)
  else none

def rangesSize (ranges : List Range) : Option Int :=
  ranges.foldlM (fun nnew r => (quotient r).map fun q => toInt (nnew + toInt (1 + q))) 0

def takeRank (g : MpidGroup) (j : Int) (f : Filling) : Option (Filling × Bool) := do
  let k ← element 0 g.size j
  let f ← takeMember g f k
  some (f, false)

/-- `MPIR_Group_range_incl_impl`. -/
def groupRangeIncl (ranges : List Range) : Option (GroupMem × Nat) := do
  let g := s.group h
  let nnew ← rangesSize ranges
  newGroup memory s nnew mpiUndefined fun f =>
    ranges.foldlM (fun f r => strideLoop r.last r.stride (takeRank g) g.size r.first f) f

def excludeRank (size : Nat) (j : Int) (flag : Nat → Int) : Option ((Nat → Int) × Bool) := do
  let k ← element 0 size j
  some (Function.update flag k 1, false)

/-- `MPIR_Group_range_excl_impl`; the members to exclude are marked before the new group is there. -/
def groupRangeExcl (ranges : List Range) : Option (GroupMem × Nat) := do
  let g := s.group h
  let excluded ← rangesSize ranges
  let nnew := toInt (g.size - excluded)
  if nnew = 0 then some (s, 0)
  else do
    let flag ← ranges.foldlM (fun flag r => strideLoop r.last r.stride (excludeRank g.size) g.size r.first flag)
      (clearFlags g)
    newGroup memory (s.set h { g with flag := flag }) nnew mpiUndefined (fillFrom g (fun i => flag i = 0) id)

end Functions

def progression (stride : Int) : Nat → Int → List Int
  | 0, _ => []
  | c + 1, j => j :: progression stride c (j + stride)

def Range.count (r : Range) : Nat :=
  if 0 < r.stride ∧ r.first ≤ r.last then ((r.last - r.first) / r.stride).toNat + 1
  else if r.stride < 0 ∧ r.last ≤ r.first then ((r.first - r.last) / -r.stride).toNat + 1
  else 0

def Range.ranks (r : Range) : List Int := progression r.stride r.count r.first

def Range.beyond (r : Range) : Int := r.first + r.stride * r.count

def Range.Wraps (r : Range) : Prop := 2 ^ 31 ≤ r.beyond

instance (r : Range) : Decidable r.Wraps := inferInstanceAs (Decidable (_ ≤ _))

def Range.Traps (r : Range) : Prop := r.first - r.last = 2 ^ 31 ∧ r.stride = -1

instance (r : Range) : Decidable r.Traps := inferInstanceAs (Decidable (_ ∧ _))

def Range.Good (size : Nat) (r : Range) : Prop := r.ranks ≠ [] ∧ ∀ j ∈ r.ranks, 0 ≤ j ∧ j < size

instance (size : Nat) (r : Range) : Decidable (r.Good size) := inferInstanceAs (Decidable (_ ∧ _))

def AllValid (size : Nat) (ranges : List Range) : Prop :=
  (∀ r ∈ ranges, r.Good size) ∧ (ranges.flatMap Range.ranks).Nodup

instance (size : Nat) (ranges : List Range) : Decidable (AllValid size ranges) := inferInstanceAs (Decidable (_ ∧ _))

section Progressions
variable {r : Range} {stride j E : Int} {c size : Nat}

theorem mem_progression_iff {x : Int} : x ∈ progression stride c j ↔ ∃ k < c, x = j + stride * (k : Int) := by
  induction c generalizing j with
  | zero => simp [progression]
  | succ c ih =>
    rw [progression, List.mem_cons, ih]
    constructor
    · rintro (rfl | ⟨k, hk, rfl⟩)
      · exact ⟨0, Nat.succ_pos c, by simp⟩
      · refine ⟨k + 1, Nat.succ_lt_succ hk, ?_⟩
        push_cast
        ring
    · rintro ⟨k, hk, rfl⟩
      cases k with
      | zero => exact .inl (by simp)
      | succ k =>
        refine .inr ⟨k, Nat.lt_of_succ_lt_succ hk, ?_⟩
        push_cast
        ring

theorem length_progression : (progression stride c j).length = c := by
  induction c generalizing j with
  | zero => rfl
  | succ c ih => rw [progression, List.length_cons, ih]

theorem Range.up (hstride : 0 < r.stride) (hle : r.first ≤ r.last) :
    0 < r.count ∧ r.first ≤ r.beyond - r.stride ∧ r.beyond - r.stride ≤ r.last ∧ r.last < r.beyond := by
  have hcount : r.count = ((r.last - r.first) / r.stride).toNat + 1 := if_pos ⟨hstride, hle⟩
  have hquot : 0 ≤ (r.last - r.first) / r.stride := Int.ediv_nonneg (by omega) (by omega)
  have hbeyond : r.beyond = r.first + r.stride * ((r.last - r.first) / r.stride) + r.stride := by
    unfold Range.beyond
    rw [hcount]
    push_cast
    rw [Int.toNat_of_nonneg hquot]
    ring
  have hle' := Int.mul_ediv_self_le (x := r.last - r.first) (k := r.stride) (by omega)
  have hlt := Int.lt_mul_ediv_self_add (x := r.last - r.first) hstride
  have hnonneg : 0 ≤ r.stride * ((r.last - r.first) / r.stride) := Int.mul_nonneg (by omega) hquot
  exact ⟨by omega, by omega, by omega, by omega⟩

theorem Range.down (hstride : r.stride < 0) (hle : r.last ≤ r.first) :
    0 < r.count ∧ r.beyond - r.stride ≤ r.first ∧ r.last ≤ r.beyond - r.stride ∧ r.beyond < r.last := by
  have hcount : r.count = ((r.first - r.last) / -r.stride).toNat + 1 := by
    unfold Range.count
    rw [if_neg (by omega), if_pos ⟨hstride, hle⟩]
  have hquot : 0 ≤ (r.first - r.last) / -r.stride := Int.ediv_nonneg (by omega) (by omega)
  have hbeyond : r.beyond = r.first - -r.stride * ((r.first - r.last) / -r.stride) + r.stride := by
    unfold Range.beyond
    rw [hcount]
    push_cast
    rw [Int.toNat_of_nonneg hquot]
    ring
  have hle' := Int.mul_ediv_self_le (x := r.first - r.last) (k := -r.stride) (by omega)
  have hlt := Int.lt_mul_ediv_self_add (x := r.first - r.last) (k := -r.stride) (by omega)
  have hnonneg : 0 ≤ -r.stride * ((r.first - r.last) / -r.stride) := Int.mul_nonneg (by omega) hquot
  exact ⟨by omega, by omega, by omega, by omega⟩

theorem Range.count_eq_zero (h : ¬ (0 < r.stride ∧ r.first ≤ r.last) ∧ ¬ (r.stride < 0 ∧ r.last ≤ r.first)) :
    r.count = 0 := by
  unfold Range.count
  rw [if_neg h.1, if_neg h.2]

end Progressions

section Looping
variable {α : Type} {body : Int → α → Option (α × Bool)} {last stride E j : Int} {fuel c : Nat} {a : α}

def foldBody (body : Int → α → Option (α × Bool)) : List Int → α → Option (α × Bool)
  | [], a => some (a, false)
  | j :: js, a => do
    let (a, stop) ← body j a
    if stop then some (a, true) else foldBody body js a

theorem goesOn_up (hstride : 0 < stride) : goesOn last stride j = decide (j ≤ last) := if_pos hstride

theorem goesOn_down (hstride : stride < 0) : goesOn last stride j = decide (last ≤ j) := if_neg (by omega)

theorem strideLoop_stop (h : goesOn last stride j = false) : strideLoop last stride body fuel j a = some a := by
  cases fuel <;> (unfold strideLoop; rw [h]; rfl)

theorem strideLoop_outside (h : goesOn last stride j = true) (hbody : body j a = none) :
    strideLoop last stride body fuel j a = none := by
  cases fuel with
  | zero => exact if_pos h
  | succ fuel =>
    unfold strideLoop
    rw [if_pos h, hbody]
    rfl

theorem strideLoop_cons {f : α × Bool → Option α} (h : goesOn last stride j = true)
    (hrest : ∀ a', strideLoop last stride body fuel (toInt (j + stride)) a' =
      (foldBody body (progression stride c (j + stride)) a').bind f) (hstop : ∀ a', f (a', true) = some a') :
    strideLoop last stride body (fuel + 1) j a = (foldBody body (progression stride (c + 1) j) a).bind f := by
  unfold strideLoop
  rw [if_pos h]
  show (body j a).bind _ = ((body j a).bind _).bind f
  cases body j a with
  | none => rfl
  | some p =>
    obtain ⟨a', stop⟩ := p
    cases stop with
    | true => exact (hstop a').symm
    | false => exact hrest a'

/-- Upwards, a step that leaves the `int`s goes on at a negative number. -/
theorem strideLoop_up (hstride : 0 < stride) (hint : stride < 2 ^ 31) (hlast : last < 2 ^ 31) (hnonneg : 0 ≤ last)
    (hle : E - stride ≤ last) (hlt : last < E) (hbody : ∀ j a, j < 0 → body j a = none) (hE : j + stride * c = E)
    (hj : 0 ≤ j) (hc : 0 < c) (hfuel : c ≤ fuel) :
    strideLoop last stride body fuel j a = (foldBody body (progression stride c j) a).bind fun p =>
      if p.2 ∨ E < 2 ^ 31 then some p.1 else none := by
  induction c generalizing j fuel a with
  | zero => exact absurd hc (Nat.lt_irrefl 0)
  | succ c ih =>
    obtain ⟨fuel, rfl⟩ : ∃ n, fuel = n + 1 := ⟨fuel - 1, by omega⟩
    have hstep : j + stride + stride * c = E := by
      rw [← hE]
      push_cast
      ring
    have hmul : 0 ≤ stride * (c : Int) := Int.mul_nonneg (by omega) (Int.natCast_nonneg c)
    have hgo : goesOn last stride j = true := by
      rw [goesOn_up hstride]
      exact decide_eq_true (by omega)
    apply strideLoop_cons hgo
    · intro a'
      cases c with
      | zero =>
        have hnext : j + stride = E := by simpa using hstep
        rw [hnext]
        show _ = if false = true ∨ E < 2 ^ 31 then some a' else none
        by_cases hwrap : E < 2 ^ 31
        · rw [toInt_eq (by omega) hwrap, if_pos (.inr hwrap)]
          apply strideLoop_stop
          rw [goesOn_up hstride]
          exact decide_eq_false (by omega)
        · have hwrapped := toInt_of_ge (x := E) (by omega) (by omega)
          rw [if_neg fun h => h.elim (fun h => nomatch h) hwrap, hwrapped]
          apply strideLoop_outside _ (hbody _ _ (by omega))
          rw [goesOn_up hstride]
          exact decide_eq_true (by omega)
      | succ c =>
        have hmul' : 0 ≤ stride * (c : Int) := Int.mul_nonneg (by omega) (Int.natCast_nonneg c)
        have hbound : j + stride ≤ last := by
          push_cast at hstep
          have hexp : stride * ((c : Int) + 1) = stride * c + stride := by ring
          omega
        rw [toInt_eq (by omega) (by omega)]
        exact ih hstep (by omega) (Nat.succ_pos c) (by omega)
    · intro a'
      exact if_pos (.inl rfl)

theorem strideLoop_down (hstride : stride < 0) (hint : -2 ^ 31 ≤ stride) (hnonneg : 0 ≤ last)
    (hle : last ≤ E - stride) (hlt : E < last) (hE : j + stride * c = E) (hj : j < 2 ^ 31) (hc : 0 < c)
    (hfuel : c ≤ fuel) :
    strideLoop last stride body fuel j a = (foldBody body (progression stride c j) a).bind fun p => some p.1 := by
  induction c generalizing j fuel a with
  | zero => exact absurd hc (Nat.lt_irrefl 0)
  | succ c ih =>
    obtain ⟨fuel, rfl⟩ : ∃ n, fuel = n + 1 := ⟨fuel - 1, by omega⟩
    have hstep : j + stride + stride * c = E := by
      rw [← hE]
      push_cast
      ring
    have hmul : 0 ≤ -stride * (c : Int) := Int.mul_nonneg (by omega) (Int.natCast_nonneg c)
    have hneg : -stride * (c : Int) = -(stride * c) := by ring
    have hgo : goesOn last stride j = true := by
      rw [goesOn_down hstride]
      exact decide_eq_true (by omega)
    apply strideLoop_cons hgo
    · intro a'
      cases c with
      | zero =>
        have hnext : j + stride = E := by simpa using hstep
        rw [hnext, toInt_eq (by omega) (by omega)]
        apply strideLoop_stop
        rw [goesOn_down hstride]
        exact decide_eq_false (by omega)
      | succ c =>
        have hmul' : 0 ≤ -stride * (c : Int) := Int.mul_nonneg (by omega) (Int.natCast_nonneg c)
        rw [toInt_eq (by omega) (by omega)]
        exact ih hstep (by omega) (Nat.succ_pos c) (by omega)
    · intro a'
      rfl

theorem strideLoop_eq {r : Range} (hcount : 0 < r.count) (hfirst : 0 ≤ r.first) (hlast : 0 ≤ r.last)
    (hbody : ∀ j a, j < 0 → body j a = none) (hfuel : r.count ≤ fuel) :
    strideLoop r.last r.stride body fuel r.first a =
      (foldBody body r.ranks a).bind fun p => if p.2 ∨ r.beyond < 2 ^ 31 then some p.1 else none := by
  obtain ⟨⟨-, hfirst'⟩, ⟨-, hlast'⟩, hlo, hhi⟩ := r.isInt
  by_cases hup : 0 < r.stride ∧ r.first ≤ r.last
  · obtain ⟨-, hstart, hle, hlt⟩ := r.up hup.1 hup.2
    exact strideLoop_up hup.1 hhi hlast' hlast hle hlt hbody rfl hfirst hcount hfuel
  · by_cases hdown : r.stride < 0 ∧ r.last ≤ r.first
    · obtain ⟨-, hstart, hle, hlt⟩ := r.down hdown.1 hdown.2
      rw [strideLoop_down hdown.1 hlo hlast hle hlt rfl hfirst' hcount hfuel]
      congr 1
      funext p
      rw [if_pos (.inr (by omega))]
    · rw [Range.count_eq_zero ⟨hup, hdown⟩] at hcount
      exact absurd hcount (Nat.lt_irrefl 0)

end Looping

section Checking
variable {size i : Nat} {value : Int} {flag : Nat → Int} {seen js : List Int} {r : Range}

def Marked (size : Nat) (seen : List Int) (flag : Nat → Int) : Prop := ∀ k < size, flag k ≠ 0 ↔ (k : Int) ∈ seen

variable {j : Int}

theorem element_of_rank (hj : 0 ≤ j ∧ j < size) : element 0 size j = some j.toNat := by
  unfold element
  rw [if_pos hj, Nat.zero_add]

theorem element_of_neg (hj : j < 0) : element 0 size j = none := by
  unfold element
  rw [if_neg (by omega)]

theorem Marked.update (hseen : Marked size seen flag) (hj : 0 ≤ j ∧ j < size) (hvalue : value ≠ 0) :
    Marked size (seen ++ [j]) (Function.update flag j.toNat value) := by
  intro k hk
  by_cases hkj : k = j.toNat
  · subst hkj
    rw [Function.update_self, Int.toNat_of_nonneg hj.1]
    exact iff_of_true hvalue (List.mem_append_right _ (List.mem_singleton.mpr rfl))
  · rw [Function.update_of_ne hkj, hseen k hk, List.mem_append, List.mem_singleton]
    have hne : (k : Int) ≠ j := by omega
    simp [hne]

theorem markRank_new (hj : 0 ≤ j ∧ j < size) (hvalue : value ≠ 0) (hseen : Marked size seen flag)
    (hnew : j ∉ seen) :
    ∃ flag', markRank size i value j (flag, none) = some ((flag', none), false) ∧ Marked size (seen ++ [j]) flag' := by
  have hcast : (j.toNat : Int) = j := Int.toNat_of_nonneg hj.1
  have hzero : flag j.toNat = 0 := by
    by_contra hne
    have hmem := (hseen j.toNat (by omega)).mp hne
    rw [hcast] at hmem
    exact hnew hmem
  refine ⟨Function.update flag j.toNat value, ?_, hseen.update hj hvalue⟩
  unfold markRank
  rw [element_of_rank hj]
  exact if_neg (not_not_intro hzero)

theorem markRank_dup (i : Nat) (value : Int) (hj : 0 ≤ j ∧ j < size) (hseen : Marked size seen flag) (hdup : j ∈ seen) :
    ∃ errno, markRank size i value j (flag, none) = some ((flag, some errno), true) := by
  have hcast : (j.toNat : Int) = j := Int.toNat_of_nonneg hj.1
  have hne : flag j.toNat ≠ 0 := (hseen j.toNat (by omega)).mpr (by rw [hcast]; exact hdup)
  refine ⟨.rangedup j i (flag j.toNat - 1), ?_⟩
  unfold markRank
  rw [element_of_rank hj]
  exact if_pos hne

theorem foldBody_mark (hvalue : value ≠ 0) (hjs : ∀ j ∈ js, 0 ≤ j ∧ j < size) (hseen : Marked size seen flag)
    (hnodup : (seen ++ js).Nodup) :
    ∃ flag', foldBody (markRank size i value) js (flag, none) = some ((flag', none), false) ∧
      Marked size (seen ++ js) flag' := by
  induction js generalizing seen flag with
  | nil => exact ⟨flag, rfl, by rw [List.append_nil]; exact hseen⟩
  | cons j js ih =>
    have hnew : j ∉ seen := by
      intro hmem
      exact (List.nodup_append.mp hnodup).2.2 j hmem j List.mem_cons_self rfl
    have hassoc : seen ++ j :: js = seen ++ [j] ++ js := by simp
    rw [hassoc] at hnodup ⊢
    obtain ⟨flag', hmark, hseen'⟩ := markRank_new (i := i) (hjs j List.mem_cons_self) hvalue hseen hnew
    obtain ⟨flag'', hfold, hseen''⟩ := ih (fun x hx => hjs x (List.mem_cons_of_mem j hx)) hseen' hnodup
    refine ⟨flag'', ?_, hseen''⟩
    unfold foldBody
    rw [hmark]
    exact hfold

theorem foldBody_dup (hvalue : value ≠ 0) (hjs : ∀ j ∈ js, 0 ≤ j ∧ j < size) (hseen : Marked size seen flag)
    (hseenNodup : seen.Nodup) (hdup : ¬ (seen ++ js).Nodup) :
    ∃ flag' errno, foldBody (markRank size i value) js (flag, none) = some ((flag', some errno), true) := by
  induction js generalizing seen flag with
  | nil =>
    rw [List.append_nil] at hdup
    exact absurd hseenNodup hdup
  | cons j js ih =>
    unfold foldBody
    by_cases hmem : j ∈ seen
    · obtain ⟨errno, hmark⟩ := markRank_dup i value (hjs j List.mem_cons_self) hseen hmem
      rw [hmark]
      exact ⟨flag, errno, rfl⟩
    · obtain ⟨flag', hmark, hseen'⟩ := markRank_new (i := i) (hjs j List.mem_cons_self) hvalue hseen hmem
      have hassoc : seen ++ j :: js = seen ++ [j] ++ js := by simp
      rw [hassoc] at hdup
      have hnodup' : (seen ++ [j]).Nodup := by
        rw [List.nodup_append]
        refine ⟨hseenNodup, List.nodup_singleton j, ?_⟩
        intro x hx y hy
        rw [List.mem_singleton.mp hy]
        exact ne_of_mem_of_not_mem hx hmem
      rw [hmark]
      exact ih (fun x hx => hjs x (List.mem_cons_of_mem j hx)) hseen' hnodup' hdup

theorem markRank_neg {c : Checking} (hj : j < 0) : markRank size i value j c = none := by
  unfold markRank
  rw [element_of_neg hj]
  rfl

theorem Range.beyond_mem (h : 0 < r.count) : r.beyond - r.stride ∈ r.ranks := by
  refine mem_progression_iff.mpr ⟨r.count - 1, Nat.sub_lt h Nat.one_pos, ?_⟩
  unfold Range.beyond
  rw [Nat.cast_sub h]
  push_cast
  ring

theorem Range.first_mem (h : 0 < r.count) : r.first ∈ r.ranks :=
  mem_progression_iff.mpr ⟨0, h, by simp⟩

theorem Range.ranks_ne_nil : r.ranks ≠ [] ↔ 0 < r.count := by
  rw [← List.length_pos_iff, Range.ranks, length_progression]

theorem Range.between {x : Int} (hx : x ∈ r.ranks) :
    (r.first ≤ x ∧ x ≤ r.beyond - r.stride) ∨ (r.beyond - r.stride ≤ x ∧ x ≤ r.first) := by
  obtain ⟨k, hk, rfl⟩ := mem_progression_iff.mp hx
  have hbeyond : r.beyond - r.stride = r.first + r.stride * k + r.stride * ((r.count - 1 - k : Nat) : Int) := by
    unfold Range.beyond
    rw [Nat.cast_sub (by omega), Nat.cast_sub (by omega)]
    push_cast
    ring
  rcases Int.le_total 0 r.stride with hs | hs
  · have h1 : 0 ≤ r.stride * (k : Int) := Int.mul_nonneg hs (Int.natCast_nonneg k)
    have h2 : 0 ≤ r.stride * ((r.count - 1 - k : Nat) : Int) := Int.mul_nonneg hs (Int.natCast_nonneg _)
    exact .inl ⟨by omega, by omega⟩
  · have h1 : r.stride * (k : Int) ≤ 0 := Int.mul_nonpos_of_nonpos_of_nonneg hs (Int.natCast_nonneg k)
    have h2 : r.stride * ((r.count - 1 - k : Nat) : Int) ≤ 0 :=
      Int.mul_nonpos_of_nonpos_of_nonneg hs (Int.natCast_nonneg _)
    exact .inr ⟨by omega, by omega⟩

theorem Range.good_iff : r.Good size ↔
    0 < r.count ∧ (0 ≤ r.first ∧ r.first < size) ∧ 0 ≤ r.beyond - r.stride ∧ r.beyond - r.stride < size := by
  unfold Range.Good
  rw [Range.ranks_ne_nil]
  constructor
  · rintro ⟨hcount, hall⟩
    exact ⟨hcount, hall _ (Range.first_mem hcount), hall _ (Range.beyond_mem hcount)⟩
  · rintro ⟨hcount, hfirst, hlast⟩
    refine ⟨hcount, ?_⟩
    intro x hx
    have hbetween := Range.between hx
    omega

theorem actLast_eq (hfirst : 0 ≤ r.first) (hlast : 0 ≤ r.last) (hcount : 0 < r.count) :
    actLast r = some (r.beyond - r.stride) ∧ quotient r = some ((r.count : Int) - 1) := by
  obtain ⟨⟨-, hfirst'⟩, ⟨-, hlast'⟩, hlo, hhi⟩ := r.isInt
  have hbeyond : r.beyond - r.stride = r.first + r.stride * ((r.count : Int) - 1) := by
    unfold Range.beyond
    ring
  have hdiff : toInt (r.last - r.first) = r.last - r.first := toInt_eq (by omega) (by omega)
  have hquot : (r.last - r.first).tdiv r.stride = r.count - 1 ∧ (r.count : Int) - 1 ≤ 2 ^ 31 - 1 ∧
      -(2 ^ 31 - 1) ≤ r.stride * ((r.count : Int) - 1) ∧ r.stride * ((r.count : Int) - 1) ≤ 2 ^ 31 - 1 := by
    by_cases hup : 0 < r.stride ∧ r.first ≤ r.last
    · have hcount' : r.count = ((r.last - r.first) / r.stride).toNat + 1 := if_pos hup
      have hnonneg : 0 ≤ (r.last - r.first) / r.stride := Int.ediv_nonneg (by omega) (by omega)
      have hle : (r.last - r.first) / r.stride ≤ r.last - r.first := Int.ediv_le_self _ (by omega)
      have hbounds := r.up hup.1 hup.2
      rw [Int.tdiv_eq_ediv_of_nonneg (by omega)]
      omega
    · by_cases hdown : r.stride < 0 ∧ r.last ≤ r.first
      · have hcount' : r.count = ((r.first - r.last) / -r.stride).toNat + 1 := by
          unfold Range.count
          rw [if_neg hup, if_pos hdown]
        have hnonneg : 0 ≤ (r.first - r.last) / -r.stride := Int.ediv_nonneg (by omega) (by omega)
        have hle : (r.first - r.last) / -r.stride ≤ r.first - r.last := Int.ediv_le_self _ (by omega)
        have hbounds := r.down hdown.1 hdown.2
        have hneg : r.last - r.first = -(r.first - r.last) := by ring
        have htdiv : (r.last - r.first).tdiv r.stride = (r.first - r.last).tdiv (-r.stride) := by
          rw [hneg, Int.neg_tdiv, Int.tdiv_neg]
        rw [htdiv, Int.tdiv_eq_ediv_of_nonneg (by omega)]
        omega
      · rw [Range.count_eq_zero ⟨hup, hdown⟩] at hcount
        exact absurd hcount (Nat.lt_irrefl 0)
  have hquotient : quotient r = some ((r.count : Int) - 1) := by
    have hstride : r.stride ≠ 0 := by
      intro hzero
      rw [Range.count_eq_zero ⟨by omega, by omega⟩] at hcount
      exact Nat.lt_irrefl 0 hcount
    unfold quotient
    simp only [hdiff]
    rw [if_neg (by omega), hquot.1, toInt_eq (by omega) (by omega)]
  refine ⟨?_, hquotient⟩
  unfold actLast
  rw [hquotient, Option.map_some, toInt_eq (x := r.stride * _) (by omega) (by omega), hbeyond]
  congr 1
  rw [← hbeyond]
  by_cases hup : 0 < r.stride ∧ r.first ≤ r.last
  · have hbounds := r.up hup.1 hup.2
    exact toInt_eq (by omega) (by omega)
  · by_cases hdown : r.stride < 0 ∧ r.last ≤ r.first
    · have hbounds := r.down hdown.1 hdown.2
      exact toInt_eq (by omega) (by omega)
    · rw [Range.count_eq_zero ⟨hup, hdown⟩] at hcount
      exact absurd hcount (Nat.lt_irrefl 0)

theorem checkRange_loop (i : Nat) (flag : Nat → Int) (hgood : r.Good size) (hlast : 0 ≤ r.last) :
    checkRange size i r flag = strideLoop r.last r.stride (markRank size i (if 0 < r.stride then 1 else i + 1)) size
      r.first (flag, none) := by
  obtain ⟨hcount, hfirst, hend⟩ := Range.good_iff.mp hgood
  have hact := (actLast_eq hfirst.1 hlast hcount).1
  have hsign : ¬ ((0 < r.stride ∧ r.last < r.first) ∨ (r.stride < 0 ∧ r.first < r.last)) ∧ r.stride ≠ 0 := by
    by_contra hwrong
    have hzero : r.count = 0 := Range.count_eq_zero ⟨by omega, by omega⟩
    omega
  unfold checkRange
  rw [if_neg (by omega), if_neg hsign.2, hact]
  simp only [Option.bind_eq_bind, Option.bind_some]
  rw [if_neg (by omega), if_neg hsign.1]

theorem quotient_none (hfirst : 0 ≤ r.first) : quotient r = none ↔ r.stride = 0 ∨ r.Traps := by
  obtain ⟨⟨-, hfirst'⟩, ⟨hlo, hlast⟩, -⟩ := r.isInt
  have hleast : toInt (r.last - r.first) = -2 ^ 31 ↔ r.first - r.last = 2 ^ 31 := by
    by_cases hin : -2 ^ 31 ≤ r.last - r.first
    · rw [toInt_eq hin (by omega)]
      omega
    · rw [toInt_of_lt (by omega) (by omega)]
      omega
  unfold quotient Range.Traps
  simp only [hleast]
  constructor
  · intro h
    by_contra hnot
    rw [if_neg hnot] at h
    exact nomatch h
  · exact fun h => if_pos h

theorem checkRange_traps (i : Nat) (flag : Nat → Int) (hfirst : 0 ≤ r.first) (hsize : r.first < size)
    (htraps : r.Traps) : checkRange size i r flag = none := by
  have hstride := htraps.2
  unfold checkRange
  rw [if_neg (by omega), if_neg (by omega), actLast, (quotient_none hfirst).mpr (.inr htraps)]
  rfl

theorem checkRange_error (i : Nat) (flag : Nat → Int) (h : ¬ (r.Good size ∧ 0 ≤ r.last))
    (htraps : 0 ≤ r.first → r.first < size → ¬ r.Traps) :
    ∃ flag' errno, checkRange size i r flag = some (flag', some errno) := by
  unfold checkRange
  by_cases hfirst : r.first < 0 ∨ size ≤ r.first
  · exact ⟨_, _, if_pos hfirst⟩
  rw [if_neg hfirst]
  by_cases hstride : r.stride = 0
  · exact ⟨_, _, if_pos hstride⟩
  rw [if_neg hstride]
  cases hactLast : actLast r with
  | none =>
    have hquotient : quotient r = none := Option.map_eq_none_iff.mp hactLast
    exact absurd (((quotient_none (by omega)).mp hquotient).resolve_left hstride) (htraps (by omega) (by omega))
  | some last =>
  simp only [Option.bind_eq_bind, Option.bind_some]
  by_cases hlast : r.last < 0 ∨ size ≤ last
  · exact ⟨_, _, if_pos hlast⟩
  rw [if_neg hlast]
  by_cases hsign : (0 < r.stride ∧ r.last < r.first) ∨ (r.stride < 0 ∧ r.first < r.last)
  · exact ⟨_, _, if_pos hsign⟩
  exfalso
  apply h
  have hcount : 0 < r.count := by
    rcases Int.lt_or_gt_of_ne hstride with hs | hs
    · exact (r.down hs (by omega)).1
    · exact (r.up hs (by omega)).1
  have hact := (actLast_eq (by omega) (by omega) hcount).1
  rw [hactLast, Option.some.injEq] at hact
  have hend : 0 ≤ r.beyond - r.stride := by
    rcases Int.lt_or_gt_of_ne hstride with hs | hs
    · have hbounds := r.down hs (by omega)
      omega
    · have hbounds := r.up hs (by omega)
      omega
  exact ⟨Range.good_iff.mpr ⟨hcount, by omega, hend, by omega⟩, by omega⟩

end Checking

section Triples
variable {size i : Nat} {flag : Nat → Int} {seen : List Int} {r : Range} {ranges : List Range}

theorem Range.Good.stride_ne (h : r.Good size) : r.stride ≠ 0 := by
  intro hzero
  have hcount := (Range.good_iff.mp h).1
  rw [Range.count_eq_zero ⟨by omega, by omega⟩] at hcount
  exact Nat.lt_irrefl 0 hcount

theorem Range.Good.count_le (h : r.Good size) : r.count ≤ size := by
  obtain ⟨hcount, hfirst, hend⟩ := Range.good_iff.mp h
  have hspan : r.beyond - r.stride = r.first + r.stride * ((r.count : Int) - 1) := by
    unfold Range.beyond
    ring
  have hnonneg : 0 ≤ (r.count : Int) - 1 := by omega
  rcases Int.lt_or_gt_of_ne h.stride_ne with hs | hs
  · have hle : 1 * ((r.count : Int) - 1) ≤ -r.stride * ((r.count : Int) - 1) :=
      Int.mul_le_mul_of_nonneg_right (by omega) hnonneg
    have hneg : -r.stride * ((r.count : Int) - 1) = -(r.stride * ((r.count : Int) - 1)) := by ring
    omega
  · have hle : 1 * ((r.count : Int) - 1) ≤ r.stride * ((r.count : Int) - 1) :=
      Int.mul_le_mul_of_nonneg_right (by omega) hnonneg
    omega

theorem checkRange_good (hgood : r.Good size) (hlast : 0 ≤ r.last) (hseen : Marked size seen flag)
    (hnodup : (seen ++ r.ranks).Nodup) :
    if r.Wraps then checkRange size i r flag = none
    else ∃ flag', checkRange size i r flag = some (flag', none) ∧ Marked size (seen ++ r.ranks) flag' := by
  obtain ⟨hcount, hfirst, -⟩ := Range.good_iff.mp hgood
  have hvalue : (if 0 < r.stride then 1 else (i : Int) + 1) ≠ 0 := by split <;> omega
  obtain ⟨flag', hfold, hseen'⟩ := foldBody_mark (i := i) hvalue hgood.2 hseen hnodup
  have hloop := checkRange_loop i flag hgood hlast
  rw [strideLoop_eq hcount hfirst.1 hlast (fun _ _ => markRank_neg) hgood.count_le, hfold] at hloop
  by_cases hwraps : r.Wraps
  · rw [if_pos hwraps, hloop]
    have hge : 2 ^ 31 ≤ r.beyond := hwraps
    exact if_neg fun h => h.elim (fun h => nomatch h) (by omega)
  · rw [if_neg hwraps]
    have hlt : ¬ 2 ^ 31 ≤ r.beyond := hwraps
    exact ⟨flag', hloop.trans (if_pos (.inr (by omega))), hseen'⟩

theorem checkRange_dup (hgood : r.Good size) (hlast : 0 ≤ r.last) (hseen : Marked size seen flag)
    (hseenNodup : seen.Nodup) (hdup : ¬ (seen ++ r.ranks).Nodup) :
    ∃ flag' errno, checkRange size i r flag = some (flag', some errno) := by
  obtain ⟨hcount, hfirst, -⟩ := Range.good_iff.mp hgood
  have hvalue : (if 0 < r.stride then 1 else (i : Int) + 1) ≠ 0 := by split <;> omega
  obtain ⟨flag', errno, hfold⟩ := foldBody_dup (i := i) hvalue hgood.2 hseen hseenNodup hdup
  refine ⟨flag', errno, ?_⟩
  rw [checkRange_loop i flag hgood hlast,
    strideLoop_eq hcount hfirst.1 hlast (fun _ _ => markRank_neg) hgood.count_le, hfold]
  rfl

/-- No step of a triple that is looped over leaves the `int`s, and no division of a triple that is looked at; `seen` are
the ranks of the triples before. -/
def StepsFit (size : Nat) : List Int → List Range → Prop
  | _, [] => True
  | seen, r :: ranges => (0 ≤ r.first → r.first < size → ¬ r.Traps) ∧
    (r.Good size → 0 ≤ r.last → (seen ++ r.ranks).Nodup → ¬ r.Wraps ∧ StepsFit size (seen ++ r.ranks) ranges)

instance decidableStepsFit (size : Nat) : (seen : List Int) → (ranges : List Range) →
    Decidable (StepsFit size seen ranges)
  | _, [] => isTrue trivial
  | seen, r :: ranges =>
    have := decidableStepsFit size (seen ++ r.ranks) ranges
    inferInstanceAs (Decidable ((_ → _ → _) ∧ (_ → _ → _ → _ ∧ _)))

def Accepted (size : Nat) (seen : List Int) (ranges : List Range) : Prop :=
  (∀ r ∈ ranges, r.Good size ∧ 0 ≤ r.last) ∧ (seen ++ ranges.flatMap Range.ranks).Nodup

theorem accepted_cons : Accepted size seen (r :: ranges) ↔
    (r.Good size ∧ 0 ≤ r.last) ∧ (seen ++ r.ranks).Nodup ∧ Accepted size (seen ++ r.ranks) ranges := by
  unfold Accepted
  rw [List.forall_mem_cons, List.flatMap_cons, ← List.append_assoc]
  constructor
  · rintro ⟨⟨hr, hrest⟩, hnodup⟩
    exact ⟨hr, (List.nodup_append.mp hnodup).1, hrest, hnodup⟩
  · rintro ⟨hr, -, hrest, hnodup⟩
    exact ⟨⟨hr, hrest⟩, hnodup⟩

theorem checkFrom_eq (hseen : Marked size seen flag) (hnodup : seen.Nodup) (hfit : StepsFit size seen ranges) :
    ∃ flag' errno, checkFrom size i ranges flag = some (flag', errno) ∧
      (errno = none ↔ Accepted size seen ranges) := by
  induction ranges generalizing seen flag i with
  | nil =>
    refine ⟨flag, none, rfl, iff_of_true rfl ⟨?_, ?_⟩⟩
    · intro r hr
      exact absurd hr List.not_mem_nil
    · simpa using hnodup
  | cons r ranges ih =>
    rw [accepted_cons]
    unfold checkFrom
    by_cases hr : r.Good size ∧ 0 ≤ r.last
    · by_cases hnew : (seen ++ r.ranks).Nodup
      · obtain ⟨hwraps, hrest⟩ := hfit.2 hr.1 hr.2 hnew
        have hcheck := checkRange_good (i := i) hr.1 hr.2 hseen hnew
        rw [if_neg hwraps] at hcheck
        obtain ⟨flag', hrun, hseen'⟩ := hcheck
        obtain ⟨flag'', errno, hrun', hiff⟩ := ih (i := i + 1) hseen' hnew hrest
        refine ⟨flag'', errno, ?_, ?_⟩
        · rw [hrun]
          exact hrun'
        · rw [hiff]
          exact ⟨fun h => ⟨hr, hnew, h⟩, fun h => h.2.2⟩
      · obtain ⟨flag', errno, hrun⟩ := checkRange_dup (i := i) hr.1 hr.2 hseen hnodup hnew
        refine ⟨flag', some errno, ?_, iff_of_false (fun h => nomatch h) fun h => hnew h.2.1⟩
        rw [hrun]
        rfl
    · obtain ⟨flag', errno, hrun⟩ := checkRange_error i flag hr hfit.1
      refine ⟨flag', some errno, ?_, iff_of_false (fun h => nomatch h) fun h => hr h.1⟩
      rw [hrun]
      rfl

theorem checkFrom_none (hseen : Marked size seen flag) (hnodup : seen.Nodup) (hfit : ¬ StepsFit size seen ranges) :
    checkFrom size i ranges flag = none := by
  induction ranges generalizing seen flag i with
  | nil => exact absurd trivial hfit
  | cons r ranges ih =>
    unfold StepsFit at hfit
    simp only [Classical.not_imp, not_and_or, not_not] at hfit
    unfold checkFrom
    rcases hfit with ⟨hfirst, hsize, htraps⟩ | ⟨hgood, hlast, hnew, hwraps⟩
    · rw [checkRange_traps i flag hfirst hsize htraps]
      rfl
    have hcheck := checkRange_good (i := i) hgood hlast hseen hnew
    by_cases hw : r.Wraps
    · rw [if_pos hw] at hcheck
      rw [hcheck]
      rfl
    · rw [if_neg hw] at hcheck
      obtain ⟨flag', hrun, hseen'⟩ := hcheck
      rw [hrun]
      exact ih hseen' hnew (hwraps.resolve_left hw)

end Triples

section Building
variable {me : Int} {size : Nat} {g : MpidGroup} {r : Range} {ranges : List Range} {seen : List Int}
  {memory : MpidGroup} {s : GroupMem} {h : Nat}

def Looped (size : Nat) (ranges : List Range) : Prop := ∀ r ∈ ranges, r.Good size ∧ 0 ≤ r.last ∧ ¬ r.Wraps

theorem Accepted.looped (h : Accepted size seen ranges) (hfit : StepsFit size seen ranges) : Looped size ranges := by
  induction ranges generalizing seen with
  | nil => exact fun r hr => absurd hr List.not_mem_nil
  | cons r ranges ih =>
    obtain ⟨hr, hnew, hrest⟩ := accepted_cons.mp h
    obtain ⟨hwraps, hfit⟩ := hfit.2 hr.1 hr.2 hnew
    exact List.forall_mem_cons.mpr ⟨⟨hr.1, hr.2, hwraps⟩, ih hrest hfit⟩

theorem strideLoop_foldl {α : Type} {body : Int → α → Option (α × Bool)} {a a' : α} (hgood : r.Good size)
    (hlast : 0 ≤ r.last) (hwraps : ¬ r.Wraps) (hbody : ∀ j a, j < 0 → body j a = none)
    (hfold : foldBody body r.ranks a = some (a', false)) :
    strideLoop r.last r.stride body size r.first a = some a' := by
  obtain ⟨hcount, hfirst, -⟩ := Range.good_iff.mp hgood
  have hlt : ¬ 2 ^ 31 ≤ r.beyond := hwraps
  rw [strideLoop_eq hcount hfirst.1 hlast hbody hgood.count_le, hfold]
  exact if_pos (.inr (by omega))

theorem foldl_size (ranges : List Range) (hlooped : Looped size ranges) (n : Nat)
    (hle : n + (ranges.flatMap Range.ranks).length < 2 ^ 31) :
    ranges.foldlM (fun nnew r => (quotient r).map fun q => toInt (nnew + toInt (1 + q))) (n : Int) =
      some ((n + (ranges.flatMap Range.ranks).length : Nat) : Int) := by
  induction ranges generalizing n with
  | nil => rfl
  | cons r ranges ih =>
    obtain ⟨⟨hgood, hlast, -⟩, hrest⟩ := List.forall_mem_cons.mp hlooped
    obtain ⟨hcount, hfirst, -⟩ := Range.good_iff.mp hgood
    have hlength : r.ranks.length = r.count := length_progression
    have hquot := (actLast_eq hfirst.1 hlast hcount).2
    rw [List.flatMap_cons, List.length_append, hlength] at hle ⊢
    have hone : 1 + ((r.count : Int) - 1) = r.count := by omega
    rw [List.foldlM_cons, hquot, Option.map_some, hone, toInt_eq (x := (r.count : Int)) (by omega) (by omega),
      toInt_eq (x := (n : Int) + r.count) (by omega) (by omega), ← Nat.cast_add]
    show ranges.foldlM _ ((n + r.count : Nat) : Int) = _
    rw [ih hrest (n + r.count) (by omega), Nat.add_assoc]

theorem rangesSize_eq (hlooped : Looped size ranges) (hle : (ranges.flatMap Range.ranks).length < 2 ^ 31) :
    rangesSize ranges = some ((ranges.flatMap Range.ranks).length : Int) := by
  have hsum := foldl_size ranges hlooped 0 (by omega)
  rw [Nat.zero_add] at hsum
  exact hsum

theorem AllValid.length_le (hvalid : AllValid size ranges) : (ranges.flatMap Range.ranks).length ≤ size := by
  have hinside : ∀ j ∈ ranges.flatMap Range.ranks, 0 ≤ j ∧ j < size := by
    intro j hj
    obtain ⟨r, hr, hj⟩ := List.mem_flatMap.mp hj
    exact (hvalid.1 r hr).2 j hj
  have hnodup : ((ranges.flatMap Range.ranks).map Int.toNat).Nodup := by
    apply List.Nodup.map_on _ hvalid.2
    intro x hx y hy heq
    have h1 := hinside x hx
    have h2 := hinside y hy
    omega
  have hsubset : (ranges.flatMap Range.ranks).map Int.toNat ⊆ List.range size := by
    intro k hk
    obtain ⟨j, hj, rfl⟩ := List.mem_map.mp hk
    have hj' := hinside j hj
    exact List.mem_range.mpr (by omega)
  have hle := (List.subperm_of_subset hnodup hsubset).length_le
  rw [List.length_map, List.length_range] at hle
  exact hle

def rangeMembers (g : MpidGroup) (ranges : List Range) : List Int :=
  (ranges.flatMap Range.ranks).map fun j => g.lpid j.toNat

variable {f : Filling} {list : List Int}

theorem takeRank_eq {j : Int} (hg : Valid me g) (hj : 0 ≤ j ∧ j < g.size)
    (hf : f.Has me size list) (hroom : list.length < size) (hnew : g.lpid j.toNat ∉ list) :
    ∃ f', takeRank g j f = some (f', false) ∧ f'.Has me size (list ++ [g.lpid j.toNat]) ∧
      f'.group.isLocalDenseMonotonic = f.group.isLocalDenseMonotonic := by
  obtain ⟨f', htake, hhas, hdense⟩ := hf.take hg (i := j.toNat) (by omega) hroom hnew
  refine ⟨f', ?_, hhas, hdense⟩
  unfold takeRank
  rw [element_of_rank hj]
  show (takeMember g f j.toNat).bind _ = _
  rw [htake]
  rfl

theorem foldBody_take {js : List Int} (hg : Valid me g)
    (hjs : ∀ j ∈ js, 0 ≤ j ∧ j < g.size) (hf : f.Has me size list) (hroom : list.length + js.length ≤ size)
    (hnodup : (list ++ js.map fun j => g.lpid j.toNat).Nodup) :
    ∃ f', foldBody (takeRank g) js f = some (f', false) ∧ f'.Has me size (list ++ js.map fun j => g.lpid j.toNat) ∧
      f'.group.isLocalDenseMonotonic = f.group.isLocalDenseMonotonic := by
  induction js generalizing f list with
  | nil => exact ⟨f, rfl, by simpa using hf, rfl⟩
  | cons j js ih =>
    rw [List.length_cons] at hroom
    have hassoc : list ++ (j :: js).map (fun j => g.lpid j.toNat) =
        list ++ [g.lpid j.toNat] ++ js.map fun j => g.lpid j.toNat := by simp
    rw [hassoc] at hnodup ⊢
    have hnew : g.lpid j.toNat ∉ list := by
      intro hmem
      have hfirst := (List.nodup_append.mp (List.nodup_append.mp hnodup).1).2.2
      exact hfirst _ hmem _ (List.mem_singleton.mpr rfl) rfl
    obtain ⟨f', htake, hhas, hdense⟩ := takeRank_eq hg (hjs j List.mem_cons_self) hf (by omega) hnew
    obtain ⟨f'', hfold, hhas', hdense'⟩ :=
      ih (fun x hx => hjs x (List.mem_cons_of_mem j hx)) hhas (by simp; omega) hnodup
    refine ⟨f'', ?_, hhas', hdense'.trans hdense⟩
    unfold foldBody
    rw [htake]
    exact hfold

theorem takeRanges_eq (hg : Valid me g) (hlooped : Looped g.size ranges)
    (hf : f.Has me size list) (hroom : (list ++ rangeMembers g ranges).length ≤ size)
    (hnodup : (list ++ rangeMembers g ranges).Nodup) :
    ∃ f', ranges.foldlM (fun f r => strideLoop r.last r.stride (takeRank g) g.size r.first f) f = some f' ∧
      f'.Has me size (list ++ rangeMembers g ranges) ∧
      f'.group.isLocalDenseMonotonic = f.group.isLocalDenseMonotonic := by
  induction ranges generalizing f list with
  | nil => exact ⟨f, rfl, by simpa [rangeMembers] using hf, rfl⟩
  | cons r ranges ih =>
    obtain ⟨⟨hgood, hlast, hwraps⟩, hrest⟩ := List.forall_mem_cons.mp hlooped
    have hassoc : list ++ rangeMembers g (r :: ranges) =
        list ++ (r.ranks.map fun j => g.lpid j.toNat) ++ rangeMembers g ranges := by simp [rangeMembers]
    rw [hassoc] at hroom hnodup ⊢
    have hroom' : list.length + r.ranks.length ≤ size := by
      rw [List.length_append, List.length_append, List.length_map] at hroom
      omega
    obtain ⟨f', hfold, hhas, hdense⟩ := foldBody_take hg hgood.2 hf hroom' (List.nodup_append.mp hnodup).1
    have hneg : ∀ j f, j < 0 → takeRank g j f = none := by
      intro j f hj
      unfold takeRank
      rw [element_of_neg hj]
      rfl
    have hloop := strideLoop_foldl hgood hlast hwraps hneg hfold
    obtain ⟨f'', hrun, hhas', hdense'⟩ := ih hrest hhas hroom hnodup
    refine ⟨f'', ?_, hhas', hdense'.trans hdense⟩
    rw [List.foldlM_cons, hloop]
    exact hrun

theorem AllValid.inside (hvalid : AllValid size ranges) {j : Int} (hj : j ∈ ranges.flatMap Range.ranks) :
    0 ≤ j ∧ j < size := by
  obtain ⟨r, hr, hj⟩ := List.mem_flatMap.mp hj
  exact (hvalid.1 r hr).2 j hj

theorem nodup_rangeMembers (hg : Valid me g) (hvalid : AllValid g.size ranges) : (rangeMembers g ranges).Nodup := by
  apply List.Nodup.map_on _ hvalid.2
  intro x hx y hy heq
  have hx' := hvalid.inside hx
  have hy' := hvalid.inside hy
  have hinj := hg.injective (by omega) (by omega) heq
  omega

theorem nonneg_rangeMembers (hg : Valid me g) (hvalid : AllValid g.size ranges) :
    ∀ p ∈ rangeMembers g ranges, 0 ≤ p := by
  intro p hp
  obtain ⟨j, hj, rfl⟩ := List.mem_map.mp hp
  have hj' := hvalid.inside hj
  exact hg.nonneg _ (mem_members.mpr ⟨j.toNat, by omega, rfl⟩)

theorem groupRangeIncl_eq (memory : MpidGroup) (hempty : HasEmpty me s) (hg : Valid me (s.group h))
    (hplain : Fillable s h h) (hint : (s.group h).size < 2 ^ 31) (hvalid : AllValid (s.group h).size ranges)
    (hlooped : Looped (s.group h).size ranges) :
    ∃ s' k, groupRangeIncl memory s h ranges = some (s', k) ∧ Result me s s' k (rangeMembers (s.group h) ranges) := by
  have hle := hvalid.length_le
  have hlength : (rangeMembers (s.group h) ranges).length = (ranges.flatMap Range.ranks).length := List.length_map _
  have hsubset : ∀ p ∈ rangeMembers (s.group h) ranges, p ∈ (s.group h).members := by
    intro p hp
    obtain ⟨j, hj, rfl⟩ := List.mem_map.mp hp
    have hj' := hvalid.inside hj
    exact mem_members.mpr ⟨j.toNat, by omega, rfl⟩
  unfold groupRangeIncl
  rw [rangesSize_eq hlooped (by omega)]
  simp only [Option.bind_eq_bind, Option.bind_some]
  apply newGroup_eq hempty
  · have hrefl : Grown me s s := Grown.refl s
    exact hplain.build hrefl fun p hp => .inl (hsubset p hp)
  · rw [hlength]
  · exact nodup_rangeMembers hg hvalid
  · exact nonneg_rangeMembers hg hvalid
  · intro _
    have hstart : Filling.Has me (rangeMembers (s.group h) ranges).length []
        ⟨{ groupCreate .plain memory (rangeMembers (s.group h) ranges).length with rank := mpiUndefined }, 0⟩ :=
      ⟨rfl, rfl, rfl, rfl, rfl⟩
    obtain ⟨f, hrun, hhas, hdense⟩ :=
      takeRanges_eq hg hlooped hstart (Nat.le_refl _) (nodup_rangeMembers hg hvalid)
    refine ⟨f, hrun, hhas, ?_⟩
    rw [hdense]
    exact fun h => nomatch h

def remaining (g : MpidGroup) (ranges : List Range) : List Int :=
  kept g (fun i => decide ((i : Int) ∉ ranges.flatMap Range.ranks)) g.size

variable {flag : Nat → Int}

theorem foldBody_exclude {js : List Int} (hjs : ∀ j ∈ js, 0 ≤ j ∧ j < size) (hseen : Marked size seen flag) :
    ∃ flag', foldBody (excludeRank size) js flag = some (flag', false) ∧ Marked size (seen ++ js) flag' := by
  induction js generalizing flag seen with
  | nil => exact ⟨flag, rfl, by rw [List.append_nil]; exact hseen⟩
  | cons j js ih =>
    have hj := hjs j List.mem_cons_self
    have hmarked := hseen.update hj Int.one_ne_zero
    obtain ⟨flag', hfold, hseen'⟩ := ih (fun x hx => hjs x (List.mem_cons_of_mem j hx)) hmarked
    rw [List.append_assoc] at hseen'
    refine ⟨flag', ?_, hseen'⟩
    unfold foldBody excludeRank
    rw [element_of_rank hj]
    exact hfold

theorem excludeRanges_eq (hlooped : Looped size ranges) (hseen : Marked size seen flag) :
    ∃ flag', ranges.foldlM (fun flag r => strideLoop r.last r.stride (excludeRank size) size r.first flag) flag =
      some flag' ∧ Marked size (seen ++ ranges.flatMap Range.ranks) flag' := by
  induction ranges generalizing flag seen with
  | nil => exact ⟨flag, rfl, by simpa using hseen⟩
  | cons r ranges ih =>
    obtain ⟨⟨hgood, hlast, hwraps⟩, hrest⟩ := List.forall_mem_cons.mp hlooped
    obtain ⟨flag', hfold, hseen'⟩ := foldBody_exclude hgood.2 hseen
    have hneg : ∀ j flag, j < 0 → excludeRank size j flag = none := by
      intro j flag hj
      unfold excludeRank
      rw [element_of_neg hj]
      rfl
    have hloop := strideLoop_foldl hgood hlast hwraps hneg hfold
    obtain ⟨flag'', hrun, hseen''⟩ := ih hrest hseen'
    rw [List.append_assoc] at hseen''
    refine ⟨flag'', ?_, hseen''⟩
    rw [List.foldlM_cons, hloop]
    exact hrun

def unseen (g : MpidGroup) (seen : List Int) : List Int :=
  kept g (fun i => decide ((i : Int) ∉ seen)) g.size

theorem length_unseen (hinside : ∀ j ∈ seen, 0 ≤ j ∧ j < g.size) (hnodup : seen.Nodup) :
    (unseen g seen).length + seen.length = g.size := by
  have hperm : ((List.range g.size).filter fun i : Nat => decide ((i : Int) ∈ seen)).Perm (seen.map Int.toNat) := by
    apply (List.perm_ext_iff_of_nodup (List.nodup_range.filter _) _).mpr
    · intro k
      rw [List.mem_filter, List.mem_range, decide_eq_true_iff, List.mem_map]
      constructor
      · rintro ⟨-, hmem⟩
        exact ⟨k, hmem, rfl⟩
      · rintro ⟨j, hj, rfl⟩
        have hj' := hinside j hj
        rw [Int.toNat_of_nonneg hj'.1]
        exact ⟨by omega, hj⟩
    · apply List.Nodup.map_on _ hnodup
      intro x hx y hy heq
      have hx' := hinside x hx
      have hy' := hinside y hy
      omega
  have hsplit := (List.range g.size).length_eq_length_filter_add fun i : Nat => decide ((i : Int) ∈ seen)
  have hlength := hperm.length_eq
  rw [List.length_map] at hlength
  have hnot : (unseen g seen).length =
      ((List.range g.size).filter fun i : Nat => !decide ((i : Int) ∈ seen)).length := by
    unfold unseen kept
    rw [List.length_map]
    congr 1
    apply List.filter_congr
    intro i _
    exact decide_not
  rw [List.length_range] at hsplit
  omega

theorem unseen_subset : ∀ p ∈ unseen g seen, p ∈ g.members := by
  intro p hp
  obtain ⟨i, hi, rfl⟩ := List.mem_map.mp hp
  exact mem_members.mpr ⟨i, List.mem_range.mp (List.mem_of_mem_filter hi), rfl⟩

theorem fillUnmarked_eq (memory : MpidGroup) {nnew : Int} (hempty : HasEmpty me s)
    (hg : Valid me (s.group h)) (hplain : Fillable s h h) (hmarked : Marked (s.group h).size seen flag)
    (hnnew : nnew = (unseen (s.group h) seen).length) :
    ∃ s' k, newGroup memory (s.set h { s.group h with flag := flag }) nnew mpiUndefined
        (fillFrom (s.group h) (fun i => flag i = 0) id) = some (s', k) ∧
      Result me s s' k (unseen (s.group h) seen) := by
  have hgrown : Grown me s (s.set h { s.group h with flag := flag }) := grown_setFlag h flag
  have hkept : kept (s.group h) (fun i => flag i = 0) (s.group h).size = unseen (s.group h) seen := by
    unfold unseen kept
    congr 1
    apply List.filter_congr
    intro i hi
    rw [decide_eq_decide]
    exact Iff.trans not_not.symm (not_congr (hmarked i (List.mem_range.mp hi)))
  have hnew : ∃ s' k, newGroup memory (s.set h { s.group h with flag := flag }) nnew mpiUndefined
        (fillFrom (s.group h) (fun i => flag i = 0) id) = some (s', k) ∧
      Result me (s.set h { s.group h with flag := flag }) s' k (unseen (s.group h) seen) := by
    apply newGroup_eq (hempty.grown hgrown) (hplain.build hgrown fun p hp => .inl (unseen_subset p hp)) hnnew
    · unfold unseen kept
      apply List.Nodup.map_on _ (List.nodup_range.filter _)
      intro x hx y hy heq
      have hx' := List.mem_range.mp (List.mem_of_mem_filter hx)
      have hy' := List.mem_range.mp (List.mem_of_mem_filter hy)
      exact hg.injective hx' hy' heq
    · exact fun p hp => hg.nonneg p (unseen_subset p hp)
    · intro _
      obtain ⟨f, hfill, hhas, hdense⟩ := fillPlain_eq memory hg (congrArg List.length hkept)
      rw [hkept] at hhas
      refine ⟨f, hfill, hhas, ?_⟩
      rw [hdense]
      exact fun h => nomatch h
  obtain ⟨s', k, hrun, hresult⟩ := hnew
  exact ⟨s', k, hrun, hresult.trans hgrown⟩

theorem marked_clear (g : MpidGroup) : Marked g.size [] (clearFlags g) := by
  intro k hk
  rw [clearFlags_eq hk]
  simp

theorem groupRangeExcl_eq (memory : MpidGroup) (hempty : HasEmpty me s) (hg : Valid me (s.group h))
    (hplain : Fillable s h h) (hint : (s.group h).size < 2 ^ 31) (hvalid : AllValid (s.group h).size ranges)
    (hlooped : Looped (s.group h).size ranges) :
    ∃ s' k, groupRangeExcl memory s h ranges = some (s', k) ∧ Result me s s' k (remaining (s.group h) ranges) := by
  have hlength := length_unseen (g := s.group h) (fun j hj => hvalid.inside hj) hvalid.2
  have hremaining : remaining (s.group h) ranges = unseen (s.group h) (ranges.flatMap Range.ranks) := rfl
  have hnnew : toInt ((s.group h).size - ((ranges.flatMap Range.ranks).length : Int)) =
      (remaining (s.group h) ranges).length := by
    rw [toInt_eq (by omega) (by omega), hremaining]
    omega
  unfold groupRangeExcl
  rw [rangesSize_eq hlooped (by omega)]
  simp only [Option.bind_eq_bind, Option.bind_some, hnnew]
  by_cases hnil : remaining (s.group h) ranges = []
  · rw [hnil]
    exact ⟨s, 0, rfl, hempty.result⟩
  · have hpos : 0 < (remaining (s.group h) ranges).length := List.length_pos_of_ne_nil hnil
    obtain ⟨flag, hmark, hmarked⟩ := excludeRanges_eq hlooped (marked_clear (s.group h))
    rw [if_neg (by omega), hmark]
    exact fillUnmarked_eq memory hempty hg hplain hmarked rfl

end Building

section Checked
variable {me : Int} {s : GroupMem} {h : Nat} {ranges : List Range}

/-- The check and the loops end inside the array; the check succeeds for valid triples and no others, and then the
groups have these members. -/
def ChecksRight (me : Int) (memory : MpidGroup) (s : GroupMem) (h : Nat) (ranges : List Range) : Prop :=
  ∃ s' errno, checkValidRanges s h ranges = some (s', errno) ∧
    (errno = none ↔ AllValid (s.group h).size ranges) ∧
    (errno = none →
      (∃ t k, groupRangeIncl memory s' h ranges = some (t, k) ∧
        Result me s' t k (rangeMembers (s.group h) ranges)) ∧
      ∃ t k, groupRangeExcl memory s' h ranges = some (t, k) ∧ Result me s' t k (remaining (s.group h) ranges))

theorem accepted_iff {size : Nat} : Accepted size [] ranges ↔ AllValid size ranges ∧ ∀ r ∈ ranges, 0 ≤ r.last := by
  unfold Accepted AllValid
  rw [List.nil_append]
  constructor
  · rintro ⟨hall, hnodup⟩
    exact ⟨⟨fun r hr => (hall r hr).1, hnodup⟩, fun r hr => (hall r hr).2⟩
  · rintro ⟨⟨hgood, hnodup⟩, hlast⟩
    exact ⟨fun r hr => ⟨hgood r hr, hlast r hr⟩, hnodup⟩

theorem checkValidRanges_bare (hbare : Bare me (s.group h)) (hsize : (s.group h).size ≠ 0) :
    checkValidRanges s h ranges = none := by
  refine if_neg ?_
  rw [hbare.readable hsize]
  exact Bool.false_ne_true

theorem checksRight_iff (memory : MpidGroup) (hempty : HasEmpty me s) (hk : h < s.count)
    (hg : Valid me (s.group h)) (hplain : Fillable s h h) (hint : (s.group h).size < 2 ^ 31) :
    ChecksRight me memory s h ranges ↔
      StepsFit (s.group h).size [] ranges ∧ (AllValid (s.group h).size ranges → ∀ r ∈ ranges, 0 ≤ r.last) := by
  unfold ChecksRight checkValidRanges
  rw [if_pos hg.readable]
  by_cases hfit : StepsFit (s.group h).size [] ranges
  · obtain ⟨flag, errno, hrun, hiff⟩ := checkFrom_eq (i := 0) (marked_clear (s.group h)) List.nodup_nil hfit
    rw [accepted_iff] at hiff
    rw [hrun]
    constructor
    · rintro ⟨s', errno', heq, hvalid, -⟩
      obtain ⟨-, rfl⟩ := Prod.mk.inj (Option.some.inj heq)
      exact ⟨hfit, fun h => (hiff.mp (hvalid.mpr h)).2⟩
    · rintro ⟨-, hlast⟩
      refine ⟨_, errno, rfl, ?_, ?_⟩
      · rw [hiff]
        exact ⟨fun h => h.1, fun h => ⟨h, hlast h⟩⟩
      · intro hnone
        obtain ⟨hvalid, hnonneg⟩ := hiff.mp hnone
        have hlooped := (accepted_iff.mpr ⟨hvalid, hnonneg⟩).looped hfit
        have hgrown : Grown me s (s.set h { s.group h with flag := flag }) := grown_setFlag h flag
        have hsame := hgrown.same h hk
        have hplain' : Fillable (s.set h { s.group h with flag := flag }) h h := hplain.imp_right fun hsize => by
          rw [hsame.size]
          exact hsize
        have hmembers : rangeMembers ((s.set h { s.group h with flag := flag }).group h) ranges =
            rangeMembers (s.group h) ranges := by
          unfold rangeMembers
          rw [hsame.lpid]
        have hremaining : remaining ((s.set h { s.group h with flag := flag }).group h) ranges =
            remaining (s.group h) ranges := by
          unfold remaining kept
          rw [hsame.lpid, hsame.size]
        rw [← hmembers, ← hremaining]
        rw [← hsame.size] at hint hvalid hlooped
        exact ⟨groupRangeIncl_eq memory (hempty.grown hgrown) (hgrown.valid h hk hg) hplain' hint hvalid hlooped,
          groupRangeExcl_eq memory (hempty.grown hgrown) (hgrown.valid h hk hg) hplain' hint hvalid hlooped⟩
  · rw [checkFrom_none (i := 0) (marked_clear (s.group h)) List.nodup_nil hfit]
    constructor
    · rintro ⟨s', errno, heq, -⟩
      exact nomatch heq
    · rintro ⟨h, -⟩
      exact absurd h hfit

/-- All is right exactly when the group has its array or is empty, no step of a triple that is looped over leaves the
`int`s, no division that is made, and no valid triple has a negative `last`. -/
theorem check_valid_ranges_iff (memory : MpidGroup) (hempty : HasEmpty me s) (hk : h < s.count)
    (hb : Built s.build me (s.group h)) (hint : (s.group h).size < 2 ^ 31) :
    ChecksRight me memory s h ranges ↔ (s.build = .plain ∨ (s.group h).size = 0) ∧
      StepsFit (s.group h).size [] ranges ∧ (AllValid (s.group h).size ranges → ∀ r ∈ ranges, 0 ≤ r.last) := by
  cases hbuild : s.build with
  | plain =>
    rw [hbuild] at hb
    rw [checksRight_iff memory hempty hk hb (.inl hbuild) hint]
    exact (and_iff_right (.inl rfl)).symm
  | fineGrain =>
    rw [hbuild] at hb
    by_cases hsize : (s.group h).size = 0
    · rw [checksRight_iff memory hempty hk (hb.valid hsize) (.inr ⟨hsize, hsize⟩) hint]
      exact (and_iff_right (.inr hsize)).symm
    · refine iff_of_false ?_ fun hand => hand.1.elim (fun hplain => by cases hplain) hsize
      rintro ⟨s', errno, hrun, -⟩
      rw [checkValidRanges_bare hb hsize] at hrun
      exact nomatch hrun

end Checked

def reversed : List Range := [⟨2, 0, -2, by decide, by decide, by decide⟩, ⟨1, 1, 1, by decide, by decide, by decide⟩]

theorem reversed_checked : ChecksRight 1 (groupOf .plain 1 []) (twoGroups .plain) 1 reversed := by
  have hempty : Valid 1 ((twoGroups .plain).group 0) := groupOf_valid (by decide) (by decide)
  have hgroup : Valid 1 ((twoGroups .plain).group 1) := groupOf_valid (by decide) (by decide)
  exact (check_valid_ranges_iff (groupOf .plain 1 []) ⟨by decide, rfl, hempty⟩ (by decide) hgroup
    (by decide)).mpr ⟨.inl rfl, by decide, by decide⟩

def largestStride : List Range := [⟨1, 1, 2147483647, by decide, by decide, by decide⟩]

theorem not_checked : ¬ ChecksRight 1 (groupOf .plain 1 []) (twoGroups .plain) 1 largestStride ∧
    ¬ ChecksRight 1 (groupOf .fineGrain 1 []) (twoGroups .fineGrain) 1 reversed := by
  have hplain : checkValidRanges (twoGroups .plain) 1 largestStride = none := by rfl
  have hbare : checkValidRanges (twoGroups .fineGrain) 1 reversed = none := by rfl
  constructor
  · rintro ⟨s', errno, hrun, -⟩
    rw [hplain] at hrun
    exact nomatch hrun
  · rintro ⟨s', errno, hrun, -⟩
    rw [hbare] at hrun
    exact nomatch hrun

end FgMpi.Group.Ranges
