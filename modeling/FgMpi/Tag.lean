import Mathlib.Data.BitVec

/-! Two bits of the tag carry the error flag of a collective (`include/mpiimpl.h:3812-3843`). -/

namespace FgMpi.Tag

/-- `MPIR_Errflag_t`. -/
inductive Errflag
  | none
  | procFailed
  | other
deriving Repr, DecidableEq

abbrev TagVal := BitVec 32

/-- `MPIR_TAG_ERROR_BIT`, `MPIR_TAG_PROC_FAILURE_BIT`. -/
def errorBit : TagVal := 1#32 <<< 30

def procFailureBit : TagVal := 1#32 <<< 29

def checkErrorBit (tag : TagVal) : Bool := errorBit &&& tag == errorBit

def checkProcFailureBit (tag : TagVal) : Bool := procFailureBit &&& tag == procFailureBit

def setErrorBit (tag : TagVal) : TagVal := tag ||| errorBit

def setProcFailureBit (tag : TagVal) : TagVal := tag ||| (errorBit ||| procFailureBit)

/-- `MPIR_TAG_CLEAR_ERROR_BITS` and `MPIR_TAG_MASK_ERROR_BITS`. -/
def maskErrorBits (tag : TagVal) : TagVal := tag &&& ~~~(errorBit ^^^ procFailureBit)

/-- What `MPIC_Send` and its siblings do to the tag, `coll/helper_fns.c:295-303` (the case
for a failed process falls through). -/
def stampTag (tag : TagVal) : Errflag → TagVal
  | .none => tag
  | .procFailed => setErrorBit (setProcFailureBit tag)
  | .other => setErrorBit tag

def NoErrorBits (tag : TagVal) : Prop := maskErrorBits tag = tag

instance (tag : TagVal) : Decidable (NoErrorBits tag) := inferInstanceAs (Decidable (_ = _))

theorem maskErrorBits_or {tag bits : TagVal} (h : maskErrorBits bits = 0#32) :
    maskErrorBits (tag ||| bits) = maskErrorBits tag := by
  unfold maskErrorBits at h ⊢
  rw [BitVec.and_or_distrib_right, h, BitVec.or_zero]

@[simp] theorem maskErrorBits_setErrorBit (tag : TagVal) :
    maskErrorBits (setErrorBit tag) = maskErrorBits tag :=
  maskErrorBits_or (by decide)

@[simp] theorem maskErrorBits_setProcFailureBit (tag : TagVal) :
    maskErrorBits (setProcFailureBit tag) = maskErrorBits tag :=
  maskErrorBits_or (by decide)

@[simp] theorem maskErrorBits_stampTag (tag : TagVal) (flag : Errflag) :
    maskErrorBits (stampTag tag flag) = maskErrorBits tag := by
  cases flag <;> simp [stampTag]

theorem checkErrorBit_of_noErrorBits {tag : TagVal} (h : NoErrorBits tag) : checkErrorBit tag = false := by
  have hzero : errorBit &&& ~~~(errorBit ^^^ procFailureBit) = 0#32 := by decide
  have hmask : errorBit &&& tag = 0#32 := by
    calc errorBit &&& tag
        = errorBit &&& (tag &&& ~~~(errorBit ^^^ procFailureBit)) := by
          conv_lhs => rw [← h]
          rfl
      _ = (errorBit &&& ~~~(errorBit ^^^ procFailureBit)) &&& tag := by
          rw [BitVec.and_comm tag, BitVec.and_assoc]
      _ = 0#32 := by rw [hzero, BitVec.zero_and]
  unfold checkErrorBit
  rw [hmask]
  decide

theorem checkErrorBit_setErrorBit (tag : TagVal) : checkErrorBit (setErrorBit tag) = true := by
  unfold checkErrorBit setErrorBit
  rw [BitVec.and_or_distrib_left, BitVec.and_self, beq_iff_eq]
  refine BitVec.eq_of_getElem_eq ?_
  intro i hi
  simp only [BitVec.getElem_or, BitVec.getElem_and]
  cases errorBit[i] <;> simp

/-- `if (MPIR_TAG_CHECK_ERROR_BIT(tag)) MPIR_TAG_CLEAR_ERROR_BITS(tag)` recovers the tag the
sender was given. -/
theorem cleared_stampTag {tag : TagVal} (h : NoErrorBits tag) (flag : Errflag) :
    (if checkErrorBit (stampTag tag flag) then maskErrorBits (stampTag tag flag)
      else stampTag tag flag) = tag := by
  cases flag with
  | none =>
    have hno := checkErrorBit_of_noErrorBits h
    simp [stampTag, hno]
  | procFailed =>
    have hset := checkErrorBit_setErrorBit (setProcFailureBit tag)
    simp only [stampTag, hset, if_true, maskErrorBits_setErrorBit, maskErrorBits_setProcFailureBit]
    exact h
  | other =>
    have hset := checkErrorBit_setErrorBit tag
    simp only [stampTag, hset, if_true, maskErrorBits_setErrorBit]
    exact h

end FgMpi.Tag
