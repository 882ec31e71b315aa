import FgMpi.Tag

/-! The comparison macros of `mpid/ch3/src/ch3u_recvq.c:86-146` and their masks. -/

namespace FgMpi.Recvq.Match
open Tag

/-- `MPIDI_Message_match_parts_t`.  The FG build compares the parts (the union is wider than a
pointer); in the plain build the whole word is compared, which is the same thing. -/
structure MessageMatch where
  tag : TagVal
  rank : BitVec 32
  contextId : BitVec 16
  destRank : BitVec 32
deriving Repr, DecidableEq

def anySource : BitVec 32 := BitVec.ofInt 32 (-2)

def anyTag : TagVal := BitVec.ofInt 32 (-1)

/-- `dest_rank` is there in the FG build only. -/
def matchWithLeftMask (fg : Bool) (match1 match2 mask : MessageMatch) : Bool :=
  (!fg || (match1.destRank &&& mask.destRank == match2.destRank)) &&
    (match1.rank &&& mask.rank == match2.rank) &&
    (match1.tag &&& mask.tag == match2.tag) && match1.contextId == match2.contextId

def matchWithLeftRightMask (fg : Bool) (match1 match2 mask : MessageMatch) : Bool :=
  (!fg || (match1.destRank &&& mask.destRank == match2.destRank &&& mask.destRank)) &&
    (match1.rank &&& mask.rank == match2.rank &&& mask.rank) &&
    (match1.tag &&& mask.tag == match2.tag &&& mask.tag) &&
    match1.contextId == match2.contextId

/-- `match` and `mask` of the searches through the unexpected queue
(`ch3u_recvq.c:281-311`, `:483-523`, `:631-690`). -/
def searchMatch (source : BitVec 32) (tag : TagVal) (contextId : BitVec 16)
    (me : BitVec 32) : MessageMatch :=
  { contextId := contextId
    tag := if tag = anyTag then 0 else tag
    rank := if source = anySource then 0 else source
    destRank := me }

def searchMask (source : BitVec 32) (tag : TagVal) : MessageMatch :=
  { contextId := BitVec.allOnes 16
    tag := if tag = anyTag then 0 else maskErrorBits (BitVec.allOnes 32)
    rank := if source = anySource then 0 else BitVec.allOnes 32
    destRank := BitVec.allOnes 32 }

/-- `rreq->dev.mask` of a posted receive, `ch3u_recvq.c:741-751`. -/
def postedMask (criteria : MessageMatch) : MessageMatch :=
  { contextId := BitVec.allOnes 16
    rank := if criteria.rank = anySource then 0 else BitVec.allOnes 32
    tag := if criteria.tag = anyTag then 0 else BitVec.allOnes 32
    destRank := BitVec.allOnes 32 }

def Matches (criteria message : MessageMatch) : Prop :=
  criteria.contextId = message.contextId ∧ criteria.destRank = message.destRank ∧
    (criteria.rank = message.rank ∨ criteria.rank = anySource) ∧
    (criteria.tag = maskErrorBits message.tag ∨ criteria.tag = anyTag)

instance (criteria message : MessageMatch) : Decidable (Matches criteria message) :=
  inferInstanceAs (Decidable (_ ∧ _))

theorem matchWithLeftMask_iff (source : BitVec 32) (tag : TagVal) (contextId : BitVec 16)
    (me : BitVec 32) (message : MessageMatch) :
    matchWithLeftMask true message (searchMatch source tag contextId me)
        (searchMask source tag) = true ↔
      Matches ⟨tag, source, contextId, me⟩ message := by
  have htag : message.tag &&& maskErrorBits (BitVec.allOnes 32) = maskErrorBits message.tag := by
    unfold maskErrorBits
    rw [BitVec.allOnes_and]
  unfold matchWithLeftMask Matches searchMatch searchMask
  simp only [Bool.not_true, Bool.false_or, Bool.and_eq_true, beq_iff_eq, BitVec.and_allOnes]
  constructor
  · rintro ⟨⟨⟨hdest, hrank⟩, htagm⟩, hctx⟩
    refine ⟨hctx.symm, hdest.symm, ?_, ?_⟩
    · by_cases hs : source = anySource
      · exact Or.inr hs
      · rw [if_neg hs, if_neg hs, BitVec.and_allOnes] at hrank
        exact Or.inl hrank.symm
    · by_cases ht : tag = anyTag
      · exact Or.inr ht
      · rw [if_neg ht, if_neg ht, htag] at htagm
        exact Or.inl htagm.symm
  · rintro ⟨hctx, hdest, hrank, htagm⟩
    refine ⟨⟨⟨hdest.symm, ?_⟩, ?_⟩, hctx.symm⟩
    · by_cases hs : source = anySource
      · simp [hs]
      · rw [if_neg hs, if_neg hs, BitVec.and_allOnes]
        exact (hrank.resolve_right hs).symm
    · by_cases ht : tag = anyTag
      · simp [ht]
      · rw [if_neg ht, if_neg ht, htag]
        exact (htagm.resolve_right ht).symm

theorem matchWithLeftRightMask_iff (criteria message : MessageMatch) :
    matchWithLeftRightMask true criteria message (postedMask criteria) = true ↔
      criteria.contextId = message.contextId ∧ criteria.destRank = message.destRank ∧
        (criteria.rank = message.rank ∨ criteria.rank = anySource) ∧
        (criteria.tag = message.tag ∨ criteria.tag = anyTag) := by
  unfold matchWithLeftRightMask postedMask
  simp only [Bool.not_true, Bool.false_or, Bool.and_eq_true, beq_iff_eq, BitVec.and_allOnes]
  constructor
  · rintro ⟨⟨⟨hdest, hrank⟩, htagm⟩, hctx⟩
    refine ⟨hctx, hdest, ?_, ?_⟩
    · by_cases hs : criteria.rank = anySource
      · exact Or.inr hs
      · rw [if_neg hs, BitVec.and_allOnes, BitVec.and_allOnes] at hrank
        exact Or.inl hrank
    · by_cases ht : criteria.tag = anyTag
      · exact Or.inr ht
      · rw [if_neg ht, BitVec.and_allOnes, BitVec.and_allOnes] at htagm
        exact Or.inl htagm
  · rintro ⟨hctx, hdest, hrank, htagm⟩
    refine ⟨⟨⟨hdest, ?_⟩, ?_⟩, hctx⟩
    · by_cases hs : criteria.rank = anySource
      · simp [hs]
      · rw [if_neg hs, BitVec.and_allOnes, BitVec.and_allOnes]
        exact hrank.resolve_right hs
    · by_cases ht : criteria.tag = anyTag
      · simp [ht]
      · rw [if_neg ht, BitVec.and_allOnes, BitVec.and_allOnes]
        exact htagm.resolve_right ht

end FgMpi.Recvq.Match
