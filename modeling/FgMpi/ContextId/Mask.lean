import Mathlib.Data.BitVec

/-! `mpi/comm/contextid.c:196-276` and `:1195-1266`; a bit is set while its id is free. -/

namespace FgMpi.ContextId.Mask

/-- `MPIR_MAX_CONTEXT_MASK` words are used. -/
abbrev ContextMask := Nat → BitVec 32

def maxContextMask : Nat := 64

/-- One halving of the search for the highest bit: `nval = val & m; if (nval) {...}`. -/
def narrow (m : BitVec 32) (width : Nat) (r : BitVec 32 × Nat) : BitVec 32 × Nat :=
  if r.1 &&& m ≠ 0 then (r.1 &&& m, r.2 + width) else r

def highestBit (val : BitVec 32) : Nat :=
  (narrow 0xAAAAAAAA 1 (narrow 0xCCCCCCCC 2 (narrow 0xF0F0F0F0 4 (narrow 0xFF00FF00 8
    (narrow 0xFFFF0000 16 (val, 0)))))).2

/-- `locate_context_bit`, `contextid.c:198`: 0 when no bit is set. -/
def locateContextBit (localMask : ContextMask) : Nat :=
  match (List.range maxContextMask).find? (fun i => localMask i != 0) with
  | some i => (32 * i + highestBit (localMask i)) <<< 4
  | none => 0

/-- `MPID_CONTEXT_READ_FIELD` for the fields of an id. -/
def prefixField (id : Nat) : Nat := (id >>> 4) % 2 ^ 11

def dynamicProcField (id : Nat) : Nat := (id >>> 15) % 2

def isLocalcommField (id : Nat) : Nat := (id >>> 3) % 2

def subcommField (id : Nat) : Nat := (id >>> 1) % 2 ^ 2

def hasBit (mask : ContextMask) (id : Nat) : Bool :=
  (mask (prefixField id / 32)).getLsbD (prefixField id % 32)

/-- `allocate_context_bit`, `contextid.c:246`; `none` is its assertion. -/
def allocateContextBit (mask : ContextMask) (id : Nat) : Option ContextMask :=
  let idx := prefixField id / 32
  if hasBit mask id then
    some (Function.update mask idx (mask idx &&& ~~~(1#32 <<< (prefixField id % 32))))
  else none

/-- `find_and_allocate_context_id`, `contextid.c:270`. -/
def findAndAllocateContextId (mask localMask : ContextMask) : Option (ContextMask × Nat) :=
  let id := locateContextBit localMask
  if id ≠ 0 then (allocateContextBit mask id).map (fun m => (m, id)) else some (mask, 0)

/-- `MPIR_Free_contextid`, `contextid.c:1195`; `none` is one of its aborts. -/
def freeContextid (mask : ContextMask) (id : Nat) : Option ContextMask :=
  let idx := prefixField id / 32
  if maxContextMask ≤ idx then none
  else if dynamicProcField id ≠ 0 then some mask
  else if isLocalcommField id ≠ 0 then some mask
  else if subcommField id ≠ 0 then some mask
  else if hasBit mask id then none
  else some (Function.update mask idx (mask idx ||| (1#32 <<< (prefixField id % 32))))

/-- Every bit left agrees with the position found so far, down to blocks of `n`. -/
structure Narrowed (n : Nat) (r : BitVec 32 × Nat) : Prop where
  nonzero : r.1 ≠ 0
  aligned : r.2 % n = 0
  block : ∀ q, r.1.getLsbD q = true → q / n = r.2 / n

theorem exists_bit {v : BitVec 32} (h : v ≠ 0) : ∃ q, v.getLsbD q = true := by
  by_contra hall
  push Not at hall
  refine h (BitVec.eq_of_getLsbD_eq ?_)
  intro i _
  simpa using hall i

theorem narrow_narrowed {n : Nat} (hn : 0 < n) {m : BitVec 32}
    (hm : ∀ q < 32, m.getLsbD q = decide (q / n % 2 = 1)) {r : BitVec 32 × Nat}
    (h : Narrowed (n * 2) r) : Narrowed n (narrow m n r) := by
  have halign : r.2 % n = 0 ∧ r.2 / n % 2 = 0 := by
    have ha := h.aligned
    rw [Nat.mod_mul] at ha
    have hzero := Nat.eq_zero_of_add_eq_zero ha
    refine ⟨hzero.1, ?_⟩
    exact (Nat.mul_eq_zero.mp hzero.2).resolve_left (by omega)
  have hhalf : ∀ q, r.1.getLsbD q = true → q / n / 2 = r.2 / n / 2 := by
    intro q hq
    have hb := h.block q hq
    rwa [← Nat.div_div_eq_div_mul, ← Nat.div_div_eq_div_mul] at hb
  have hlt : ∀ q, r.1.getLsbD q = true → q < 32 := by
    intro q hq
    by_contra hge
    rw [BitVec.getLsbD_of_ge _ _ (by omega)] at hq
    cases hq
  unfold narrow
  split
  · rename_i hne
    refine ⟨hne, ?_, ?_⟩
    · show (r.2 + n) % n = 0
      rw [Nat.add_mod_right]
      exact halign.1
    · intro q hq
      show q / n = (r.2 + n) / n
      rw [BitVec.getLsbD_and, Bool.and_eq_true] at hq
      have hodd := hq.2
      rw [hm q (hlt q hq.1), decide_eq_true_eq] at hodd
      have hq2 := hhalf q hq.1
      rw [Nat.add_div_right _ hn]
      omega
  · rename_i hzero
    refine ⟨h.nonzero, halign.1, ?_⟩
    intro q hq
    have heven : ¬ q / n % 2 = 1 := by
      intro hodd
      have hbit : (r.1 &&& m).getLsbD q = true := by
        rw [BitVec.getLsbD_and, hq, hm q (hlt q hq)]
        simpa using hodd
      rw [not_not.mp hzero] at hbit
      simp at hbit
    have hq2 := hhalf q hq
    omega

theorem getLsbD_highestBit {val : BitVec 32} (h : val ≠ 0) :
    val.getLsbD (highestBit val) = true ∧ highestBit val < 32 := by
  have h0 : Narrowed 32 (val, 0) := by
    refine ⟨h, rfl, ?_⟩
    intro q hq
    have hlt : q < 32 := by
      by_contra hge
      rw [BitVec.getLsbD_of_ge _ _ (by omega)] at hq
      cases hq
    rw [Nat.div_eq_of_lt hlt, Nat.zero_div]
  have h5 := narrow_narrowed (n := 1) (by decide) (m := 0xAAAAAAAA) (by decide)
    (narrow_narrowed (n := 2) (by decide) (m := 0xCCCCCCCC) (by decide)
      (narrow_narrowed (n := 4) (by decide) (m := 0xF0F0F0F0) (by decide)
        (narrow_narrowed (n := 8) (by decide) (m := 0xFF00FF00) (by decide)
          (narrow_narrowed (n := 16) (by decide) (m := 0xFFFF0000) (by decide) h0))))
  obtain ⟨q, hq⟩ := exists_bit h5.nonzero
  have hpos : q = highestBit val := by
    have hb := h5.block q hq
    rwa [Nat.div_one, Nat.div_one] at hb
  -- what is left of the word is part of it
  have hsub : ∀ (m : BitVec 32) (n : Nat) (r : BitVec 32 × Nat) (q : Nat),
      (narrow m n r).1.getLsbD q = true → r.1.getLsbD q = true := by
    intro m n r q hq
    unfold narrow at hq
    split at hq
    · rw [BitVec.getLsbD_and, Bool.and_eq_true] at hq
      exact hq.1
    · exact hq
  have hval : val.getLsbD q = true :=
    hsub _ _ _ q (hsub _ _ _ q (hsub _ _ _ q (hsub _ _ _ q (hsub _ _ _ q hq))))
  rw [← hpos]
  refine ⟨hval, ?_⟩
  by_contra hge
  rw [BitVec.getLsbD_of_ge _ _ (by omega)] at hval
  cases hval

def Allocatable (id : Nat) : Prop := ∃ k < 2 ^ 11, id = k <<< 4

theorem prefixField_shiftLeft {k : Nat} (hk : k < 2 ^ 11) : prefixField (k <<< 4) = k := by
  unfold prefixField
  rw [Nat.shiftLeft_shiftRight]
  exact Nat.mod_eq_of_lt hk

theorem Allocatable.prefixField_inj {id id' : Nat} (h : Allocatable id) (h' : Allocatable id')
    (heq : prefixField id = prefixField id') : id = id' := by
  obtain ⟨k, hk, rfl⟩ := h
  obtain ⟨k', hk', rfl⟩ := h'
  rw [prefixField_shiftLeft hk, prefixField_shiftLeft hk'] at heq
  rw [heq]

theorem locateContextBit_spec {m : ContextMask} (h : locateContextBit m ≠ 0) :
    Allocatable (locateContextBit m) ∧ hasBit m (locateContextBit m) = true ∧
      prefixField (locateContextBit m) / 32 < maxContextMask := by
  unfold locateContextBit at h ⊢
  cases hf : (List.range maxContextMask).find? (fun i => m i != 0) with
  | none =>
    rw [hf] at h
    exact absurd rfl h
  | some i =>
    have hi : i < maxContextMask := List.mem_range.mp (List.mem_of_find?_eq_some hf)
    have hne : m i ≠ 0 := by
      have hp := List.find?_some hf
      simpa using hp
    obtain ⟨hbit, hlt⟩ := getLsbD_highestBit hne
    have hk : 32 * i + highestBit (m i) < 2 ^ 11 := by
      unfold maxContextMask at hi
      omega
    have hdiv : (32 * i + highestBit (m i)) / 32 = i := by omega
    have hmod : (32 * i + highestBit (m i)) % 32 = highestBit (m i) := by omega
    refine ⟨⟨_, hk, rfl⟩, ?_, ?_⟩
    · simp only [hasBit, prefixField_shiftLeft hk, hdiv, hmod]
      exact hbit
    · simp only [prefixField_shiftLeft hk, hdiv]
      exact hi

theorem getLsbD_clear (v : BitVec 32) {b c : Nat} (hc : c < 32) :
    (v &&& ~~~(1#32 <<< b)).getLsbD c = (v.getLsbD c && decide (c ≠ b)) := by
  simp only [BitVec.getLsbD_and, BitVec.getLsbD_not, BitVec.getLsbD_shiftLeft, BitVec.getLsbD_one]
  cases v.getLsbD c
  · rfl
  · by_cases hcb : c = b
    · subst hcb
      simp [hc]
    · simp only [hc, decide_true, Bool.true_and]
      by_cases hlt : c < b
      · simp [hlt, hcb]
      · have hsub : c - b ≠ 0 := by omega
        simp [hsub, hcb]

theorem getLsbD_set (v : BitVec 32) {b c : Nat} (hc : c < 32) :
    (v ||| (1#32 <<< b)).getLsbD c = (v.getLsbD c || decide (c = b)) := by
  simp only [BitVec.getLsbD_or, BitVec.getLsbD_shiftLeft, BitVec.getLsbD_one]
  cases v.getLsbD c
  · by_cases hcb : c = b
    · subst hcb
      simp [hc]
    · simp only [hc, decide_true, Bool.true_and, Bool.false_or]
      by_cases hlt : c < b
      · simp [hlt, hcb]
      · have hsub : c - b ≠ 0 := by omega
        simp [hsub, hcb]
  · rfl

theorem hasBit_allocate {m m' : ContextMask} {id : Nat} (h : allocateContextBit m id = some m')
    (x : Nat) : hasBit m' x = (hasBit m x && decide (prefixField x ≠ prefixField id)) := by
  unfold allocateContextBit at h
  split at h
  · cases h
    unfold hasBit
    by_cases hidx : prefixField x / 32 = prefixField id / 32
    · rw [hidx, Function.update_self, getLsbD_clear _ (Nat.mod_lt _ (by decide))]
      congr 1
      rw [decide_eq_decide]
      constructor
      · intro hne heq
        exact hne (by rw [heq])
      · intro hne heq
        exact hne (by omega)
    · rw [Function.update_of_ne hidx]
      have hne : prefixField x ≠ prefixField id := fun he => hidx (by rw [he])
      simp [hne]
  · cases h

theorem findAndAllocateContextId_spec {mask m : ContextMask}
    (hsub : ∀ id, hasBit m id = true → hasBit mask id = true) :
    ∃ mask', findAndAllocateContextId mask m = some (mask', locateContextBit m) ∧
      ∀ x, hasBit mask' x = (hasBit mask x &&
        decide (locateContextBit m = 0 ∨ prefixField x ≠ prefixField (locateContextBit m))) := by
  unfold findAndAllocateContextId
  by_cases hzero : locateContextBit m = 0
  · exact ⟨mask, by simp [hzero], by simp [hzero]⟩
  · have hbit := hsub _ (locateContextBit_spec hzero).2.1
    obtain ⟨mask', hmask'⟩ : ∃ mask', allocateContextBit mask (locateContextBit m) = some mask' := by
      simp only [allocateContextBit, hbit, if_true]
      exact ⟨_, rfl⟩
    refine ⟨mask', by simp [hzero, hmask'], ?_⟩
    intro x
    rw [hasBit_allocate hmask' x]
    simp [hzero]

theorem Allocatable.suffix {id : Nat} (hid : Allocatable id) :
    dynamicProcField id = 0 ∧ isLocalcommField id = 0 ∧ subcommField id = 0 := by
  obtain ⟨k, hk, rfl⟩ := hid
  simp only [dynamicProcField, isLocalcommField, subcommField, Nat.shiftRight_eq_div_pow, Nat.shiftLeft_eq]
  omega

theorem freeContextid_spec {m : ContextMask} {id : Nat} (hid : Allocatable id) (hused : hasBit m id = false) :
    ∃ m', freeContextid m id = some m' ∧
      ∀ x, hasBit m' x = (hasBit m x || decide (prefixField x = prefixField id)) := by
  have hidx : ¬ maxContextMask ≤ prefixField id / 32 := by
    have hlt : prefixField id < 2 ^ 11 := Nat.mod_lt _ (by decide)
    unfold maxContextMask
    omega
  have hsuffix := hid.suffix
  refine ⟨_, by simp [freeContextid, hidx, hsuffix, hused]; rfl, ?_⟩
  intro x
  unfold hasBit
  by_cases hx : prefixField x / 32 = prefixField id / 32
  · rw [hx, Function.update_self, getLsbD_set _ (Nat.mod_lt _ (by decide))]
    congr 1
    rw [decide_eq_decide]
    constructor
    · intro heq
      omega
    · intro heq
      rw [heq]
  · rw [Function.update_of_ne hx]
    have hne : prefixField x ≠ prefixField id := fun he => hx (by rw [he])
    simp [hne]

end FgMpi.ContextId.Mask
