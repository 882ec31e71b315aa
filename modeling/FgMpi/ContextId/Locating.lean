import FgMpi.ContextId.Mask

/-! `locate_context_bit` and `allocate_context_bit` against `MPIR_Free_contextid`. -/

namespace FgMpi.ContextId.Mask

/-- No bit of `val` lies above the block found, and those in the block are still there. -/
structure Highest (val : BitVec 32) (n : Nat) (r : BitVec 32 × Nat) : Prop where
  aligned : r.2 % n = 0
  above : ∀ q, val.getLsbD q = true → q / n ≤ r.2 / n
  kept : ∀ q, val.getLsbD q = true → q / n = r.2 / n → r.1.getLsbD q = true

theorem narrow_highest {n : Nat} (hn : 0 < n) {m : BitVec 32}
    (hm : ∀ q < 32, m.getLsbD q = decide (q / n % 2 = 1)) {val : BitVec 32} {r : BitVec 32 × Nat}
    (h : Highest val (n * 2) r) : Highest val n (narrow m n r) := by
  have halign : r.2 % n = 0 ∧ r.2 / n % 2 = 0 := by
    have ha := h.aligned
    rw [Nat.mod_mul] at ha
    have hzero := Nat.eq_zero_of_add_eq_zero ha
    exact ⟨hzero.1, (Nat.mul_eq_zero.mp hzero.2).resolve_left (by omega)⟩
  have habove : ∀ q, val.getLsbD q = true → q / n / 2 ≤ r.2 / n / 2 := by
    intro q hq
    rw [Nat.div_div_eq_div_mul, Nat.div_div_eq_div_mul]
    exact h.above q hq
  have hkept : ∀ q, val.getLsbD q = true → q / n / 2 = r.2 / n / 2 → r.1.getLsbD q = true := by
    intro q hq heq
    rw [Nat.div_div_eq_div_mul, Nat.div_div_eq_div_mul] at heq
    exact h.kept q hq heq
  -- the upper half of the block is what the mask keeps
  have hupper : ∀ q, val.getLsbD q = true → q / n = r.2 / n + 1 → (r.1 &&& m).getLsbD q = true := by
    intro q hq heq
    rw [BitVec.getLsbD_and, hkept q hq (by omega), hm q (BitVec.lt_of_getLsbD hq), Bool.true_and]
    exact decide_eq_true (by omega)
  unfold narrow
  split
  · have hnext : (r.2 + n) / n = r.2 / n + 1 := Nat.add_div_right r.2 hn
    refine ⟨?_, ?_, ?_⟩
    · show (r.2 + n) % n = 0
      rw [Nat.add_mod_right]
      exact halign.1
    · intro q hq
      show q / n ≤ (r.2 + n) / n
      have hle := habove q hq
      omega
    · intro q hq heq
      exact hupper q hq (heq.trans hnext)
  · rename_i hzero
    refine ⟨halign.1, ?_, ?_⟩
    · intro q hq
      have hle := habove q hq
      by_contra hgt
      have hbit := hupper q hq (by omega)
      rw [not_not.mp hzero] at hbit
      simp at hbit
    · intro q hq heq
      exact hkept q hq (by omega)

theorem le_highestBit {val : BitVec 32} {q : Nat} (hq : val.getLsbD q = true) : q ≤ highestBit val := by
  have h0 : Highest val 32 (val, 0) := by
    refine ⟨rfl, ?_, fun q hq _ => hq⟩
    intro q hq
    rw [Nat.div_eq_of_lt (BitVec.lt_of_getLsbD hq)]
    exact Nat.zero_le _
  have h5 := narrow_highest (n := 1) (by decide) (m := 0xAAAAAAAA) (by decide)
    (narrow_highest (n := 2) (by decide) (m := 0xCCCCCCCC) (by decide)
      (narrow_highest (n := 4) (by decide) (m := 0xF0F0F0F0) (by decide)
        (narrow_highest (n := 8) (by decide) (m := 0xFF00FF00) (by decide)
          (narrow_highest (n := 16) (by decide) (m := 0xFFFF0000) (by decide) h0))))
  have hle := h5.above q hq
  rwa [Nat.div_one, Nat.div_one] at hle

theorem locateContextBit_first {m : ContextMask} {i : Nat} (hi : i < maxContextMask) (hword : m i ≠ 0)
    (hfirst : ∀ k < i, m k = 0) : locateContextBit m = (32 * i + highestBit (m i)) <<< 4 := by
  have hfind : (List.range maxContextMask).find? (fun k => m k != 0) = some i := by
    rw [List.find?_range_eq_some]
    refine ⟨by simpa using hword, List.mem_range.mpr hi, ?_⟩
    intro k hk
    simpa using hfirst k hk
  unfold locateContextBit
  rw [hfind]

theorem locateContextBit_empty {m : ContextMask} (h : ∀ i < maxContextMask, m i = 0) :
    locateContextBit m = 0 := by
  have hfind : (List.range maxContextMask).find? (fun k => m k != 0) = none := by
    rw [List.find?_eq_none]
    intro k hk
    simpa using h k (List.mem_range.mp hk)
  unfold locateContextBit
  rw [hfind]

theorem locateContextBit_allocatable (m : ContextMask) : Allocatable (locateContextBit m) := by
  by_cases h : locateContextBit m = 0
  · rw [h]
    exact ⟨0, by decide, rfl⟩
  · exact (locateContextBit_spec h).1

theorem set_clear {v : BitVec 32} {b : Nat} (h : v.getLsbD b = true) :
    (v &&& ~~~(1#32 <<< b)) ||| (1#32 <<< b) = v := by
  apply BitVec.eq_of_getLsbD_eq
  intro c hc
  rw [getLsbD_set _ hc, getLsbD_clear _ hc]
  by_cases hcb : c = b
  · rw [hcb, h]
    simp
  · simp [hcb]

theorem prefixField_range (id : Nat) : ¬ maxContextMask ≤ prefixField id / 32 := by
  have hlt : prefixField id < 2 ^ 11 := Nat.mod_lt _ (by decide)
  unfold maxContextMask
  omega

theorem Allocatable.fields {id suffix : Nat} (hid : Allocatable id) (hsuffix : suffix < 2) :
    prefixField (id + suffix) = prefixField id ∧ dynamicProcField (id + suffix) = 0 ∧
      isLocalcommField (id + suffix) = 0 ∧ subcommField (id + suffix) = 0 := by
  obtain ⟨k, hk, rfl⟩ := hid
  simp only [prefixField, dynamicProcField, isLocalcommField, subcommField, Nat.shiftRight_eq_div_pow,
    Nat.shiftLeft_eq]
  omega

theorem freeContextid_allocate {mask mask' : ContextMask} {id suffix : Nat} (hid : Allocatable id)
    (hsuffix : suffix < 2) (h : allocateContextBit mask id = some mask') :
    freeContextid mask' (id + suffix) = some mask := by
  obtain ⟨hfield, hdynamic, hlocal, hsub⟩ := hid.fields hsuffix
  have hused : hasBit mask' (id + suffix) = false := by
    rw [hasBit_allocate h, hfield]
    simp
  have hset : hasBit mask id = true := by
    by_contra hclear
    rw [allocateContextBit, if_neg hclear] at h
    cases h
  rw [allocateContextBit, if_pos hset, Option.some.injEq] at h
  unfold freeContextid
  rw [hused, hfield, hdynamic, hlocal, hsub]
  simp only [prefixField_range, ne_eq, not_true_eq_false, if_false, Bool.false_eq_true]
  rw [← h, Function.update_self, set_clear hset, Function.update_idem, Function.update_eq_self]

theorem freeContextid_sub {mask : ContextMask} {id : Nat}
    (h : subcommField id ≠ 0 ∨ isLocalcommField id ≠ 0) : freeContextid mask id = some mask := by
  unfold freeContextid
  dsimp only
  rw [if_neg (prefixField_range id)]
  split
  · rfl
  · split
    · rfl
    · rename_i hlocal
      rw [if_pos (h.resolve_right hlocal)]

/-- What is found in a mask can be taken from every mask that has it, and comes back with the id. -/
theorem locateContextBit_inverse (localMask : ContextMask) :
    (∀ i < maxContextMask, localMask i ≠ 0 → (∀ k < i, localMask k = 0) →
      ∃ j < 32, (localMask i).getLsbD j = true ∧ (∀ q, (localMask i).getLsbD q = true → q ≤ j) ∧
        locateContextBit localMask = (32 * i + j) <<< 4 ∧ hasBit localMask (locateContextBit localMask) = true ∧
        prefixField (locateContextBit localMask) / 32 = i ∧
        prefixField (locateContextBit localMask) % 32 = j) ∧
    ((∀ i < maxContextMask, localMask i = 0) → locateContextBit localMask = 0) ∧
    (∀ mask : ContextMask, hasBit mask (locateContextBit localMask) = true → ∃ mask',
      allocateContextBit mask (locateContextBit localMask) = some mask' ∧
        ∀ suffix < 2, freeContextid mask' (locateContextBit localMask + suffix) = some mask) ∧
    ∀ (mask : ContextMask) (id : Nat), subcommField id ≠ 0 ∨ isLocalcommField id ≠ 0 →
      freeContextid mask id = some mask := by
  refine ⟨?_, locateContextBit_empty, ?_, fun mask id => freeContextid_sub⟩
  · intro i hi hword hfirst
    obtain ⟨hbit, hlt⟩ := getLsbD_highestBit hword
    have hid := locateContextBit_first hi hword hfirst
    have hfield : prefixField (locateContextBit localMask) = 32 * i + highestBit (localMask i) := by
      rw [hid]
      refine prefixField_shiftLeft ?_
      unfold maxContextMask at hi
      omega
    have hdiv : prefixField (locateContextBit localMask) / 32 = i := by omega
    have hmod : prefixField (locateContextBit localMask) % 32 = highestBit (localMask i) := by omega
    refine ⟨_, hlt, hbit, fun q => le_highestBit, hid, ?_, hdiv, hmod⟩
    rw [hasBit, hdiv, hmod]
    exact hbit
  · intro mask hset
    refine ⟨_, if_pos hset, ?_⟩
    intro suffix hsuffix
    exact freeContextid_allocate (locateContextBit_allocatable localMask) hsuffix (if_pos hset)

end FgMpi.ContextId.Mask
