import FgMpi.ContextId.Agreement

namespace FgMpi.ContextId.Reductions
open ContextId.Mask ContextId.Allocation

theorem locateContextBit_ne_zero {m : ContextMask} (hzero : hasBit m 0 = false) :
    locateContextBit m ≠ 0 ↔ ∃ id, Allocatable id ∧ hasBit m id = true := by
  constructor
  · intro h
    exact ⟨_, (locateContextBit_spec h).1, (locateContextBit_spec h).2.1⟩
  · intro h
    obtain ⟨id, ⟨k, hk, rfl⟩, hbit⟩ := h
    have hword : m (k / 32) ≠ 0 := by
      intro hnone
      rw [hasBit, prefixField_shiftLeft hk, hnone] at hbit
      simp at hbit
    unfold locateContextBit
    cases hfind : (List.range maxContextMask).find? (fun i => m i != 0) with
    | none =>
      have hrange : k / 32 ∈ List.range maxContextMask := by
        rw [List.mem_range, maxContextMask]
        omega
      have hno := List.find?_eq_none.mp hfind _ hrange
      exact absurd (bne_iff_ne.mpr hword) hno
    | some i =>
      have hne : m i ≠ 0 := by simpa using List.find?_some hfind
      obtain ⟨hhigh, hlt⟩ := getLsbD_highestBit hne
      show (32 * i + highestBit (m i)) <<< 4 ≠ 0
      intro hshift
      rw [Nat.shiftLeft_eq] at hshift
      have hi : i = 0 := by omega
      have hb : highestBit (m i) = 0 := by omega
      rw [hb, hi] at hhigh
      have hbit0 : hasBit m 0 = true := hhigh
      rw [hzero] at hbit0
      cases hbit0

theorem getLsbD_foldr_and_iff {vs : List (BitVec 32)} {i : Nat} (hi : i < 32) :
    (vs.foldr (· &&& ·) (BitVec.allOnes 32)).getLsbD i = true ↔ ∀ v ∈ vs, v.getLsbD i = true := by
  induction vs with
  | nil =>
    rw [List.foldr_nil, BitVec.getLsbD_allOnes]
    simp [hi]
  | cons v vs ih =>
    rw [List.foldr_cons, BitVec.getLsbD_and, Bool.and_eq_true, ih, List.forall_mem_cons]

theorem getLsbD_allOnes_mod (n : Nat) : (BitVec.allOnes 32).getLsbD (n % 32) = true := by
  rw [BitVec.getLsbD_allOnes, decide_eq_true_iff]
  exact Nat.mod_lt _ (by decide)

section Reductions
variable (cfg : Config) (a : AllocId) (w₀ : World)

def first (p : Proc) : Contribution :=
  if cfg.ignores p a then (fun _ => BitVec.allOnes 32, true)
  else (fun i => if i < cfg.eagerNelem then (w₀ p).mask i else 0, false)

def second (p : Proc) : Contribution :=
  if cfg.ignores p a then (fun _ => BitVec.allOnes 32, true)
  else (fun i => if i < cfg.eagerNelem then 0 else (w₀ p).mask i, true)

def reduce (c : Proc → Contribution) : Contribution :=
  (fun i => ((cfg.alloc a).members.map fun q => (c q).1 i).foldr (· &&& ·) (BitVec.allOnes 32),
    (cfg.alloc a).members.all fun q => (c q).2)

def firstId : Nat := locateContextBit (reduce cfg a (first cfg a w₀)).1

def secondId : Nat := locateContextBit (reduce cfg a (second cfg a w₀)).1

def Available : Prop :=
  (∀ p ∈ (cfg.alloc a).members, cfg.ignores p a = true) ∨
    ∃ id, Allocatable id ∧
      ∀ p ∈ (cfg.alloc a).members, cfg.ignores p a = false → hasBit (w₀ p).mask id = true

/-- A process without pending allocations; the id 0 is that of `MPI_COMM_WORLD`. -/
structure Ready (l : Local) : Prop where
  eagerInUse : l.eagerInUse = false
  maskInUse : l.maskInUse = false
  nextGcn : l.nextGcn = []
  world : hasBit l.mask 0 = false

def Quiet : Prop :=
  ∀ p ∈ (cfg.alloc a).members, Ready (w₀ p) ∧ (w₀ p).gcn a = {} ∧ (w₀ p).sent a = fun _ => none

variable {cfg a w₀} {w : World} {p : Proc} {id : Nat}

theorem hasBit_reduce {c : Proc → Contribution} : hasBit (reduce cfg a c).1 id = true ↔
    ∀ q ∈ (cfg.alloc a).members, hasBit (c q).1 id = true := by
  rw [hasBit, reduce, getLsbD_foldr_and_iff (Nat.mod_lt _ (by decide)), List.forall_mem_map]
  rfl

theorem hasBit_first : hasBit (first cfg a w₀ p).1 id = true ↔ (cfg.ignores p a = false →
    prefixField id / 32 < cfg.eagerNelem ∧ hasBit (w₀ p).mask id = true) := by
  unfold first hasBit
  cases cfg.ignores p a with
  | true => exact iff_of_true (getLsbD_allOnes_mod _) fun h => nomatch h
  | false =>
    by_cases hword : prefixField id / 32 < cfg.eagerNelem
    · simp [hword]
    · simp [hword]

theorem hasBit_second : hasBit (second cfg a w₀ p).1 id = true ↔ (cfg.ignores p a = false →
    cfg.eagerNelem ≤ prefixField id / 32 ∧ hasBit (w₀ p).mask id = true) := by
  unfold second hasBit
  cases cfg.ignores p a with
  | true => exact iff_of_true (getLsbD_allOnes_mod _) fun h => nomatch h
  | false =>
    by_cases hword : prefixField id / 32 < cfg.eagerNelem
    · simp [hword]
    · simp [hword, Nat.not_lt.mp hword]

theorem hasBit_zero {c : Proc → Contribution} (hp : p ∈ (cfg.alloc a).members) (hready : Ready (w₀ p))
    (hign : cfg.ignores p a = false)
    (hc : hasBit (c p).1 0 = true → cfg.ignores p a = false → hasBit (w₀ p).mask 0 = true) :
    hasBit (reduce cfg a c).1 0 = false := by
  cases hbit : hasBit (reduce cfg a c).1 0 with
  | false => rfl
  | true =>
    have hmask := hc (hasBit_reduce.mp hbit p hp) hign
    rw [hready.world] at hmask
    exact nomatch hmask

theorem firstId_of_ignored (hall : ∀ p ∈ (cfg.alloc a).members, cfg.ignores p a = true) :
    firstId cfg a w₀ ≠ 0 := by
  have hones : (reduce cfg a (first cfg a w₀)).1 = fun _ => BitVec.allOnes 32 := by
    funext i
    apply BitVec.eq_of_getLsbD_eq
    intro j hj
    rw [BitVec.getLsbD_allOnes, decide_eq_true hj]
    apply (getLsbD_foldr_and_iff hj).mpr
    intro v hv
    obtain ⟨q, hq, rfl⟩ := List.mem_map.mp hv
    rw [first, if_pos (hall q hq), BitVec.getLsbD_allOnes, decide_eq_true hj]
  rw [firstId, hones]
  decide

theorem firstId_of_flag (hflag : (reduce cfg a (first cfg a w₀)).2 = true) : firstId cfg a w₀ ≠ 0 := by
  apply firstId_of_ignored
  intro q hq
  have hown := List.all_eq_true.mp hflag q hq
  unfold first at hown
  split at hown
  · assumption
  · exact nomatch hown

theorem available_iff (hquiet : Quiet cfg a w₀) :
    firstId cfg a w₀ ≠ 0 ∨ secondId cfg a w₀ ≠ 0 ↔ Available cfg a w₀ := by
  by_cases hall : ∀ p ∈ (cfg.alloc a).members, cfg.ignores p a = true
  · exact ⟨fun _ => .inl hall, fun _ => .inl (firstId_of_ignored hall)⟩
  · obtain ⟨p, hp, hne⟩ : ∃ p ∈ (cfg.alloc a).members, ¬ cfg.ignores p a = true := by
      by_contra hno
      exact hall fun p hp => by_contra fun hne => hno ⟨p, hp, hne⟩
    have hign := Bool.eq_false_of_not_eq_true hne
    have hready := (hquiet p hp).1
    rw [firstId, secondId, locateContextBit_ne_zero (hasBit_zero hp hready hign fun h hi => (hasBit_first.mp h hi).2),
      locateContextBit_ne_zero (hasBit_zero hp hready hign fun h hi => (hasBit_second.mp h hi).2)]
    constructor
    · intro h
      rcases h with ⟨id, hid, hbit⟩ | ⟨id, hid, hbit⟩
      · exact .inr ⟨id, hid, fun q hq hi => (hasBit_first.mp (hasBit_reduce.mp hbit q hq) hi).2⟩
      · exact .inr ⟨id, hid, fun q hq hi => (hasBit_second.mp (hasBit_reduce.mp hbit q hq) hi).2⟩
    · intro h
      rcases h with hall | ⟨id, hid, hbit⟩
      · exact absurd (hall p hp) hne
      · by_cases hword : prefixField id / 32 < cfg.eagerNelem
        · exact .inl ⟨id, hid, hasBit_reduce.mpr fun q hq => hasBit_first.mpr fun hi => ⟨hword, hbit q hq hi⟩⟩
        · exact .inr ⟨id, hid, hasBit_reduce.mpr fun q hq =>
            hasBit_second.mpr fun hi => ⟨Nat.not_lt.mp hword, hbit q hq hi⟩⟩

theorem firstId_eq_zero (hp : p ∈ (cfg.alloc a).members) (hready : Ready (w₀ p))
    (hign : cfg.ignores p a = false) (heager : ¬ 0 < cfg.eagerNelem) : firstId cfg a w₀ = 0 := by
  by_contra hne
  rw [← ne_eq, firstId,
    locateContextBit_ne_zero (hasBit_zero hp hready hign fun h hi => (hasBit_first.mp h hi).2)] at hne
  obtain ⟨id, -, hbit⟩ := hne
  have hword := (hasBit_first.mp (hasBit_reduce.mp hbit p hp) hign).1
  omega

theorem second_flag : (reduce cfg a (second cfg a w₀)).2 = true := by
  apply List.all_eq_true.mpr
  intro q _
  unfold second
  split <;> rfl

end Reductions

end FgMpi.ContextId.Reductions
