import FgMpi.Topo.Choosing

/-! When `MPIR_Dims_create` gives a grid of `nnodes` nodes. -/

namespace FgMpi.Topo.Dims
open Machine.Ints Topo.DimsCreate Topo.Factor Topo.Choosing

def blanks : List Int → List Int → List Int
  | d :: dims, e :: dims' => if d = 0 then e :: blanks dims dims' else blanks dims dims'
  | _, _ => []

def fixedProduct (dims : List Int) : Int := (dims.filter (· ≠ 0)).prod

/-- A grid of `nnodes` nodes in which only the entries that are 0 have been set. -/
structure Grid (nnodes : Int) (dims dims' : List Int) : Prop where
  kept : List.Forall₂ (fun d e => d ≠ 0 → e = d) dims dims'
  product : dims'.prod = nnodes
  positive : ∀ e ∈ blanks dims dims', 0 < e
  sorted : (blanks dims dims').Pairwise (· ≥ ·)

def Correct (nnodes : Int) (dims : List Int) (r : Code × List Int) : Prop :=
  (r.1 = .success → Grid nnodes dims r.2) ∧ (r.1 ≠ .success → r.2 = dims)

section Filling
variable {dims chosen : List Int}

theorem fixedProduct_cons (d : Int) (dims : List Int) :
    fixedProduct (d :: dims) = (if d = 0 then 1 else d) * fixedProduct dims := by
  unfold fixedProduct
  by_cases hd : d = 0
  · rw [List.filter_cons_of_neg (by simpa using hd), if_pos hd, one_mul]
  · rw [List.filter_cons_of_pos (by simpa using hd), if_neg hd, List.prod_cons]

theorem fill_spec (hlen : chosen.length = dims.count 0) :
    blanks dims (fill dims chosen) = chosen ∧ (fill dims chosen).prod = fixedProduct dims * chosen.prod ∧
      List.Forall₂ (fun d e => d ≠ 0 → e = d) dims (fill dims chosen) := by
  induction dims generalizing chosen with
  | nil =>
    rw [List.count_nil] at hlen
    rw [List.length_eq_zero_iff.mp hlen]
    exact ⟨rfl, rfl, .nil⟩
  | cons d dims ih =>
    rw [fixedProduct_cons]
    by_cases hd : d = 0
    · subst hd
      rw [List.count_cons_self] at hlen
      cases chosen with
      | nil => cases hlen
      | cons c chosen =>
        obtain ⟨hblanks, hprod, hkept⟩ := ih (Nat.succ.inj hlen)
        refine ⟨congrArg (c :: ·) hblanks, ?_, .cons (fun h => absurd rfl h) hkept⟩
        show (c :: fill dims chosen).prod = _
        rw [List.prod_cons, List.prod_cons, hprod, if_pos rfl]
        ring
    · rw [List.count_cons_of_ne hd] at hlen
      obtain ⟨hblanks, hprod, hkept⟩ := ih hlen
      have hfill : fill (d :: dims) chosen = d :: fill dims chosen := by
        cases chosen with
        | nil => rfl
        | cons c chosen => exact if_neg hd
      rw [hfill]
      refine ⟨(if_neg hd).trans hblanks, ?_, .cons (fun _ => rfl) hkept⟩
      rw [List.prod_cons, hprod, if_neg hd, mul_assoc]

theorem grid_fill {nnodes : Int} (hlen : chosen.length = dims.count 0)
    (hprod : fixedProduct dims * chosen.prod = nnodes) (hpos : ∀ x ∈ chosen, 0 < x)
    (hsorted : chosen.Pairwise (· ≥ ·)) : Grid nnodes dims (fill dims chosen) := by
  obtain ⟨hblanks, hfill, hkept⟩ := fill_spec hlen
  exact ⟨hkept, hfill.trans hprod, by rw [hblanks]; exact hpos, by rw [hblanks]; exact hsorted⟩

end Filling

def marked (f : Int) (k : Nat) : Nat → List Int → List Int
  | _, [] => []
  | i, d :: dims => (if d = 0 then -f ^ (if 0 < i then k + 1 else k) else d) :: marked f k (i - 1) dims

section Marking
variable {f : Int} {k i : Nat} {dims : List Int}

theorem length_marked : (marked f k i dims).length = dims.length := by
  induction dims generalizing i with
  | nil => rfl
  | cons d dims ih => exact congrArg Nat.succ ih

theorem marked_get (hi : i < dims.length) :
    (marked f k i dims).getD i 0 = if dims.getD i 0 = 0 then -f ^ k else dims.getD i 0 := by
  induction dims generalizing i with
  | nil => exact absurd hi (Nat.not_lt_zero i)
  | cons d dims ih =>
    cases i with
    | zero => rfl
    | succ i => exact ih (Nat.lt_of_succ_lt_succ hi)

theorem marked_set (hi : i < dims.length) (hd : dims.getD i 0 = 0) :
    (marked f k i dims).set i (-f ^ (k + 1)) = marked f k (i + 1) dims := by
  induction dims generalizing i with
  | nil => exact absurd hi (Nat.not_lt_zero i)
  | cons d dims ih =>
    cases i with
    | zero =>
      have hzero : d = 0 := hd
      simp [marked, hzero]
    | succ i =>
      show _ :: (marked f k i dims).set i (-f ^ (k + 1)) = _
      rw [ih (Nat.lt_of_succ_lt_succ hi) hd]
      rfl

theorem marked_skip (hi : i < dims.length) (hd : dims.getD i 0 ≠ 0) :
    marked f k (i + 1) dims = marked f k i dims := by
  induction dims generalizing i with
  | nil => exact absurd hi (Nat.not_lt_zero i)
  | cons d dims ih =>
    cases i with
    | zero =>
      have hne : d ≠ 0 := hd
      simp [marked, hne]
    | succ i =>
      show _ :: marked f k (i + 1) dims = _ :: marked f k i dims
      rw [ih (Nat.lt_of_succ_lt_succ hi) hd]
      rfl

theorem marked_wrap (hi : dims.length ≤ i) : marked f k i dims = marked f (k + 1) 0 dims := by
  induction dims generalizing i with
  | nil => rfl
  | cons d dims ih =>
    rw [List.length_cons] at hi
    have hpos : 0 < i := by omega
    simp only [marked, if_pos hpos, Nat.lt_irrefl, if_false, Nat.zero_sub]
    rw [ih (by omega)]

def given (k i : Nat) (dims : List Int) : Nat := k * dims.count 0 + (dims.take i).count 0

theorem given_wrap (hi : dims.length ≤ i) : given k i dims = given (k + 1) 0 dims := by
  unfold given
  rw [List.take_of_length_le hi, List.take_zero, List.count_nil, Nat.succ_mul]
  rfl

theorem given_step (hi : i < dims.length) :
    given k (i + 1) dims = given k i dims + (if dims.getD i 0 = 0 then 1 else 0) := by
  unfold given
  rw [List.take_succ_eq_append_getElem hi, List.count_append, List.getD_eq_getElem _ _ hi,
    List.count_singleton, Nat.add_assoc]
  simp only [beq_iff_eq]

theorem marked_next (hi : i < dims.length) {next : Nat}
    (hnext : next = if dims.length ≤ i + 1 then 0 else i + 1) :
    ∃ k', marked f k (i + 1) dims = marked f k' next dims ∧
      given k (i + 1) dims = given k' next dims ∧ next < dims.length := by
  by_cases hlast : dims.length ≤ i + 1
  · rw [if_pos hlast] at hnext
    rw [hnext]
    exact ⟨k + 1, marked_wrap hlast, given_wrap hlast, by omega⟩
  · rw [if_neg hlast] at hnext
    rw [hnext]
    exact ⟨k, rfl, rfl, by omega⟩

section Loop
variable {fuel cnt total : Nat}

theorem powerLoop_step (fuel : Nat) (hf : 0 < f) (hdims : ∀ d ∈ dims, 0 ≤ d) (hi : i < dims.length)
    (htotal : given k i dims + cnt = total) (hlt : f ^ total < 2 ^ 31) (hcnt : cnt ≠ 0) :
    ∃ k', powerLoop f (fuel + 1) cnt i (marked f k i dims) =
        powerLoop f fuel (if dims.getD i 0 = 0 then cnt - 1 else cnt)
          (if dims.length ≤ i + 1 then 0 else i + 1)
          (marked f k' (if dims.length ≤ i + 1 then 0 else i + 1) dims) ∧
      given k' (if dims.length ≤ i + 1 then 0 else i + 1) dims +
        (if dims.getD i 0 = 0 then cnt - 1 else cnt) = total := by
  obtain ⟨k', hmarked, hgiven, -⟩ := marked_next (f := f) (k := k) hi rfl
  have hstep := given_step (k := k) hi
  refine ⟨k', ?_, ?_⟩
  · rw [← hmarked]
    conv => lhs; unfold powerLoop
    rw [if_neg hcnt, length_marked, marked_get hi]
    dsimp only
    by_cases hd : dims.getD i 0 = 0
    · have hmem : (0 : Int) ∈ dims := by
        rw [← hd, List.getD_eq_getElem _ _ hi]
        exact List.getElem_mem hi
      have hcount : 0 < dims.count 0 := List.count_pos_iff.mpr hmem
      have hk : k + 1 ≤ total := by
        have hle : k ≤ given k i dims := Nat.le_trans (Nat.le_mul_of_pos_right k hcount) (Nat.le_add_right _ _)
        omega
      have hpow : 0 < f ^ k := Int.pow_pos hf
      have hle : f ^ (k + 1) ≤ f ^ total := pow_le_pow_right₀ (by omega) hk
      have hpow' : 0 < f ^ (k + 1) := Int.pow_pos hf
      have hmul : -f ^ k * f = -f ^ (k + 1) := by ring
      rw [if_pos hd, if_pos (by omega), if_pos hd, intMul, toInt_eq (by omega) (by omega), hmul,
        marked_set hi hd]
    · have hnonneg : 0 ≤ dims.getD i 0 := by
        rw [List.getD_eq_getElem _ _ hi]
        exact hdims _ (List.getElem_mem hi)
      rw [if_neg hd, if_neg (by omega), if_neg hd, marked_skip hi hd]
  · rw [← hgiven, hstep]
    split <;> omega

theorem powerLoop_ok (hf : 0 < f) (hdims : ∀ d ∈ dims, 0 ≤ d) (hi : i < dims.length)
    (htotal : given k i dims + cnt = total) (hlt : f ^ total < 2 ^ 31) {res : List Int}
    (h : powerLoop f fuel cnt i (marked f k i dims) = .ok res) :
    ∃ k' i', res = marked f k' i' dims ∧ given k' i' dims = total := by
  induction fuel generalizing cnt i k with
  | zero => cases h
  | succ fuel ih =>
    by_cases hcnt : cnt = 0
    · subst hcnt
      cases h
      exact ⟨k, i, rfl, htotal⟩
    · obtain ⟨k', hstep, hgiven⟩ := powerLoop_step fuel hf hdims hi htotal hlt hcnt
      rw [hstep] at h
      exact ih (by split <;> omega) hgiven h

theorem powerLoop_error {L : List Int} {e : Stop} (h : powerLoop f fuel cnt i L = .error e) : e = .fuel := by
  induction fuel generalizing cnt i L with
  | zero => exact (Except.error.inj h).symm
  | succ fuel ih =>
    unfold powerLoop at h
    split at h
    · cases h
    · dsimp only at h
      split at h
      · exact ih h
      · exact ih h

theorem powerLoop_total (fuel : Nat) (hf : 0 < f) (hdims : ∀ d ∈ dims, 0 ≤ d) (hi : i < dims.length)
    (htotal : given k i dims + cnt = total) (hlt : f ^ total < 2 ^ 31) {j : Nat} (hj : j < dims.length)
    (hblank : dims.getD ((i + j) % dims.length) 0 = 0) (hfuel : cnt * dims.length + j < fuel) :
    ∃ res, powerLoop f fuel cnt i (marked f k i dims) = .ok res := by
  induction fuel generalizing cnt i k j with
  | zero => exact absurd hfuel (Nat.not_lt_zero _)
  | succ fuel ih =>
    by_cases hcnt : cnt = 0
    · subst hcnt
      exact ⟨_, rfl⟩
    · obtain ⟨k', hstep, hgiven⟩ := powerLoop_step fuel hf hdims hi htotal hlt hcnt
      rw [hstep]
      have hmod : (if dims.length ≤ i + 1 then 0 else i + 1) = (i + 1) % dims.length := by
        split
        · have hlast : i + 1 = dims.length := by omega
          rw [hlast, Nat.mod_self]
        · rw [Nat.mod_eq_of_lt (by omega)]
      by_cases hd : dims.getD i 0 = 0
      · refine ih (j := dims.length - 1) (by split <;> omega) hgiven (by omega) ?_ ?_
        · rw [hmod, Nat.mod_add_mod, show i + 1 + (dims.length - 1) = i + dims.length by omega,
            Nat.add_mod_right, Nat.mod_eq_of_lt hi]
          exact hd
        · rw [if_pos hd]
          have hmul : (cnt - 1) * dims.length + dims.length = cnt * dims.length := by
            rw [← Nat.succ_mul]
            congr 1
            omega
          omega
      · have hjpos : j ≠ 0 := by
          rintro rfl
          rw [Nat.add_zero, Nat.mod_eq_of_lt hi] at hblank
          exact hd hblank
        refine ih (j := j - 1) (by split <;> omega) hgiven (by omega) ?_ ?_
        · rw [hmod, Nat.mod_add_mod, show i + 1 + (j - 1) = i + j by omega]
          exact hblank
        · rw [if_neg hd]
          omega

end Loop

def unmark (dims : List Int) : List Int := dims.map fun d => if d < 0 then -d else d

theorem marked_start : marked f 0 0 dims = dims.map fun d => if d = 0 then -1 else d := by
  induction dims with
  | nil => rfl
  | cons d dims ih =>
    show (if d = 0 then -f ^ 0 else d) :: marked f 0 0 dims = _
    rw [ih, pow_zero]
    rfl

theorem unmark_cons (hf : 0 < f) (d : Int) (hd : 0 ≤ d) :
    unmark (marked f k i (d :: dims)) =
      (if d = 0 then f ^ (if 0 < i then k + 1 else k) else d) :: unmark (marked f k (i - 1) dims) := by
  have hpow : 0 < f ^ (if 0 < i then k + 1 else k) := Int.pow_pos hf
  unfold unmark
  show (if _ < 0 then _ else _) :: _ = _
  congr 1
  by_cases hzero : d = 0
  · rw [if_pos hzero, if_pos (by omega), if_pos hzero, neg_neg]
  · rw [if_neg hzero, if_neg (by omega), if_neg hzero]

section
variable (hf : 0 < f) (hdims : ∀ d ∈ dims, 0 ≤ d)
include hf hdims

theorem blanks_unmark :
    (∀ e ∈ blanks dims (unmark (marked f k i dims)), 0 < e ∧ e ≤ f ^ (k + 1) ∧ (i = 0 → e = f ^ k)) ∧
      (blanks dims (unmark (marked f k i dims))).Pairwise (· ≥ ·) := by
  have hle : f ^ k ≤ f ^ (k + 1) := pow_le_pow_right₀ (by omega) (Nat.le_succ k)
  have hpos : 0 < f ^ k := Int.pow_pos hf
  induction dims generalizing i with
  | nil => exact ⟨fun e he => absurd he List.not_mem_nil, .nil⟩
  | cons d dims ih =>
    obtain ⟨hrest, hsorted⟩ := ih (i := i - 1) fun e he => hdims e (List.mem_cons_of_mem d he)
    rw [unmark_cons hf d (hdims d List.mem_cons_self)]
    unfold blanks
    by_cases hd : d = 0
    · rw [if_pos hd, if_pos hd]
      constructor
      · intro e he
        rcases List.mem_cons.mp he with rfl | he
        · split
          · exact ⟨by omega, Int.le_refl _, fun hi => by omega⟩
          · exact ⟨hpos, hle, fun _ => rfl⟩
        · obtain ⟨hepos, hele, heq⟩ := hrest e he
          exact ⟨hepos, hele, fun hi => heq (by omega)⟩
      · refine List.pairwise_cons.mpr ⟨fun e he => ?_, hsorted⟩
        obtain ⟨-, hele, heq⟩ := hrest e he
        split
        · exact hele
        · rw [heq (by omega)]
    · rw [if_neg hd]
      refine ⟨fun e he => ?_, hsorted⟩
      obtain ⟨hepos, hele, heq⟩ := hrest e he
      exact ⟨hepos, hele, fun hi => heq (by omega)⟩

theorem prod_unmark : (unmark (marked f k i dims)).prod = fixedProduct dims * f ^ given k i dims := by
  induction dims generalizing i with
  | nil => simp [marked, unmark, fixedProduct, given]
  | cons d dims ih =>
    have hrest := ih (i := i - 1) fun e he => hdims e (List.mem_cons_of_mem d he)
    rw [unmark_cons hf d (hdims d List.mem_cons_self), List.prod_cons, hrest, fixedProduct_cons]
    by_cases hd : d = 0
    · subst hd
      have hgiven : given k i (0 :: dims) = given k (i - 1) dims + (if 0 < i then k + 1 else k) := by
        unfold given
        rw [List.count_cons_self, Nat.mul_succ]
        cases i with
        | zero =>
          rw [if_neg (Nat.lt_irrefl 0), List.take_zero, List.take_zero]
          omega
        | succ i =>
          rw [if_pos (Nat.succ_pos i), List.take_succ_cons, List.count_cons_self, Nat.succ_sub_one]
          omega
      rw [hgiven, if_pos rfl, if_pos rfl, pow_add]
      ring
    · have hgiven : given k i (d :: dims) = given k (i - 1) dims := by
        unfold given
        rw [List.count_cons_of_ne hd]
        cases i with
        | zero => rfl
        | succ i => rw [List.take_succ_cons, List.count_cons_of_ne hd, Nat.succ_sub_one]
      rw [hgiven, if_neg hd, if_neg hd]
      ring

theorem kept_unmark : List.Forall₂ (fun d e => d ≠ 0 → e = d) dims (unmark (marked f k i dims)) := by
  induction dims generalizing i with
  | nil => exact .nil
  | cons d dims ih =>
    rw [unmark_cons hf d (hdims d List.mem_cons_self)]
    exact .cons (fun hd => if_neg hd) (ih fun e he => hdims e (List.mem_cons_of_mem d he))

theorem grid_unmark : Grid (fixedProduct dims * f ^ given k i dims) dims (unmark (marked f k i dims)) where
  kept := kept_unmark hf hdims
  product := prod_unmark hf hdims
  positive e he := ((blanks_unmark hf hdims).1 e he).1
  sorted := (blanks_unmark hf hdims).2

end

theorem fillPowers_grid (fuel : Nat) {g : Factors} (hg : 0 < g.val) (hdims : ∀ d ∈ dims, 0 ≤ d)
    (hblank : (0 : Int) ∈ dims) (hlt : g.val ^ g.cnt < 2 ^ 31) :
    (∃ res, fillPowers fuel g dims = .ok res ∧ Grid (fixedProduct dims * (g.val ^ g.cnt : Nat)) dims res) ∨
      (fuel ≤ (g.cnt + 1) * dims.length ∧ fillPowers fuel g dims = .error .fuel) := by
  have hf : (0 : Int) < g.val := Int.natCast_pos.mpr hg
  have hpow : (g.val : Int) ^ g.cnt < 2 ^ 31 := by exact_mod_cast hlt
  have hgiven : given 0 0 dims + g.cnt = g.cnt := by
    unfold given
    rw [Nat.zero_mul, List.take_zero, List.count_nil, Nat.zero_add]
  obtain ⟨j, hj, hget⟩ := List.mem_iff_getElem.mp hblank
  unfold fillPowers
  rw [← marked_start (f := g.val)]
  cases hloop : powerLoop g.val fuel g.cnt 0 (marked g.val 0 0 dims) with
  | ok res =>
    obtain ⟨k, i, rfl, htotal⟩ := powerLoop_ok hf hdims (by omega) hgiven hpow hloop
    have hgrid := grid_unmark (k := k) (i := i) hf hdims
    rw [htotal] at hgrid
    rw [Nat.cast_pow]
    exact .inl ⟨_, rfl, hgrid⟩
  | error e =>
    refine .inr ⟨?_, by rw [powerLoop_error hloop]⟩
    by_contra hlarge
    obtain ⟨res, hres⟩ := powerLoop_total fuel hf hdims (show 0 < dims.length by omega) hgiven
      hpow hj (by rw [Nat.zero_add, Nat.mod_eq_of_lt hj, List.getD_eq_getElem _ _ hj, hget])
      (by rw [Nat.succ_mul] at hlarge; omega)
    rw [hres] at hloop
    cases hloop

end Marking

def product32 (dims : List Int) : Int := toInt (fixedProduct dims)

section Call
variable {dims : List Int} {nnodes : Int}

theorem countLoop_eq (hdims : ∀ d ∈ dims, 0 ≤ d) (i needed : Nat) {p : Int}
    (hp : toInt p = p) : countLoop dims i needed p =
      .ok (needed + dims.count 0, toInt (p * fixedProduct dims)) := by
  induction dims generalizing i needed p with
  | nil =>
    show Except.ok (needed, p) = .ok (needed + 0, toInt (p * 1))
    rw [mul_one, hp, Nat.add_zero]
  | cons d dims ih =>
    have hrest : ∀ e ∈ dims, 0 ≤ e := fun e he => hdims e (List.mem_cons_of_mem d he)
    have hd := hdims d List.mem_cons_self
    unfold countLoop
    rw [if_neg (by omega), fixedProduct_cons]
    by_cases hzero : d = 0
    · subst hzero
      rw [if_pos rfl, if_pos rfl, ih hrest _ _ hp, List.count_cons_self, one_mul, Nat.add_assoc,
        Nat.add_comm 1]
    · rw [if_neg hzero, if_neg hzero, ih hrest _ _ (p := intMul p d) (toInt_toInt _), List.count_cons_of_ne hzero,
        intMul, toInt_mul, mul_assoc]

theorem countLoop_negative {d : Int} (hd : d ∈ dims) (hneg : d < 0) (i needed : Nat) (p : Int) :
    ∃ r, countLoop dims i needed p = .error r := by
  induction dims generalizing i needed p with
  | nil => exact absurd hd List.not_mem_nil
  | cons e dims ih =>
    unfold countLoop
    by_cases he : e < 0
    · rw [if_pos he]
      exact ⟨_, rfl⟩
    · rw [if_neg he]
      have hrest : d ∈ dims := by
        rcases List.mem_cons.mp hd with rfl | hd
        · exact absurd hneg he
        · exact hd
      split
      · exact ih hrest _ _ _
      · exact ih hrest _ _ _

theorem tdiv_mul_exact (h0 : 0 ≤ nnodes) (hlt : nnodes < 2 ^ 31) (w : Int) :
    intMul (nnodes.tdiv w) w = nnodes ↔ w ∣ nnodes := by
  have hmod := Int.mul_tdiv_add_tmod nnodes w
  have hnonneg := Int.tmod_nonneg w h0
  have hle : nnodes.tmod w ≤ nnodes := by
    have habs := Int.natAbs_tmod nnodes w
    have hmodle := Nat.mod_le nnodes.natAbs w.natAbs
    omega
  rw [intMul, toInt_eq (by rw [Int.mul_comm]; omega) (by rw [Int.mul_comm]; omega), Int.mul_comm]
  constructor
  · intro h
    exact ⟨nnodes.tdiv w, h.symm⟩
  · intro h
    exact Int.mul_tdiv_cancel' h

theorem dimsCreate_negative {d : Int} (hd : d ∈ dims) (hneg : d < 0) (fuel : Nat) :
    ∃ r, dimsCreate fuel nnodes dims = .ok r ∧ Correct nnodes dims r := by
  obtain ⟨⟨i, e⟩, hr⟩ := countLoop_negative hd hneg 0 0 1
  unfold dimsCreate
  rw [hr]
  exact ⟨_, rfl, nofun, fun _ => rfl⟩

theorem dimsCreate_eq (h0 : 0 ≤ nnodes) (hlt : nnodes < 2 ^ 31) (hdims : ∀ d ∈ dims, 0 ≤ d)
    (fuel : Nat) : dimsCreate fuel nnodes dims =
      if product32 dims = 0 then .error .divideByZero
      else if ¬ product32 dims ∣ nnodes then .ok (.dimsPartition, dims)
      else if dims.count 0 = 0 then .ok (.success, dims)
      else if maxDims < dims.count 0 then .ok (.dimsMany (dims.count 0), dims)
      else
        match factor fuel (nnodes.tdiv (product32 dims)) with
        | .error e => .error e
        | .ok r =>
          if r.ndivisors.getD 0 ≤ dims.count 0 then
            .ok (.success, fill dims (chooseFactors r.factors (dims.count 0)))
          else
            match r.factors with
            | [f] =>
              match fillPowers fuel f dims with
              | .error e => .error e
              | .ok dims => .ok (.success, dims)
            | factors => .ok (.success, fill dims (chooseFactors factors (dims.count 0))) := by
  unfold dimsCreate
  rw [countLoop_eq hdims 0 0 rfl, Nat.zero_add, one_mul]
  simp only [ne_eq, tdiv_mul_exact h0 hlt]
  rfl

theorem dimsCreate_grid (h0 : 0 < nnodes) (hlt : nnodes < 2 ^ 31) (hdims : ∀ d ∈ dims, 0 ≤ d)
    {m : Nat} (hm : 0 < m) (hprod : nnodes = m * product32 dims) (hpos : 0 < product32 dims)
    (hcount : dims.count 0 ≠ 0) (hmany : dims.count 0 ≤ maxDims) {fuel : Nat}
    (hfuel : (m + 1) * (dims.length + 1) ≤ fuel) :
    ∃ res, dimsCreate fuel nnodes dims = .ok (.success, res) ∧ Grid (fixedProduct dims * m) dims res := by
  have hne : product32 dims ≠ 0 := by omega
  have hquot : nnodes.tdiv (product32 dims) = m := by
    rw [hprod]
    exact Int.mul_tdiv_cancel _ hne
  have hmlt : m < 2 ^ 31 := by
    have hle : (m : Int) ≤ nnodes := by
      rw [hprod]
      nlinarith
    omega
  have hmfuel : m < fuel := by
    have hle : m + 1 ≤ (m + 1) * (dims.length + 1) := Nat.le_mul_of_pos_right _ (Nat.succ_pos _)
    omega
  rw [dimsCreate_eq (Int.le_of_lt h0) hlt hdims, if_neg hne,
    if_neg (not_not.mpr ⟨(m : Int), by rw [hprod, mul_comm]⟩), if_neg hcount, if_neg (by omega), hquot]
  rcases factor_returns fuel hm hmlt with ⟨r, hr, hsplit⟩ | ⟨hle, -⟩
  · rw [hr]
    dsimp only
    have hchoose := chooseFactors_spec (dims.count 0) (by omega) hsplit.positive
      (by rw [hsplit.product]; exact hmlt)
    have hfill : Grid (fixedProduct dims * m) dims
        (fill dims (chooseFactors r.factors (dims.count 0))) := by
      obtain ⟨hlen, hposx, hprodx, hsorted⟩ := hchoose
      refine grid_fill hlen ?_ hposx hsorted
      rw [hprodx, hsplit.product]
    split
    · exact ⟨_, rfl, hfill⟩
    · split
      · next f hfactors =>
        have hproduct := hsplit.product
        rw [hfactors] at hproduct
        have hpow : f.val ^ f.cnt = m := by
          rw [← hproduct]
          simp [product]
        have hcnt : f.cnt ≤ m := hsplit.bounded f (by rw [hfactors]; exact List.mem_singleton_self f)
        have hzero : (0 : Int) ∈ dims := List.count_pos_iff.mp (by omega)
        rcases fillPowers_grid fuel (g := f)
          (hsplit.positive f (by rw [hfactors]; exact List.mem_singleton_self f)) hdims hzero
          (by rw [hpow]; exact hmlt) with ⟨res, hres, hgrid⟩ | ⟨hle, -⟩
        · rw [hres, hpow] at *
          exact ⟨res, rfl, hgrid⟩
        · have hmul : (f.cnt + 1) * dims.length ≤ (m + 1) * dims.length :=
            Nat.mul_le_mul_right _ (Nat.succ_le_succ hcnt)
          have hsucc : (m + 1) * (dims.length + 1) = (m + 1) * dims.length + (m + 1) := Nat.mul_succ _ _
          omega
      · exact ⟨_, rfl, hfill⟩
  · omega

theorem dimsCreate_stuck (h0 : 0 ≤ nnodes) (hlt : nnodes < 2 ^ 31) (hdims : ∀ d ∈ dims, 0 ≤ d)
    (hne : product32 dims ≠ 0) (hdvd : product32 dims ∣ nnodes) (hcount : dims.count 0 ≠ 0)
    (hmany : dims.count 0 ≤ maxDims) (hquot : nnodes.tdiv (product32 dims) ≤ 0) (fuel : Nat) :
    dimsCreate fuel nnodes dims = .error .fuel := by
  rw [dimsCreate_eq h0 hlt hdims, if_neg hne, if_neg (not_not.mpr hdvd), if_neg hcount,
    if_neg (by omega), factor_stuck hquot]

theorem fixedProduct_of_full (hcount : dims.count 0 = 0) : fixedProduct dims = dims.prod := by
  unfold fixedProduct
  rw [List.filter_eq_self.mpr]
  intro d hd
  have hne : d ≠ 0 := fun hzero => List.count_eq_zero.mp hcount (hzero ▸ hd)
  simpa using hne

theorem grid_full (hcount : dims.count 0 = 0) : Grid nnodes dims dims ↔ fixedProduct dims = nnodes := by
  rw [fixedProduct_of_full hcount]
  constructor
  · exact Grid.product
  · intro hprod
    have hblanks : blanks dims dims = [] := by
      clear hprod
      induction dims with
      | nil => rfl
      | cons d dims ih =>
        have hd : d ≠ 0 := fun hzero => List.count_eq_zero.mp hcount (hzero ▸ List.mem_cons_self)
        rw [List.count_cons_of_ne hd] at hcount
        exact (if_neg hd).trans (ih hcount)
    refine ⟨List.forall₂_same.mpr fun _ _ _ => rfl, hprod, ?_, ?_⟩
    · rw [hblanks]
      exact fun e he => absurd he List.not_mem_nil
    · rw [hblanks]
      exact .nil

end Call

/-- The fixed entries have no product of 0 in 32 bits, and where the call sets entries there is a
node at least and the product is right. -/
def Meets (nnodes : Int) (dims : List Int) : Prop :=
  (∃ d ∈ dims, d < 0) ∨
    product32 dims ≠ 0 ∧
      (¬ product32 dims ∣ nnodes ∨ (dims.count 0 = 0 ∧ fixedProduct dims = nnodes) ∨
        (0 < dims.count 0 ∧ (maxDims < dims.count 0 ∨ (0 < nnodes ∧ fixedProduct dims = product32 dims))))

instance (nnodes : Int) (dims : List Int) : Decidable (Meets nnodes dims) :=
  inferInstanceAs (Decidable (_ ∨ _))

section Exact
variable {dims : List Int} {nnodes : Int}

theorem returns_of_meets (h0 : 0 ≤ nnodes) (hlt : nnodes < 2 ^ 31) (h : Meets nnodes dims) :
    Returns (dimsCreate · nnodes dims) (Correct nnodes dims) := by
  by_cases hneg : ∃ d ∈ dims, d < 0
  · obtain ⟨d, hd, hd0⟩ := hneg
    exact ⟨0, fun fuel _ => dimsCreate_negative hd hd0 fuel⟩
  · obtain ⟨hne, hcases⟩ := h.resolve_left hneg
    have hdims : ∀ d ∈ dims, 0 ≤ d := fun d hd => by
      by_contra hlt0
      exact hneg ⟨d, hd, by omega⟩
    have heq := dimsCreate_eq h0 hlt hdims
    by_cases hdvd : product32 dims ∣ nnodes
    · rcases hcases.resolve_left (not_not.mpr hdvd) with ⟨hcount, hprod⟩ | ⟨hcount, hmany | ⟨hpos, hprod⟩⟩
      · refine ⟨0, fun fuel _ => ⟨(.success, dims), ?_, fun _ => (grid_full hcount).mpr hprod, ?_⟩⟩
        · dsimp only
          rw [heq, if_neg hne, if_neg (not_not.mpr hdvd), if_pos hcount]
        · exact fun h => absurd rfl h
      · refine ⟨0, fun fuel _ => ⟨(.dimsMany (dims.count 0), dims), ?_, nofun, fun _ => rfl⟩⟩
        dsimp only
        rw [heq, if_neg hne, if_neg (not_not.mpr hdvd), if_neg (by omega), if_pos hmany]
      · by_cases hmany : maxDims < dims.count 0
        · refine ⟨0, fun fuel _ => ⟨(.dimsMany (dims.count 0), dims), ?_, nofun, fun _ => rfl⟩⟩
          dsimp only
          rw [heq, if_neg hne, if_neg (not_not.mpr hdvd), if_neg (by omega), if_pos hmany]
        · have hfixed : 0 < fixedProduct dims := by
            apply List.prod_pos
            intro d hd
            obtain ⟨hd, hd0⟩ := List.mem_filter.mp hd
            have hnonneg := hdims d hd
            have hne0 : d ≠ 0 := by simpa using hd0
            omega
          obtain ⟨k, hk⟩ := hdvd
          have hkpos : 0 < k := by
            by_contra hle
            have hmul := Int.mul_nonpos_of_nonneg_of_nonpos (Int.le_of_lt (hprod ▸ hfixed))
              (Int.not_lt.mp hle)
            omega
          obtain ⟨m, rfl⟩ := Int.eq_ofNat_of_zero_le (Int.le_of_lt hkpos)
          refine ⟨(m + 1) * (dims.length + 1), fun fuel hfuel => ?_⟩
          obtain ⟨res, hres, hgrid⟩ := dimsCreate_grid hpos hlt hdims (m := m) (by omega)
            (by rw [hk, mul_comm]) (hprod ▸ hfixed) (by omega) (by omega) hfuel
          rw [hprod, ← hk] at hgrid
          exact ⟨_, hres, fun _ => hgrid, fun h => absurd rfl h⟩
    · refine ⟨0, fun fuel _ => ⟨(.dimsPartition, dims), ?_, nofun, fun _ => rfl⟩⟩
      dsimp only
      rw [heq, if_neg hne, if_pos hdvd]

theorem meets_of_returns (h0 : 0 ≤ nnodes) (hlt : nnodes < 2 ^ 31)
    (h : Returns (dimsCreate · nnodes dims) (Correct nnodes dims)) : Meets nnodes dims := by
  by_contra hnot
  unfold Meets at hnot
  rw [not_or] at hnot
  obtain ⟨hneg, hnot⟩ := hnot
  have hdims : ∀ d ∈ dims, 0 ≤ d := fun d hd => by
    by_contra hlt0
    exact hneg ⟨d, hd, by omega⟩
  have heq := dimsCreate_eq h0 hlt hdims
  obtain ⟨bound, hreturns⟩ := h
  by_cases hne : product32 dims = 0
  · obtain ⟨r, hr, -⟩ := hreturns bound (Nat.le_refl _)
    dsimp only at hr
    rw [heq, if_pos hne] at hr
    cases hr
  · have hdvd : product32 dims ∣ nnodes := by
      by_contra hdvd
      exact hnot ⟨hne, .inl hdvd⟩
    by_cases hcount : dims.count 0 = 0
    · obtain ⟨r, hr, hcorrect⟩ := hreturns bound (Nat.le_refl _)
      dsimp only at hr
      rw [heq, if_neg hne, if_neg (not_not.mpr hdvd), if_pos hcount] at hr
      rw [← Except.ok.inj hr] at hcorrect
      exact hnot ⟨hne, .inr (.inl ⟨hcount, (grid_full hcount).mp (hcorrect.1 rfl)⟩)⟩
    · have hmany : dims.count 0 ≤ maxDims := by
        by_contra hmany
        exact hnot ⟨hne, .inr (.inr ⟨by omega, .inl (by omega)⟩)⟩
      rcases Int.lt_or_le 0 (nnodes.tdiv (product32 dims)) with hquot | hquot
      · obtain ⟨m, hm⟩ := Int.eq_ofNat_of_zero_le (Int.le_of_lt hquot)
        have hprod : nnodes = m * product32 dims := by
          rw [← hm]
          exact (Int.tdiv_mul_cancel hdvd).symm
        have hpos : 0 < nnodes := by
          rcases Int.lt_or_eq_of_le h0 with hpos | hzero
          · exact hpos
          · rw [← hzero, Int.zero_tdiv] at hquot
            omega
        have hwpos : 0 < product32 dims := by
          by_contra hle
          have hmul := Int.mul_nonpos_of_nonneg_of_nonpos (a := (m : Int)) (by omega) (Int.not_lt.mp hle)
          omega
        have hbig := hreturns (max bound ((m + 1) * (dims.length + 1))) (Nat.le_max_left _ _)
        obtain ⟨r, hr, hcorrect⟩ := hbig
        obtain ⟨res, hres, hgrid⟩ := dimsCreate_grid hpos hlt hdims (m := m) (by omega) hprod hwpos
          hcount hmany (Nat.le_max_right bound _)
        have hsame := Except.ok.inj (hr.symm.trans hres)
        rw [hsame] at hcorrect
        have hequal := (hcorrect.1 rfl).product.symm.trans hgrid.product
        have hfixed : fixedProduct dims = product32 dims := by
          have hmne : (m : Int) ≠ 0 := by omega
          apply Int.eq_of_mul_eq_mul_right hmne
          rw [← hequal, hprod, mul_comm]
        exact hnot ⟨hne, .inr (.inr ⟨by omega, .inr ⟨hpos, hfixed⟩⟩)⟩
      · obtain ⟨r, hr, -⟩ := hreturns bound (Nat.le_refl _)
        dsimp only at hr
        rw [dimsCreate_stuck h0 hlt hdims hne hdvd hcount hmany hquot] at hr
        cases hr

end Exact

/-- `MPIR_Dims_create` terminates with a grid or with an error that changes nothing, exactly under
the condition. -/
theorem dimsCreate_iff (nnodes : Int) (h0 : 0 ≤ nnodes) (hlt : nnodes < 2 ^ 31) (dims : List Int) :
    Returns (dimsCreate · nnodes dims) (Correct nnodes dims) ↔ Meets nnodes dims :=
  ⟨meets_of_returns h0 hlt, returns_of_meets h0 hlt⟩

theorem dimsCreate_36 : Returns (dimsCreate · 36 [0, 3, 0]) (Correct 36 [0, 3, 0]) :=
  (dimsCreate_iff 36 (by decide) (by decide) [0, 3, 0]).mpr (by decide)

theorem dimsCreate_fails : ¬ Returns (dimsCreate · 0 [0]) (Correct 0 [0]) ∧
    ¬ Returns (dimsCreate · 12 [65536, 65536, 0]) (Correct 12 [65536, 65536, 0]) ∧
    ¬ Returns (dimsCreate · 6 [2]) (Correct 6 [2]) :=
  ⟨fun h => absurd (meets_of_returns (by decide) (by decide) h) (by decide),
    fun h => absurd (meets_of_returns (by decide) (by decide) h) (by decide),
    fun h => absurd (meets_of_returns (by decide) (by decide) h) (by decide)⟩

end FgMpi.Topo.Dims
