import FgMpi.Comm.Split
import FgMpi.Machine.MixedRadix
import FgMpi.Topo.DimsCreate

/-! The Cartesian topologies of `mpi/topo`, with products and sums of `int`. -/

namespace FgMpi.Topo.Cartesian
open Machine.Ints Machine.MixedRadix Topo.DimsCreate Comm.Split

def intMax : Int := 2 ^ 31 - 1

def procNull : Int := -1

def maxCartDim : Nat := 16

/-- `topo.cart`; `ndims` is the length of `dims`. -/
structure Cart where
  nnodes : Int
  dims : List Nat
  periodic : List Bool
  position : List Int
deriving Repr, DecidableEq

/-- The loop that fills `position`, and the one of `MPI_Cart_coords`.  `none` is a division by zero. -/
def positionLoop : List Nat → Int → Int → Option (List Int)
  | [], _, _ => some []
  | dim :: dims, rank, nranks =>
    let nranks := nranks.tdiv dim
    if nranks = 0 then none
    else (positionLoop dims (rank.tmod nranks) nranks).map (rank.tdiv nranks :: ·)

def product (dims : List Nat) : Int := dims.foldl (fun (size : Int) (dim : Nat) => intMul size dim) 1

/-- What a process gets from `MPIR_Cart_create`. -/
inductive Created
  | error
  | commNull
  | divideByZero
  | comm (rank : Nat) (cart : Cart)
deriving Repr, DecidableEq

/-- `MPIR_Cart_map`: the rank in the grid, or no result if the communicator is too small. -/
def cartMap (size rank : Nat) (dims : List Nat) : Option Int :=
  let nranks : Int :=
    match dims with
    | [] => 1
    | dim :: dims => dims.foldl (fun (nranks : Int) (dim : Nat) => intMul nranks dim) dim
  if size < nranks then none else if rank < nranks then some rank else some undefined

def mapTable (size : Nat) (dims : List Nat) : List SplitType :=
  (List.range size).map fun r =>
    let rank := (cartMap size r dims).getD undefined
    ⟨if rank = undefined then undefined else 1, rank⟩

/-- `MPIR_Cart_create` at one process of an intracommunicator. -/
def cartCreate (size rank : Nat) (dims : List Nat) (periods : List Bool) (reorder : Bool) : Created :=
  let newsize := product dims
  if newsize > size then .error
  else if dims = [] then
    if rank = 0 then .comm 0 ⟨1, [], [], []⟩ else .commNull
  else
    match if reorder then cartMap size rank dims else some (rank : Int) with
    | none => .error
    | some place =>
      if place ≥ newsize ∨ place = undefined then .commNull
      else
        match positionLoop dims place newsize with
        | none => .divideByZero
        | some position =>
          -- `MPIR_Comm_copy` keeps the ranks, `MPIR_Comm_split_impl` orders them by their keys
          .comm (if reorder then (newOrder (mapTable size dims) 1).idxOf rank else rank)
            ⟨newsize, dims, periods, position⟩

/-- The computation of `MPI_Cart_coords`. -/
def cartCoords (cart : Cart) (rank : Nat) : Option (List Int) := positionLoop cart.dims rank cart.nnodes

def wrapCoord (dim : Nat) (coord : Int) : Int :=
  if coord ≥ dim then coord.tmod dim
  else if coord < 0 then
    let coord := coord.tmod dim
    if coord ≠ 0 then intAdd dim coord else coord
  else coord

/-- The loop of `MPIR_Cart_rank_impl` from the last dimension to this one: `*rank` and `multiplier`. -/
def rankLoop : List (Nat × Bool) → List Int → Int × Int
  | (dim, periodic) :: dims, coord :: coords =>
    let (rank, multiplier) := rankLoop dims coords
    let coord := if periodic then wrapCoord dim coord else coord
    (intAdd rank (intMul multiplier coord), intMul multiplier dim)
  | _, _ => (0, 1)

/-- `MPIR_Cart_rank_impl`. -/
def cartRank (cart : Cart) (coords : List Int) : Int := (rankLoop (cart.dims.zip cart.periodic) coords).1

/-- What `MPIR_Cart_shift_impl` returns; `overflow` is a write behind `pos`. -/
inductive Shifted
  | error
  | overflow
  | ranks (source dest : Int)
deriving Repr, DecidableEq

/-- `MPIR_Cart_shift_impl` at the process `rank` of the communicator. -/
def cartShift (rank : Nat) (cart : Cart) (direction : Nat) (disp : Int) : Shifted :=
  if cart.dims.length = 0 then .error
  else if direction ≥ cart.dims.length then .error
  else if disp = 0 then .ranks rank rank
  else if cart.dims.length > maxCartDim then .overflow
  else
    let there := fun pos : Int =>
      if cart.periodic.getD direction false = false ∧
          (pos ≥ (cart.dims.getD direction 0 : Nat) ∨ pos < 0) then procNull
      else cartRank cart (cart.position.set direction pos)
    let position := cart.position.getD direction 0
    .ranks (there (intAdd position (-disp))) (there (intAdd position disp))

/-- The loop of `MPI_Cart_sub` over the dimensions of one kind: `key` or `color`. -/
def horner (dims : List Nat) (position : List Int) : Int :=
  (dims.zip position).foldl (fun key dp => intAdd (intMul key dp.1) dp.2) 0

/-- What a process gets from `MPI_Cart_sub`: the ranks of its new communicator in their order, its own
one among them and the topology. -/
inductive Sub
  | error
  | commNull
  | divideByZero
  | comm (ranks : List Nat) (rank : Nat) (cart : Cart)
deriving Repr, DecidableEq

def subTable (carts : List Cart) (remain : List Bool) : List SplitType :=
  carts.map fun cart =>
    ⟨horner (select (remain.map not) cart.dims) (select (remain.map not) cart.position),
      horner (select remain cart.dims) (select remain cart.position)⟩

/-- `MPI_Cart_sub` at the process `rank`; `carts` are the topologies of all processes. -/
def cartSub (carts : List Cart) (rank : Nat) (remain : List Bool) : Sub :=
  match carts[rank]? with
  | none => .error
  | some cart =>
    if remain.all not then
      match cartCreate carts.length rank [] [] false with
      | .comm r sub => .comm [rank] r sub
      | .commNull => .commNull
      | .divideByZero => .divideByZero
      | .error => .error
    else
      let table := subTable carts remain
      let color := (table[rank]?.map SplitType.color).getD 0
      let ranks := newOrder table color
      let dims := select remain cart.dims
      let nnodes := product dims
      let newrank := ranks.idxOf rank
      match positionLoop dims newrank nnodes with
      | none => .divideByZero
      | some position => .comm ranks newrank ⟨nnodes, dims, select remain cart.periodic, position⟩

theorem toInt_of_fits {z : Int} (hlo : -(2 ^ 31) ≤ z) (hhi : z ≤ intMax) : toInt z = z := by
  have hmax : intMax = 2147483647 := rfl
  exact toInt_eq (by omega) (by omega)

theorem foldl_intMul (dims : List Nat) {n : Int} (hn : toInt n = n) :
    dims.foldl (fun (size : Int) (dim : Nat) => intMul size dim) n =
      toInt (n * (dims.prod : Nat)) := by
  induction dims generalizing n with
  | nil => simpa using hn.symm
  | cons d dims ih =>
    rw [List.foldl_cons, ih (n := intMul n d) (toInt_toInt _), intMul, toInt_mul,
      List.prod_cons, Int.natCast_mul, Int.mul_assoc]

theorem product_eq (dims : List Nat) : product dims = toInt (dims.prod : Nat) := by
  rw [product, foldl_intMul dims (by decide), Int.one_mul]

variable {dims coords : List Nat}

theorem product_fits (h : ((dims.prod : Nat) : Int) ≤ intMax) : product dims = (dims.prod : Nat) := by
  rw [product_eq]
  exact toInt_of_fits (by omega) h

def ints (coords : List Nat) : List Int := coords.map Int.ofNat

variable {rank size k direction : Nat}

theorem positionLoop_place (h : rank < dims.prod) :
    positionLoop dims rank (dims.prod : Nat) = some (ints (place dims rank)) := by
  induction dims generalizing rank with
  | nil => rfl
  | cons d dims ih =>
    rw [List.prod_cons] at h
    have hpos : 0 < dims.prod := Nat.pos_of_ne_zero fun hz => by simp [hz] at h
    have hd : 0 < d := Nat.pos_of_ne_zero fun hz => by simp [hz] at h
    have hdiv : ((((d :: dims).prod : Nat) : Int)).tdiv d = (dims.prod : Nat) := by
      rw [List.prod_cons, Int.natCast_mul]
      exact Int.mul_tdiv_cancel_left _ (by omega)
    rw [positionLoop]
    simp only [hdiv]
    rw [if_neg (by omega), ← Int.ofNat_tmod, ih (Nat.mod_lt rank hpos), ← Int.ofNat_tdiv]
    rfl

theorem positionLoop_le (rank : Int) {nranks : Nat} {position : List Int}
    (hnranks : 0 < nranks) (h : positionLoop dims rank nranks = some position) :
    dims.prod ≤ nranks := by
  induction dims generalizing rank nranks position with
  | nil => exact hnranks
  | cons d dims ih =>
    rw [positionLoop] at h
    simp only [← Int.ofNat_tdiv] at h
    split at h
    · cases h
    · rename_i hne
      obtain ⟨rest, hrest, _⟩ := Option.map_eq_some_iff.mp h
      have hle := ih _ (Nat.pos_of_ne_zero (by exact_mod_cast hne)) hrest
      rw [List.prod_cons, Nat.mul_comm]
      exact Nat.mul_le_of_le_div _ _ _ hle

theorem idxOf_newOrder {table : List SplitType} {color : Int} {n : Nat}
    (hkeys : ∀ r ∈ newOrder table color, ∃ k < n, keyAt table r = (k : Nat))
    (hinj : ∀ r ∈ newOrder table color, ∀ r' ∈ newOrder table color,
      keyAt table r = keyAt table r' → r = r')
    (hsurj : ∀ k < n, ∃ r ∈ newOrder table color, keyAt table r = (k : Nat)) {r : Nat}
    (hr : r ∈ newOrder table color) : ((newOrder table color).idxOf r : Int) = keyAt table r := by
  have hrange : (newOrder table color).map (fun r => (keyAt table r).toNat) = List.range n := by
    apply List.SortedLT.eq_of_mem_iff
    · apply List.Pairwise.sortedLT
      apply List.pairwise_map.mpr
      apply newOrder_sorted.imp_of_mem
      intro a b ha hb hab
      obtain ⟨k, _, hk⟩ := hkeys a ha
      obtain ⟨k', _, hk'⟩ := hkeys b hb
      rcases hab with hlt | ⟨heq, hlt⟩
      · omega
      · exact absurd (hinj a ha b hb heq) (Nat.ne_of_lt hlt)
    · exact List.Pairwise.sortedLT List.pairwise_lt_range
    · intro k
      rw [List.mem_map, List.mem_range]
      constructor
      · rintro ⟨a, ha, rfl⟩
        obtain ⟨k, hk, heq⟩ := hkeys a ha
        omega
      · intro hk
        obtain ⟨a, ha, heq⟩ := hsurj k hk
        exact ⟨a, ha, by omega⟩
  have hlt := List.idxOf_lt_length_of_mem hr
  have hlen : (newOrder table color).length = n := by
    have hlength := congrArg List.length hrange
    rwa [List.length_map, List.length_range] at hlength
  have hget : ((newOrder table color).map fun r => (keyAt table r).toNat)[(newOrder table
      color).idxOf r]? = some (keyAt table r).toNat := by
    rw [List.getElem?_map, List.getElem?_eq_getElem hlt, List.getElem_idxOf]
    rfl
  rw [hrange, List.getElem?_range (by omega), Option.some.injEq] at hget
  obtain ⟨k, _, hk⟩ := hkeys r hr
  omega

/-- Lengths of dimensions, each a positive `int`. -/
structure Lengths (dims : List Nat) : Prop where
  ne : dims ≠ []
  pos : ∀ d ∈ dims, 0 < d
  fits : ∀ d ∈ dims, (d : Int) ≤ intMax

theorem Lengths.prod_pos (h : Lengths dims) : 0 < dims.prod := List.prod_pos_iff_forall_pos_nat.mpr h.pos

theorem cartMap_eq (h : Lengths dims) (size rank : Nat) :
    cartMap size rank dims =
      if size < product dims then none
      else if rank < product dims then some (rank : Int) else some undefined := by
  cases dims with
  | nil => exact absurd rfl h.ne
  | cons d dims =>
    have hd := h.fits d List.mem_cons_self
    have hone : intMul 1 d = d := by
      rw [intMul, Int.one_mul]
      exact toInt_of_fits (by omega) hd
    rw [cartMap, product, List.foldl_cons, hone]

theorem mapTable_get {r : Nat} (dims : List Nat) (hr : r < size) :
    (mapTable size dims)[r]? = some
      ⟨if (cartMap size r dims).getD undefined = undefined then undefined else 1,
        (cartMap size r dims).getD undefined⟩ := by
  rw [mapTable, List.getElem?_map, List.getElem?_range hr]
  rfl

theorem mapTable_none {r : Nat} (dims : List Nat) (hr : ¬r < size) : (mapTable size dims)[r]? = none := by
  rw [mapTable, List.getElem?_map, List.getElem?_eq_none (by rw [List.length_range]; omega)]
  rfl

theorem idxOf_mapTable (h : Lengths dims)
    (hsize : dims.prod ≤ size) (hint : (size : Int) ≤ intMax) (hrank : rank < dims.prod) :
    (newOrder (mapTable size dims) 1).idxOf rank = rank := by
  have hproduct : product dims = (dims.prod : Nat) := product_fits (by omega)
  have hmap : ∀ r, cartMap size r dims =
      if r < dims.prod then some (r : Int) else some undefined := by
    intro r
    rw [cartMap_eq h, hproduct, if_neg (by omega)]
    simp only [Int.ofNat_lt]
  have hundef : ∀ r : Nat, (r : Int) ≠ undefined := by
    intro r hr
    have hneg : undefined = -32766 := rfl
    omega
  have hmem : ∀ r, r ∈ newOrder (mapTable size dims) 1 ↔ r < dims.prod := by
    intro r
    rw [mem_newOrder]
    by_cases hr : r < size
    · rw [mapTable_get dims hr, hmap]
      by_cases hlt : r < dims.prod
      · simp [hlt, hundef]
      · have hcolor : (undefined : Int) ≠ 1 := by decide
        simp [hlt, hcolor]
    · rw [mapTable_none dims hr]
      refine iff_of_false (fun hnone => by cases hnone) ?_
      omega
  have hkey : ∀ r < dims.prod, keyAt (mapTable size dims) r = (r : Nat) := by
    intro r hr
    rw [keyAt, mapTable_get dims (by omega), hmap, if_pos hr]
    rfl
  have hidx := idxOf_newOrder (n := dims.prod)
    (fun r (hr : r ∈ newOrder (mapTable size dims) 1) => ⟨r, (hmem r).mp hr, hkey r ((hmem r).mp hr)⟩)
    (fun r hr r' hr' heq => by
      rw [hkey r ((hmem r).mp hr), hkey r' ((hmem r').mp hr')] at heq
      exact_mod_cast heq)
    (fun k hk => ⟨k, (hmem k).mpr hk, hkey k hk⟩) ((hmem rank).mpr hrank)
  rw [hkey rank hrank] at hidx
  exact_mod_cast hidx

def gridCart (dims : List Nat) (periods : List Bool) (rank : Nat) : Cart :=
  ⟨(dims.prod : Nat), dims, periods, ints (place dims rank)⟩

/-- What the calls of all processes have to give: a topology if the grid fits, and otherwise none and
no division by zero. -/
structure Builds (size : Nat) (dims : List Nat) (periods : List Bool) (reorder : Bool) : Prop where
  grid : dims.prod ≤ size → ∀ rank < size, cartCreate size rank dims periods reorder =
    if rank < dims.prod then .comm rank (gridCart dims periods rank) else .commNull
  large : size < dims.prod → ∀ rank < size, cartCreate size rank dims periods reorder = .error ∨
    cartCreate size rank dims periods reorder = .commNull

theorem cartCreate_eq (h : Lengths dims) (periods : List Bool)
    (reorder : Bool) (hsize : ¬product dims > size) :
    cartCreate size rank dims periods reorder =
      if (rank : Int) ≥ product dims then .commNull
      else
        match positionLoop dims rank (product dims) with
        | none => .divideByZero
        | some position =>
          .comm (if reorder then (newOrder (mapTable size dims) 1).idxOf rank else rank)
            ⟨product dims, dims, periods, position⟩ := by
  have hundef : (rank : Int) ≠ undefined := by
    have hneg : undefined = -32766 := rfl
    omega
  unfold cartCreate
  simp only [if_neg hsize, if_neg h.ne]
  cases reorder with
  | false =>
    simp only [Bool.false_eq_true, if_false, hundef, or_false]
  | true =>
    simp only [if_true, cartMap_eq h, if_neg (show ¬(size : Int) < product dims from hsize)]
    by_cases hlt : (rank : Int) < product dims
    · simp only [if_pos hlt, hundef, or_false]
    · simp only [if_neg hlt, or_true, if_true]
      rw [if_pos (not_lt.mp hlt)]

theorem builds_iff (h : Lengths dims) (hpos : 0 < size)
    (hint : (size : Int) ≤ intMax) (periods : List Bool) (reorder : Bool) :
    Builds size dims periods reorder ↔
      dims.prod ≤ size ∨ toInt (dims.prod : Nat) ≤ 0 ∨
        size < toInt (dims.prod : Nat) := by
  rw [← product_eq]
  constructor
  · intro hbuilds
    by_contra hnot
    rw [not_or, not_or, not_le, not_le, not_lt] at hnot
    obtain ⟨hlarge, hproduct, hle⟩ := hnot
    -- the first process divides by zero
    have hcreate := hbuilds.large hlarge 0 hpos
    rw [cartCreate_eq h periods reorder (not_lt.mpr hle), if_neg (by omega)] at hcreate
    obtain ⟨n, hn⟩ := Int.eq_ofNat_of_zero_le (Int.le_of_lt hproduct)
    rw [hn] at hcreate hproduct hle
    cases hloop : positionLoop dims (0 : Nat) (n : Nat) with
    | none =>
      rw [hloop] at hcreate
      rcases hcreate with hcreate | hcreate <;> cases hcreate
    | some position =>
      have hprod := positionLoop_le ((0 : Nat) : Int) (by omega) hloop
      omega
  · intro hcase
    refine ⟨?_, ?_⟩
    · intro hfits rank hrank
      have hproduct : product dims = (dims.prod : Nat) := product_fits (by omega)
      rw [cartCreate_eq h periods reorder (by omega), hproduct]
      by_cases hlt : rank < dims.prod
      · rw [if_neg (by omega), if_pos hlt, positionLoop_place hlt]
        cases reorder with
        | false => rfl
        | true =>
          simp only [if_true, idxOf_mapTable h hfits hint hlt]
          rfl
      · rw [if_pos (by omega), if_neg hlt]
    · intro hlarge rank hrank
      rcases hcase with hfits | hneg | hmore
      · omega
      · refine Or.inr ?_
        rw [cartCreate_eq h periods reorder (by omega), if_pos (by omega)]
      · refine Or.inl ?_
        unfold cartCreate
        exact if_pos hmore

theorem wrapCoord_eq {d : Nat} (hd : 0 < d) (hint : (d : Int) ≤ intMax) (z : Int) :
    wrapCoord d z = z % d := by
  have hlo := Int.emod_nonneg z (show (d : Int) ≠ 0 by omega)
  have hhi := Int.emod_lt_of_pos z (show 0 < (d : Int) by omega)
  unfold wrapCoord
  by_cases hbig : z ≥ d
  · rw [if_pos hbig, Int.tmod_eq_emod_of_nonneg (by omega)]
  rw [if_neg hbig]
  by_cases hneg : z < 0
  · rw [if_pos hneg]
    dsimp only
    have htmod : z.tmod d = z % d - if 0 ≤ z ∨ (d : Int) ∣ z then 0 else (d : Int).natAbs :=
      Int.tmod_eq_emod
    by_cases hdvd : (d : Int) ∣ z
    · have hzero := Int.emod_eq_zero_of_dvd hdvd
      rw [if_pos (Or.inr hdvd), hzero, Nat.cast_zero, Int.sub_zero] at htmod
      rw [htmod, hzero, if_neg (by omega)]
    · rw [if_neg (by rintro (h | h); exacts [by omega, hdvd h]), Int.natAbs_natCast] at htmod
      rw [htmod, if_pos (by omega), intAdd]
      have hsum : (d : Int) + (z % d - d) = z % d := by omega
      rw [hsum]
      exact toInt_of_fits (by omega) (by omega)
  · rw [if_neg hneg, Int.emod_eq_of_lt (by omega) (by omega)]

inductive Reads : List (Nat × Bool) → List Int → List Nat → Prop
  | nil : Reads [] [] []
  | cons {d : Nat} {periodic : Bool} {z : Int} {c : Nat} {dims : List (Nat × Bool)}
    {zs : List Int} {cs : List Nat} : c < d → (z = c ∨ periodic = true ∧ (c : Int) = z % d) →
      Reads dims zs cs → Reads ((d, periodic) :: dims) (z :: zs) (c :: cs)

theorem Reads.inside {dims : List (Nat × Bool)} {zs : List Int} {cs : List Nat}
    (h : Reads dims zs cs) : Inside (dims.map Prod.fst) cs := by
  induction h with
  | nil => exact .nil
  | cons hc _ _ ih => exact .cons hc ih

theorem rankLoop_reads {dims : List (Nat × Bool)} {zs : List Int} {cs : List Nat}
    (h : Reads dims zs cs) (hint : (((dims.map Prod.fst).prod : Nat) : Int) ≤ intMax) :
    rankLoop dims zs =
      (((number (dims.map Prod.fst) cs : Nat) : Int), (((dims.map Prod.fst).prod : Nat) : Int)) := by
  induction h with
  | nil => rfl
  | @cons d periodic z c dims zs cs hc hz htail ih =>
    have hlt := number_lt htail.inside
    rw [List.map_cons, List.prod_cons] at hint ⊢
    dsimp only at hint ⊢
    generalize hprod : (dims.map Prod.fst).prod = prod at *
    have hd : d * 1 ≤ d * prod := Nat.mul_le_mul_left d (by omega)
    have hprodle : 1 * prod ≤ d * prod := Nat.mul_le_mul_right prod (by omega)
    have hcprod : (c + 1) * prod ≤ d * prod := Nat.mul_le_mul_right prod hc
    rw [Nat.succ_mul] at hcprod
    have hcoord : (if periodic = true then wrapCoord d z else z) = c := by
      rcases hz with rfl | ⟨hper, hrem⟩
      · split
        · rw [wrapCoord_eq (by omega) (by omega), ← Int.natCast_emod, Nat.mod_eq_of_lt hc]
        · rfl
      · rw [if_pos hper, wrapCoord_eq (by omega) (by omega), hrem]
    rw [rankLoop, ih (by omega)]
    dsimp only
    have hmax : intMax = 2147483647 := rfl
    rw [hcoord, intMul_nat (by rw [Nat.mul_comm]; omega), intMul_nat (by rw [Nat.mul_comm]; omega),
      intAdd_nat (by rw [Nat.mul_comm prod]; omega), number, hprod, Nat.mul_comm prod, Nat.mul_comm prod,
      Nat.add_comm]

variable {periodic : List Bool}

theorem reads_ints (h : Inside dims coords)
    (hlen : periodic.length = dims.length) : Reads (dims.zip periodic) (ints coords) coords := by
  induction h generalizing periodic with
  | nil => exact .nil
  | cons hc _ ih =>
    cases periodic with
    | nil => cases hlen
    | cons b periodic =>
      refine .cons hc (Or.inl rfl) (ih ?_)
      simpa using hlen

theorem reads_set (h : Inside dims coords)
    (hlen : periodic.length = dims.length) (hk : k < dims.length) {z : Int} {c : Nat} (hc : c < dims.getD k 0)
    (hz : z = c ∨ periodic.getD k false = true ∧ (c : Int) = z % (dims.getD k 0 : Nat)) :
    Reads (dims.zip periodic) ((ints coords).set k z) (coords.set k c) := by
  induction h generalizing periodic k with
  | nil => cases hk
  | @cons d₀ c₀ dims coords hc₀ htail ih =>
    cases periodic with
    | nil => cases hlen
    | cons b periodic =>
      have hlen' : periodic.length = dims.length := by simpa using hlen
      cases k with
      | zero => exact .cons hc hz (reads_ints htail hlen')
      | succ k => exact .cons hc₀ (Or.inl rfl) (ih hlen' (by simpa using hk) hc hz)

theorem zip_fst (hlen : periodic.length = dims.length) :
    (dims.zip periodic).map Prod.fst = dims := List.map_fst_zip (le_of_eq hlen.symm)

structure Grid (rank : Nat) (cart : Cart) (coords : List Nat) : Prop where
  nnodes : cart.nnodes = (cart.dims.prod : Nat)
  fits : ((cart.dims.prod : Nat) : Int) ≤ intMax
  periods : cart.periodic.length = cart.dims.length
  inside : Inside cart.dims coords
  position : cart.position = ints coords
  rank : rank = number cart.dims coords

variable {cart : Cart}

theorem cartRank_ints (h : Grid rank cart coords) {place : List Nat} (hplace : Inside cart.dims place) :
    cartRank cart (ints place) = (number cart.dims place : Nat) := by
  have hfits := h.fits
  rw [← zip_fst h.periods] at hfits
  rw [cartRank, rankLoop_reads (reads_ints hplace h.periods) hfits, zip_fst h.periods]

def neighbour (dims : List Nat) (periodic : List Bool) (coords : List Nat) (direction : Nat)
    (pos : Int) : Int :=
  let dim := dims.getD direction 0
  if periodic.getD direction false then
    (number dims (coords.set direction (pos % (dim : Nat)).toNat) : Nat)
  else if 0 ≤ pos ∧ pos < dim then (number dims (coords.set direction pos.toNat) : Nat)
  else procNull

section
variable (h : Inside dims coords)
include h

theorem inside_length : dims.length = coords.length := List.Forall₂.length_eq h

theorem inside_getD (hk : k < dims.length) : coords.getD k 0 < dims.getD k 0 := by
  induction h generalizing k with
  | nil => cases hk
  | cons hc _ ih =>
    cases k with
    | zero => exact hc
    | succ k => exact ih (by simpa using hk)

theorem inside_set {c : Nat} (hc : c < dims.getD k 0) : Inside dims (coords.set k c) := by
  induction h generalizing k with
  | nil => exact .nil
  | cons hc₀ htail ih =>
    cases k with
    | zero => exact .cons hc htail
    | succ k => exact .cons hc₀ (ih hc)

theorem getD_le_prod (k : Nat) : dims.getD k 0 ≤ dims.prod := by
  induction h generalizing k with
  | nil => exact Nat.zero_le _
  | @cons d c dims coords hc htail ih =>
    have hlt := number_lt htail
    rw [List.prod_cons]
    cases k with
    | zero => exact Nat.le_mul_of_pos_right d (by omega)
    | succ k => exact le_trans (ih k) (Nat.le_mul_of_pos_left _ (by omega))

end

theorem set_same (k : Nat) : coords.set k (coords.getD k 0) = coords := by
  induction coords generalizing k with
  | nil => rfl
  | cons c coords ih =>
    cases k with
    | zero => rfl
    | succ k => exact congrArg (c :: ·) (ih k)

theorem set_inj (hk : k < coords.length) {a b : Nat} (h : coords.set k a = coords.set k b) : a = b := by
  have hget := congrArg (·[k]?) h
  simpa [List.getElem?_set_self hk] using hget

theorem there_eq (h : Grid rank cart coords) (hdir : direction < cart.dims.length) (pos : Int) :
    (if cart.periodic.getD direction false = false ∧
        (pos ≥ (cart.dims.getD direction 0 : Nat) ∨ pos < 0) then procNull
      else cartRank cart (cart.position.set direction pos)) =
      neighbour cart.dims cart.periodic coords direction pos := by
  have hfits := h.fits
  rw [← zip_fst h.periods] at hfits
  have hdim := inside_getD h.inside hdir
  have hrank : ∀ c : Nat, c < cart.dims.getD direction 0 →
      (pos = c ∨ cart.periodic.getD direction false = true ∧
        (c : Int) = pos % (cart.dims.getD direction 0 : Nat)) →
      cartRank cart (cart.position.set direction pos) =
        (number cart.dims (coords.set direction c) : Nat) := by
    intro c hc hpos
    rw [cartRank, h.position, rankLoop_reads (reads_set h.inside h.periods hdir hc hpos) hfits,
      zip_fst h.periods]
  unfold neighbour
  dsimp only
  cases hper : cart.periodic.getD direction false with
  | true =>
    have hlo := Int.emod_nonneg pos (show ((cart.dims.getD direction 0 : Nat) : Int) ≠ 0 by omega)
    have hhi := Int.emod_lt_of_pos pos
      (show 0 < ((cart.dims.getD direction 0 : Nat) : Int) by omega)
    rw [if_neg (by simp), if_pos rfl]
    exact hrank _ (by omega) (Or.inr ⟨hper, by omega⟩)
  | false =>
    rw [if_neg (by simp : ¬false = true)]
    by_cases hin : 0 ≤ pos ∧ pos < (cart.dims.getD direction 0 : Nat)
    · rw [if_neg (by omega), if_pos hin]
      exact hrank _ (by omega) (Or.inl (by omega))
    · rw [if_pos ⟨rfl, by omega⟩, if_neg hin]

theorem neighbour_intAdd_iff
    (h : Grid rank cart coords) (hdir : direction < cart.dims.length) {disp : Int}
    (hlo : -(2 ^ 31) ≤ disp) (hhi : disp ≤ 2 ^ 31) :
    neighbour cart.dims cart.periodic coords direction
        (intAdd (coords.getD direction 0 : Nat) disp) =
      neighbour cart.dims cart.periodic coords direction ((coords.getD direction 0 : Nat) + disp) ↔
    (cart.periodic.getD direction false = false ∨
      ((cart.dims.getD direction 0 : Nat) : Int) ∣ 2 ^ 32 ∨
      (coords.getD direction 0 : Nat) + disp ≤ intMax) := by
  have hdim := inside_getD h.inside hdir
  have hprod := getD_le_prod h.inside direction
  have hfits := h.fits
  have hmax : intMax = 2147483647 := rfl
  generalize hc : coords.getD direction 0 = c at *
  generalize hd : cart.dims.getD direction 0 = d at *
  by_cases hsmall : (c : Int) + disp ≤ intMax
  · refine iff_of_true ?_ (Or.inr (Or.inr hsmall))
    rw [intAdd, toInt_of_fits (by omega) hsmall]
  · have hwrap : intAdd c disp = c + disp - 2 ^ 32 := toInt_of_ge (by omega) (by omega)
    rw [hwrap]
    unfold neighbour
    dsimp only
    cases hper : cart.periodic.getD direction false with
    | false =>
      refine iff_of_true ?_ (Or.inl rfl)
      rw [if_neg (by simp : ¬false = true), if_neg (by simp : ¬false = true), if_neg (by omega),
        if_neg (by omega)]
    | true =>
      rw [if_pos rfl, if_pos rfl, hd]
      have hlt : ∀ z : Int, (z % (d : Nat)).toNat < cart.dims.getD direction 0 := by
        intro z
        have hz := Int.emod_lt_of_pos z (show 0 < (d : Int) by omega)
        have hz' := Int.emod_nonneg z (show (d : Int) ≠ 0 by omega)
        omega
      have hsame : (c + disp - 2 ^ 32) % (d : Int) = (c + disp) % d ↔ (d : Int) ∣ 2 ^ 32 := by
        rw [Int.emod_eq_emod_iff_emod_sub_eq_zero, ← Int.dvd_iff_emod_eq_zero]
        have hdiff : (c : Int) + disp - 2 ^ 32 - (c + disp) = -(2 ^ 32) := by omega
        rw [hdiff, Int.dvd_neg]
      constructor
      · intro heq
        refine Or.inr (Or.inl (hsame.mp ?_))
        have hnat : number cart.dims (coords.set direction ((c + disp - 2 ^ 32) % (d : Nat)).toNat) =
            number cart.dims (coords.set direction ((c + disp) % (d : Nat)).toNat) := by
          exact_mod_cast heq
        have hnum := number_inj (inside_set h.inside (hlt _)) (inside_set h.inside (hlt _)) hnat
        have hcoord := set_inj (by rw [← inside_length h.inside]; exact hdir) hnum
        have hz := Int.emod_nonneg ((c : Int) + disp - 2 ^ 32) (show (d : Int) ≠ 0 by omega)
        have hz' := Int.emod_nonneg ((c : Int) + disp) (show (d : Int) ≠ 0 by omega)
        omega
      · rintro (hfalse | hdvd | hle)
        · cases hfalse
        · rw [hsame.mpr hdvd]
        · exact absurd hle hsmall

def ShiftsRight (rank : Nat) (cart : Cart) (coords : List Nat) (direction : Nat) (disp : Int) : Prop :=
  cartShift rank cart direction disp =
    .ranks (neighbour cart.dims cart.periodic coords direction
        ((coords.getD direction 0 : Nat) - disp))
      (neighbour cart.dims cart.periodic coords direction ((coords.getD direction 0 : Nat) + disp))

theorem neighbour_self (h : Grid rank cart coords) (hdir : direction < cart.dims.length) :
    neighbour cart.dims cart.periodic coords direction (coords.getD direction 0 : Nat) = rank := by
  have hdim := inside_getD h.inside hdir
  unfold neighbour
  dsimp only
  rw [if_pos (show (0 : Int) ≤ (coords.getD direction 0 : Nat) ∧ _ by omega), Int.toNat_natCast,
    ← Int.natCast_emod, Nat.mod_eq_of_lt hdim, Int.toNat_natCast, ite_self, set_same, h.rank]

theorem shift_iff (h : Grid rank cart coords) (hdir : direction < cart.dims.length) {disp : Int} (hlo : -(2 ^ 31) ≤ disp)
    (hhi : disp ≤ intMax) :
    ShiftsRight rank cart coords direction disp ↔
      disp = 0 ∨ cart.dims.length ≤ maxCartDim ∧
        (cart.periodic.getD direction false = false ∨
          ((cart.dims.getD direction 0 : Nat) : Int) ∣ 2 ^ 32 ∨
          (coords.getD direction 0 : Nat) + disp ≤ intMax ∧
            (coords.getD direction 0 : Nat) - disp ≤ intMax) := by
  have hmax : intMax = 2147483647 := rfl
  have hposition : cart.position.getD direction 0 = (coords.getD direction 0 : Nat) := by
    rw [h.position]
    rw [ints, List.getD_eq_getElem?_getD, List.getD_eq_getElem?_getD, List.getElem?_map]
    cases coords[direction]? <;> rfl
  unfold ShiftsRight cartShift
  rw [if_neg (by omega), if_neg (by omega)]
  by_cases hzero : disp = 0
  · subst hzero
    rw [if_pos rfl, Int.sub_zero, Int.add_zero, neighbour_self h hdir]
    exact iff_of_true rfl (Or.inl rfl)
  rw [if_neg hzero]
  by_cases hmany : cart.dims.length > maxCartDim
  · rw [if_pos hmany]
    refine iff_of_false (fun heq => by cases heq) ?_
    rintro (hz | ⟨hle, _⟩)
    · exact hzero hz
    · omega
  rw [if_neg hmany]
  dsimp only
  rw [there_eq h hdir, there_eq h hdir, hposition, Shifted.ranks.injEq]
  have hsource := neighbour_intAdd_iff h hdir (show -(2 ^ 31) ≤ -disp by omega) (by omega)
  have hdest := neighbour_intAdd_iff h hdir hlo (show disp ≤ 2 ^ 31 by omega)
  rw [← Int.sub_eq_add_neg] at hsource
  rw [hsource, hdest]
  constructor
  · rintro ⟨hs, hd⟩
    refine Or.inr ⟨by omega, ?_⟩
    rcases hs with hper | hdvd | hle
    · exact Or.inl hper
    · exact Or.inr (Or.inl hdvd)
    · rcases hd with hper | hdvd | hle'
      · exact Or.inl hper
      · exact Or.inr (Or.inl hdvd)
      · exact Or.inr (Or.inr ⟨hle', hle⟩)
  · rintro (hz | ⟨_, hper | hdvd | ⟨hle', hle⟩⟩)
    · exact absurd hz hzero
    · exact ⟨Or.inl hper, Or.inl hper⟩
    · exact ⟨Or.inr (Or.inl hdvd), Or.inr (Or.inl hdvd)⟩
    · exact ⟨Or.inr (Or.inr hle), Or.inr (Or.inr hle')⟩

theorem neighbour_iff {a b : List Nat} (ha : Inside dims a) (hb : Inside dims b)
    (periodic : List Bool) (hk : k < dims.length) (disp : Int) :
    neighbour dims periodic a k ((a.getD k 0 : Nat) + disp) = (number dims b : Nat) ↔
      a.set k (b.getD k 0) = b ∧
        if periodic.getD k false then
          ((b.getD k 0 : Nat) : Int) = ((a.getD k 0 : Nat) + disp) % (dims.getD k 0 : Nat)
        else ((b.getD k 0 : Nat) : Int) = (a.getD k 0 : Nat) + disp := by
  have hadim := inside_getD ha hk
  have hbdim := inside_getD hb hk
  have hkb : k < a.length := by
    rw [← inside_length ha]
    exact hk
  have hplace : ∀ c : Nat, c < dims.getD k 0 →
      (((number dims (a.set k c) : Nat) : Int) = (number dims b : Nat) ↔
        a.set k (b.getD k 0) = b ∧ b.getD k 0 = c) := by
    intro c hc
    constructor
    · intro heq
      have hset := number_inj (inside_set ha hc) hb (by exact_mod_cast heq)
      have hcoord : b.getD k 0 = c := by
        rw [← hset, List.getD_eq_getElem?_getD, List.getElem?_set_self hkb]
        rfl
      exact ⟨by rw [hcoord, hset], hcoord⟩
    · rintro ⟨hset, rfl⟩
      rw [hset]
  unfold neighbour
  dsimp only
  cases periodic.getD k false with
  | true =>
    have hlo := Int.emod_nonneg ((a.getD k 0 : Nat) + disp)
      (show ((dims.getD k 0 : Nat) : Int) ≠ 0 by omega)
    have hhi := Int.emod_lt_of_pos ((a.getD k 0 : Nat) + disp)
      (show 0 < ((dims.getD k 0 : Nat) : Int) by omega)
    rw [if_pos rfl, if_pos rfl, hplace _ (by omega)]
    refine and_congr_right fun _ => ?_
    constructor <;> intro heq <;> omega
  | false =>
    rw [if_neg (by simp : ¬false = true), if_neg (by simp : ¬false = true)]
    by_cases hin : 0 ≤ ((a.getD k 0 : Nat) : Int) + disp ∧
        ((a.getD k 0 : Nat) : Int) + disp < (dims.getD k 0 : Nat)
    · rw [if_pos hin, hplace _ (by omega)]
      refine and_congr_right fun _ => ?_
      constructor <;> intro heq <;> omega
    · rw [if_neg hin]
      refine iff_of_false ?_ ?_
      · intro heq
        have hneg : procNull = -1 := rfl
        omega
      · rintro ⟨_, heq⟩
        omega

theorem neighbour_inverse {a b : List Nat} (ha : Inside dims a) (hb : Inside dims b)
    (periodic : List Bool) (hk : k < dims.length) (disp : Int) :
    neighbour dims periodic a k ((a.getD k 0 : Nat) + disp) = (number dims b : Nat) ↔
      neighbour dims periodic b k ((b.getD k 0 : Nat) - disp) = (number dims a : Nat) := by
  have hadim := inside_getD ha hk
  have hbdim := inside_getD hb hk
  have hset : a.set k (b.getD k 0) = b ↔ b.set k (a.getD k 0) = a := by
    constructor
    · intro h
      rw [← h, List.set_set, set_same]
    · intro h
      rw [← h, List.set_set, set_same]
  rw [neighbour_iff ha hb periodic hk, Int.sub_eq_add_neg, neighbour_iff hb ha periodic hk, hset]
  refine and_congr_right fun _ => ?_
  cases periodic.getD k false with
  | true =>
    simp only [if_true]
    generalize a.getD k 0 = x at *
    generalize b.getD k 0 = y at *
    generalize dims.getD k 0 = d at *
    constructor
    · intro h
      rw [h, Int.emod_add_emod, Int.add_neg_cancel_right, Int.emod_eq_of_lt (by omega) (by omega)]
    · intro h
      rw [h, Int.emod_add_emod, Int.neg_add_cancel_right, Int.emod_eq_of_lt (by omega) (by omega)]
  | false =>
    simp only [Bool.false_eq_true, if_false]
    constructor <;> intro h <;> omega

theorem select_ints (mask : List Bool) (coords : List Nat) :
    select mask (ints coords) = ints (select mask coords) := by
  induction mask generalizing coords with
  | nil => cases coords <;> rfl
  | cons b mask ih =>
    cases coords with
    | nil => rfl
    | cons c coords =>
      have htail := ih coords
      cases b with
      | true => exact congrArg (Int.ofNat c :: ·) htail
      | false => exact htail

theorem foldl_horner (h : Inside dims coords) {n : Nat}
    (hfits : (((n + 1) * dims.prod : Nat) : Int) ≤ intMax) :
    (dims.zip (ints coords)).foldl (fun key dp => intAdd (intMul key dp.1) dp.2) (n : Int) =
      ((n * dims.prod + number dims coords : Nat) : Int) := by
  induction h generalizing n with
  | nil => simp [number]
  | @cons d c dims coords hc htail ih =>
    have hpos : 0 < dims.prod := Nat.lt_of_le_of_lt (Nat.zero_le _) (number_lt htail)
    have hnext : (n * d + c + 1) * dims.prod ≤ (n + 1) * (d :: dims).prod := by
      rw [List.prod_cons, ← Nat.mul_assoc, Nat.succ_mul n d]
      exact Nat.mul_le_mul_right _ (by omega)
    have hle : (n * d + c + 1) * 1 ≤ (n * d + c + 1) * dims.prod := Nat.mul_le_mul_left _ hpos
    have hzip : (d :: dims).zip (ints (c :: coords)) = (d, (c : Int)) :: dims.zip (ints coords) := rfl
    rw [hzip, List.foldl_cons]
    dsimp only
    have hmax : intMax = 2147483647 := rfl
    rw [intMul_nat (by omega), intAdd_nat (by omega), ih (by omega), number, List.prod_cons]
    congr 1
    rw [Nat.add_mul, Nat.mul_assoc, Nat.add_assoc]

theorem horner_number (h : Inside dims coords) (hfits : ((dims.prod : Nat) : Int) ≤ intMax) :
    horner dims (ints coords) = (number dims coords : Nat) := by
  have hfold := foldl_horner h (n := 0) (by rwa [Nat.zero_add, Nat.one_mul])
  rwa [Nat.zero_mul, Nat.zero_add] at hfold

def gridCarts (dims : List Nat) (periods : List Bool) : List Cart :=
  (List.range dims.prod).map (gridCart dims periods)

/-- What a process has to get: the communicator of those with its dropped coordinates, and in it the
place of its coordinates that remain. -/
def SubRight (dims : List Nat) (periods remain : List Bool) (rank : Nat) : Prop :=
  ∃ ranks, cartSub (gridCarts dims periods) rank remain =
      .comm ranks (number (select remain dims) (select remain (place dims rank)))
        ⟨((select remain dims).prod : Nat), select remain dims, select remain periods,
          ints (select remain (place dims rank))⟩ ∧
    ∀ r, r ∈ ranks ↔ r < dims.prod ∧
      select (remain.map not) (place dims r) = select (remain.map not) (place dims rank)

section Subgrid
variable {dims : List Nat} {periods remain : List Bool}

theorem gridCarts_get {r : Nat} (hr : r < dims.prod) :
    (gridCarts dims periods)[r]? = some (gridCart dims periods r) := by
  rw [gridCarts, List.getElem?_map, List.getElem?_range hr]
  rfl

theorem select_fits (hpos : 0 < dims.prod) (hfits : ((dims.prod : Nat) : Int) ≤ intMax)
    (hlen : remain.length = dims.length) :
    (((select remain dims).prod : Nat) : Int) ≤ intMax ∧
      (((select (remain.map not) dims).prod : Nat) : Int) ≤ intMax ∧ 0 < (select remain dims).prod := by
  have hprod := select_prod remain hlen
  generalize (select remain dims).prod = a at *
  generalize (select (remain.map not) dims).prod = b at *
  have ha : 0 < a := Nat.pos_of_ne_zero fun hz => by simp [hz] at hprod; omega
  have hb : 0 < b := Nat.pos_of_ne_zero fun hz => by simp [hz] at hprod; omega
  have hle : a * 1 ≤ a * b := Nat.mul_le_mul_left a hb
  have hle' : 1 * b ≤ a * b := Nat.mul_le_mul_right b ha
  exact ⟨by omega, by omega, ha⟩

theorem subTable_get (hfits : ((dims.prod : Nat) : Int) ≤ intMax) (hlen : remain.length = dims.length)
    {r : Nat} (hr : r < dims.prod) :
    (subTable (gridCarts dims periods) remain)[r]? = some
      ⟨(number (select (remain.map not) dims) (select (remain.map not) (place dims r)) : Nat),
        (number (select remain dims) (select remain (place dims r)) : Nat)⟩ := by
  have hin := place_inside hr
  obtain ⟨hkey, hcolor, _⟩ := select_fits (by omega) hfits hlen
  rw [subTable, List.getElem?_map, gridCarts_get hr]
  simp only [Option.map_some, gridCart, select_ints]
  rw [horner_number (select_inside hin _) hcolor, horner_number (select_inside hin _) hkey]

theorem subTable_none {r : Nat} (hr : ¬r < dims.prod) :
    (subTable (gridCarts dims periods) remain)[r]? = none := by
  rw [subTable, List.getElem?_map, gridCarts, List.getElem?_map,
    List.getElem?_eq_none (by rw [List.length_range]; omega)]
  rfl

theorem sub_right (hfits : ((dims.prod : Nat) : Int) ≤ intMax) (hlen : remain.length = dims.length)
    (hsome : remain.all not = false) {rank : Nat} (hrank : rank < dims.prod) :
    SubRight dims periods remain rank := by
  obtain ⟨hkeys, hcolors, hpos⟩ := select_fits (by omega) hfits hlen
  have hlen' : ∀ r, remain.length = (place dims r).length := fun r => by rw [place_length, hlen]
  have hmask : (remain.map not).length = dims.length := by rw [List.length_map, hlen]
  have hget : ∀ {r : Nat}, r < dims.prod → (subTable (gridCarts dims periods) remain)[r]? = _ :=
    subTable_get hfits hlen
  generalize hcolor : number (select (remain.map not) dims) (select (remain.map not) (place dims rank)) =
    color at *
  generalize htable : subTable (gridCarts dims periods) remain = table at *
  have hmem : ∀ r, r ∈ newOrder table color ↔ r < dims.prod ∧
      select (remain.map not) (place dims r) = select (remain.map not) (place dims rank) := by
    intro r
    rw [mem_newOrder]
    by_cases hr : r < dims.prod
    · rw [hget hr]
      simp only [Option.map_some, Option.some.injEq, hr, true_and, ← hcolor, Nat.cast_inj]
      constructor
      · exact number_inj (select_inside (place_inside hr) _) (select_inside (place_inside hrank) _)
      · intro heq
        rw [heq]
    · rw [← htable, subTable_none hr]
      simp [hr]
  have hkey : ∀ r < dims.prod,
      keyAt table r = (number (select remain dims) (select remain (place dims r)) : Nat) := by
    intro r hr
    rw [keyAt, hget hr]
    rfl
  have hidx := idxOf_newOrder (n := (select remain dims).prod)
    (fun r (hr : r ∈ newOrder table color) => ⟨_, number_lt (select_inside (place_inside
      ((hmem r).mp hr).1) remain), hkey r ((hmem r).mp hr).1⟩)
    (fun r hr r' hr' heq => by
      obtain ⟨hlt, hsel⟩ := (hmem r).mp hr
      obtain ⟨hlt', hsel'⟩ := (hmem r').mp hr'
      rw [hkey r hlt, hkey r' hlt', Nat.cast_inj] at heq
      have hplace := select_inj (hlen' r) (hlen' r')
        (number_inj (select_inside (place_inside hlt) _) (select_inside (place_inside hlt') _) heq)
        (hsel.trans hsel'.symm)
      rw [← number_place hlt, hplace, number_place hlt'])
    (fun k hk => by
      obtain ⟨coords, hin, hsel, hrest⟩ := select_surj hlen (place_inside hk)
        (select_inside (place_inside hrank) (remain.map not))
      have hplace := place_number hin
      refine ⟨number dims coords, (hmem _).mpr ⟨number_lt hin, by rw [hplace, hrest]⟩, ?_⟩
      rw [hkey _ (number_lt hin), hplace, hsel, number_place hk])
    ((hmem rank).mpr ⟨hrank, rfl⟩)
  rw [hkey rank hrank, Nat.cast_inj] at hidx
  refine ⟨newOrder table color, ?_, hmem⟩
  have hin := select_inside (place_inside hrank) remain
  unfold cartSub
  simp only [gridCarts_get hrank, hsome, Bool.false_eq_true, if_false, htable, hget hrank, Option.map_some,
    Option.getD_some, hcolor]
  simp only [gridCart, product_fits hkeys, hidx, positionLoop_place (number_lt hin), place_number hin]

theorem select_none (hnone : remain.all not = true) {α : Type} (xs : List α) : select remain xs = [] := by
  induction remain generalizing xs with
  | nil => cases xs <;> rfl
  | cons b remain ih =>
    cases xs with
    | nil => rfl
    | cons x xs =>
      rw [List.all_cons, Bool.and_eq_true] at hnone
      cases b with
      | true => cases hnone.1
      | false => exact ih hnone.2 xs

theorem sub_iff (hpos : 0 < dims.prod) (hfits : ((dims.prod : Nat) : Int) ≤ intMax)
    (hlen : remain.length = dims.length) :
    (∀ rank < dims.prod, SubRight dims periods remain rank) ↔ true ∈ remain ∨ dims.prod = 1 := by
  have hall : remain.all not = true ↔ true ∉ remain := by
    simp only [List.all_eq_true, Bool.not_eq_true']
    constructor
    · intro h hmem
      cases h true hmem
    · intro h b hb
      cases b with
      | true => exact absurd hb h
      | false => rfl
  have hlength : (gridCarts dims periods).length = dims.prod := by simp [gridCarts]
  constructor
  · intro hsub
    by_contra hnot
    rw [not_or] at hnot
    have hnone := hall.mpr hnot.1
    -- the second process gets no communicator
    obtain ⟨ranks, heq, _⟩ := hsub 1 (by omega)
    have hsize : ¬(product [] > dims.prod) := by
      have hone : product [] = 1 := rfl
      omega
    unfold cartSub at heq
    simp only [gridCarts_get (show 1 < dims.prod by omega), hnone, if_true, hlength, cartCreate,
      if_neg hsize] at heq
    cases heq
  · intro hcase rank hrank
    cases hnone : remain.all not with
    | false => exact sub_right hfits hlen hnone hrank
    | true =>
      have hone : dims.prod = 1 := by
        rcases hcase with hmem | hone
        · exact absurd hmem (hall.mp hnone)
        · exact hone
      obtain rfl : rank = 0 := by omega
      refine ⟨[0], ?_, ?_⟩
      · unfold cartSub
        simp only [gridCarts_get hrank, hnone, if_true, hlength, hone, select_none hnone]
        rfl
      · intro r
        rw [List.mem_singleton]
        constructor
        · rintro rfl
          exact ⟨hrank, rfl⟩
        · intro h
          omega

end Subgrid

theorem gridCart_grid {periods : List Bool}
    (hfits : ((dims.prod : Nat) : Int) ≤ intMax) (hper : periods.length = dims.length)
    (hrank : rank < dims.prod) : Grid rank (gridCart dims periods rank) (place dims rank) :=
  ⟨rfl, hfits, hper, place_inside hrank, rfl, (number_place hrank).symm⟩

def shifted (dims : List Nat) (periods : List Bool) (rank direction : Nat) (disp : Int) : Int :=
  neighbour dims periods (place dims rank) direction (((place dims rank).getD direction 0 : Nat) + disp)

/-- A topology is built as it has to be unless the product wraps to a positive `int` that is not too
large; then coordinates and ranks are inverse, shifts are right unless a sum wraps in a periodic
dimension that does not divide 2^32 or `pos` is too short, and sub-grids unless none of several
processes keeps a dimension. -/
theorem cartesian_iff {dims : List Nat} {periods : List Bool} {size : Nat} (h : Lengths dims)
    (hper : periods.length = dims.length) (hpos : 0 < size) (hint : (size : Int) ≤ intMax) :
    (∀ reorder, Builds size dims periods reorder ↔
        dims.prod ≤ size ∨ toInt (dims.prod : Nat) ≤ 0 ∨
          size < toInt (dims.prod : Nat)) ∧
      (dims.prod ≤ size → ∀ own < dims.prod,
        (∀ rank < dims.prod, ∃ coords, Inside dims coords ∧
          cartCoords (gridCart dims periods own) rank = some (ints coords) ∧
          cartRank (gridCart dims periods own) (ints coords) = rank) ∧
        (∀ coords, Inside dims coords → ∃ rank < dims.prod,
          cartRank (gridCart dims periods own) (ints coords) = (rank : Nat) ∧
          cartCoords (gridCart dims periods own) rank = some (ints coords)) ∧
        (∀ direction < dims.length, ∀ disp : Int, -(2 ^ 31) ≤ disp → disp ≤ intMax →
          (cartShift own (gridCart dims periods own) direction disp =
              .ranks (shifted dims periods own direction (-disp)) (shifted dims periods own direction disp) ↔
            disp = 0 ∨ dims.length ≤ maxCartDim ∧
              (periods.getD direction false = false ∨ ((dims.getD direction 0 : Nat) : Int) ∣ 2 ^ 32 ∨
                ((place dims own).getD direction 0 : Nat) + disp ≤ intMax ∧
                  ((place dims own).getD direction 0 : Nat) - disp ≤ intMax)) ∧
          ∀ other < dims.prod, shifted dims periods own direction disp = other ↔
            shifted dims periods other direction (-disp) = own)) ∧
      (dims.prod ≤ size → ∀ remain : List Bool, remain.length = dims.length →
        ((∀ rank < dims.prod, SubRight dims periods remain rank) ↔ true ∈ remain ∨ dims.prod = 1)) := by
  refine ⟨builds_iff h hpos hint periods, ?_, ?_⟩
  · intro hsize own hown
    have hfits : ((dims.prod : Nat) : Int) ≤ intMax := by omega
    have hgrid := gridCart_grid hfits hper hown
    refine ⟨?_, ?_, ?_⟩
    · intro rank hrank
      refine ⟨place dims rank, place_inside hrank, positionLoop_place hrank, ?_⟩
      exact (cartRank_ints hgrid (place_inside hrank)).trans (congrArg Int.ofNat (number_place hrank))
    · intro coords hin
      refine ⟨number dims coords, number_lt hin, cartRank_ints hgrid hin, ?_⟩
      rw [cartCoords]
      exact (positionLoop_place (number_lt hin)).trans (by rw [place_number hin])
    · intro direction hdir disp hlo hhi
      refine ⟨shift_iff hgrid hdir hlo hhi, ?_⟩
      intro other hother
      have hinverse := neighbour_inverse (place_inside hown) (place_inside hother) periods hdir disp
      rwa [number_place hown, number_place hother] at hinverse
  · intro hsize remain hlen
    exact sub_iff h.prod_pos (by omega) hlen

theorem cartesian_twelve :
    (cartCoords (gridCart [4, 3] [true, false] 7) 11 = some [3, 2]) ∧
      (∀ reorder, Builds 13 [4, 3] [true, false] reorder ↔
        ([4, 3] : List Nat).prod ≤ 13 ∨ toInt ([4, 3] : List Nat).prod ≤ 0 ∨
          (13 : Nat) < toInt ([4, 3] : List Nat).prod) :=
  ⟨by decide, (@cartesian_iff [4, 3] [true, false] 13 ⟨by decide, by decide, by decide⟩ rfl
    (by decide) (by decide)).1⟩

theorem cartesian_fails :
    cartCreate 2 0 [3, 1431655766] [false, false] false = .divideByZero ∧
      cartShift 1 (gridCart [3] [true] 1) 0 (2 ^ 31 - 1) = .ranks 0 1 ∧
      shifted [3] [true] 1 0 (2 ^ 31 - 1) = 2 ∧
      cartSub (gridCarts [2] [false]) 1 [false] = .commNull := by
  decide

end FgMpi.Topo.Cartesian
