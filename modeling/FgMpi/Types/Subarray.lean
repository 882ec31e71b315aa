import FgMpi.Machine.MixedRadix
import FgMpi.Types.Bounds

/-! `Type_convert_subarray` (`mpid/common/datatype/dataloop/subarray_support.c`). -/

namespace FgMpi.Types.Subarray
open Machine.MixedRadix Types.Typemap Types.Constructors Types.Bounds

/-- An entry of `array_of_sizes`, `array_of_subsizes` and `array_of_starts`. -/
structure Dim where
  size : Nat
  subsize : Nat
  start : Nat
  pos : 1 ≤ subsize
  inside : start + subsize ≤ size

instance : Inhabited Dim := ⟨⟨1, 1, 0, le_refl 1, le_refl 1⟩⟩

inductive Order
  | fortran
  | c

/-- A type under construction: what is stored of it, and where its copies of the old type start.  The
extents are those that are stored. -/
structure Placed where
  handle : Handle
  offsets : List Int

/-- An element type.  Every constructor stores an extent that is the distance of the bounds. -/
structure Element where
  handle : Handle
  extent_eq : handle.old.extent = handle.old.ub - handle.old.lb

def Element.extent (x : Element) : Int := x.handle.old.extent

def contiguousImpl (left : Left) (count : Nat) (t : Placed) : Placed where
  handle := .derived (typeContiguous left count t.handle)
  offsets := sums (steps count t.handle.old.extent) t.offsets

/-- `MPIR_Type_vector_impl` and `MPIR_Type_hvector_impl`. -/
def vectorImpl (left : Left) (count blocklength : Nat) (stride : Int) (strideinbytes : Bool) (t : Placed) :
    Placed where
  handle := .derived (typeVector left count blocklength stride strideinbytes t.handle)
  offsets := sums (vectorOffsets count blocklength
    (effDisp strideinbytes t.handle.old.extent stride) t.handle.old.extent) t.offsets

section Loops
variable (left : Left) (dims : List Dim)

def dim (i : Nat) : Dim := dims.getD i default

/-- `for (i=2; i<ndims; i++)`; the first argument is the number of rounds left. -/
def fortranTypeLoop : Nat → Nat → Int → Placed → Placed
  | 0, _, _, tmp1 => tmp1
  | n + 1, i, size, tmp1 =>
    let size := size * (dim dims (i - 1)).size
    fortranTypeLoop n (i + 1) size (vectorImpl left (dim dims i).subsize 1 size true tmp1)

/-- `for (i=1; i<ndims; i++)`. -/
def fortranDispLoop : Nat → Nat → Int → Int → Int
  | 0, _, _, disp => disp
  | n + 1, i, size, disp =>
    let size := size * (dim dims (i - 1)).size
    fortranDispLoop n (i + 1) size (disp + size * (dim dims i).start)

/-- `for (i=ndims-3; i>=0; i--)`; the argument is `i + 1`. -/
def cTypeLoop : Nat → Int → Placed → Placed
  | 0, _, tmp1 => tmp1
  | i + 1, size, tmp1 =>
    let size := size * (dim dims (i + 1)).size
    cTypeLoop i size (vectorImpl left (dim dims i).subsize 1 size true tmp1)

/-- `for (i=ndims-2; i>=0; i--)`. -/
def cDispLoop : Nat → Int → Int → Int
  | 0, _, disp => disp
  | i + 1, size, disp =>
    let size := size * (dim dims (i + 1)).size
    cDispLoop i size (disp + size * (dim dims i).start)

/-- `tmp1` and `disps[1]` before it is multiplied by the extent. -/
def boxType (order : Order) (x : Placed) : Placed × Int :=
  let ndims := dims.length
  let extent := x.handle.old.extent
  match order with
  | .fortran =>
    (if ndims = 1 then contiguousImpl left (dim dims 0).subsize x
      else fortranTypeLoop left dims (ndims - 2) 2 ((dim dims 0).size * extent)
        (vectorImpl left (dim dims 1).subsize (dim dims 0).subsize (dim dims 0).size false x),
      fortranDispLoop dims (ndims - 1) 1 1 (dim dims 0).start)
  | .c =>
    (if ndims = 1 then contiguousImpl left (dim dims 0).subsize x
      else cTypeLoop left dims (ndims - 2) ((dim dims (ndims - 1)).size * extent)
        (vectorImpl left (dim dims (ndims - 2)).subsize (dim dims (ndims - 1)).subsize
          (dim dims (ndims - 1)).size false x),
      cDispLoop dims (ndims - 1) 1 (dim dims (ndims - 1)).start)

end Loops

def typeConvertSubarray (cfg : Config) (left : Left) (order : Order) (dims : List Dim) (x : Element) :
    Placed :=
  let extent := x.extent
  let (tmp1, disp) := boxType left dims order ⟨x.handle, [0]⟩
  let disp1 := disp * extent
  let disp2 := dims.foldl (fun (disp : Int) (d : Dim) => disp * d.size) extent
  { handle := .derived (typeStruct cfg left
      [⟨1, 0, .builtin .lb⟩, ⟨1, disp1, tmp1.handle⟩, ⟨1, disp2, .builtin .ub⟩])
    offsets := tmp1.offsets.map (disp1 + ·) }

def Order.slowestFirst : Order → List Dim → List Dim
  | .fortran, dims => dims.reverse
  | .c, dims => dims

def sizes (dims : List Dim) : List Nat := dims.map Dim.size
def first (dims : List Dim) : Nat := number (sizes dims) (dims.map Dim.start)
def last (dims : List Dim) : Nat := number (sizes dims) (dims.map fun d => d.start + (d.subsize - 1))

def box : List Dim → List (List Nat)
  | [] => [[]]
  | d :: ds => (List.range d.subsize).flatMap fun j => (box ds).map ((d.start + j) :: ·)

def span (e : Int) : List Dim → List Int
  | [] => [0]
  | d :: ds => sums (steps d.subsize (e * (sizes ds).prod)) (span e ds)

def reach (dims : List Dim) : Nat := number (sizes dims) (dims.map fun d => d.subsize - 1)

theorem first_add_reach (dims : List Dim) : first dims + reach dims = last dims := by
  induction dims with
  | nil => rfl
  | cons d ds ih =>
    simp only [first, reach, last, sizes, List.map_cons, number] at ih ⊢
    rw [← ih, Nat.add_mul]
    omega

theorem span_box (e : Int) (dims : List Dim) :
    (span e dims).map (first dims * e + ·) = (box dims).map fun c => number (sizes dims) c * e := by
  induction dims with
  | nil => simp [span, box, first, sizes, number]
  | cons d ds ih =>
    simp only [span, box, sums, steps, List.map_flatMap, List.flatMap_map, List.map_map]
    refine List.flatMap_congr ?_
    intro j _
    have hmap := congrArg (List.map (((d.start + j) * (sizes ds).prod : Int) * e + ·)) ih
    simp only [List.map_map] at hmap
    refine Eq.trans (List.map_congr_left ?_) (hmap.trans (List.map_congr_left ?_))
    · intro o _
      simp only [Function.comp, first, sizes, List.map_cons, number]
      push_cast
      ring
    · intro c _
      simp only [Function.comp, sizes, List.map_cons, number]
      push_cast
      ring

variable {n i : Nat}

theorem min_steps (hn : 1 ≤ n) (e : Int) (p : Nat) :
    (steps n (e * p)).min? = some (min 0 (e * ((n - 1 : Nat) * p : Nat))) := by
  rw [min?_steps (by omega), Option.some.injEq]
  have hcast : e * ((n - 1 : Nat) * p : Nat) = e * p * ((n : Int) - 1) := by
    push_cast [Nat.cast_sub hn]
    ring
  have hn' : 0 ≤ (n : Int) - 1 := by omega
  rw [hcast]
  split
  · rename_i he
    exact (min_eq_left (mul_nonneg he hn')).symm
  · rename_i he
    exact (min_eq_right (mul_nonpos_of_nonpos_of_nonneg (by omega) hn')).symm

theorem max_steps (hn : 1 ≤ n) (e : Int) (p : Nat) :
    (steps n (e * p)).max? = some (max 0 (e * ((n - 1 : Nat) * p : Nat))) := by
  rw [max?_steps (by omega), Option.some.injEq]
  have hcast : e * ((n - 1 : Nat) * p : Nat) = e * p * ((n : Int) - 1) := by
    push_cast [Nat.cast_sub hn]
    ring
  have hn' : 0 ≤ (n : Int) - 1 := by omega
  rw [hcast]
  split
  · rename_i he
    exact (max_eq_right (mul_nonneg he hn')).symm
  · rename_i he
    exact (max_eq_left (mul_nonpos_of_nonpos_of_nonneg (by omega) hn')).symm

theorem min_add_min (e : Int) (a b : Nat) : min 0 (e * a) + min 0 (e * b) = min 0 (e * (a + b : Nat)) := by
  have ha : (0 : Int) ≤ a := Int.natCast_nonneg a
  have hb : (0 : Int) ≤ b := Int.natCast_nonneg b
  push_cast
  rcases le_total 0 e with he | he
  · have hea := mul_nonneg he ha
    have heb := mul_nonneg he hb
    rw [mul_add]
    omega
  · have hea := mul_nonpos_of_nonpos_of_nonneg he ha
    have heb := mul_nonpos_of_nonpos_of_nonneg he hb
    rw [mul_add]
    omega

theorem max_add_max (e : Int) (a b : Nat) : max 0 (e * a) + max 0 (e * b) = max 0 (e * (a + b : Nat)) := by
  have hmin := min_add_min e a b
  push_cast at hmin ⊢
  rw [mul_add] at hmin ⊢
  omega

structure Built (x : Element) (dims : List Dim) (t : Placed) : Prop where
  derived : ∃ d, t.handle = .derived d
  offsets : t.offsets = span x.extent dims
  lb : t.handle.old.lb = x.handle.old.lb + min 0 (x.extent * reach dims)
  ub : t.handle.old.ub = x.handle.old.ub + max 0 (x.extent * reach dims)
  stickyLb : t.handle.old.hasStickyLb = x.handle.old.hasStickyLb
  stickyUb : t.handle.old.hasStickyUb = x.handle.old.hasStickyUb

variable {left : Left} {x : Element}

theorem contiguous_built (d : Dim) : Built x [d] (contiguousImpl left d.subsize ⟨x.handle, [0]⟩) := by
  have hp := d.pos
  have hlo := min_steps hp x.extent 1
  have hhi := max_steps hp x.extent 1
  have hreach : reach [d] = (d.subsize - 1) * 1 := by simp [reach, sizes, number]
  simp only [Nat.cast_one, Int.mul_one] at hlo hhi
  have hspread := contiguous_spread left (show d.subsize ≠ 0 by omega) x.handle x.extent_eq hlo hhi
  refine ⟨⟨_, rfl⟩, ?_, ?_, ?_, hspread.stickyLb, hspread.stickyUb⟩
  · simp [contiguousImpl, span, sizes, Element.extent]
  · rw [hreach]
    exact hspread.lb
  · rw [hreach]
    exact hspread.ub

theorem vector_built (d' d : Dim) :
    Built x [d', d] (vectorImpl left d'.subsize d.subsize d.size false ⟨x.handle, [0]⟩) := by
  have hp := d.pos
  have hp' := d'.pos
  have hstride : effDisp false x.handle.old.extent d.size = x.extent * d.size := Int.mul_comm _ _
  have hlo := min_steps hp x.extent 1
  have hhi := max_steps hp x.extent 1
  have hreach : reach [d', d] = (d'.subsize - 1) * d.size + (d.subsize - 1) * 1 := by
    simp [reach, sizes, number]
  simp only [Nat.cast_one, Int.mul_one] at hlo hhi
  have hspread := vector_spread left (show d'.subsize ≠ 0 by omega) (show d.subsize ≠ 0 by omega)
    d.size false x.handle (by rw [hstride]; exact min_steps hp' x.extent d.size)
    (by rw [hstride]; exact max_steps hp' x.extent d.size) hlo hhi
  refine ⟨⟨_, rfl⟩, ?_, ?_, ?_, hspread.stickyLb, hspread.stickyUb⟩
  · simp only [vectorImpl, vectorOffsets, hstride, span, sizes, sums_sums]
    simp [Element.extent]
  · rw [hreach, ← min_add_min]
    exact hspread.lb
  · rw [hreach, ← max_add_max]
    exact hspread.ub

theorem hvector_built {d : Dim} {ds : List Dim} {t : Placed} (h : Built x ds t) :
    Built x (d :: ds) (vectorImpl left d.subsize 1 (x.extent * (sizes ds).prod) true t) := by
  have hp := d.pos
  have hreach : reach (d :: ds) = (d.subsize - 1) * (sizes ds).prod + reach ds := by
    simp [reach, sizes, number]
  have hone : steps 1 t.handle.old.extent = [0] := by simp [steps]
  have hspread := vector_spread left (show d.subsize ≠ 0 by omega) Nat.one_ne_zero
    (x.extent * (sizes ds).prod) true t.handle (min_steps hp x.extent (sizes ds).prod)
    (max_steps hp x.extent (sizes ds).prod)
    (show (steps 1 t.handle.old.extent).min? = some 0 by rw [hone]; rfl)
    (show (steps 1 t.handle.old.extent).max? = some 0 by rw [hone]; rfl)
  have hlb := hspread.lb
  have hub := hspread.ub
  have hmin := min_add_min x.extent ((d.subsize - 1) * (sizes ds).prod) (reach ds)
  have hmax := max_add_max x.extent ((d.subsize - 1) * (sizes ds).prod) (reach ds)
  rw [h.lb] at hlb
  rw [h.ub] at hub
  refine ⟨⟨_, rfl⟩, ?_, ?_, ?_, hspread.stickyLb.trans h.stickyLb, hspread.stickyUb.trans h.stickyUb⟩
  · simp only [vectorImpl, vectorOffsets, hone, effDisp, if_true, span, sums_sums, h.offsets]
    simp [sums]
  · rw [hreach, ← hmin]
    simp only [vectorImpl]
    omega
  · rw [hreach, ← hmax]
    simp only [vectorImpl]
    omega

variable {dims : List Dim}

theorem drop_dim (h : i < dims.length) : dims.drop i = dim dims i :: dims.drop (i + 1) := by
  rw [List.drop_eq_getElem_cons h, dim, List.getD_eq_getElem?_getD, List.getElem?_eq_getElem h,
    Option.getD_some]

theorem cTypeLoop_built (h : i < dims.length) {size : Int} {t : Placed}
    (hsize : size = x.extent * (sizes (dims.drop (i + 1))).prod) (ht : Built x (dims.drop i) t) :
    Built x dims (cTypeLoop left dims i size t) := by
  induction i generalizing size t with
  | zero => exact ht
  | succ i ih =>
    have hsize' : size * (dim dims (i + 1)).size = x.extent * (sizes (dims.drop (i + 1))).prod := by
      rw [drop_dim h, hsize]
      simp only [sizes, List.map_cons, List.prod_cons]
      push_cast
      ring
    apply ih (by omega) hsize'
    rw [drop_dim (show i < dims.length by omega), hsize']
    exact hvector_built ht

theorem cDispLoop_eq (h : i < dims.length) {size disp : Int}
    (hsize : size = (sizes (dims.drop (i + 1))).prod) (hdisp : disp = first (dims.drop i)) :
    cDispLoop dims i size disp = first dims := by
  induction i generalizing size disp with
  | zero => exact hdisp
  | succ i ih =>
    have hsize' : size * (dim dims (i + 1)).size = (sizes (dims.drop (i + 1))).prod := by
      rw [drop_dim h, hsize]
      simp only [sizes, List.map_cons, List.prod_cons]
      push_cast
      ring
    apply ih (by omega) hsize'
    rw [drop_dim (show i < dims.length by omega), hsize', hdisp]
    simp only [first, sizes, List.map_cons, number]
    push_cast
    ring

theorem dim_reverse {j : Nat} (h : i + j + 1 = dims.length) : dim dims.reverse j = dim dims i := by
  rw [dim, dim, List.getD_eq_getElem?_getD, List.getD_eq_getElem?_getD,
    List.getElem?_reverse (by omega), show dims.length - 1 - j = i by omega]

theorem fortranTypeLoop_eq (h : i + n = dims.length) (hi : 1 ≤ i) (size : Int) (t : Placed) :
    fortranTypeLoop left dims n i size t = cTypeLoop left dims.reverse n size t := by
  induction n generalizing i size t with
  | zero => rfl
  | succ n ih =>
    rw [fortranTypeLoop, cTypeLoop, dim_reverse (show i + n + 1 = dims.length by omega),
      dim_reverse (show i - 1 + (n + 1) + 1 = dims.length by omega)]
    exact ih (by omega) (by omega) _ _

theorem fortranDispLoop_eq (h : i + n = dims.length) (hi : 1 ≤ i) (size disp : Int) :
    fortranDispLoop dims n i size disp = cDispLoop dims.reverse n size disp := by
  induction n generalizing i size disp with
  | zero => rfl
  | succ n ih =>
    rw [fortranDispLoop, cDispLoop, dim_reverse (show i + n + 1 = dims.length by omega),
      dim_reverse (show i - 1 + (n + 1) + 1 = dims.length by omega)]
    exact ih (by omega) (by omega) _ _

theorem boxType_fortran (h : dims ≠ []) (t : Placed) :
    boxType left dims .fortran t = boxType left dims.reverse .c t := by
  have hpos := List.length_pos_of_ne_nil h
  simp only [boxType, List.length_reverse]
  rw [fortranDispLoop_eq (by omega) (le_refl 1),
    dim_reverse (show 0 + (dims.length - 1) + 1 = dims.length by omega)]
  split
  · rename_i hone
    rw [dim_reverse (show 0 + 0 + 1 = dims.length by omega)]
  · rename_i hone
    rw [fortranTypeLoop_eq (by omega) (by omega),
      dim_reverse (show 1 + (dims.length - 2) + 1 = dims.length by omega)]

theorem boxType_c (h : dims ≠ []) :
    Built x dims (boxType left dims .c ⟨x.handle, [0]⟩).1 ∧
      (boxType left dims .c ⟨x.handle, [0]⟩).2 = first dims := by
  have hpos := List.length_pos_of_ne_nil h
  have hlast : dims.drop (dims.length - 1) = [dim dims (dims.length - 1)] := by
    rw [drop_dim (by omega), List.drop_of_length_le (by omega)]
  constructor
  · simp only [boxType]
    split
    · rename_i hone
      have hdims : dims = [dim dims 0] := by
        rw [hone] at hlast
        exact hlast
      have hbuilt : Built x [dim dims 0] (contiguousImpl left _ _) := contiguous_built (dim dims 0)
      rw [← hdims] at hbuilt
      exact hbuilt
    · rename_i hone
      have hdrop : dims.drop (dims.length - 2) =
          [dim dims (dims.length - 2), dim dims (dims.length - 1)] := by
        rw [drop_dim (by omega), show dims.length - 2 + 1 = dims.length - 1 by omega, hlast]
      apply cTypeLoop_built (by omega)
      · rw [show dims.length - 2 + 1 = dims.length - 1 by omega, hlast]
        simp only [sizes, List.map_cons, List.map_nil, List.prod_cons, List.prod_nil, Nat.mul_one]
        exact Int.mul_comm _ _
      · rw [hdrop]
        exact vector_built _ _
  · apply cDispLoop_eq (by omega)
    · rw [List.drop_of_length_le (by omega)]
      rfl
    · rw [hlast]
      simp [first, sizes, number]

theorem boxType_built (h : dims ≠ []) (order : Order) :
    Built x (order.slowestFirst dims) (boxType left dims order ⟨x.handle, [0]⟩).1 ∧
      (boxType left dims order ⟨x.handle, [0]⟩).2 = first (order.slowestFirst dims) := by
  cases order with
  | fortran =>
    rw [boxType_fortran h]
    exact boxType_c (by simpa [Order.slowestFirst] using h)
  | c => exact boxType_c h

theorem foldl_sizes (dims : List Dim) (e : Int) :
    dims.foldl (fun (disp : Int) (d : Dim) => disp * d.size) e = e * (sizes dims).prod := by
  induction dims generalizing e with
  | nil => simp [sizes]
  | cons d ds ih =>
    rw [List.foldl_cons, ih]
    simp only [sizes, List.map_cons, List.prod_cons]
    push_cast
    ring

theorem typeStruct_between (cfg : Config) (left : Left) (d : Dtype) (disp1 disp2 : Int) :
    let t := typeStruct cfg left
      [⟨1, 0, .builtin .lb⟩, ⟨1, disp1, .derived d⟩, ⟨1, disp2, .builtin .ub⟩]
    t.lb = (if d.hasStickyLb then min 0 (d.lb + disp1) else 0) ∧
      t.ub = (if d.hasStickyUb then max (d.ub + disp1) disp2 else disp2) ∧ t.extent = t.ub - t.lb := by
  have hbounds : ∀ disp lb ub e : Int, blockLbUb 1 disp lb ub e = (lb + disp, ub + disp) := by
    intro disp lb ub e
    simp [blockLbUb]
  have hlow : ∀ a b : Int, (if a > b then b else a) = min a b := by
    intro a b
    split <;> omega
  have hhigh : ∀ a b : Int, (if a < b then b else a) = max a b := by
    intro a b
    split <;> omega
  refine ⟨?_, ?_, rfl⟩
  · cases hlb : d.hasStickyLb <;>
      simp [typeStruct, Scan.member, Scan.bounds, Member.hasStickyLb, Member.hasStickyUb, Member.isMarker,
        Member.tmp, hbounds, keepLowest, hlb, hlow, Builtin.size]
  · cases hub : d.hasStickyUb <;>
      simp [typeStruct, Scan.member, Scan.bounds, Member.hasStickyLb, Member.hasStickyUb, Member.isMarker,
        Member.tmp, hbounds, keepHighest, paddedUb, hub, hhigh, Builtin.size]

/-- The outermost elements of the box carry their own markers, if they have any, inside of the array. -/
def MarkersInside (x : Element) (dims : List Dim) : Prop :=
  (x.handle.old.hasStickyLb = true →
      0 ≤ x.handle.old.lb + min (first dims * x.extent) (last dims * x.extent)) ∧
    (x.handle.old.hasStickyUb = true →
      x.handle.old.ub + max (first dims * x.extent) (last dims * x.extent) ≤
        x.extent * (sizes dims).prod)

theorem min_first_last (dims : List Dim) (e : Int) :
    first dims * e + min 0 (e * reach dims) = min (first dims * e) (last dims * e) := by
  have hlast : (last dims : Int) * e = first dims * e + e * reach dims := by
    rw [← first_add_reach]
    push_cast
    ring
  omega

theorem max_first_last (dims : List Dim) (e : Int) :
    first dims * e + max 0 (e * reach dims) = max (first dims * e) (last dims * e) := by
  have hlast : (last dims : Int) * e = first dims * e + e * reach dims := by
    rw [← first_add_reach]
    push_cast
    ring
  omega

theorem prod_slowestFirst (order : Order) (dims : List Dim) :
    (sizes (order.slowestFirst dims)).prod = (sizes dims).prod := by
  cases order with
  | fortran => simp [Order.slowestFirst, sizes, List.prod_reverse]
  | c => rfl

/-- The elements of the box in the order in which they are stored, between bounds that are those of the
array if and only if no marker of an element is outside of it. -/
theorem typeConvertSubarray_box (cfg : Config) (left : Left) (order : Order) (d : Dim) (ds : List Dim)
    (x : Element) :
    let t := typeConvertSubarray cfg left order (d :: ds) x
    let dims := order.slowestFirst (d :: ds)
    t.offsets = (box dims).map (fun c => (number (sizes dims) c : Int) * x.extent) ∧
      (t.handle.old.lb = 0 ∧ t.handle.old.extent = x.extent * (sizes dims).prod ↔
        MarkersInside x dims) := by
  have hboth : Built x _ (boxType left (d :: ds) order ⟨x.handle, [0]⟩).1 ∧ _ :=
    boxType_built (List.cons_ne_nil d ds) order
  have hprod := prod_slowestFirst order (d :: ds)
  intro t dims
  simp only [t, dims, typeConvertSubarray]
  clear t dims
  generalize order.slowestFirst (d :: ds) = dims at hboth hprod ⊢
  generalize boxType left (d :: ds) order ⟨x.handle, [0]⟩ = b at hboth ⊢
  obtain ⟨⟨handle, offsets⟩, disp⟩ := b
  obtain ⟨⟨⟨dtype, rfl⟩, hoffsets, hlb, hub, hslb, hsub⟩, rfl⟩ := hboth
  have hmin := min_first_last dims x.extent
  have hmax := max_first_last dims x.extent
  constructor
  · rw [hoffsets]
    exact span_box x.extent dims
  · obtain ⟨hnewlb, hnewub, hext⟩ := typeStruct_between cfg left dtype
      (first dims * x.extent) (x.extent * (sizes dims).prod)
    change dtype.lb = _ at hlb
    change dtype.ub = _ at hub
    change dtype.hasStickyLb = _ at hslb
    change dtype.hasStickyUb = _ at hsub
    rw [foldl_sizes, ← hprod]
    change (typeStruct cfg left _).lb = 0 ∧ (typeStruct cfg left _).extent = _ ↔ _
    rw [hext, hnewlb, hnewub, hslb, hsub, hlb, hub]
    unfold MarkersInside
    clear hlb hub hslb hsub hnewlb hnewub hext
    cases x.handle.old.hasStickyLb <;> cases x.handle.old.hasStickyUb <;>
      simp only [Bool.false_eq_true, if_false, if_true, false_implies, true_implies,
        true_and, and_true, iff_true] <;> omega

def marked : Element where
  handle := .derived (typeStruct plain ⟨0, 0⟩
    [⟨1, -4, .builtin .lb⟩, ⟨1, 0, .builtin (.basic ⟨4, .other, int_pos⟩)⟩])
  extent_eq := by decide

theorem marked_outside :
    (typeConvertSubarray plain ⟨0, 0⟩ .c [⟨2, 1, 0, by decide, by decide⟩] marked).handle.old.lb = -4 ∧
      (typeConvertSubarray plain ⟨0, 0⟩ .c [⟨2, 1, 0, by decide, by decide⟩] marked).handle.old.extent = 20 ∧
      marked.extent * (sizes [⟨2, 1, 0, by decide, by decide⟩]).prod = 16 := by
  decide

end FgMpi.Types.Subarray
