import FgMpi.Drain.LoadIov

/-! What is documented of the segment functions. -/

namespace FgMpi.Drain.Placing
open Drain.LoadIov

/-- A datatype as a stream of bytes: `place` is the address of a byte, `whole` holds between two basic elements, no
basic element is larger than `element`; `oneLevel` says that the dataloop has one level, and `streamOff` how far the
segment has come. -/
structure Layout (δ σ : Type) where
  place : δ → Int → Int
  whole : δ → Int → Prop
  element : δ → Int
  oneLevel : δ → Prop
  streamOff : σ → Int

section Documented
variable {δ σ : Type}

def Layout.places (L : Layout δ σ) (d : δ) (first last : Int) : List Int :=
  (List.range (last - first).toNat).map fun k : Nat => L.place d (first + k)

def addresses (pieces : List (Int × Nat)) : List Int :=
  pieces.flatMap fun piece => (List.range piece.2).map fun k : Nat => piece.1 + k

def Layout.Reaches (L : Layout δ σ) (d : δ) (segment : σ) (first : Int) : Prop :=
  L.streamOff segment ≤ first ∨ L.oneLevel d

/-- What the segment functions do when they can go on: they take whole basic elements, in order, and stop at `last`
if it is between two of them and the IOV has room. -/
structure Documented (S : Segments δ σ) (L : Layout δ σ) : Prop where
  init : L.streamOff S.init = 0
  whole_zero : ∀ d, L.whole d 0
  element_le : ∀ d, L.element d ≤ srbufSize
  vector : ∀ d segment first last n, 0 < n → 0 ≤ first → first < last → L.Reaches d segment first →
    L.whole d first → L.whole d last →
    ∃ segment' last' pieces, S.vector d segment first last n = (segment', last', pieces) ∧ first < last' ∧
      last' ≤ last ∧ L.whole d last' ∧ L.streamOff segment' = last' ∧ pieces.length ≤ n ∧ pieces ≠ [] ∧
      addresses pieces = L.places d first last'
  unpack : ∀ d segment first last, 0 ≤ first → first < last → L.Reaches d segment first → L.whole d first →
    ∃ segment' last' places, S.unpack d segment first last = (segment', last', places) ∧ first ≤ last' ∧
      last' ≤ last ∧ L.whole d last' ∧ L.streamOff segment' = last' ∧ last - last' < L.element d ∧
      (L.whole d last → last' = last) ∧ places = L.places d first last'

end Documented

section Placed
variable {δ σ β : Type} (L : Layout δ σ) (r : Receive δ β)

def placed (n : Int) : List (Int × β) :=
  (List.range n.toNat).map fun k : Nat => (L.place r.datatype (r.segmentFirst + k), r.message.bytes k)

variable {L r}

theorem placed_length (n : Int) : (placed L r n).length = n.toNat := by
  rw [placed, List.length_map, List.length_range]

theorem placed_add {a b : Int} (ha : 0 ≤ a) (hb : 0 ≤ b) :
    placed L r (a + b) = placed L r a ++
      (L.places r.datatype (r.segmentFirst + a) (r.segmentFirst + a + b)).mapIdx fun k address =>
        (address, r.message.bytes (a.toNat + k)) := by
  have hlength : (r.segmentFirst + a + b - (r.segmentFirst + a)).toNat = b.toNat := by omega
  unfold placed Layout.places
  rw [Int.toNat_add ha hb, List.range_add, List.map_append, hlength]
  congr 1
  apply List.ext_getElem
  · simp
  · intro k hk _
    have hplace : r.segmentFirst + (max a 0 + k) = r.segmentFirst + a + k := by omega
    simp [hplace]

end Placed

section Filling
variable {δ σ β : Type} {r : Request δ σ β}

theorem foldl_fill_user (pieces : List (Int × Nat)) :
    (pieces.map fun piece => Iov.user piece.1 piece.2).foldl fill r = { r with
      written := r.written ++ (addresses pieces).mapIdx fun k address =>
        (address, r.receive.message.bytes (r.consumed + k))
      consumed := r.consumed + (addresses pieces).length } := by
  induction pieces generalizing r with
  | nil => simp [addresses]
  | cons piece pieces ih =>
    rw [List.map_cons, List.foldl_cons, ih]
    have hhead : addresses (piece :: pieces) =
        ((List.range piece.2).map fun k : Nat => piece.1 + k) ++ addresses pieces := rfl
    rw [hhead]
    have hfirst : ((List.range piece.2).map fun k : Nat => piece.1 + k).mapIdx
        (fun k address => (address, r.receive.message.bytes (r.consumed + k))) =
          (List.range piece.2).map fun k : Nat => (piece.1 + k, r.receive.message.bytes (r.consumed + k)) := by
      apply List.ext_getElem <;> simp
    simp only [fill, List.mapIdx_append, List.length_append, List.length_map, List.length_range, List.append_assoc,
      hfirst, Nat.add_assoc, Nat.add_comm piece.2]

end Filling

end FgMpi.Drain.Placing
