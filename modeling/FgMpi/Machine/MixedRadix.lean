import Mathlib.Algebra.BigOperators.Group.List.Basic

/-! A place in a box of some lengths and its number, the last coordinate running fastest. -/

namespace FgMpi.Machine.MixedRadix

/-- Coordinates that are below the lengths of the box. -/
abbrev Inside (dims coords : List Nat) : Prop := List.Forall₂ (fun d c => c < d) dims coords

def number : List Nat → List Nat → Nat
  | _ :: dims, c :: coords => c * dims.prod + number dims coords
  | _, _ => 0

def place : List Nat → Nat → List Nat
  | [], _ => []
  | _ :: dims, n => n / dims.prod :: place dims (n % dims.prod)

variable {dims coords : List Nat}

theorem number_lt (h : Inside dims coords) : number dims coords < dims.prod := by
  induction h with
  | nil => exact Nat.one_pos
  | @cons d c dims coords hc _ ih =>
    have hmul : (c + 1) * dims.prod ≤ d * dims.prod := Nat.mul_le_mul_right _ hc
    rw [Nat.succ_mul] at hmul
    rw [number, List.prod_cons]
    omega

theorem place_number (h : Inside dims coords) : place dims (number dims coords) = coords := by
  induction h with
  | nil => rfl
  | @cons d c dims coords _ htail ih =>
    have hlt := number_lt htail
    have hpos : 0 < dims.prod := by omega
    rw [number, place, Nat.mul_comm c, Nat.mul_add_div hpos, Nat.div_eq_of_lt hlt, Nat.add_zero,
      Nat.mul_add_mod, Nat.mod_eq_of_lt hlt, ih]

theorem place_inside {n : Nat} (h : n < dims.prod) : Inside dims (place dims n) := by
  induction dims generalizing n with
  | nil => exact .nil
  | cons d dims ih =>
    rw [List.prod_cons] at h
    have hpos : 0 < dims.prod := Nat.pos_of_ne_zero fun hz => by simp [hz] at h
    exact .cons ((Nat.div_lt_iff_lt_mul hpos).mpr h) (ih (Nat.mod_lt n hpos))

theorem number_place {n : Nat} (h : n < dims.prod) : number dims (place dims n) = n := by
  induction dims generalizing n with
  | nil =>
    rw [List.prod_nil] at h
    exact (Nat.lt_one_iff.mp h).symm
  | cons d dims ih =>
    rw [List.prod_cons] at h
    have hpos : 0 < dims.prod := Nat.pos_of_ne_zero fun hz => by simp [hz] at h
    rw [place, number, ih (Nat.mod_lt n hpos)]
    exact Nat.div_add_mod' n dims.prod

theorem number_inj {coords' : List Nat} (h : Inside dims coords)
    (h' : Inside dims coords') (heq : number dims coords = number dims coords') :
    coords = coords' := by
  rw [← place_number h, heq, place_number h']

theorem place_length (dims : List Nat) (n : Nat) : (place dims n).length = dims.length := by
  induction dims generalizing n with
  | nil => rfl
  | cons d dims ih => rw [place, List.length_cons, List.length_cons, ih]

def select {α : Type} : List Bool → List α → List α
  | b :: mask, x :: xs => if b then x :: select mask xs else select mask xs
  | _, _ => []

theorem select_inside (h : Inside dims coords) (mask : List Bool) :
    Inside (select mask dims) (select mask coords) := by
  induction h generalizing mask with
  | nil => cases mask <;> exact .nil
  | cons hc _ ih =>
    cases mask with
    | nil => exact .nil
    | cons b mask =>
      cases b with
      | true => exact .cons hc (ih mask)
      | false => exact ih mask

theorem select_prod (mask : List Bool) (h : mask.length = dims.length) :
    (select mask dims).prod * (select (mask.map not) dims).prod = dims.prod := by
  induction mask generalizing dims with
  | nil =>
    obtain rfl : dims = [] := List.length_eq_zero_iff.mp h.symm
    rfl
  | cons b mask ih =>
    cases dims with
    | nil => cases h
    | cons d dims =>
      have hlen : mask.length = dims.length := by simpa using h
      cases b with
      | true =>
        rw [List.prod_cons, ← ih hlen, ← Nat.mul_assoc]
        rfl
      | false =>
        rw [List.prod_cons, ← ih hlen, Nat.mul_left_comm]
        rfl

theorem select_inj {mask : List Bool} {xs ys : List Nat} (hx : mask.length = xs.length)
    (hy : mask.length = ys.length) (hsel : select mask xs = select mask ys)
    (hrest : select (mask.map not) xs = select (mask.map not) ys) : xs = ys := by
  induction mask generalizing xs ys with
  | nil =>
    rw [List.length_eq_zero_iff.mp hx.symm, List.length_eq_zero_iff.mp hy.symm]
  | cons b mask ih =>
    cases xs with
    | nil => cases hx
    | cons x xs =>
      cases ys with
      | nil => cases hy
      | cons y ys =>
        have hx' : mask.length = xs.length := by simpa using hx
        have hy' : mask.length = ys.length := by simpa using hy
        cases b with
        | true =>
          have hcons : x :: select mask xs = y :: select mask ys := hsel
          rw [List.cons.injEq] at hcons
          rw [hcons.1, ih hx' hy' hcons.2 hrest]
        | false =>
          have hcons : x :: select (mask.map not) xs = y :: select (mask.map not) ys := hrest
          rw [List.cons.injEq] at hcons
          rw [hcons.1, ih hx' hy' hsel hcons.2]

theorem select_surj {mask : List Bool} {cs ds : List Nat} (h : mask.length = dims.length)
    (hc : Inside (select mask dims) cs) (hd : Inside (select (mask.map not) dims) ds) :
    ∃ coords, Inside dims coords ∧ select mask coords = cs ∧
      select (mask.map not) coords = ds := by
  induction mask generalizing dims cs ds with
  | nil =>
    obtain rfl : dims = [] := List.length_eq_zero_iff.mp h.symm
    cases hc
    cases hd
    exact ⟨[], .nil, rfl, rfl⟩
  | cons b mask ih =>
    cases dims with
    | nil => cases h
    | cons d dims =>
      have hlen : mask.length = dims.length := by simpa using h
      cases b with
      | true =>
        have hcons : Inside (d :: select mask dims) cs := hc
        cases hcons with
        | @cons _ c _ cs hlt htail =>
          obtain ⟨coords, hin, hsel, hrest⟩ := ih hlen htail hd
          exact ⟨c :: coords, .cons hlt hin, by rw [← hsel]; rfl, hrest⟩
      | false =>
        have hcons : Inside (d :: select (mask.map not) dims) ds := hd
        cases hcons with
        | @cons _ c _ ds hlt htail =>
          obtain ⟨coords, hin, hsel, hrest⟩ := ih hlen hc htail
          exact ⟨c :: coords, .cons hlt hin, hsel, by rw [← hrest]; rfl⟩

end FgMpi.Machine.MixedRadix
