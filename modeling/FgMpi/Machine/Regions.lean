import Mathlib.Data.List.Chain
import Mathlib.Algebra.BigOperators.Group.List.Basic

/-! Lists of memory regions. -/

namespace FgMpi.Machine.Regions

structure Region where
  start : Int
  len : Int
deriving Repr, DecidableEq

def Region.stop (r : Region) : Int := r.start + r.len

def Region.bytes (r : Region) : List Int := (List.range r.len.toNat).map fun i : Nat => r.start + i

def bytes (rs : List Region) : List Int := rs.flatMap Region.bytes

@[simp] theorem bytes_nil : bytes [] = [] := rfl

theorem bytes_cons (r : Region) (rs : List Region) : bytes (r :: rs) = r.bytes ++ bytes rs := rfl

theorem bytes_append (rs rs' : List Region) : bytes (rs ++ rs') = bytes rs ++ bytes rs' :=
  List.flatMap_append

theorem bytes_length_region (r : Region) : r.bytes.length = r.len.toNat := by
  simp [Region.bytes]

def lastEnd (rs : List Region) : Option Int := rs.getLast?.map Region.stop

def Adjoins (rs : List Region) (start : Int) : Prop := lastEnd rs = some start

instance (rs : List Region) (start : Int) : Decidable (Adjoins rs start) :=
  inferInstanceAs (Decidable (_ = _))

def extendLast (rs : List Region) (size : Int) : List Region :=
  match rs.getLast? with
  | none => rs
  | some r => rs.dropLast ++ [⟨r.start, r.len + size⟩]

def place (rs : List Region) (start size : Int) : List Region :=
  if Adjoins rs start then extendLast rs size else rs ++ [⟨start, size⟩]

def Apart (rs : List Region) : Prop := rs.IsChain fun r r' => r.stop ≠ r'.start

def Nonneg (rs : List Region) : Prop := ∀ r ∈ rs, 0 ≤ r.len

def Positive (rs : List Region) : Prop := ∀ r ∈ rs, 0 < r.len

theorem apart_nil : Apart [] := List.IsChain.nil

theorem nonneg_nil : Nonneg [] := fun _ h => nomatch h

theorem positive_nil : Positive [] := fun _ h => nomatch h

variable {rs : List Region}

theorem Positive.nonneg (h : Positive rs) : Nonneg rs :=
  fun r hr => Int.le_of_lt (h r hr)

theorem lastEnd_concat (rs : List Region) (r : Region) : lastEnd (rs ++ [r]) = some r.stop := by
  rw [lastEnd, List.getLast?_concat, Option.map_some]

theorem extendLast_concat (rs : List Region) (r : Region) (size : Int) :
    extendLast (rs ++ [r]) size = rs ++ [⟨r.start, r.len + size⟩] := by
  rw [extendLast, List.getLast?_concat, List.dropLast_concat]

variable {start size : Int}

theorem adjoins_cases (h : Adjoins rs start) : ∃ before r, rs = before ++ [r] ∧ r.stop = start := by
  rcases List.eq_nil_or_concat rs with rfl | ⟨before, r, rfl⟩
  · cases h
  · rw [List.concat_eq_append] at h ⊢
    rw [Adjoins, lastEnd_concat, Option.some.injEq] at h
    exact ⟨before, r, rfl, h⟩

theorem place_adjoins {before : List Region} {r : Region} (h : r.stop = start)
    (size : Int) : place (before ++ [r]) start size = before ++ [⟨r.start, r.len + size⟩] := by
  rw [place, if_pos (by rw [Adjoins, lastEnd_concat, h]), extendLast_concat]

theorem place_apart (h : ¬Adjoins rs start) (size : Int) :
    place rs start size = rs ++ [⟨start, size⟩] := if_neg h

theorem region_bytes_append {len : Int} (hlen : 0 ≤ len) (hsize : 0 ≤ size) :
    (⟨start, len + size⟩ : Region).bytes =
      (⟨start, len⟩ : Region).bytes ++ (⟨start + len, size⟩ : Region).bytes := by
  obtain ⟨l, rfl⟩ := Int.eq_ofNat_of_zero_le hlen
  obtain ⟨s, rfl⟩ := Int.eq_ofNat_of_zero_le hsize
  have htotal : ((l : Int) + s).toNat = l + s := by omega
  simp only [Region.bytes, htotal, Int.toNat_natCast, List.range_add, List.map_append, List.map_map]
  congr 1
  refine List.map_congr_left ?_
  intro i _
  simp only [Function.comp_apply]
  omega

theorem bytes_place (hrs : Nonneg rs) (start : Int)
    (hsize : 0 ≤ size) :
    bytes (place rs start size) = bytes rs ++ (⟨start, size⟩ : Region).bytes := by
  by_cases h : Adjoins rs start
  · obtain ⟨before, r, rfl, hr⟩ := adjoins_cases h
    have hpos := hrs r (by simp)
    rw [place_adjoins hr, bytes_append, bytes_append, bytes_cons, bytes_cons, bytes_nil,
      List.append_nil, List.append_nil, region_bytes_append hpos hsize, ← hr,
      List.append_assoc]
    rfl
  · rw [place_apart h, bytes_append, bytes_cons, bytes_nil, List.append_nil]

theorem mem_place {r : Region} (h : r ∈ place rs start size) :
    r ∈ rs ∨ r.len = size ∨ ∃ r' ∈ rs, r.len = r'.len + size := by
  by_cases hadj : Adjoins rs start
  · obtain ⟨before, last, rfl, hlast⟩ := adjoins_cases hadj
    rw [place_adjoins hlast, List.mem_append, List.mem_singleton] at h
    rcases h with h | rfl
    · exact Or.inl (List.mem_append_left _ h)
    · exact Or.inr (Or.inr ⟨last, by simp, rfl⟩)
  · rw [place_apart hadj, List.mem_append, List.mem_singleton] at h
    rcases h with h | rfl
    · exact Or.inl h
    · exact Or.inr (Or.inl rfl)

theorem nonneg_place (hrs : Nonneg rs) (start : Int) (hsize : 0 ≤ size) : Nonneg (place rs start size) := by
  intro r hr
  rcases mem_place hr with hr | hlen | ⟨r', hr', hlen⟩
  · exact hrs r hr
  · omega
  · have hr'len := hrs r' hr'
    omega

theorem positive_place (hrs : Positive rs) (start : Int)
    (hsize : 0 < size) : Positive (place rs start size) := by
  intro r hr
  rcases mem_place hr with hr | hlen | ⟨r', hr', hlen⟩
  · exact hrs r hr
  · omega
  · have hr'len := hrs r' hr'
    omega

theorem apart_place (hrs : Apart rs) (start size : Int) : Apart (place rs start size) := by
  by_cases h : Adjoins rs start
  · obtain ⟨before, last, rfl, hlast⟩ := adjoins_cases h
    rw [place_adjoins hlast]
    rw [Apart, List.isChain_append] at hrs ⊢
    refine ⟨hrs.1, List.IsChain.singleton _, ?_⟩
    intro x hx y hy
    have hsame := hrs.2.2 x hx last rfl
    cases hy
    exact hsame
  · rw [place_apart h, Apart, List.isChain_append]
    refine ⟨hrs, List.IsChain.singleton _, ?_⟩
    intro x hx y hy hxy
    cases hy
    refine h ?_
    rw [Adjoins, lastEnd, hx, Option.map_some, hxy]

theorem length_place (rs : List Region) (start size : Int) :
    (place rs start size).length = if Adjoins rs start then rs.length else rs.length + 1 := by
  by_cases h : Adjoins rs start
  · obtain ⟨before, last, rfl, hlast⟩ := adjoins_cases h
    rw [place_adjoins hlast, if_pos h]
    simp
  · rw [place_apart h, if_neg h]
    simp

theorem eq_nil_of_bytes (hrs : Positive rs) (h : bytes rs = []) : rs = [] := by
  cases rs with
  | nil => rfl
  | cons r rs =>
    have hpos := hrs r List.mem_cons_self
    rw [bytes_cons, List.append_eq_nil_iff] at h
    have hlen := congrArg List.length h.1
    rw [bytes_length_region, List.length_nil] at hlen
    omega

end FgMpi.Machine.Regions
