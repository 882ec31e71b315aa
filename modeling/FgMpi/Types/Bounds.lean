import FgMpi.Types.Constructors
import FgMpi.Types.Typemap
import Mathlib.Data.List.TakeWhile

namespace FgMpi.Types.Bounds
open Types.Typemap Types.Constructors

def vectorOffsets (count blocklength : Nat) (stride extent : Int) : List Int :=
  sums (steps count stride) (steps blocklength extent)

def blockOffset (dispinbytes : Bool) (extent : Int) (b : Block) : List Int :=
  (steps b.blocklength extent).map (effDisp dispinbytes extent b.disp + ·)

def blockOffsets (blocks : List Block) (dispinbytes : Bool) (extent : Int) : List Int :=
  blocks.flatMap (blockOffset dispinbytes extent)

/-- The upper bound of a structure without markers is rounded up so that the extent is a multiple of
the alignment. -/
def padded (m : Map) : Map :=
  if m.filterMap Entry.lb? = [] ∧ m.filterMap Entry.ub? = [] ∧ 0 < align m then
    m ++ [⟨ub m + (-extent m) % align m, .pad⟩]
  else m

def isData (x : Entry) : Bool := x.start?.isSome

def remarked (m : Map) (lb extent : Int) : Map := ⟨lb, .lb⟩ :: ⟨lb + extent, .ub⟩ :: m.filter isData

def builtinMap : Builtin → Map
  | .basic b => [⟨0, .data b.size b.size⟩]
  | .lb => [⟨0, .lb⟩]
  | .ub => [⟨0, .ub⟩]

/-- In a structure the alignment of a basic type may depend on where it is. -/
def alignedMap (cfg : Config) (disp : Int) (t : Datatype) (m : Map) : Map :=
  match t with
  | .builtin (.basic b) => [⟨0, .data b.size (basicAlignsize cfg b disp)⟩]
  | _ => m

def memberMap (blocklength : Nat) (disp : Int) (m : Map) : Map :=
  copies ((steps blocklength (extent m)).map (disp + ·)) m

mutual

def typemap (cfg : Config) : Datatype → Map
  | .builtin b => builtinMap b
  | .contiguous count old =>
    copies (steps count (extent (typemap cfg old))) (typemap cfg old)
  | .vector count blocklength stride strideinbytes old =>
    copies (vectorOffsets count blocklength
      (effDisp strideinbytes (extent (typemap cfg old)) stride) (extent (typemap cfg old)))
      (typemap cfg old)
  | .indexed blocks dispinbytes old =>
    copies (blockOffsets blocks dispinbytes (extent (typemap cfg old))) (typemap cfg old)
  | .blockindexed blocklength disps dispinbytes old =>
    copies (blockOffsets (disps.map (⟨blocklength, ·⟩)) dispinbytes (extent (typemap cfg old)))
      (typemap cfg old)
  | .struct members => padded (membersMap cfg members)
  | .resized old lb extent => remarked (typemap cfg old) lb extent
  | .dup old => typemap cfg old

def membersMap (cfg : Config) : Members → Map
  | .nil => []
  | .cons blocklength disp old rest =>
    memberMap blocklength disp (alignedMap cfg disp old (typemap cfg old)) ++ membersMap cfg rest

end

def isMarker : Datatype → Bool
  | .builtin .lb => true
  | .builtin .ub => true
  | _ => false

def fromResized : Datatype → Bool
  | .builtin _ => false
  | .contiguous _ old => fromResized old
  | .vector _ _ _ _ old => fromResized old
  | .indexed _ _ old => fromResized old
  | .blockindexed _ _ _ old => fromResized old
  | .struct _ => false
  | .resized _ _ _ => true
  | .dup old => fromResized old

def isBuiltin : Datatype → Bool
  | .builtin _ => true
  | _ => false

def setsAlignsize : Datatype → Bool
  | .builtin _ => true
  | .contiguous count old => count = 0 || setsAlignsize old
  | .vector count _ _ _ old => count = 0 || setsAlignsize old
  | .indexed blocks _ old => blocks.all (·.blocklength = 0) || isBuiltin old
  | .blockindexed _ disps _ old => disps = [] || setsAlignsize old
  | .struct _ => true
  | .resized old _ _ => setsAlignsize old
  | .dup old => setsAlignsize old

mutual

/-- A type that is repeated has data and is repeated at least once, or not at all; the members of a
structure have data, are not resized and have their `alignsize`, and those that are left out are not
aligned more than the others. -/
def Regular (cfg : Config) : Datatype → Prop
  | .builtin _ => True
  | .contiguous count old => count = 0 ∨ Regular cfg old ∧ HasData (typemap cfg old)
  | .vector count blocklength _ _ old =>
    count = 0 ∨ blocklength ≠ 0 ∧ Regular cfg old ∧ HasData (typemap cfg old)
  | .indexed blocks _ old =>
    (∀ b ∈ blocks, b.blocklength = 0) ∨ Regular cfg old ∧ HasData (typemap cfg old)
  | .blockindexed blocklength disps _ old =>
    disps = [] ∨ blocklength ≠ 0 ∧ Regular cfg old ∧ HasData (typemap cfg old)
  | .struct members =>
    (∀ m ∈ members.list, m.blocklength = 0) ∨ RegularMembers cfg (align (membersMap cfg members))
      members
  | .resized old _ _ => Regular cfg old
  | .dup old => Regular cfg old

def RegularMembers (cfg : Config) (alignment : Int) : Members → Prop
  | .nil => True
  | .cons blocklength disp old rest =>
    (isMarker old = true ∨ (Regular cfg old ∧ setsAlignsize old = true) ∧
      if blocklength = 0 then align (alignedMap cfg disp old (typemap cfg old)) ≤ alignment
      else HasData (typemap cfg old) ∧ fromResized old = false) ∧
    RegularMembers cfg alignment rest

end

structure Measures (o : Old) (m : Map) : Prop where
  size : o.sz = size m
  lb : o.lb = lb m
  ub : o.ub = ub m
  trueLb : o.trueLb = trueLb m
  trueUb : o.trueUb = trueUb m
  extent : o.extent = extent m

variable {o : Old} {m : Map}

theorem Measures.extent_eq (h : Measures o m) : o.extent = o.ub - o.lb := by
  rw [h.extent, h.ub, h.lb, Typemap.extent]

structure Sticky (o : Old) (m : Map) : Prop where
  lb : o.hasStickyLb = false ↔ m.filterMap Entry.lb? = []
  ub : o.hasStickyUb = false ↔ m.filterMap Entry.ub? = []

structure Spread (old new : Old) (lo hi : Int) (n : Nat) : Prop where
  size : new.sz = n * old.sz
  lb : new.lb = old.lb + lo
  ub : new.ub = old.ub + hi
  trueLb : new.trueLb = new.lb + (old.trueLb - old.lb)
  trueUb : new.trueUb = new.ub + (old.trueUb - old.ub)
  extent : new.extent = new.ub - new.lb
  stickyLb : new.hasStickyLb = old.hasStickyLb
  stickyUb : new.hasStickyUb = old.hasStickyUb

variable {lo hi : Int} {os xs : List Int}

theorem Spread.measures {old new : Old}
    (h : Spread old new lo hi os.length) (hlo : os.min? = some lo) (hhi : os.max? = some hi)
    (hd : HasData m) (hold : Measures old m) : Measures new (copies os m) := by
  refine ⟨?_, ?_, ?_, ?_, ?_, ?_⟩
  · rw [h.size, hold.size, size_copies]
    push_cast
    rfl
  · rw [h.lb, hold.lb, lb_copies hd hlo, Int.add_comm]
  · rw [h.ub, hold.ub, ub_copies hd hhi, Int.add_comm]
  · rw [h.trueLb, h.lb, hold.lb, hold.trueLb, trueLb_copies hd hlo]
    omega
  · rw [h.trueUb, h.ub, hold.ub, hold.trueUb, trueUb_copies hd hhi]
    omega
  · rw [h.extent, h.lb, h.ub, hold.lb, hold.ub, Typemap.extent, lb_copies hd hlo, ub_copies hd hhi]
    omega

theorem Spread.sticky {old new : Old}
    (h : Spread old new lo hi os.length) (hlo : os.min? = some lo) (hold : Sticky old m) :
    Sticky new (copies os m) := by
  have hos : os ≠ [] := by
    rintro rfl
    cases hlo
  constructor
  · rw [h.stickyLb, hold.lb, marked_copies moving_lb hos]
  · rw [h.stickyUb, hold.ub, marked_copies moving_ub hos]

theorem zerolen_measures (left : Left) : Measures (Handle.derived (typeZerolen left)).old [] :=
  ⟨rfl, rfl, rfl, rfl, rfl, rfl⟩

theorem zerolen_sticky (left : Left) : Sticky (Handle.derived (typeZerolen left)).old [] :=
  ⟨by simp [Handle.old, typeZerolen], by simp [Handle.old, typeZerolen]⟩

theorem contigLbUb_eq {cnt : Nat} (hn : cnt ≠ 0) {lb ub e : Int} (he : e = ub - lb)
    (hlo : (steps cnt e).min? = some lo) (hhi : (steps cnt e).max? = some hi) :
    contigLbUb cnt lb ub e = (lb + lo, ub + hi) := by
  rw [min?_steps hn, Option.some.injEq] at hlo
  rw [max?_steps hn, Option.some.injEq] at hhi
  unfold contigLbUb
  rw [if_neg hn]
  by_cases h : 0 ≤ e
  · rw [if_pos (by omega)]
    rw [if_pos h] at hlo hhi
    rw [← hlo, ← hhi, Int.add_zero]
  · rw [if_neg (by omega)]
    rw [if_neg h] at hlo hhi
    rw [← hlo, ← hhi, Int.add_zero]

theorem blockLbUb_eq {cnt : Nat} (hn : cnt ≠ 0) {lb ub e : Int} (disp : Int)
    (he : e = ub - lb) (hlo : (steps cnt e).min? = some lo) (hhi : (steps cnt e).max? = some hi) :
    blockLbUb cnt disp lb ub e = (lb + (disp + lo), ub + (disp + hi)) := by
  have hcontig := contigLbUb_eq hn he hlo hhi
  unfold contigLbUb at hcontig
  unfold blockLbUb
  rw [if_neg hn] at hcontig ⊢
  split at hcontig
  · rename_i h
    rw [if_pos h]
    obtain ⟨h1, h2⟩ := Prod.mk.inj hcontig
    exact Prod.ext (by dsimp only; omega) (by dsimp only; omega)
  · rename_i h
    rw [if_neg h]
    obtain ⟨h1, h2⟩ := Prod.mk.inj hcontig
    exact Prod.ext (by dsimp only; omega) (by dsimp only; omega)

theorem vectorLbUb_eq {cnt blklen : Nat} (hn : cnt ≠ 0) (hb : blklen ≠ 0)
    (stride lb ub e : Int) {lo' hi' : Int}
    (hlo : (steps cnt stride).min? = some lo) (hhi : (steps cnt stride).max? = some hi)
    (hlo' : (steps blklen e).min? = some lo') (hhi' : (steps blklen e).max? = some hi') :
    vectorLbUb cnt stride blklen lb ub e = (lb + (lo + lo'), ub + (hi + hi')) := by
  rw [min?_steps hn, Option.some.injEq] at hlo
  rw [max?_steps hn, Option.some.injEq] at hhi
  rw [min?_steps hb, Option.some.injEq] at hlo'
  rw [max?_steps hb, Option.some.injEq] at hhi'
  unfold vectorLbUb
  rw [if_neg (by omega)]
  subst hlo hhi hlo' hhi'
  by_cases hs : 0 ≤ stride <;> by_cases h : 0 ≤ e
  · rw [if_pos ⟨hs, h⟩, if_pos hs, if_pos hs, if_pos h, if_pos h]
    exact Prod.ext (by dsimp only; omega) (by dsimp only; omega)
  · rw [if_neg (by omega), if_neg (by omega), if_pos ⟨hs, by omega⟩, if_pos hs, if_pos hs, if_neg h,
      if_neg h]
    exact Prod.ext (by dsimp only; omega) (by dsimp only; omega)
  · rw [if_neg (by omega), if_pos ⟨by omega, h⟩, if_neg hs, if_neg hs, if_pos h, if_pos h]
    exact Prod.ext (by dsimp only; omega) (by dsimp only; omega)
  · rw [if_neg (by omega), if_neg (by omega), if_neg (by omega), if_neg hs, if_neg hs, if_neg h, if_neg h]
    exact Prod.ext (by dsimp only; omega) (by dsimp only; omega)

theorem Builtin.size_nonneg (b : Builtin) : 0 ≤ b.size := by
  cases b with
  | basic b => exact Int.natCast_nonneg b.size
  | lb => exact le_refl 0
  | ub => exact le_refl 0

theorem contiguous_spread (left : Left) {count : Nat} (hn : count ≠ 0) (h : Handle)
    (he : h.old.extent = h.old.ub - h.old.lb) (hlo : (steps count h.old.extent).min? = some lo)
    (hhi : (steps count h.old.extent).max? = some hi) :
    Spread h.old (Handle.derived (typeContiguous left count h)).old lo hi count := by
  cases h with
  | builtin b =>
    have hb := Builtin.size_nonneg b
    have hext : (Handle.builtin b).old.extent = b.size := rfl
    rw [hext, min?_steps hn, if_pos hb, Option.some.injEq] at hlo
    rw [hext, max?_steps hn, if_pos hb, Option.some.injEq] at hhi
    simp only [typeContiguous, if_neg hn]
    have hub : (count : Int) * b.size = b.size + hi := by
      rw [← hhi]
      ring
    exact ⟨rfl, by simp [Handle.old, ← hlo], hub, by simp [Handle.old],
      by simp [Handle.old], by simp [Handle.old], rfl, rfl⟩
  | derived d =>
    have hbounds := contigLbUb_eq hn he hlo hhi
    simp only [Handle.old] at hbounds
    simp only [typeContiguous, if_neg hn, hbounds]
    exact ⟨rfl, rfl, rfl, rfl, rfl, rfl, rfl, rfl⟩

variable {blocklength n : Nat}

theorem vector_spread (left : Left) {count : Nat} (hn : count ≠ 0)
    (hb : blocklength ≠ 0) (stride : Int) (strideinbytes : Bool) (h : Handle) {lo' hi' : Int}
    (hlo : (steps count (effDisp strideinbytes h.old.extent stride)).min? = some lo)
    (hhi : (steps count (effDisp strideinbytes h.old.extent stride)).max? = some hi)
    (hlo' : (steps blocklength h.old.extent).min? = some lo')
    (hhi' : (steps blocklength h.old.extent).max? = some hi') :
    Spread h.old (Handle.derived (typeVector left count blocklength stride strideinbytes h)).old
      (lo + lo') (hi + hi') (count * blocklength) := by
  have hbounds := vectorLbUb_eq hn hb _ h.old.lb h.old.ub h.old.extent hlo hhi hlo' hhi'
  simp only [effDisp] at hbounds
  simp only [typeVector, if_neg hn, hbounds]
  refine ⟨?_, rfl, rfl, rfl, rfl, rfl, rfl, rfl⟩
  simp [Handle.old]

theorem widen_eq {lb ub lo' hi' : Int} :
    widen (lb + lo, ub + hi) (lb + lo', ub + hi') = (lb + min lo lo', ub + max hi hi') := by
  unfold widen
  dsimp only
  split <;> split <;> exact Prod.ext (by dsimp only; omega) (by dsimp only; omega)

theorem min?_shift {a : Int} (d : Int) (h : xs.min? = some a) : (xs.map (d + ·)).min? = some (d + a) := by
  have hsum := min?_sums (List.min?_singleton (x := d)) h
  simpa [sums] using hsum

theorem max?_shift {a : Int} (d : Int) (h : xs.max? = some a) : (xs.map (d + ·)).max? = some (d + a) := by
  have hsum := max?_sums (List.max?_singleton (x := d)) h
  simpa [sums] using hsum

theorem block_extrema {b : Block} (hb : b.blocklength ≠ 0) (dispinbytes : Bool)
    (he : o.extent = o.ub - o.lb) : ∃ lo hi,
    (blockOffset dispinbytes o.extent b).min? = some lo ∧
    (blockOffset dispinbytes o.extent b).max? = some hi ∧
    blockLbUb b.blocklength (effDisp dispinbytes o.extent b.disp) o.lb o.ub o.extent =
      (o.lb + lo, o.ub + hi) := by
  have hne : steps b.blocklength o.extent ≠ [] := by
    rw [← List.length_pos_iff, steps_length]
    omega
  obtain ⟨lo, hlo⟩ := exists_min? hne
  obtain ⟨hi, hhi⟩ := exists_max? hne
  exact ⟨_, _, min?_shift _ hlo, max?_shift _ hhi, blockLbUb_eq hb _ he hlo hhi⟩

theorem foldl_widenIndexed {dispinbytes : Bool} (he : o.extent = o.ub - o.lb)
    (rest : List Block) (offs : List Int) (lo hi : Int) (n : Nat) (hlo : offs.min? = some lo)
    (hhi : offs.max? = some hi) (hn : offs.length = n) : ∃ lo' hi',
    (offs ++ blockOffsets rest dispinbytes o.extent).min? = some lo' ∧
    (offs ++ blockOffsets rest dispinbytes o.extent).max? = some hi' ∧
    rest.foldl (widenIndexed dispinbytes o) ((o.lb + lo, o.ub + hi), n) =
      ((o.lb + lo', o.ub + hi'), (offs ++ blockOffsets rest dispinbytes o.extent).length) := by
  induction rest generalizing offs lo hi n with
  | nil => exact ⟨lo, hi, by simpa [blockOffsets] using hlo, by simpa [blockOffsets] using hhi,
      by simp [blockOffsets, hn]⟩
  | cons b rest ih =>
    have hcons : offs ++ blockOffsets (b :: rest) dispinbytes o.extent =
        (offs ++ blockOffset dispinbytes o.extent b) ++ blockOffsets rest dispinbytes o.extent := by
      simp [blockOffsets]
    rw [hcons, List.foldl_cons]
    by_cases hb : b.blocklength = 0
    · have hempty : blockOffset dispinbytes o.extent b = [] := by simp [blockOffset, hb]
      have hstep : widenIndexed dispinbytes o ((o.lb + lo, o.ub + hi), n) b =
          ((o.lb + lo, o.ub + hi), n) := by
        unfold widenIndexed
        rw [if_neg (by omega)]
      rw [hstep, hempty, List.append_nil]
      exact ih offs lo hi n hlo hhi hn
    · obtain ⟨blo, bhi, hblo, hbhi, hblock⟩ := block_extrema hb dispinbytes he
      have hstep : widenIndexed dispinbytes o ((o.lb + lo, o.ub + hi), n) b =
          ((o.lb + min lo blo, o.ub + max hi bhi), n + b.blocklength) := by
        unfold widenIndexed
        rw [if_pos (by omega), hblock, widen_eq]
      rw [hstep]
      refine ih _ _ _ _ (min?_append hlo hblo) (max?_append hhi hbhi) ?_
      rw [List.length_append, hn, blockOffset, List.length_map, steps_length]

theorem blockOffsets_dropWhile (blocks : List Block) (dispinbytes : Bool) (e : Int) :
    blockOffsets (blocks.dropWhile (·.blocklength = 0)) dispinbytes e =
      blockOffsets blocks dispinbytes e := by
  induction blocks with
  | nil => rfl
  | cons b blocks ih =>
    by_cases hb : b.blocklength = 0
    · rw [List.dropWhile_cons_of_pos (by simpa using hb), ih]
      simp [blockOffsets, blockOffset, hb]
    · rw [List.dropWhile_cons_of_neg (by simpa using hb)]

theorem blocklength_first {blocks rest : List Block} {first : Block}
    (h : blocks.dropWhile (·.blocklength = 0) = first :: rest) : first.blocklength ≠ 0 := by
  have hhead := List.head_dropWhile_not (fun c : Block => decide (c.blocklength = 0))
    (l := blocks) (by rw [h]; simp)
  simpa [h] using hhead

theorem indexed_spread (left : Left) {blocks : List Block} (dispinbytes : Bool) (h : Handle)
    (he : h.old.extent = h.old.ub - h.old.lb) {b : Block} (hmem : b ∈ blocks)
    (hb : b.blocklength ≠ 0) : ∃ lo hi,
    (blockOffsets blocks dispinbytes h.old.extent).min? = some lo ∧
    (blockOffsets blocks dispinbytes h.old.extent).max? = some hi ∧
    Spread h.old (Handle.derived (typeIndexed left blocks dispinbytes h)).old lo hi
      (blockOffsets blocks dispinbytes h.old.extent).length := by
  rw [← blockOffsets_dropWhile]
  unfold typeIndexed
  cases hdrop : blocks.dropWhile (·.blocklength = 0) with
  | nil =>
    have hall := List.dropWhile_eq_nil_iff.mp hdrop b hmem
    exact absurd (by simpa using hall) hb
  | cons first rest =>
    have hfirst := blocklength_first hdrop
    obtain ⟨lo, hi, hlo, hhi, hblock⟩ := block_extrema hfirst dispinbytes he
    obtain ⟨lo', hi', hlo', hhi', hfold⟩ :=
      foldl_widenIndexed he rest _ lo hi first.blocklength hlo hhi (by simp [blockOffset])
    have hcons : blockOffsets (first :: rest) dispinbytes h.old.extent =
        blockOffset dispinbytes h.old.extent first ++ blockOffsets rest dispinbytes h.old.extent :=
      rfl
    rw [hcons]
    refine ⟨lo', hi', hlo', hhi', ?_⟩
    dsimp only [typeIndexedFrom]
    rw [hblock, hfold]
    exact ⟨rfl, rfl, rfl, rfl, rfl, rfl, rfl, rfl⟩

theorem foldl_widen (hb : blocklength ≠ 0) {dispinbytes : Bool}
    (he : o.extent = o.ub - o.lb) (rest : List Int) (offs : List Int) (lo hi : Int)
    (hlo : offs.min? = some lo) (hhi : offs.max? = some hi) : ∃ lo' hi',
    (offs ++ blockOffsets (rest.map (⟨blocklength, ·⟩)) dispinbytes o.extent).min? = some lo' ∧
    (offs ++ blockOffsets (rest.map (⟨blocklength, ·⟩)) dispinbytes o.extent).max? = some hi' ∧
    rest.foldl (fun bounds disp => widen bounds (blockLbUb blocklength
      (effDisp dispinbytes o.extent disp) o.lb o.ub o.extent)) (o.lb + lo, o.ub + hi) =
      (o.lb + lo', o.ub + hi') := by
  induction rest generalizing offs lo hi with
  | nil => exact ⟨lo, hi, by simpa [blockOffsets] using hlo, by simpa [blockOffsets] using hhi, rfl⟩
  | cons d rest ih =>
    have hcons : offs ++ blockOffsets ((d :: rest).map (⟨blocklength, ·⟩)) dispinbytes o.extent =
        (offs ++ blockOffset dispinbytes o.extent ⟨blocklength, d⟩) ++
          blockOffsets (rest.map (⟨blocklength, ·⟩)) dispinbytes o.extent := by
      simp [blockOffsets]
    obtain ⟨blo, bhi, hblo, hbhi, hblock⟩ := block_extrema (b := ⟨blocklength, d⟩) hb dispinbytes he
    dsimp only at hblock
    rw [hcons, List.foldl_cons, hblock, widen_eq]
    exact ih _ _ _ (min?_append hlo hblo) (max?_append hhi hbhi)

theorem blockOffsets_length (blocklength : Nat) (disps : List Int) (dispinbytes : Bool) (e : Int) :
    (blockOffsets (disps.map (⟨blocklength, ·⟩)) dispinbytes e).length =
      disps.length * blocklength := by
  induction disps with
  | nil => simp [blockOffsets]
  | cons d disps ih =>
    simp only [blockOffsets, List.map_cons, List.flatMap_cons, List.length_append, blockOffset,
      List.length_map, steps_length, List.length_cons] at ih ⊢
    rw [ih, Nat.succ_mul, Nat.add_comm]

theorem blockindexed_spread (left : Left) (hb : blocklength ≠ 0)
    {disps : List Int} (hne : disps ≠ []) (dispinbytes : Bool) (h : Handle)
    (he : h.old.extent = h.old.ub - h.old.lb) : ∃ lo hi,
    (blockOffsets (disps.map (⟨blocklength, ·⟩)) dispinbytes h.old.extent).min? = some lo ∧
    (blockOffsets (disps.map (⟨blocklength, ·⟩)) dispinbytes h.old.extent).max? = some hi ∧
    Spread h.old (Handle.derived (typeBlockindexed left blocklength disps dispinbytes h)).old lo hi
      (blockOffsets (disps.map (⟨blocklength, ·⟩)) dispinbytes h.old.extent).length := by
  rw [blockOffsets_length]
  cases disps with
  | nil => exact absurd rfl hne
  | cons first rest =>
    obtain ⟨lo, hi, hlo, hhi, hblock⟩ := block_extrema (b := ⟨blocklength, first⟩) hb dispinbytes he
    obtain ⟨lo', hi', hlo', hhi', hfold⟩ := foldl_widen hb he rest _ lo hi hlo hhi
    have hcons : blockOffsets ((first :: rest).map (⟨blocklength, ·⟩)) dispinbytes h.old.extent =
        blockOffset dispinbytes h.old.extent ⟨blocklength, first⟩ ++
          blockOffsets (rest.map (⟨blocklength, ·⟩)) dispinbytes h.old.extent := rfl
    rw [hcons]
    refine ⟨lo', hi', hlo', hhi', ?_⟩
    dsimp only [typeBlockindexed, typeBlockindexedFrom] at hblock ⊢
    simp only [hblock, hfold]
    exact ⟨by simp [Handle.old], rfl, rfl, rfl, rfl, rfl, rfl, rfl⟩

def MemberTerm.map (cfg : Config) (m : MemberTerm) : Map :=
  alignedMap cfg m.disp m.oldtype (typemap cfg m.oldtype)

def MemberTerm.Regular (cfg : Config) (alignment : Int) (m : MemberTerm) : Prop :=
  isMarker m.oldtype = true ∨ (Bounds.Regular cfg m.oldtype ∧ setsAlignsize m.oldtype = true) ∧
    if m.blocklength = 0 then align (MemberTerm.map cfg m) ≤ alignment
    else HasData (typemap cfg m.oldtype) ∧ fromResized m.oldtype = false

theorem membersMap_eq (cfg : Config) (ms : Members) : membersMap cfg ms =
    ms.list.flatMap fun m => memberMap m.blocklength m.disp (MemberTerm.map cfg m) := by
  match ms with
  | .nil => rfl
  | .cons blocklength disp old rest =>
    rw [membersMap, Members.list, List.flatMap_cons, membersMap_eq cfg rest]
    rfl

theorem regularMembers_iff (cfg : Config) (alignment : Int) (ms : Members) :
    RegularMembers cfg alignment ms ↔ ∀ m ∈ ms.list, MemberTerm.Regular cfg alignment m := by
  match ms with
  | .nil => simp [RegularMembers, Members.list]
  | .cons blocklength disp old rest =>
    rw [RegularMembers, Members.list, List.forall_mem_cons, regularMembers_iff cfg alignment rest]
    rfl

/-- The variables of the loop after the members whose typemaps are `m`. -/
structure Scanned (s : Scan) (m : Map) : Prop where
  size : s.size = size m
  stickyLb : s.stickyLb = (m.filterMap Entry.lb?).min?
  stickyUb : s.stickyUb = (m.filterMap Entry.ub?).max?
  trueLb : s.trueLb = (m.filterMap Entry.start?).min?
  trueUb : s.trueUb = (m.filterMap Entry.end?).max?
  lb : s.stickyLb = none → s.lb = (m.filterMap Entry.start?).min?
  ub : s.stickyUb = none → s.ub = (m.filterMap Entry.ceiling?).max?

theorem keepLowest_eq {found : Option Int} {ys : List Int} {tmp : Int} (h : found = xs.min?)
    (hy : ys.min? = some tmp) : some (keepLowest found tmp) = (xs ++ ys).min? := by
  cases hx : xs.min? with
  | none =>
    rw [List.min?_eq_none_iff.mp hx, List.nil_append, hy, h, hx]
    rfl
  | some d =>
    rw [min?_append hx hy, h, hx]
    unfold keepLowest
    dsimp only
    split
    · rw [min_eq_right (by omega)]
    · rw [min_eq_left (by omega)]

theorem keepHighest_eq {found : Option Int} {ys : List Int} {tmp : Int} (h : found = xs.max?)
    (hy : ys.max? = some tmp) : some (keepHighest found tmp) = (xs ++ ys).max? := by
  cases hx : xs.max? with
  | none =>
    rw [List.max?_eq_none_iff.mp hx, List.nil_append, hy, h, hx]
    rfl
  | some d =>
    rw [max?_append hx hy, h, hx]
    unfold keepHighest
    dsimp only
    split
    · rw [max_eq_right (by omega)]
    · rw [max_eq_left (by omega)]

theorem Member.tmp_eq (m : Member) (hn : m.blocklength ≠ 0)
    (he : m.oldtype.old.extent = m.oldtype.old.ub - m.oldtype.old.lb)
    (hlo : (steps m.blocklength m.oldtype.old.extent).min? = some lo)
    (hhi : (steps m.blocklength m.oldtype.old.extent).max? = some hi) :
    m.tmp = ((m.oldtype.old.lb + (m.disp + lo), m.oldtype.old.ub + (m.disp + hi)),
      (m.oldtype.old.trueLb + (m.disp + lo), m.oldtype.old.trueUb + (m.disp + hi))) := by
  have hblock := blockLbUb_eq hn m.disp he hlo hhi
  obtain ⟨blocklength, disp, oldtype⟩ := m
  cases oldtype with
  | builtin b =>
    simp only [Handle.old] at hblock
    simp only [Member.tmp, hblock]
    rfl
  | derived d =>
    simp only [Handle.old] at hblock
    simp only [Member.tmp, hblock, Handle.old, Prod.mk.injEq, true_and]
    exact ⟨by omega, by omega⟩

theorem Member.size_eq (m : Member) : m.size = m.blocklength * m.oldtype.old.sz := by
  obtain ⟨blocklength, disp, oldtype⟩ := m
  cases oldtype <;> exact Int.mul_comm _ _

theorem filterMap_memberMap {f : Entry → Option Int} (hf : Moving f) (n : Nat) (disp : Int)
    (m : Map) : (memberMap n disp m).filterMap f =
      sums ((steps n (extent m)).map (disp + ·)) (m.filterMap f) :=
  filterMap_copies hf _ _

theorem size_memberMap (n : Nat) (disp : Int) (m : Map) : size (memberMap n disp m) = n * size m := by
  rw [memberMap, size_copies, List.length_map, steps_length]

theorem steps_ne_nil (hn : n ≠ 0) (e : Int) : steps n e ≠ [] := by
  rw [← List.length_pos_iff, steps_length]
  omega

theorem contiguous_extrema (left : Left) {count : Nat} (hn : count ≠ 0) (h : Handle)
    (he : h.old.extent = h.old.ub - h.old.lb) : ∃ lo hi, (steps count h.old.extent).min? = some lo ∧
      (steps count h.old.extent).max? = some hi ∧
      Spread h.old (Handle.derived (typeContiguous left count h)).old lo hi count := by
  obtain ⟨lo, hlo⟩ := exists_min? (steps_ne_nil hn h.old.extent)
  obtain ⟨hi, hhi⟩ := exists_max? (steps_ne_nil hn h.old.extent)
  exact ⟨lo, hi, hlo, hhi, contiguous_spread left hn h he hlo hhi⟩

theorem vector_extrema (left : Left) {count blocklength : Nat} (hn : count ≠ 0) (hb : blocklength ≠ 0) (stride : Int)
    (strideinbytes : Bool) (h : Handle) : ∃ lo hi,
      (vectorOffsets count blocklength (effDisp strideinbytes h.old.extent stride) h.old.extent).min? = some lo ∧
      (vectorOffsets count blocklength (effDisp strideinbytes h.old.extent stride) h.old.extent).max? = some hi ∧
      Spread h.old (Handle.derived (typeVector left count blocklength stride strideinbytes h)).old lo hi
        (count * blocklength) := by
  obtain ⟨lo, hlo⟩ := exists_min? (steps_ne_nil hn (effDisp strideinbytes h.old.extent stride))
  obtain ⟨hi, hhi⟩ := exists_max? (steps_ne_nil hn (effDisp strideinbytes h.old.extent stride))
  obtain ⟨lo', hlo'⟩ := exists_min? (steps_ne_nil hb h.old.extent)
  obtain ⟨hi', hhi'⟩ := exists_max? (steps_ne_nil hb h.old.extent)
  exact ⟨_, _, min?_sums hlo hlo', max?_sums hhi hhi', vector_spread left hn hb stride strideinbytes h hlo hhi hlo' hhi'⟩

theorem lowest_of_unmarked (h : m.filterMap Entry.lb? = []) (hd : HasData m) :
    (m.filterMap Entry.start?).min? = some (lb m) := by
  obtain ⟨a, ha⟩ := exists_min? hd
  simp only [lb, h, List.min?_nil, ha, Option.getD_some]

theorem highest_of_unmarked (h : m.filterMap Entry.ub? = []) (hd : HasData m) :
    (m.filterMap Entry.ceiling?).max? = some (ub m) := by
  obtain ⟨a, ha⟩ := exists_max? hd.ceilings
  simp only [ub, h, List.max?_nil, ha, Option.getD_some]

theorem lowest_marker (h : m.filterMap Entry.lb? ≠ []) : (m.filterMap Entry.lb?).min? = some (lb m) := by
  obtain ⟨a, ha⟩ := exists_min? h
  simp only [lb, ha]

theorem highest_marker (h : m.filterMap Entry.ub? ≠ []) : (m.filterMap Entry.ub?).max? = some (ub m) := by
  obtain ⟨a, ha⟩ := exists_max? h
  simp only [ub, ha]

theorem lowest_start (hd : HasData m) : (m.filterMap Entry.start?).min? = some (trueLb m) := by
  obtain ⟨a, ha⟩ := exists_min? hd
  simp only [trueLb, ha, Option.getD_some]

theorem highest_end (hd : HasData m) : (m.filterMap Entry.end?).max? = some (trueUb m) := by
  obtain ⟨a, ha⟩ := exists_max? hd.ends
  simp only [trueUb, ha, Option.getD_some]

structure StickyMember (x : Member) (m : Map) : Prop where
  lb : x.hasStickyLb = false ↔ m.filterMap Entry.lb? = []
  ub : x.hasStickyUb = false ↔ m.filterMap Entry.ub? = []

theorem scanned_data {s : Scan} {mx : Map} {x : Member} (h : Scanned s m)
    (hn : x.blocklength ≠ 0) (hmark : x.isMarker = false) (hold : Measures x.oldtype.old mx)
    (hsticky : StickyMember x mx) (hd : HasData mx) :
    Scanned (s.member x) (m ++ memberMap x.blocklength x.disp mx) := by
  obtain ⟨lo, hlo⟩ := exists_min? (steps_ne_nil hn x.oldtype.old.extent)
  obtain ⟨hi, hhi⟩ := exists_max? (steps_ne_nil hn x.oldtype.old.extent)
  have htmp := Member.tmp_eq x hn hold.extent_eq hlo hhi
  rw [hold.lb, hold.ub, hold.trueLb, hold.trueUb] at htmp
  rw [hold.extent] at hlo hhi
  have hlow := min?_shift x.disp hlo
  have hhigh := max?_shift x.disp hhi
  have hstart : ((memberMap x.blocklength x.disp mx).filterMap Entry.start?).min? =
      some (x.disp + lo + trueLb mx) := by
    rw [filterMap_memberMap moving_start]
    exact min?_sums hlow (lowest_start hd)
  have hend : ((memberMap x.blocklength x.disp mx).filterMap Entry.end?).max? =
      some (x.disp + hi + trueUb mx) := by
    rw [filterMap_memberMap moving_end]
    exact max?_sums hhigh (highest_end hd)
  have hbounds : s.member x = { s.bounds x with
      size := s.size + x.size
      maxContigBlocks := s.maxContigBlocks + x.maxContigBlocks
      stickyLb := if x.hasStickyLb then some (keepLowest s.stickyLb x.tmp.1.1) else s.stickyLb
      stickyUb := if x.hasStickyUb then some (keepHighest s.stickyUb x.tmp.1.2) else s.stickyUb
      oldAreContig := s.oldAreContig && x.oldIsContig } := by
    unfold Scan.member
    rw [if_neg hn]
  rw [hbounds]
  simp only [Scan.bounds, hmark, Bool.false_eq_true, if_false, htmp]
  constructor
  · dsimp only
    rw [h.size, Member.size_eq, hold.size, size_append, size_memberMap]
    push_cast
    rfl
  · dsimp only
    rw [List.filterMap_append]
    by_cases hl : x.hasStickyLb = true
    · have hne : mx.filterMap Entry.lb? ≠ [] := by
        intro hnil
        rw [hsticky.lb.mpr hnil] at hl
        cases hl
      rw [if_pos hl]
      refine keepLowest_eq h.stickyLb ?_
      rw [filterMap_memberMap moving_lb, min?_sums hlow (lowest_marker hne), Int.add_comm]
    · rw [Bool.not_eq_true] at hl
      rw [if_neg (by simp [hl]), filterMap_memberMap moving_lb, hsticky.lb.mp hl, sums_nil_right,
        List.append_nil]
      exact h.stickyLb
  · dsimp only
    rw [List.filterMap_append]
    by_cases hl : x.hasStickyUb = true
    · have hne : mx.filterMap Entry.ub? ≠ [] := by
        intro hnil
        rw [hsticky.ub.mpr hnil] at hl
        cases hl
      rw [if_pos hl]
      refine keepHighest_eq h.stickyUb ?_
      rw [filterMap_memberMap moving_ub, max?_sums hhigh (highest_marker hne), Int.add_comm]
    · rw [Bool.not_eq_true] at hl
      rw [if_neg (by simp [hl]), filterMap_memberMap moving_ub, hsticky.ub.mp hl, sums_nil_right,
        List.append_nil]
      exact h.stickyUb
  · dsimp only
    rw [List.filterMap_append]
    refine keepLowest_eq h.trueLb ?_
    rw [hstart, Int.add_comm]
  · dsimp only
    rw [List.filterMap_append]
    refine keepHighest_eq h.trueUb ?_
    rw [hend, Int.add_comm]
  · dsimp only
    intro hnone
    split at hnone
    · cases hnone
    rename_i hl
    rw [Bool.not_eq_true] at hl
    rw [List.filterMap_append]
    refine keepLowest_eq (h.lb hnone) ?_
    have hlowest := lowest_of_unmarked (hsticky.lb.mp hl) hd
    rw [filterMap_memberMap moving_start, min?_sums hlow hlowest, Int.add_comm]
  · dsimp only
    intro hnone
    split at hnone
    · cases hnone
    rename_i hl
    rw [Bool.not_eq_true] at hl
    rw [List.filterMap_append]
    refine keepHighest_eq (h.ub hnone) ?_
    have hhighest := highest_of_unmarked (hsticky.ub.mp hl) hd
    rw [filterMap_memberMap moving_ceiling, max?_sums hhigh hhighest, Int.add_comm]

theorem steps_zero_step (n : Nat) : steps n 0 = List.replicate n 0 := by
  simp [steps]

theorem scanned_marker {s : Scan} (h : Scanned s m) (hn : n ≠ 0) (disp : Int)
    {b : Builtin} (hb : b = .lb ∨ b = .ub) :
    Scanned (s.member ⟨n, disp, .builtin b⟩) (m ++ memberMap n disp (builtinMap b)) := by
  have hoffs : (steps n 0).map (disp + ·) = List.replicate n disp := by
    rw [steps_zero_step, List.map_replicate, Int.add_zero]
  have hmin : (List.replicate n disp).min? = some disp := List.min?_replicate_of_pos (by omega)
  have hmax : (List.replicate n disp).max? = some disp := List.max?_replicate_of_pos (by omega)
  have hone : sums (List.replicate n disp) [0] = List.replicate n disp := by simp [sums]
  rcases hb with rfl | rfl
  · have hmap : memberMap n disp (builtinMap .lb) = copies (List.replicate n disp) [⟨0, .lb⟩] := by
      rw [← hoffs]
      rfl
    have htmp : (Member.mk n disp (.builtin .lb)).tmp.1.1 = disp := by
      simp [Member.tmp, blockLbUb, hn, Builtin.size]
    rw [hmap]
    have hnone : ∀ f : Entry → Option Int, Moving f → f ⟨0, .lb⟩ = none →
        (copies (List.replicate n disp) [⟨0, .lb⟩]).filterMap f = [] := by
      intro f hf h0
      rw [filterMap_copies hf]
      simp [h0]
    simp only [Scan.member, if_neg hn, Scan.bounds, Member.isMarker, true_or, decide_true, if_true]
    constructor
    · have hzero : size [⟨0, .lb⟩] = 0 := rfl
      simp [h.size, size_append, size_copies, Member.size, Builtin.size, hzero]
    · simp only [Member.hasStickyLb, decide_true, if_true, List.filterMap_append]
      refine keepLowest_eq h.stickyLb ?_
      rw [htmp, filterMap_copies moving_lb]
      simpa [Entry.lb?, hone] using hmin
    · simp [Member.hasStickyUb, h.stickyUb, hnone _ moving_ub rfl]
    · simp [h.trueLb, hnone _ moving_start rfl]
    · simp [h.trueUb, hnone _ moving_end rfl]
    · simp [Member.hasStickyLb]
    · simpa [Member.hasStickyUb, hnone _ moving_ceiling rfl] using h.ub
  · have hmap : memberMap n disp (builtinMap .ub) = copies (List.replicate n disp) [⟨0, .ub⟩] := by
      rw [← hoffs]
      rfl
    have htmp : (Member.mk n disp (.builtin .ub)).tmp.1.2 = disp := by
      simp [Member.tmp, blockLbUb, hn, Builtin.size]
    rw [hmap]
    have hnone : ∀ f : Entry → Option Int, Moving f → f ⟨0, .ub⟩ = none →
        (copies (List.replicate n disp) [⟨0, .ub⟩]).filterMap f = [] := by
      intro f hf h0
      rw [filterMap_copies hf]
      simp [h0]
    simp only [Scan.member, if_neg hn, Scan.bounds, Member.isMarker, or_true, decide_true, if_true]
    constructor
    · have hzero : size [⟨0, .ub⟩] = 0 := rfl
      simp [h.size, size_append, size_copies, Member.size, Builtin.size, hzero]
    · simp [Member.hasStickyLb, h.stickyLb, hnone _ moving_lb rfl]
    · simp only [Member.hasStickyUb, decide_true, if_true, List.filterMap_append]
      refine keepHighest_eq h.stickyUb ?_
      rw [htmp, filterMap_copies moving_ub]
      simpa [Entry.ub?, hone] using hmax
    · simp [h.trueLb, hnone _ moving_start rfl]
    · simp [h.trueUb, hnone _ moving_end rfl]
    · simpa [Member.hasStickyLb, hnone _ moving_start rfl] using h.lb
    · simp [Member.hasStickyUb]

theorem structAlignsize_eq (cfg : Config) (members : List Member) :
    structAlignsize cfg members = top (members.filterMap (Member.alignsize? cfg)) := by
  rw [← max_eq_right (top_nonneg (members.filterMap (Member.alignsize? cfg))), structAlignsize]
  -- the greatest alignment of the members read so far
  generalize hacc : (0 : Int) = acc
  replace hacc : 0 ≤ acc := le_of_eq hacc
  induction members generalizing acc with
  | nil => exact (max_eq_left hacc).symm
  | cons m ms ih =>
    rw [List.foldl_cons]
    cases hm : m.alignsize? cfg with
    | none => rw [List.filterMap_cons_none hm, ih acc hacc]
    | some a =>
      have htop : top (a :: ms.filterMap (Member.alignsize? cfg)) =
          max a (top (ms.filterMap (Member.alignsize? cfg))) := rfl
      rw [List.filterMap_cons_some hm, htop]
      dsimp only
      split
      · rename_i hlt
        rw [ih a (by omega), ← max_assoc, max_eq_right (a := acc) (by omega)]
      · rename_i hlt
        rw [ih acc hacc, ← max_assoc, max_eq_left (a := acc) (b := a) (by omega)]

theorem increment_eq {e a : Int} (he : 0 ≤ e) (ha : 0 < a) :
    (-e) % a = if e.tmod a ≠ 0 then a - e.tmod a else 0 := by
  rw [Int.tmod_eq_emod_of_nonneg he]
  have hlow := Int.emod_nonneg e (by omega : a ≠ 0)
  have hhigh := Int.emod_lt_of_pos e ha
  have hsplit : -e = (a - e % a) + a * (-(e / a) - 1) := by
    have hdiv := Int.emod_add_mul_ediv e a
    linarith
  rw [hsplit, Int.add_mul_emod_self_left]
  split
  · exact Int.emod_eq_of_lt (by omega) (by omega)
  · rename_i hz
    rw [not_not] at hz
    rw [hz, Int.sub_zero, Int.emod_self]

theorem extent_nonneg (hl : m.filterMap Entry.lb? = []) (hu : m.filterMap Entry.ub? = [])
    (hd : HasData m) : 0 ≤ extent m := by
  have hlow := lowest_of_unmarked hl hd
  have hhigh := highest_of_unmarked hu hd
  rw [List.min?_eq_some_iff] at hlow
  rw [List.max?_eq_some_iff] at hhigh
  obtain ⟨⟨d, mark⟩, hx, hstart⟩ := List.mem_filterMap.mp hlow.1
  cases mark with
  | data size align =>
    have hle := hhigh.2 (d + size) (List.mem_filterMap.mpr ⟨_, hx, rfl⟩)
    have hd : d = lb m := Option.some.inj hstart
    unfold extent
    omega
  | lb => cases hstart
  | ub => cases hstart
  | pad => cases hstart

theorem hasData_of_align (h : 0 < align m) : HasData m := by
  intro hnil
  have hle : align m ≤ 0 := by
    refine top_le (le_refl 0) ?_
    intro a ha
    obtain ⟨⟨d, mark⟩, hx, halign⟩ := List.mem_filterMap.mp ha
    cases mark with
    | data size align => cases List.filterMap_eq_nil_iff.mp hnil _ hx
    | lb => cases halign
    | ub => cases halign
    | pad => cases halign
  omega

theorem filterMap_padded {α : Type} {f : Entry → Option α} (hf : ∀ d, f ⟨d, .pad⟩ = none)
    (m : Map) : (padded m).filterMap f = m.filterMap f := by
  unfold padded
  split
  · rw [List.filterMap_append, List.filterMap_cons_none (hf _), List.filterMap_nil, List.append_nil]
  · rfl

theorem size_padded (m : Map) : size (padded m) = size m := by
  unfold padded
  split
  · rw [size_append]
    rfl
  · rfl

theorem lb_padded (m : Map) : lb (padded m) = lb m := by
  unfold lb
  rw [filterMap_padded (fun _ => rfl), filterMap_padded (fun _ => rfl)]

theorem trueLb_padded (m : Map) : trueLb (padded m) = trueLb m := by
  unfold trueLb
  rw [filterMap_padded (fun _ => rfl)]

theorem trueUb_padded (m : Map) : trueUb (padded m) = trueUb m := by
  unfold trueUb
  rw [filterMap_padded (fun _ => rfl)]

theorem align_padded (m : Map) : align (padded m) = align m := by
  unfold align
  rw [filterMap_padded (fun _ => rfl)]

theorem ub_append_pad {p : Int} (hu : m.filterMap Entry.ub? = []) (hd : HasData m)
    (hp : ub m ≤ p) : ub (m ++ [⟨p, .pad⟩]) = p := by
  have hmarks : (m ++ [Entry.mk p .pad]).filterMap Entry.ub? = [] := by
    simp [hu, Entry.ub?]
  have hceil : ((m ++ [Entry.mk p .pad]).filterMap Entry.ceiling?).max? = some p := by
    have hone : [Entry.mk p .pad].filterMap Entry.ceiling? = [p] := rfl
    rw [List.filterMap_append, hone, max?_append (highest_of_unmarked hu hd) List.max?_singleton,
      max_eq_right hp]
  rw [ub, hmarks, hceil]
  rfl

theorem ub_padded (m : Map) : ub (padded m) = paddedUb
    (decide (m.filterMap Entry.lb? ≠ [] ∨ m.filterMap Entry.ub? ≠ [])) (align m) (lb m) (ub m) := by
  unfold padded
  split
  · rename_i h
    obtain ⟨hl, hu, ha⟩ := h
    have hd := hasData_of_align ha
    have hinc := increment_eq (extent_nonneg hl hu hd) ha
    have hnonneg := Int.emod_nonneg (-extent m) (by omega : align m ≠ 0)
    rw [ub_append_pad hu hd (by omega), hinc]
    have hmarks : decide (m.filterMap Entry.lb? ≠ [] ∨ m.filterMap Entry.ub? ≠ []) = false := by
      simp [hl, hu]
    rw [hmarks, paddedUb, if_neg Bool.false_ne_true, if_pos ha]
    by_cases hz : (extent m).tmod (align m) = 0
    · rw [if_neg (not_not.mpr hz), Int.add_zero]
      exact (if_neg (not_not.mpr hz)).symm
    · rw [if_pos hz]
      exact (if_pos hz).symm
  · rename_i h
    unfold paddedUb
    by_cases hm : m.filterMap Entry.lb? ≠ [] ∨ m.filterMap Entry.ub? ≠ []
    · rw [if_pos (decide_eq_true hm)]
    · have ha : ¬ 0 < align m := by
        intro ha
        rw [not_or, not_not, not_not] at hm
        exact h ⟨hm.1, hm.2, ha⟩
      simp [ha]

structure Known (cfg : Config) (left : Datatype → Left) (t : Datatype) : Prop where
  measures : Measures (t.handle cfg left).old (typemap cfg t)
  align : setsAlignsize t = true → (t.handle cfg left).old.alignsize = align (typemap cfg t)
  sticky : HasData (typemap cfg t) → fromResized t = false →
    Sticky (t.handle cfg left).old (typemap cfg t)

variable {cfg : Config} {left : Datatype → Left}

theorem measures_single (a : Int) (hsz : o.sz = n) (hlb : o.lb = 0)
    (hub : o.ub = n) (htlb : o.trueLb = 0) (htub : o.trueUb = n) (hext : o.extent = n) :
    Measures o [⟨0, .data n a⟩] := by
  have hu : ub [⟨0, .data n a⟩] = n := Int.zero_add (n : Int)
  have htu : trueUb [⟨0, .data n a⟩] = n := Int.zero_add (n : Int)
  refine ⟨?_, hlb, hub.trans hu.symm, htlb, htub.trans htu.symm, ?_⟩
  · rw [hsz]
    rfl
  · rw [hext, Typemap.extent, hu]
    exact (Int.sub_zero _).symm

theorem known_builtin (b : Builtin) : Known cfg left (.builtin b) := by
  cases b with
  | basic b =>
    refine ⟨measures_single _ rfl rfl rfl rfl rfl rfl, fun _ => ?_, fun _ _ => ⟨?_, ?_⟩⟩
    · exact (max_eq_left (Int.natCast_nonneg b.size)).symm
    · exact iff_of_true rfl rfl
    · exact iff_of_true rfl rfl
  | lb => exact ⟨⟨rfl, rfl, rfl, rfl, rfl, rfl⟩, fun _ => rfl, fun h => absurd rfl h⟩
  | ub => exact ⟨⟨rfl, rfl, rfl, rfl, rfl, rfl⟩, fun _ => rfl, fun h => absurd rfl h⟩

variable {old t : Datatype}

theorem known_copies
    (hold : Known cfg left old) (hd : HasData (typemap cfg old))
    (hmap : typemap cfg t = copies os (typemap cfg old)) (hfrom : fromResized t = fromResized old)
    (hspread : Spread (old.handle cfg left).old (t.handle cfg left).old lo hi os.length)
    (halign : setsAlignsize t = true →
      setsAlignsize old = true ∧ (t.handle cfg left).old.alignsize = (old.handle cfg left).old.alignsize)
    (hlo : os.min? = some lo) (hhi : os.max? = some hi) : Known cfg left t := by
  have hos : os ≠ [] := by
    rintro rfl
    cases hlo
  constructor
  · rw [hmap]
    exact hspread.measures hlo hhi hd hold.measures
  · intro hset
    obtain ⟨hsetOld, hsame⟩ := halign hset
    rw [hmap, align_copies hos, hsame, hold.align hsetOld]
  · intro _ hresized
    rw [hmap]
    exact hspread.sticky hlo (hold.sticky hd (hfrom ▸ hresized))

theorem known_empty {n : Left} (hmap : typemap cfg t = [])
    (hhandle : t.handle cfg left = .derived (typeZerolen n)) : Known cfg left t := by
  constructor
  · rw [hmap, hhandle]
    exact zerolen_measures n
  · intro _
    rw [hmap, hhandle]
    rfl
  · intro _ _
    rw [hmap, hhandle]
    exact zerolen_sticky n

theorem filterMap_filter {α : Type} {f : Entry → Option α} (hf : ∀ x, isData x = false → f x = none)
    (m : Map) : (m.filter isData).filterMap f = m.filterMap f := by
  rw [List.filterMap_filter]
  refine List.filterMap_congr ?_
  intro x _
  cases hx : isData x with
  | true => rfl
  | false => exact (hf x hx).symm

theorem unmarked_of_isData {x : Entry} (h : isData x = false) :
    x.start? = none ∧ x.end? = none ∧ x.align? = none ∧ x.size = 0 := by
  obtain ⟨d, mark⟩ := x
  cases mark with
  | data size align => cases h
  | lb => exact ⟨rfl, rfl, rfl, rfl⟩
  | ub => exact ⟨rfl, rfl, rfl, rfl⟩
  | pad => exact ⟨rfl, rfl, rfl, rfl⟩

theorem size_filter (m : Map) : size (m.filter isData) = size m := by
  induction m with
  | nil => rfl
  | cons x m ih =>
    have hcons : ∀ m, size (x :: m) = x.size + size m := fun _ => rfl
    cases hx : isData x with
    | true => rw [List.filter_cons_of_pos hx, hcons, hcons, ih]
    | false =>
      rw [List.filter_cons_of_neg (by simp [hx]), hcons, (unmarked_of_isData hx).2.2.2, ih, Nat.zero_add]

theorem remarked_lb (m : Map) (lb extent : Int) : Typemap.lb (remarked m lb extent) = lb := by
  have hnone : (m.filter isData).filterMap Entry.lb? = [] := by
    rw [List.filterMap_eq_nil_iff]
    rintro ⟨d, mark⟩ hx
    cases mark with
    | lb => cases (List.mem_filter.mp hx).2
    | data size align => rfl
    | ub => rfl
    | pad => rfl
  have hlbs : (remarked m lb extent).filterMap Entry.lb? = [lb] := congrArg (lb :: ·) hnone
  rw [Typemap.lb, hlbs]
  rfl

theorem remarked_ub (m : Map) (lb extent : Int) : ub (remarked m lb extent) = lb + extent := by
  have hnone : (m.filter isData).filterMap Entry.ub? = [] := by
    rw [List.filterMap_eq_nil_iff]
    rintro ⟨d, mark⟩ hx
    cases mark with
    | ub => cases (List.mem_filter.mp hx).2
    | data size align => rfl
    | lb => rfl
    | pad => rfl
  have hubs : (remarked m lb extent).filterMap Entry.ub? = [lb + extent] :=
    congrArg ((lb + extent) :: ·) hnone
  rw [ub, hubs]
  rfl

theorem align_remarked (m : Map) (lb extent : Int) : align (remarked m lb extent) = align m := by
  rw [align, remarked, List.filterMap_cons_none rfl, List.filterMap_cons_none rfl,
    filterMap_filter fun x hx => (unmarked_of_isData hx).2.2.1]
  rfl

theorem measures_resized {h : Handle} (lb extent : Int) (hold : Measures h.old m) :
    Measures (Handle.derived (typeCreateResized h lb extent)).old (remarked m lb extent) := by
  have hkeep : ∀ {α : Type} {f : Entry → Option α}, f ⟨lb, .lb⟩ = none →
      f ⟨lb + extent, .ub⟩ = none → (∀ x, isData x = false → f x = none) →
      (remarked m lb extent).filterMap f = m.filterMap f := by
    intro α f hlb hub hf
    rw [remarked, List.filterMap_cons_none hlb, List.filterMap_cons_none hub, filterMap_filter hf]
  have hsize : size (remarked m lb extent) = size m := by
    have hcons : size (remarked m lb extent) = 0 + (0 + size (m.filter isData)) := rfl
    rw [hcons, size_filter]
    omega
  have htrueLb : trueLb (remarked m lb extent) = trueLb m := by
    unfold trueLb
    rw [hkeep rfl rfl fun x hx => (unmarked_of_isData hx).1]
  have htrueUb : trueUb (remarked m lb extent) = trueUb m := by
    unfold trueUb
    rw [hkeep rfl rfl fun x hx => (unmarked_of_isData hx).2.1]
  have hext : Typemap.extent (remarked m lb extent) = extent := by
    rw [Typemap.extent, remarked_lb, remarked_ub]
    omega
  have hlb := remarked_lb m lb extent
  have hub := remarked_ub m lb extent
  cases h with
  | builtin b =>
    exact ⟨hsize ▸ hold.size, hlb.symm, hub.symm, htrueLb ▸ hold.trueLb, htrueUb ▸ hold.trueUb, hext.symm⟩
  | derived d =>
    exact ⟨hsize ▸ hold.size, hlb.symm, hub.symm, htrueLb ▸ hold.trueLb, htrueUb ▸ hold.trueUb, hext.symm⟩

theorem known_resized (lb extent : Int) (hold : Known cfg left old) :
    Known cfg left (.resized old lb extent) := by
  constructor
  · rw [Datatype.handle, typemap]
    exact measures_resized lb extent hold.measures
  · intro hset
    rw [setsAlignsize] at hset
    have hold' := hold.align hset
    rw [Datatype.handle, typemap, align_remarked, ← hold']
    cases old.handle cfg left <;> rfl
  · intro _ hfrom
    cases hfrom

theorem known_dup (hold : Known cfg left old) : Known cfg left (.dup old) := by
  have hmap : typemap cfg (.dup old) = typemap cfg old := by rw [typemap]
  cases hh : old.handle cfg left with
  | derived d =>
    have hold' : (Datatype.handle cfg left (.dup old)).old = (old.handle cfg left).old := by
      rw [Datatype.handle, hh]
      rfl
    refine ⟨by rw [hold', hmap]; exact hold.measures, ?_, ?_⟩
    · intro hset
      rw [hold', hmap]
      exact hold.align (by rwa [setsAlignsize] at hset)
    intro hd hfrom
    rw [hold', hmap]
    exact hold.sticky (hmap ▸ hd) (by rwa [fromResized] at hfrom)
  | builtin b =>
    have hdup : Datatype.handle cfg left (.dup old) =
        .derived (typeContiguous (left (.dup old)) 1 (.builtin b)) := by
      rw [Datatype.handle, hh]
      rfl
    have hd := hold.measures
    rw [hh] at hd
    have hone : ((1 : Nat) : Int) * b.size = b.size := by simp
    have hsame : (Handle.derived (typeContiguous (left (.dup old)) 1 (.builtin b))).old =
        (Handle.builtin b).old := by
      simp [typeContiguous, Handle.old]
    refine ⟨by rw [hdup, hsame, hmap]; exact hd, ?_, ?_⟩
    · intro hset
      rw [hdup, hsame, hmap, ← hh]
      exact hold.align (by rwa [setsAlignsize] at hset)
    intro hdata hfrom
    have hsticky := hold.sticky (hmap ▸ hdata) (by rwa [fromResized] at hfrom)
    rw [hh] at hsticky
    rw [hdup, hsame, hmap]
    exact hsticky

def memberOf (cfg : Config) (left : Datatype → Left) (x : MemberTerm) : Member :=
  ⟨x.blocklength, x.disp, x.oldtype.handle cfg left⟩

theorem handle_cases (cfg : Config) (left : Datatype → Left) (t : Datatype) :
    (∃ b, t = .builtin b) ∨ (∃ d, t.handle cfg left = .derived d) ∧
      ∀ disp m, alignedMap cfg disp t m = m := by
  cases t with
  | builtin b => exact Or.inl ⟨b, rfl⟩
  | contiguous count old => exact Or.inr ⟨⟨_, by rw [Datatype.handle]⟩, fun _ _ => rfl⟩
  | vector count blocklength stride strideinbytes old =>
    exact Or.inr ⟨⟨_, by rw [Datatype.handle]⟩, fun _ _ => rfl⟩
  | indexed blocks dispinbytes old => exact Or.inr ⟨⟨_, by rw [Datatype.handle]⟩, fun _ _ => rfl⟩
  | blockindexed blocklength disps dispinbytes old =>
    exact Or.inr ⟨⟨_, by rw [Datatype.handle]⟩, fun _ _ => rfl⟩
  | struct members => exact Or.inr ⟨⟨_, by rw [Datatype.handle]⟩, fun _ _ => rfl⟩
  | resized old lb extent => exact Or.inr ⟨⟨_, by rw [Datatype.handle]⟩, fun _ _ => rfl⟩
  | dup old => exact Or.inr ⟨⟨_, by rw [Datatype.handle]⟩, fun _ _ => rfl⟩

structure DataMember (x : Member) (m : Map) : Prop where
  notMarker : x.isMarker = false
  measures : Measures x.oldtype.old m
  sticky : StickyMember x m
  data : HasData m

variable {x : MemberTerm}

theorem dataMember (hknown : Known cfg left x.oldtype)
    (hd : HasData (typemap cfg x.oldtype)) (hfrom : fromResized x.oldtype = false) :
    DataMember (memberOf cfg left x) (MemberTerm.map cfg x) := by
  obtain ⟨n, disp, t⟩ := x
  rcases handle_cases cfg left t with ⟨b, rfl⟩ | ⟨⟨d, hh⟩, hmap⟩
  · cases b with
    | basic b =>
      refine ⟨rfl, measures_single _ rfl rfl rfl rfl rfl rfl, ⟨iff_of_true rfl rfl,
        iff_of_true rfl rfl⟩, ?_⟩
      intro hnil
      cases hnil
    | lb => exact absurd rfl hd
    | ub => exact absurd rfl hd
  · have hm : MemberTerm.map cfg ⟨n, disp, t⟩ = typemap cfg t := hmap _ _
    have hx : memberOf cfg left ⟨n, disp, t⟩ = ⟨n, disp, .derived d⟩ := by
      unfold memberOf
      rw [hh]
    have hdesc := hknown.measures
    have hst := hknown.sticky hd hfrom
    rw [hh] at hdesc hst
    rw [hm, hx]
    exact ⟨rfl, hdesc, ⟨hst.lb, hst.ub⟩, hd⟩

variable {ms : List MemberTerm}

theorem scanned_members {alignment : Int} (hms : ∀ m ∈ ms, MemberTerm.Regular cfg alignment m)
    (hknown : ∀ m ∈ ms, Bounds.Regular cfg m.oldtype → Known cfg left m.oldtype) {s : Scan}
    (h : Scanned s m) :
    Scanned ((ms.map (memberOf cfg left)).foldl Scan.member s)
      (m ++ ms.flatMap fun x => memberMap x.blocklength x.disp (MemberTerm.map cfg x)) := by
  induction ms generalizing s m with
  | nil => simpa using h
  | cons x ms ih =>
    rw [List.map_cons, List.foldl_cons, List.flatMap_cons, ← List.append_assoc]
    refine ih (fun y hy => hms y (List.mem_cons_of_mem _ hy))
      (fun y hy => hknown y (List.mem_cons_of_mem _ hy)) ?_
    by_cases hn : x.blocklength = 0
    · have hempty : memberMap x.blocklength x.disp (MemberTerm.map cfg x) = [] := by
        rw [hn]
        rfl
      have hskip : s.member (memberOf cfg left x) = s := by
        unfold Scan.member
        exact if_pos hn
      rw [hempty, hskip, List.append_nil]
      exact h
    · rcases hms x List.mem_cons_self with hmark | ⟨⟨hreg, -⟩, hrest⟩
      · obtain ⟨b, hb, hx⟩ : ∃ b : Builtin, (b = .lb ∨ b = .ub) ∧ x.oldtype = .builtin b := by
          unfold isMarker at hmark
          split at hmark
          · exact ⟨.lb, Or.inl rfl, by assumption⟩
          · exact ⟨.ub, Or.inr rfl, by assumption⟩
          · cases hmark
        have hmap : MemberTerm.map cfg x = builtinMap b := by
          unfold MemberTerm.map
          rw [hx]
          rcases hb with rfl | rfl <;> rfl
        rw [hmap, memberOf, hx]
        exact scanned_marker h hn x.disp hb
      · rw [if_neg hn] at hrest
        have hx := dataMember (hknown x List.mem_cons_self hreg) hrest.1 hrest.2
        exact scanned_data h hn hx.notMarker hx.measures hx.sticky hx.data

theorem scanned_start : Scanned {} [] :=
  ⟨rfl, rfl, rfl, rfl, rfl, fun _ => rfl, fun _ => rfl⟩

theorem member_align (hmark : isMarker x.oldtype = false) (hset : setsAlignsize x.oldtype = true)
    (hknown : Known cfg left x.oldtype) : ∃ a, (memberOf cfg left x).alignsize? cfg = some a ∧
      align (MemberTerm.map cfg x) = max a 0 := by
  obtain ⟨n, disp, t⟩ := x
  rcases handle_cases cfg left t with ⟨b, rfl⟩ | ⟨⟨d, hh⟩, hmap⟩
  · cases b with
    | basic b => exact ⟨basicAlignsize cfg b disp, rfl, rfl⟩
    | lb => cases hmark
    | ub => cases hmark
  · have hm : MemberTerm.map cfg ⟨n, disp, t⟩ = typemap cfg t := hmap _ _
    have halign := hknown.align hset
    rw [hh] at halign
    refine ⟨d.alignsize, by simp only [memberOf, hh, Member.alignsize?], ?_⟩
    rw [hm, ← halign]
    exact (max_eq_left (halign ▸ align_nonneg _)).symm

theorem marker_align (left : Datatype → Left) (hmark : isMarker x.oldtype = true) :
    (memberOf cfg left x).alignsize? cfg = none ∧ align (MemberTerm.map cfg x) = 0 := by
  obtain ⟨n, disp, t⟩ := x
  unfold isMarker at hmark
  split at hmark
  · rename_i ht
    cases ht
    exact ⟨rfl, rfl⟩
  · rename_i ht
    cases ht
    exact ⟨rfl, rfl⟩
  · cases hmark

theorem align_memberMap (hn : n ≠ 0) (disp : Int) (m : Map) : align (memberMap n disp m) = align m :=
  align_copies (by simpa using steps_ne_nil hn (extent m)) m

theorem align_flatMap_le {f : MemberTerm → Map} {c : Int} (h0 : 0 ≤ c)
    (h : ∀ x ∈ ms, align (f x) ≤ c) : align (ms.flatMap f) ≤ c := by
  induction ms with
  | nil => exact h0
  | cons x ms ih =>
    rw [List.flatMap_cons, align_append]
    exact max_le (h x List.mem_cons_self) (ih fun y hy => h y (List.mem_cons_of_mem _ hy))

theorem le_align_flatMap (f : MemberTerm → Map) (hx : x ∈ ms) : align (f x) ≤ align (ms.flatMap f) := by
  induction ms with
  | nil => cases hx
  | cons y ms ih =>
    rw [List.flatMap_cons, align_append]
    rcases List.mem_cons.mp hx with rfl | hx
    · exact le_max_left _ _
    · exact le_trans (ih hx) (le_max_right _ _)

theorem structAlignsize_members
    (hms : ∀ m ∈ ms, MemberTerm.Regular cfg (align (ms.flatMap fun x =>
      memberMap x.blocklength x.disp (MemberTerm.map cfg x))) m)
    (hknown : ∀ m ∈ ms, Bounds.Regular cfg m.oldtype → Known cfg left m.oldtype) :
    structAlignsize cfg (ms.map (memberOf cfg left)) = align (ms.flatMap fun x =>
      memberMap x.blocklength x.disp (MemberTerm.map cfg x)) := by
  rw [structAlignsize_eq]
  refine le_antisymm ?_ ?_
  · refine top_le (align_nonneg _) ?_
    intro a ha
    rw [List.filterMap_map] at ha
    obtain ⟨x, hx, hsome⟩ := List.mem_filterMap.mp ha
    rw [Function.comp_apply] at hsome
    rcases hms x hx with hmark | ⟨⟨hreg, hset⟩, hrest⟩
    · rw [(marker_align left hmark).1] at hsome
      cases hsome
    · cases hmark : isMarker x.oldtype with
      | true =>
        rw [(marker_align left hmark).1] at hsome
        cases hsome
      | false =>
        obtain ⟨a', ha', hmax⟩ := member_align hmark hset (hknown x hx hreg)
        rw [ha', Option.some.injEq] at hsome
        subst hsome
        have hle : a' ≤ align (MemberTerm.map cfg x) := by
          rw [hmax]
          exact le_max_left _ _
        refine le_trans hle ?_
        by_cases hn : x.blocklength = 0
        · rw [if_pos hn] at hrest
          exact hrest
        · rw [← align_memberMap hn x.disp]
          exact le_align_flatMap
            (fun x => memberMap x.blocklength x.disp (MemberTerm.map cfg x)) hx
  · refine align_flatMap_le (top_nonneg _) ?_
    intro x hx
    by_cases hn : x.blocklength = 0
    · rw [hn]
      exact top_nonneg _
    rw [align_memberMap hn]
    cases hmark : isMarker x.oldtype with
    | true =>
      rw [(marker_align left hmark).2]
      exact top_nonneg _
    | false =>
      rcases hms x hx with hmark' | ⟨⟨hreg, hset⟩, _⟩
      · rw [hmark] at hmark'
        cases hmark'
      · obtain ⟨a, ha, hmax⟩ := member_align hmark hset (hknown x hx hreg)
        rw [hmax]
        refine max_le (le_top ?_) (top_nonneg _)
        rw [List.filterMap_map]
        exact List.mem_filterMap.mpr ⟨x, hx, ha⟩

theorem known_struct {members : Members} (hreg : Bounds.Regular cfg (.struct members))
    (hknown : ∀ m ∈ members.list, Bounds.Regular cfg m.oldtype → Known cfg left m.oldtype) :
    Known cfg left (.struct members) := by
  have hhandles : members.handles cfg left = members.list.map (memberOf cfg left) :=
    members.handles_eq cfg left
  have hall : (members.list.map (memberOf cfg left)).all (·.blocklength = 0) = true ↔
      ∀ m ∈ members.list, m.blocklength = 0 := by
    rw [List.all_eq_true, List.forall_mem_map]
    exact forall₂_congr fun m _ => decide_eq_true_iff
  rw [Bounds.Regular] at hreg
  by_cases hzero : ∀ m ∈ members.list, m.blocklength = 0
  · -- every block is empty
    have hmap : membersMap cfg members = [] := by
      rw [membersMap_eq, List.flatMap_eq_nil_iff]
      intro x hx
      rw [hzero x hx]
      rfl
    refine known_empty (n := left (.struct members)) ?_ ?_
    · rw [typemap, hmap]
      rfl
    · rw [Datatype.handle, hhandles, typeStruct, if_pos (hall.mpr hzero)]
  · have hms := (regularMembers_iff cfg _ members).mp (hreg.resolve_left hzero)
    rw [membersMap_eq] at hms
    have hscan := scanned_members hms hknown scanned_start
    rw [List.nil_append, ← membersMap_eq] at hscan
    have halign := structAlignsize_members hms hknown
    rw [← membersMap_eq] at halign
    have hhandle : Datatype.handle cfg left (.struct members) = .derived
        (typeStruct cfg (left (.struct members)) (members.list.map (memberOf cfg left))) := by
      rw [Datatype.handle, hhandles]
    generalize hs : (members.list.map (memberOf cfg left)).foldl Scan.member {} = s at hscan
    have hlb : (s.stickyLb.or s.lb).getD 0 = lb (membersMap cfg members) := by
      unfold lb
      rw [← hscan.stickyLb]
      cases hsticky : s.stickyLb with
      | some d => rfl
      | none => rw [hscan.lb hsticky, Option.none_or]
    have hub : (s.stickyUb.or s.ub).getD 0 = ub (membersMap cfg members) := by
      unfold ub
      rw [← hscan.stickyUb]
      cases hsticky : s.stickyUb with
      | some d => rfl
      | none => rw [hscan.ub hsticky, Option.none_or]
    have hflagLb : s.stickyLb.isSome = true ↔ (membersMap cfg members).filterMap Entry.lb? ≠ [] := by
      rw [hscan.stickyLb, List.isSome_min?_iff]
    have hflagUb : s.stickyUb.isSome = true ↔ (membersMap cfg members).filterMap Entry.ub? ≠ [] := by
      rw [hscan.stickyUb, List.isSome_max?_iff]
    have hflag : (s.stickyLb.isSome || s.stickyUb.isSome) =
        decide ((membersMap cfg members).filterMap Entry.lb? ≠ [] ∨
          (membersMap cfg members).filterMap Entry.ub? ≠ []) := by
      rw [Bool.eq_iff_iff, Bool.or_eq_true, hflagLb, hflagUb, decide_eq_true_iff]
    have hstruct : typeStruct cfg (left (.struct members))
        (members.list.map (memberOf cfg left)) =
      { size := s.size
        hasStickyUb := s.stickyUb.isSome
        hasStickyLb := s.stickyLb.isSome
        trueLb := s.trueLb.getD 0
        lb := lb (membersMap cfg members)
        trueUb := s.trueUb.getD 0
        ub := ub (typemap cfg (.struct members))
        extent := ub (typemap cfg (.struct members)) - lb (membersMap cfg members)
        alignsize := align (membersMap cfg members)
        isContig := decide (s.size = ub (typemap cfg (.struct members)) - lb (membersMap cfg members)) &&
          s.oldAreContig && !s.definitelyNotContig
        maxContigBlocks := s.maxContigBlocks } := by
      rw [typeStruct, if_neg (fun h => hzero (hall.mp h)), typemap, ub_padded, ← hflag, ← hub, ← hlb,
        ← halign, hs]
    constructor
    · rw [hhandle, hstruct, typemap]
      refine ⟨?_, ?_, rfl, ?_, ?_, ?_⟩
      · rw [size_padded, ← hscan.size]
        rfl
      · rw [lb_padded]
        rfl
      · rw [trueLb_padded, trueLb, ← hscan.trueLb]
        rfl
      · rw [trueUb_padded, trueUb, ← hscan.trueUb]
        rfl
      · rw [Typemap.extent, lb_padded]
        rfl
    · intro _
      rw [hhandle, hstruct, typemap, align_padded]
      rfl
    · intro _ _
      rw [hhandle, hstruct, typemap]
      constructor
      · rw [filterMap_padded (fun _ => rfl)]
        exact Bool.not_eq_true _ ▸ not_congr hflagLb |>.trans not_not
      · rw [filterMap_padded (fun _ => rfl)]
        exact Bool.not_eq_true _ ▸ not_congr hflagUb |>.trans not_not

theorem indexed_alignsize (n : Left) {blocks : List Block} {c : Block} (hmem : c ∈ blocks) (hc : c.blocklength ≠ 0)
    (dispinbytes : Bool) (b : Builtin) :
    (Handle.derived (typeIndexed n blocks dispinbytes (.builtin b))).old.alignsize = b.size := by
  unfold typeIndexed
  cases hdrop : blocks.dropWhile (·.blocklength = 0) with
  | nil =>
    have hall := List.dropWhile_eq_nil_iff.mp hdrop c hmem
    exact absurd (by simpa using hall) hc
  | cons first rest => rfl

theorem known_of_regular (h : Bounds.Regular cfg t) : Known cfg left t := by
  induction t with
  | builtin b => exact known_builtin b
  | contiguous count old ih =>
    rw [Bounds.Regular] at h
    by_cases hn : count = 0
    · subst hn
      exact known_empty (by rw [typemap]; rfl) (by rw [Datatype.handle]; rfl)
    obtain ⟨hreg, hd⟩ := h.resolve_left hn
    have hold := ih hreg
    have hext := hold.measures.extent
    obtain ⟨lo, hi, hlo, hhi, hspread⟩ := contiguous_extrema (left (.contiguous count old)) hn
      (old.handle cfg left) hold.measures.extent_eq
    rw [hext] at hlo hhi
    refine known_copies hold hd (by rw [typemap]) (by rw [fromResized]) ?_ ?_ hlo hhi
    · rw [Datatype.handle, steps_length]
      exact hspread
    · intro hset
      rw [setsAlignsize, decide_eq_false hn, Bool.false_or] at hset
      refine ⟨hset, ?_⟩
      rw [Datatype.handle]
      cases old.handle cfg left <;> (simp only [typeContiguous, if_neg hn]; rfl)
  | vector count blocklength stride strideinbytes old ih =>
    rw [Bounds.Regular] at h
    by_cases hn : count = 0
    · subst hn
      exact known_empty (by rw [typemap]; rfl) (by rw [Datatype.handle]; rfl)
    obtain ⟨hb, hreg, hd⟩ := h.resolve_left hn
    have hold := ih hreg
    have hext := hold.measures.extent
    obtain ⟨lo, hi, hlo, hhi, hspread⟩ := vector_extrema (left (.vector count blocklength stride strideinbytes old))
      hn hb stride strideinbytes (old.handle cfg left)
    rw [hext] at hlo hhi
    refine known_copies hold hd (by rw [typemap]) (by rw [fromResized]) ?_ ?_ hlo hhi
    rotate_left
    · intro hset
      rw [setsAlignsize, decide_eq_false hn, Bool.false_or] at hset
      refine ⟨hset, ?_⟩
      rw [Datatype.handle]
      simp only [typeVector, if_neg hn]
      rfl
    have hlength : ∀ os ps : List Int, (sums os ps).length = os.length * ps.length := by
      intro os ps
      simp [sums]
    rw [Datatype.handle, vectorOffsets, hlength, steps_length, steps_length]
    exact hspread
  | indexed blocks dispinbytes old ih =>
    rw [Bounds.Regular] at h
    by_cases hz : ∀ b ∈ blocks, b.blocklength = 0
    · have hdrop : blocks.dropWhile (·.blocklength = 0) = [] := by
        rw [List.dropWhile_eq_nil_iff]
        exact fun b hb => decide_eq_true (hz b hb)
      have hoffs : ∀ e, blockOffsets blocks dispinbytes e = [] := by
        intro e
        rw [← blockOffsets_dropWhile, hdrop]
        rfl
      refine known_empty (n := left (.indexed blocks dispinbytes old)) ?_ ?_
      · rw [typemap, hoffs]
        rfl
      · rw [Datatype.handle, typeIndexed, hdrop]
    obtain ⟨hreg, hd⟩ := h.resolve_left hz
    obtain ⟨b, hmem, hb⟩ : ∃ b ∈ blocks, b.blocklength ≠ 0 := by
      by_contra hnone
      exact hz fun b hb => by_contra fun hne => hnone ⟨b, hb, hne⟩
    have hold := ih hreg
    obtain ⟨lo, hi, hlo, hhi, hspread⟩ := indexed_spread (left (.indexed blocks dispinbytes old))
      dispinbytes (old.handle cfg left) hold.measures.extent_eq hmem hb
    rw [hold.measures.extent] at hlo hhi hspread
    refine known_copies hold hd (by rw [typemap]) (by rw [fromResized]) ?_ ?_ hlo hhi
    · rw [Datatype.handle]
      exact hspread
    · intro hset
      have hall : blocks.all (·.blocklength = 0) = false := by
        rw [List.all_eq_false]
        exact ⟨b, hmem, by simpa using hb⟩
      rw [setsAlignsize, hall, Bool.false_or] at hset
      obtain ⟨b', rfl⟩ : ∃ b', old = .builtin b' := by
        unfold isBuiltin at hset
        split at hset
        · exact ⟨_, rfl⟩
        · cases hset
      exact ⟨rfl, indexed_alignsize _ hmem hb dispinbytes b'⟩
  | blockindexed blocklength disps dispinbytes old ih =>
    rw [Bounds.Regular] at h
    by_cases hz : disps = []
    · subst hz
      exact known_empty (by rw [typemap]; rfl) (by rw [Datatype.handle]; rfl)
    obtain ⟨hb, hreg, hd⟩ := h.resolve_left hz
    have hold := ih hreg
    obtain ⟨lo, hi, hlo, hhi, hspread⟩ :=
      blockindexed_spread (left (.blockindexed blocklength disps dispinbytes old)) hb hz
        dispinbytes (old.handle cfg left) hold.measures.extent_eq
    rw [hold.measures.extent] at hlo hhi hspread
    refine known_copies hold hd (by rw [typemap]) (by rw [fromResized]) ?_ ?_ hlo hhi
    · rw [Datatype.handle]
      exact hspread
    · intro hset
      rw [setsAlignsize, decide_eq_false hz, Bool.false_or] at hset
      cases disps with
      | nil => exact absurd rfl hz
      | cons first rest =>
        rw [Datatype.handle]
        exact ⟨hset, rfl⟩
  | struct members ih => exact known_struct h fun m hm hreg => ih m hm hreg
  | resized old lb extent ih =>
    rw [Bounds.Regular] at h
    exact known_resized lb extent (ih h)
  | dup old ih =>
    rw [Bounds.Regular] at h
    exact known_dup (ih h)

/-- The size and all bounds of a regular type are those of its typemap. -/
theorem stored_bounds (cfg : Config) (left : Datatype → Left) (t : Datatype)
    (h : Bounds.Regular cfg t) : Measures (t.handle cfg left).old (typemap cfg t) :=
  (known_of_regular h).measures

def plain : Config where
  doubleAlignmentException := none
  maxLongDoubleFpAlignment := none
  maxDoubleFpAlignment := none
  maxFpAlignment := some 16
  doublePosAlignment := false
  maxIntegerAlignment := some 8

theorem int_pos : 0 < 4 := by decide

def int : Datatype := .builtin (.basic ⟨4, .other, int_pos⟩)

def char : Datatype := .builtin (.basic ⟨1, .other, Nat.one_pos⟩)

def double : Datatype := .builtin (.basic ⟨8, .double, by decide⟩)

def rows : Datatype := .vector 3 2 (-4) false
  (.struct (.cons 1 0 double (.cons 2 8 char (.cons 0 12 int .nil))))

theorem stored_bounds_rows : Bounds.Regular plain rows ∧
    Measures (rows.handle plain fun _ => ⟨0, 0⟩).old (typemap plain rows) := by
  have hreg : Bounds.Regular plain rows := by
    have hdata : HasData (typemap plain (.struct (.cons 1 0 double (.cons 2 8 char
        (.cons 0 12 int .nil))))) := by decide
    rw [rows, Bounds.Regular]
    refine Or.inr ⟨by decide, ?_, hdata⟩
    rw [Bounds.Regular]
    refine Or.inr ⟨Or.inr ⟨⟨trivial, rfl⟩, ?_⟩, Or.inr ⟨⟨trivial, rfl⟩, ?_⟩, Or.inr ⟨⟨trivial, rfl⟩, ?_⟩, trivial⟩
    · exact ⟨by decide, rfl⟩
    · exact ⟨by decide, rfl⟩
    · decide
  exact ⟨hreg, stored_bounds plain (fun _ => ⟨0, 0⟩) rows hreg⟩

theorem stored_bounds_differ :
    (¬ ∀ left, Measures ((Datatype.vector 1 0 1 false int).handle plain left).old
      (typemap plain (.vector 1 0 1 false int))) ∧
    (¬ ∀ left, Measures ((Datatype.indexed [⟨1, 8⟩] true (.contiguous 0 int)).handle plain left).old
      (typemap plain (.indexed [⟨1, 8⟩] true (.contiguous 0 int)))) ∧
    (¬ ∀ left, Measures ((Datatype.struct (.cons 1 0 (.resized int 0 8) (.cons 1 8 int .nil))).handle
      plain left).old
      (typemap plain (.struct (.cons 1 0 (.resized int 0 8) (.cons 1 8 int .nil))))) ∧
    (¬ ∀ left, Measures ((Datatype.struct (.cons 1 0 char (.cons 0 8 double .nil))).handle
      plain left).old (typemap plain (.struct (.cons 1 0 char (.cons 0 8 double .nil))))) ∧
    ¬ ∀ left, Measures ((Datatype.struct (.cons 1 0 (.indexed [⟨1, 0⟩] true (.contiguous 1 int))
      (.cons 1 4 char .nil))).handle plain left).old
      (typemap plain (.struct (.cons 1 0 (.indexed [⟨1, 0⟩] true (.contiguous 1 int)) (.cons 1 4 char .nil)))) := by
  refine ⟨fun h => ?_, fun h => ?_, fun h => ?_, fun h => ?_, fun h => ?_⟩
  · exact absurd (h fun _ => ⟨0, 0⟩).ub (by decide)
  · exact absurd (h fun _ => ⟨0, 0⟩).ub (by decide)
  · exact absurd (h fun _ => ⟨0, 0⟩).ub (by decide)
  · exact absurd (h fun _ => ⟨0, 0⟩).ub (by decide)
  · exact absurd (h fun _ => ⟨0, 0⟩).ub (by decide)

end FgMpi.Types.Bounds
