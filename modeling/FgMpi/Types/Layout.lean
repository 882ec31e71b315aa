import FgMpi.Types.Bounds
import Mathlib.Algebra.BigOperators.Group.List.Basic

/-! The pieces of data of a datatype in typemap order. -/

namespace FgMpi.Types.Layout
open Types.Typemap Types.Constructors Types.Bounds

def builtinData : Builtin → Map
  | .basic b => [⟨0, .data b.size b.size⟩]
  | .lb => []
  | .ub => []

mutual

def layout (cfg : Config) (left : Datatype → Left) : Datatype → Map
  | .builtin b => builtinData b
  | .contiguous count old =>
    copies (steps count (old.handle cfg left).old.extent) (layout cfg left old)
  | .vector count blocklength stride strideinbytes old =>
    copies (vectorOffsets count blocklength
      (effDisp strideinbytes (old.handle cfg left).old.extent stride)
      (old.handle cfg left).old.extent) (layout cfg left old)
  | .indexed blocks dispinbytes old =>
    copies (blockOffsets blocks dispinbytes (old.handle cfg left).old.extent) (layout cfg left old)
  | .blockindexed blocklength disps dispinbytes old =>
    copies (blockOffsets (disps.map (⟨blocklength, ·⟩)) dispinbytes
      (old.handle cfg left).old.extent) (layout cfg left old)
  | .struct members => layoutMembers cfg left members
  | .resized old _ _ => layout cfg left old
  | .dup old => layout cfg left old

def layoutMembers (cfg : Config) (left : Datatype → Left) : Members → Map
  | .nil => []
  | .cons blocklength disp old rest =>
    copies ((steps blocklength (old.handle cfg left).old.extent).map (disp + ·))
      (layout cfg left old) ++ layoutMembers cfg left rest

end

def instances (cfg : Config) (left : Datatype → Left) (count : Nat) (t : Datatype) : Map :=
  copies (steps count (t.handle cfg left).old.extent) (layout cfg left t)

def memberLayout (cfg : Config) (left : Datatype → Left) (x : MemberTerm) : Map :=
  copies ((steps x.blocklength (x.oldtype.handle cfg left).old.extent).map (x.disp + ·))
    (layout cfg left x.oldtype)

theorem layoutMembers_eq (cfg : Config) (left : Datatype → Left) (ms : Members) :
    layoutMembers cfg left ms = ms.list.flatMap (memberLayout cfg left) := by
  match ms with
  | .nil => rfl
  | .cons blocklength disp old rest =>
    rw [layoutMembers, Members.list, List.flatMap_cons, layoutMembers_eq cfg left rest]
    rfl

structure Sized (o : Old) (m : Map) : Prop where
  size : o.sz = size m
  extent : o.extent = o.ub - o.lb
  contig : o.isContig = true → o.extent = o.sz

variable {cfg : Config} {left : Datatype → Left}

theorem sized_zerolen (n : Left) : Sized (Handle.derived (typeZerolen n)).old [] :=
  ⟨rfl, rfl, fun _ => rfl⟩

variable {m : Map}

theorem Sized.nonneg {o : Old} (h : Sized o m) : 0 ≤ o.sz := by
  rw [h.size]
  exact Int.natCast_nonneg _

variable {h : Handle}

theorem sized_contiguous (n : Left) {count : Nat} (hold : Sized h.old m) :
    Sized (Handle.derived (typeContiguous n count h)).old (copies (steps count h.old.extent) m) := by
  by_cases hn : count = 0
  · subst hn
    exact sized_zerolen n
  obtain ⟨lo, hi, hlo, hhi, hspread⟩ := contiguous_extrema n hn h hold.extent
  refine ⟨?_, hspread.extent, ?_⟩
  · rw [hspread.size, hold.size, size_copies, steps_length]
    push_cast
    rfl
  · intro hcontig
    have hflag : h.old.isContig = true := by
      cases h with
      | builtin b => rfl
      | derived d => simpa [typeContiguous, hn, Handle.old] using hcontig
    have hext := hold.contig hflag
    have hnonneg := hold.nonneg
    rw [min?_steps hn, hext, if_pos hnonneg, Option.some.injEq] at hlo
    rw [max?_steps hn, hext, if_pos hnonneg, Option.some.injEq] at hhi
    have hub := hold.extent
    rw [hspread.extent, hspread.lb, hspread.ub, hspread.size, ← hlo, ← hhi]
    linarith

theorem sized_vector (n : Left) (count blocklength : Nat) (stride : Int) (strideinbytes : Bool) (hold : Sized h.old m) :
    Sized (Handle.derived (typeVector n count blocklength stride strideinbytes h)).old
      (copies (vectorOffsets count blocklength (effDisp strideinbytes h.old.extent stride)
        h.old.extent) m) := by
  by_cases hn : count = 0
  · subst hn
    exact sized_zerolen n
  have hlength : ∀ os ps : List Int, (sums os ps).length = os.length * ps.length := by
    intro os ps
    simp [sums]
  simp only [typeVector, if_neg hn]
  refine ⟨?_, rfl, ?_⟩
  · rw [size_copies, vectorOffsets, hlength, steps_length, steps_length]
    push_cast
    rw [← hold.size]
    rfl
  · intro hcontig
    exact (of_decide_eq_true hcontig).1.symm

theorem sized_blockindexed (n : Left) (blocklength : Nat) (disps : List Int) (dispinbytes : Bool) (hold : Sized h.old m) :
    Sized (Handle.derived (typeBlockindexed n blocklength disps dispinbytes h)).old
      (copies (blockOffsets (disps.map (⟨blocklength, ·⟩)) dispinbytes h.old.extent) m) := by
  cases disps with
  | nil => exact sized_zerolen n
  | cons first rest =>
    refine ⟨?_, rfl, ?_⟩
    · rw [size_copies, blockOffsets_length]
      push_cast
      rw [← hold.size]
      rfl
    · intro hcontig
      have hflags := of_decide_eq_true (Bool.and_eq_true_iff.mp hcontig).2
      exact hflags.2.symm

theorem indexed_oldCt (dispinbytes : Bool) (o : Old) (rest : List Block)
    (acc : (Int × Int) × Nat) : (rest.foldl (widenIndexed dispinbytes o) acc).2 =
      acc.2 + (blockOffsets rest dispinbytes o.extent).length := by
  induction rest generalizing acc with
  | nil => simp [blockOffsets]
  | cons b rest ih =>
    have hcons : blockOffsets (b :: rest) dispinbytes o.extent =
        blockOffset dispinbytes o.extent b ++ blockOffsets rest dispinbytes o.extent := rfl
    rw [List.foldl_cons, ih, hcons, List.length_append, blockOffset, List.length_map, steps_length]
    unfold widenIndexed
    split
    · dsimp only
      omega
    · rename_i hz
      have hzero : b.blocklength = 0 := by omega
      rw [hzero]
      omega

theorem sized_indexed (n : Left) (blocks : List Block) (dispinbytes : Bool) (hold : Sized h.old m) :
    Sized (Handle.derived (typeIndexed n blocks dispinbytes h)).old
      (copies (blockOffsets blocks dispinbytes h.old.extent) m) := by
  rw [← blockOffsets_dropWhile]
  unfold typeIndexed
  cases hdrop : blocks.dropWhile (·.blocklength = 0) with
  | nil => exact sized_zerolen n
  | cons first rest =>
    refine ⟨?_, rfl, ?_⟩
    · have hct := indexed_oldCt dispinbytes h.old rest (blockLbUb first.blocklength
        (effDisp dispinbytes h.old.extent first.disp) h.old.lb h.old.ub h.old.extent,
        first.blocklength)
      have hcons : blockOffsets (first :: rest) dispinbytes h.old.extent =
          blockOffset dispinbytes h.old.extent first ++ blockOffsets rest dispinbytes h.old.extent := rfl
      have hlength : (blockOffsets (first :: rest) dispinbytes h.old.extent).length =
          first.blocklength + (blockOffsets rest dispinbytes h.old.extent).length := by
        rw [hcons, List.length_append, blockOffset, List.length_map, steps_length]
      rw [size_copies, hlength]
      push_cast
      rw [← hold.size, ← Nat.cast_add, ← hct]
      rfl
    · intro hcontig
      have hflags := of_decide_eq_true (Bool.and_eq_true_iff.mp hcontig).2
      exact hflags.2.symm

theorem sized_resized (lb extent : Int) (hold : Sized h.old m) :
    Sized (Handle.derived (typeCreateResized h lb extent)).old m := by
  cases h with
  | builtin b =>
    refine ⟨hold.size, ?_, ?_⟩
    · simp [typeCreateResized, Handle.old]
    · intro hcontig
      exact of_decide_eq_true hcontig
  | derived d =>
    refine ⟨hold.size, ?_, ?_⟩
    · simp [typeCreateResized, Handle.old]
    · intro hcontig
      simp only [typeCreateResized, Handle.old] at hcontig ⊢
      split at hcontig
      · assumption
      · cases hcontig

theorem sized_dup (n : Left) (hold : Sized h.old m) : Sized (Handle.derived (typeDup n h)).old m := by
  cases h with
  | builtin b =>
    have hsame : (Handle.derived (typeContiguous n 1 (.builtin b))).old = (Handle.builtin b).old := by
      simp [typeContiguous, Handle.old]
    exact hsame ▸ hold
  | derived d => exact ⟨hold.size, hold.extent, hold.contig⟩

theorem scan_size (ms : List Member) (s : Scan) :
    (ms.foldl Scan.member s).size = s.size + (ms.map Member.size).sum := by
  induction ms generalizing s with
  | nil => simp
  | cons m ms ih =>
    rw [List.foldl_cons, ih, List.map_cons, List.sum_cons]
    unfold Scan.member
    split
    · rename_i hz
      rw [Member.size_eq, hz]
      simp
    · dsimp only
      omega

theorem sized_struct (n : Left) {ms : List MemberTerm}
    (hold : ∀ x ∈ ms, Sized (x.oldtype.handle cfg left).old (layout cfg left x.oldtype)) :
    Sized (Handle.derived (typeStruct cfg n (ms.map (memberOf cfg left)))).old
      (ms.flatMap (memberLayout cfg left)) := by
  have hsize : ((ms.map (memberOf cfg left)).map Member.size).sum =
      (size (ms.flatMap (memberLayout cfg left)) : Int) := by
    induction ms with
    | nil => rfl
    | cons x ms ih =>
      have hx := (hold x List.mem_cons_self).size
      have hmember : (memberOf cfg left x).size = (size (memberLayout cfg left x) : Int) := by
        rw [Member.size_eq, memberLayout, size_copies, List.length_map, steps_length]
        push_cast
        rw [← hx]
        rfl
      rw [List.map_cons, List.map_cons, List.sum_cons, List.flatMap_cons, size_append,
        ih fun y hy => hold y (List.mem_cons_of_mem _ hy), hmember]
      push_cast
      rfl
  unfold typeStruct
  split
  · rename_i hzero
    have hempty : (size (ms.flatMap (memberLayout cfg left)) : Int) = 0 := by
      rw [← hsize]
      refine List.sum_eq_zero ?_
      intro z hz
      obtain ⟨y, hy, rfl⟩ := List.mem_map.mp hz
      have hy0 := of_decide_eq_true (List.all_eq_true.mp hzero y hy)
      rw [Member.size_eq, hy0]
      simp
    exact ⟨hempty.symm, rfl, fun _ => rfl⟩
  · refine ⟨?_, rfl, ?_⟩
    · rw [← hsize]
      have hscan := scan_size (ms.map (memberOf cfg left)) {}
      simpa [Handle.old] using hscan
    · intro hcontig
      have hflags := (Bool.and_eq_true_iff.mp (Bool.and_eq_true_iff.mp hcontig).1).1
      exact (of_decide_eq_true hflags).symm

theorem sized (cfg : Config) (left : Datatype → Left) (t : Datatype) :
    Sized (t.handle cfg left).old (layout cfg left t) := by
  induction t with
  | builtin b =>
    cases b with
    | basic b =>
      have hsize : size (layout cfg left (.builtin (.basic b))) = b.size := by
        rw [layout]
        rfl
      exact ⟨by rw [hsize]; rfl, (Int.sub_zero _).symm, fun _ => rfl⟩
    | lb => exact ⟨by rw [layout]; rfl, rfl, fun _ => rfl⟩
    | ub => exact ⟨by rw [layout]; rfl, rfl, fun _ => rfl⟩
  | contiguous count old ih =>
    rw [Datatype.handle, layout]
    exact sized_contiguous _ ih
  | vector count blocklength stride strideinbytes old ih =>
    rw [Datatype.handle, layout]
    exact sized_vector _ count blocklength stride strideinbytes ih
  | indexed blocks dispinbytes old ih =>
    rw [Datatype.handle, layout]
    exact sized_indexed _ blocks dispinbytes ih
  | blockindexed blocklength disps dispinbytes old ih =>
    rw [Datatype.handle, layout]
    exact sized_blockindexed _ blocklength disps dispinbytes ih
  | struct members ih =>
    have hhandles : members.handles cfg left = members.list.map (memberOf cfg left) :=
      members.handles_eq cfg left
    rw [Datatype.handle, layout, layoutMembers_eq, hhandles]
    exact sized_struct _ ih
  | resized old lb extent ih =>
    rw [Datatype.handle, layout]
    exact sized_resized lb extent ih
  | dup old ih =>
    rw [Datatype.handle, layout]
    exact sized_dup _ ih

end FgMpi.Types.Layout
