import FgMpi.Machine.Ints
import FgMpi.Traversal.Windows

/-! `do_accumulate_op` (`mpid/ch3/include/mpidrma.h:888`). -/

namespace FgMpi.Rma.AccumulateOp
open Types.Typemap (interval interval_length interval_add interval_inj)
open Machine.Ints Machine.Regions Types.Pieces
open Traversal.Dataloops Traversal.Manipulate Traversal.Calls Traversal.Filling
open Traversal.Packing Traversal.Windows

@[ext]
structure Predefined where
  handle : Nat
  size : Nat
  extent : Nat
  pos : 0 < size

instance : DecidableEq Predefined := fun _ _ => decidable_of_iff' _ Predefined.ext_iff

/-- What is traversed of data of one basic type, and where its elements are.  An element of the type is one of
the traversal, or several that lie side by side (the bytes of a flattened struct). -/
inductive Grouped (type : Predefined) : List Element → List Int → Prop
  | nil : Grouped type [] []
  | cons (loc : Int) {group es : List Element} {locs : List Int} :
    elementBytes 0 group = interval loc type.size → Grouped type es locs → Grouped type (group ++ es) (loc :: locs)

/-- A committed derived datatype of one basic type, which is no pair. -/
structure Derived where
  basicType : Predefined
  extent : basicType.extent = basicType.size
  maxContigBlocks : Nat
  loop : TypeLoop
  committed : Committed loop
  grouped : ∀ off, ∃ locs, Grouped basicType (copyAt loop off) locs

def Derived.stream (dtp : Derived) (targetCount : Nat) : List Int := elementBytes 0 (copies dtp.loop targetCount)

inductive Datatype
  | predefined (dtp : Predefined)
  | derived (dtp : Derived)

inductive AccOp
  | noOp
  | builtin
  | user

/-- `pastEnd`: an entry of `dloop_vec` at or beyond `vec_len`. -/
inductive Fault
  | opNotPredefined
  | nomem
  | assertion
  | pastEnd
deriving DecidableEq

def uop (type : Predefined) (accumulated : Nat) (loc : Int) (count : Nat) : List (Nat × Int) :=
  (List.range count).map fun j => (accumulated + j, loc + (type.extent * j : Nat))

/-- The loop over `dloop_vec`; `rest` are its entries behind entry `i`.  `count` is at most `source_count`, so it
fits an `int`. -/
def accumulate (type : Predefined) (currLoc : Int) (currLen accumulated : Nat) (rest : List Region) :
    Except Fault (List (Nat × Int)) :=
  if currLen < type.size then
    match rest with
    | [] => .error .pastEnd
    | r :: rest => accumulate type currLoc (currLen + r.len.toNat) accumulated rest
  else
    let count := currLen / type.size
    let here := uop type accumulated currLoc count
    if currLen % type.size = 0 then
      match rest with
      | [] => .ok here
      | r :: rest => (here ++ ·) <$> accumulate type r.start r.len.toNat (accumulated + count) rest
    else
      (here ++ ·) <$> accumulate type (currLoc + (type.extent * count : Nat)) (currLen - type.size * count)
        (accumulated + count) rest
termination_by 2 * rest.length + if currLen < type.size then 0 else 1
decreasing_by
  · grind
  · grind
  · have hlt := Nat.mod_lt currLen type.pos
    have hmod := Nat.mod_add_div currLen type.size
    grind

def accumulateVector (type : Predefined) : List Region → Except Fault (List (Nat × Int))
  | [] => .error .pastEnd
  | r :: rest => accumulate type r.start r.len.toNat 0 rest

/-- `vec_len`, which is an `int`. -/
@[irreducible] def Derived.vecLen (dtp : Derived) (targetCount : Nat) : Int :=
  toInt (dtp.maxContigBlocks * targetCount + 1)

def doAccumulateOp (beyond : Int → Int) (st : Nat → Stackelm) (sourceCount : Nat) (sourceDtp : Predefined)
    (targetCount : Nat) (targetDtp : Datatype) (streamOffset : Nat) (accOp : AccOp) : Except Fault (List (Nat × Int)) :=
  match accOp, targetDtp with
  | .user, _ => .error .opNotPredefined
  | .noOp, _ => .ok (uop sourceDtp 0 0 sourceCount)
  | .builtin, .predefined dtp =>
    if sourceDtp ≠ dtp then .error .assertion
    else .ok (uop sourceDtp 0 (streamOffset / sourceDtp.size * sourceDtp.extent : Nat) sourceCount)
  | .builtin, .derived dtp =>
    match segmentInit beyond 0 st (initLoop dtp.loop targetCount).1 (initLoop dtp.loop targetCount).2 with
    | .error _ => .error .assertion
    | .ok segp =>
      if dtp.vecLen targetCount < 0 then .error .nomem
      else
        let out := segmentPackVector beyond segp streamOffset (streamOffset + sourceCount * sourceDtp.size : Nat)
          (dtp.vecLen targetCount)
        if out.fault.isSome ∨ dtp.basicType ≠ sourceDtp then .error .assertion
        else accumulateVector sourceDtp out.pieceparams.vectorp

section Grouped
variable {type : Predefined} {es es' : List Element} {locs locs' : List Int}

theorem grouped_append (h : Grouped type es locs) (h' : Grouped type es' locs') :
    Grouped type (es ++ es') (locs ++ locs') := by
  induction h with
  | nil => exact h'
  | cons loc hgroup _ ih =>
    rw [List.append_assoc]
    exact .cons loc hgroup ih

theorem grouped_copies (dtp : Derived) (count : Nat) : ∃ locs, Grouped dtp.basicType (copies dtp.loop count) locs := by
  have hcopies : ∀ js : List Nat, ∃ locs,
      Grouped dtp.basicType (js.flatMap fun j : Nat => copyAt dtp.loop (j * dtp.loop.extent)) locs := by
    intro js
    induction js with
    | nil => exact ⟨[], .nil⟩
    | cons j js ih =>
      obtain ⟨first, hfirst⟩ := dtp.grouped (j * dtp.loop.extent)
      obtain ⟨rest, hrest⟩ := ih
      exact ⟨first ++ rest, grouped_append hfirst hrest⟩
  exact hcopies _

theorem grouped_bytes (h : Grouped type es locs) : elementBytes 0 es = locs.flatMap (interval · type.size) := by
  induction h with
  | nil => rfl
  | cons loc hgroup _ ih => rw [elementBytes_append, hgroup, ih, List.flatMap_cons]

theorem places_length (locs : List Int) (n : Nat) : (locs.flatMap (interval · n)).length = locs.length * n := by
  simp [List.length_flatMap]

theorem grouped_length (h : Grouped type es locs) : size es = locs.length * type.size := by
  rw [size, ← streamSize_pack 0, grouped_bytes h, places_length]

theorem grouped_split (h : Grouped type es locs) (n : Nat) : ∃ P R, es = P ++ R ∧ Grouped type P (locs.take n) ∧
    Grouped type R (locs.drop n) := by
  induction h generalizing n with
  | nil => exact ⟨[], [], rfl, by rw [List.take_nil]; exact .nil, by rw [List.drop_nil]; exact .nil⟩
  | @cons loc group es locs hgroup h ih =>
    cases n with
    | zero => exact ⟨[], _, rfl, .nil, .cons loc hgroup h⟩
    | succ n =>
      obtain ⟨P, R, rfl, hP, hR⟩ := ih n
      exact ⟨group ++ P, R, (List.append_assoc ..).symm, .cons loc hgroup hP, hR⟩

end Grouped

section Walk
variable {type : Predefined} {locs : List Int} {acc len : Nat} {loc : Int} {rest : List Region}

def paired (acc : Nat) (locs : List Int) : List (Nat × Int) := locs.mapIdx fun k loc => (acc + k, loc)

theorem paired_append (acc : Nat) (locs locs' : List Int) :
    paired acc (locs ++ locs') = paired acc locs ++ paired (acc + locs.length) locs' := by
  simp [paired, List.mapIdx_append, Nat.add_assoc, Nat.add_comm locs.length]

def inside (type : Predefined) (loc : Int) (count : Nat) : List Int :=
  (List.range count).map fun j : Nat => loc + (type.size * j : Nat)

theorem inside_length (loc : Int) (count : Nat) : (inside type loc count).length = count := by
  rw [inside, List.length_map, List.length_range]

theorem uop_inside (hextent : type.extent = type.size) (count : Nat) :
    uop type acc loc count = paired acc (inside type loc count) := by
  refine List.ext_getElem (by simp [uop, paired, inside]) fun k _ _ => ?_
  simp [uop, paired, inside, hextent]

theorem interval_getElem? {n k : Nat} (hk : k < n) (a : Int) : (interval a n)[k]? = some (a + k) := by
  simp [interval, List.getElem?_range hk]

theorem inside_split {count : Nat} {ys : List Int}
    (h : interval loc (type.size * count) ++ ys = locs.flatMap (interval · type.size)) :
    ∃ more, locs = inside type loc count ++ more ∧ ys = more.flatMap (interval · type.size) := by
  induction count generalizing loc locs with
  | zero => exact ⟨locs, rfl, h⟩
  | succ count ih =>
    have hpos := type.pos
    cases locs with
    | nil =>
      have hlen := congrArg List.length h
      simp at hlen
      omega
    | cons l locs =>
      rw [Nat.mul_succ, Nat.add_comm, interval_add, List.append_assoc, List.flatMap_cons] at h
      obtain ⟨hfirst, hmore⟩ := List.append_inj h (by simp)
      rw [interval_inj] at hfirst
      obtain rfl := hfirst.resolve_left (by omega)
      obtain ⟨more, rfl, hys⟩ := ih hmore
      refine ⟨more, ?_, hys⟩
      rw [inside, inside, List.range_succ_eq_map, List.map_cons, List.map_map, List.cons_append]
      congr 2
      · simp
      · refine List.map_congr_left fun j _ => ?_
        rw [Function.comp_apply, Nat.mul_succ]
        push_cast
        omega

theorem next_start {r : Region} (hlen : 0 < len) (hlt : len < type.size) (hr : 0 < r.len)
    (h : interval loc len ++ bytes (r :: rest) = locs.flatMap (interval · type.size)) : r.start = loc + len := by
  have hfirst := congrArg (·[0]?) h
  have hnext := congrArg (·[len]?) h
  have hentry := bytes_getElem? (n := 0) rest hr
  cases locs with
  | nil =>
    have := congrArg List.length h
    simp at this
    omega
  | cons l locs =>
    rw [List.flatMap_cons, List.getElem?_append_left (by simpa using hlen), interval_getElem? hlen,
      List.getElem?_append_left (by simp; omega), interval_getElem? (by omega), Option.some.injEq] at hfirst
    rw [List.flatMap_cons, List.getElem?_append_right (by simp), interval_length, Nat.sub_self, hentry,
      List.getElem?_append_left (by simp; omega), interval_getElem? hlt, Option.some.injEq] at hnext
    omega

theorem accumulate_eq (hextent : type.extent = type.size) (hlen : 0 < len) (hpos : Positive rest)
    (h : interval loc len ++ bytes rest = locs.flatMap (interval · type.size)) :
    accumulate type loc len acc rest = .ok (paired acc locs) := by
  have htype := type.pos
  fun_induction accumulate type loc len acc rest generalizing locs with
  | case1 loc len acc hlt =>
    have hcount := congrArg List.length h
    rw [places_length, List.length_append, interval_length, bytes_nil, List.length_nil] at hcount
    cases locs with
    | nil => simp at hcount; omega
    | cons l locs =>
      rw [List.length_cons, Nat.succ_mul] at hcount
      omega
  | case2 loc len acc hlt r rest ih =>
    have hr := hpos r List.mem_cons_self
    have hstart := next_start hlen hlt hr h
    refine ih (Nat.add_pos_left hlen _) (fun x hx => hpos x (List.mem_cons_of_mem _ hx)) ?_
    rw [interval_add, List.append_assoc, ← hstart]
    exact h
  | case3 loc len acc hge c here =>
    rename_i hmod
    have hwhole : type.size * c = len := Nat.mul_div_cancel' (Nat.dvd_of_mod_eq_zero hmod)
    rw [← hwhole] at h
    obtain ⟨more, rfl, hmore⟩ := inside_split h
    cases more with
    | nil =>
      rw [List.append_nil]
      exact congrArg Except.ok (uop_inside hextent c)
    | cons l more =>
      have hcount := congrArg List.length hmore
      simp at hcount
      omega
  | case4 loc len acc hge c here =>
    rename_i hmod r rest ih
    have hwhole : type.size * c = len := Nat.mul_div_cancel' (Nat.dvd_of_mod_eq_zero hmod)
    rw [← hwhole] at h
    obtain ⟨more, rfl, hmore⟩ := inside_split h
    have hr := hpos r List.mem_cons_self
    rw [ih (by omega) (fun x hx => hpos x (List.mem_cons_of_mem _ hx)) hmore, paired_append, inside_length,
      ← uop_inside hextent]
    rfl
  | case5 loc len acc rest hge c here =>
    rename_i hmod ih
    have hsplit : type.size * c + len % type.size = len := Nat.div_add_mod len type.size
    have hover : len = type.size * c + (len - type.size * c) := by omega
    rw [hover, interval_add, List.append_assoc] at h
    obtain ⟨more, rfl, hmore⟩ := inside_split h
    rw [ih (by omega) hpos (by rw [hextent]; exact hmore), paired_append, inside_length, ← uop_inside hextent]
    rfl

theorem map_ok {here ps : List (Nat × Int)} {more : Except Fault (List (Nat × Int))}
    (h : (here ++ ·) <$> more = .ok ps) : ∃ ps', more = .ok ps' ∧ here ++ ps' = ps := by
  cases more with
  | error f => cases h
  | ok ps' => exact ⟨ps', rfl, Except.ok.inj h⟩

theorem accumulate_length {ps : List (Nat × Int)} (h : accumulate type loc len acc rest = .ok ps) :
    ps.length * type.size ≤ len + (bytes rest).length := by
  have huop : ∀ acc loc c, (uop type acc loc c).length = c := fun acc loc c => by simp [uop]
  fun_induction accumulate type loc len acc rest generalizing ps with
  | case1 loc len acc hlt => cases h
  | case2 loc len acc hlt r rest ih =>
    have hle := ih h
    rw [bytes_cons, List.length_append, bytes_length_region]
    omega
  | case3 loc len acc hge c here =>
    rename_i hmod
    obtain rfl := Except.ok.inj h
    rw [huop]
    exact Nat.le_add_right_of_le (Nat.div_mul_le_self len type.size)
  | case4 loc len acc hge c here =>
    rename_i hmod r rest ih
    obtain ⟨ps', hps, rfl⟩ := map_ok h
    have hle := ih hps
    have hdiv : c * type.size ≤ len := Nat.div_mul_le_self len type.size
    rw [List.length_append, huop, Nat.add_mul, bytes_cons, List.length_append, bytes_length_region]
    omega
  | case5 loc len acc rest hge c here =>
    rename_i hmod ih
    obtain ⟨ps', hps, rfl⟩ := map_ok h
    have hle := ih hps
    have hdiv : c * type.size ≤ len := Nat.div_mul_le_self len type.size
    rw [List.length_append, huop, Nat.add_mul]
    rw [Nat.mul_comm type.size c] at hle
    omega

end Walk

def pairs (dtp : Derived) (targetCount streamOffset sourceCount : Nat) : List (Nat × Int) :=
  (List.range sourceCount).map fun k =>
    (k, (dtp.stream targetCount).getD (streamOffset + dtp.basicType.size * k) 0)

def Fits (dtp : Derived) (targetCount first last : Nat) : Prop :=
  0 < dtp.vecLen targetCount ∧
    (runs (((dtp.stream targetCount).drop first).take (last - first)) : Int) ≤ dtp.vecLen targetCount

theorem flatMap_getD {locs : List Int} {n k : Nat} (hn : 0 < n) (hk : k < locs.length) :
    (locs.flatMap (interval · n)).getD (n * k) 0 = locs[k] := by
  induction locs generalizing k with
  | nil => cases hk
  | cons l locs ih =>
    rw [List.getD_eq_getElem?_getD, List.flatMap_cons]
    cases k with
    | zero => rw [Nat.mul_zero, List.getElem?_append_left (by simpa using hn), interval_getElem? hn]; simp
    | succ k =>
      have hmore := ih (Nat.lt_of_succ_lt_succ hk)
      rw [List.getD_eq_getElem?_getD] at hmore
      rw [Nat.mul_succ, List.getElem?_append_right (by simp), interval_length, Nat.add_sub_cancel, hmore]
      rfl

section Call
variable (beyond : Int → Int) (st : Nat → Stackelm) {dtp : Derived} {sourceCount targetCount streamOffset last : Nat}

theorem segmentPackVector_same (segp : Segment) (first length : Int) :
    (segmentPackVector beyond segp first first length).pieceparams.vectorp = [] := by
  unfold segmentPackVector manipulate
  split
  · rw [if_pos rfl]
  · rfl

structure Cut (dtp : Derived) (targetCount streamOffset sourceCount : Nat) (P W R : List Element) (locs : List Int) :
    Prop where
  split : copies dtp.loop targetCount = P ++ (W ++ R)
  first : size P = streamOffset
  window : Grouped dtp.basicType W locs
  length : locs.length = sourceCount
  paired : paired 0 locs = pairs dtp targetCount streamOffset sourceCount

theorem exists_cut (hlast : last = streamOffset + sourceCount * dtp.basicType.size)
    (hoffset : dtp.basicType.size ∣ streamOffset) (hwithin : last ≤ (dtp.stream targetCount).length) :
    ∃ P W R locs, Cut dtp targetCount streamOffset sourceCount P W R locs := by
  obtain ⟨k, rfl⟩ := hoffset
  obtain ⟨locs, hlocs⟩ := grouped_copies dtp targetCount
  obtain ⟨P, Q, hPQ, hP, hQ⟩ := grouped_split hlocs k
  obtain ⟨W, R, rfl, hW, hR⟩ := grouped_split hQ sourceCount
  have hpos := dtp.basicType.pos
  have hstream : dtp.stream targetCount = locs.flatMap (interval · dtp.basicType.size) := grouped_bytes hlocs
  have hcount : k + sourceCount ≤ locs.length := by
    rw [hstream, places_length, hlast, Nat.mul_comm, ← Nat.add_mul] at hwithin
    exact Nat.le_of_mul_le_mul_right hwithin hpos
  have hlength : ((locs.drop k).take sourceCount).length = sourceCount := by
    rw [List.length_take, List.length_drop]
    omega
  refine ⟨P, W, R, _, hPQ, ?_, hW, hlength, ?_⟩
  · rw [grouped_length hP, List.length_take, Nat.min_eq_left (by omega), Nat.mul_comm]
  · refine List.ext_getElem (by simp [paired, pairs]; omega) fun i hi _ => ?_
    have hi' : k + i < locs.length := by
      simp [paired] at hi
      omega
    have hplace := flatMap_getD hpos hi'
    simp [paired, pairs, hstream, ← hplace, Nat.mul_add]

variable {P W R : List Element} {locs : List Int}

theorem Cut.bytes (hcut : Cut dtp targetCount streamOffset sourceCount P W R locs)
    (hlast : last = streamOffset + sourceCount * dtp.basicType.size) :
    ((dtp.stream targetCount).drop streamOffset).take (last - streamOffset) = elementBytes 0 W := by
  have hW := grouped_length hcut.window
  rw [hcut.length] at hW
  rw [hlast, Nat.add_sub_cancel_left, ← hW, ← hcut.first]
  exact stream_window 0 hcut.split

theorem Cut.size_pos (hcut : Cut dtp targetCount streamOffset sourceCount P W R locs) :
    0 < targetCount ∨ sourceCount = 0 := by
  have hsplit := hcut.split
  have hW := grouped_length hcut.window
  rw [hcut.length] at hW
  rcases Nat.eq_zero_or_pos targetCount with rfl | htarget
  · obtain ⟨-, hmore⟩ := List.append_eq_nil_iff.mp hsplit.symm
    obtain ⟨rfl, -⟩ := List.append_eq_nil_iff.mp hmore
    have hzero : sourceCount * dtp.basicType.size = 0 := hW.symm
    exact Or.inr ((Nat.mul_eq_zero.mp hzero).resolve_right (Nat.pos_iff_ne_zero.mp dtp.basicType.pos))
  · exact Or.inl htarget

theorem segmentInit_target (htarget : 0 < targetCount) (hdepth : (initLoop dtp.loop targetCount).2 < maxDatatypeDepth) :
    ∃ segp, segmentInit beyond 0 st (initLoop dtp.loop targetCount).1 (initLoop dtp.loop targetCount).2 = .ok segp ∧
      segp.ptr = 0 ∧ Positioned True (initLoop dtp.loop targetCount).1 packVectorPieces segp []
        [⟨(initLoop dtp.loop targetCount).1, 0, 0, 0⟩] := by
  obtain ⟨hshaped, _, hheight, _⟩ := initLoop_copies dtp.committed htarget
  exact segmentInit_spec beyond packVectorPieces hshaped hheight hdepth

theorem segmentPackVector_cut (hcut : Cut dtp targetCount streamOffset sourceCount P W R locs)
    (hcount : 0 < sourceCount) (hdepth : (initLoop dtp.loop targetCount).2 < maxDatatypeDepth) {length : Int}
    (hlength : 0 < length) :
    (∀ e ∈ W, 0 < e.el.size) ∧ ∃ segp taken rest,
      segmentInit beyond 0 st (initLoop dtp.loop targetCount).1 (initLoop dtp.loop targetCount).2 = .ok segp ∧
      Described 0 length P W (segmentPackVector beyond segp streamOffset
        (streamOffset + sourceCount * dtp.basicType.size : Nat) length) taken rest := by
  have htarget := hcut.size_pos.resolve_right (by omega)
  obtain ⟨hshaped, hfilled, _, helements⟩ := initLoop_copies dtp.committed htarget
  obtain ⟨segp, hinit, hptr, hpos⟩ := segmentInit_target beyond st htarget hdepth
  have hsize : ∀ e ∈ copies dtp.loop targetCount, 0 < e.el.size := fun e he =>
    (elements_pos hfilled (by rw [helements]; exact he)).1
  rw [hcut.split] at hsize
  have hW := grouped_length hcut.window
  rw [hcut.length] at hW
  have hmul := Nat.mul_pos hcount dtp.basicType.pos
  have hend : size (P ++ W) = streamOffset + sourceCount * dtp.basicType.size := by
    rw [size_append, hcut.first, hW]
  have hwindow : Window ((initLoop dtp.loop targetCount).1.elements 0) P W R streamOffset
      (streamOffset + sourceCount * dtp.basicType.size) := by
    refine ⟨helements.trans hcut.split, hcut.first.symm, Nat.le_of_eq hend, fun e more hR => ?_⟩
    have he := hsize e (by rw [hR]; simp)
    omega
  have hmore : W ++ R ≠ [] := by
    intro hnil
    obtain ⟨rfl, -⟩ := List.append_eq_nil_iff.mp hnil
    have hzero : 0 = sourceCount * dtp.basicType.size := hW
    omega
  have hbehind : segp.streamOff ≤ streamOffset := by
    rw [hpos.stream]
    exact Int.natCast_nonneg _
  obtain ⟨taken, rest, _, hdescribed, _⟩ :=
    packVector_window beyond hshaped hfilled hpos hwindow hmore (by omega) hbehind hlength
  rw [hptr] at hdescribed
  exact ⟨fun e he => hsize e (by simp [he]), segp, taken, rest, hinit, hdescribed⟩

theorem accumulateVector_iff (hcut : Cut dtp targetCount streamOffset sourceCount P W R locs)
    (hcount : 0 < sourceCount) (hsize : ∀ e ∈ W, 0 < e.el.size) {length : Int} {out : Outcome PackVector}
    {taken rest : List Element} (h : Described 0 length P W out taken rest) :
    accumulateVector dtp.basicType out.pieceparams.vectorp =
        .ok (pairs dtp targetCount streamOffset sourceCount) ↔
      rest = [] := by
  have hW := grouped_length hcut.window
  rw [hcut.length, h.split, size_append] at hW
  have hbytes := h.packed.bytes
  have hpositive := h.packed.positive
  have hlen := congrArg List.length hbytes
  rw [streamSize_pack, ← size] at hlen
  have hmul := Nat.mul_pos hcount dtp.basicType.pos
  generalize out.pieceparams.vectorp = entries at *
  constructor
  · intro hok
    cases entries with
    | nil => cases hok
    | cons r more =>
      have hle := accumulate_length hok
      rw [pairs, List.length_map, List.length_range] at hle
      rw [bytes_cons, List.length_append, bytes_length_region] at hlen
      cases hrest : rest with
      | nil => rfl
      | cons e es =>
        have he := hsize e (by rw [h.split, hrest]; simp)
        rw [hrest, size_cons] at hW
        omega
  · rintro rfl
    have htaken : W = taken := h.split.trans (List.append_nil taken)
    cases entries with
    | nil =>
      have hzero : 0 + 0 = sourceCount * dtp.basicType.size := by
        rw [← hW, ← hlen]
        rfl
      omega
    | cons r more =>
      have hr := hpositive r List.mem_cons_self
      rw [← htaken, grouped_bytes hcut.window] at hbytes
      rw [← hcut.paired]
      exact accumulate_eq dtp.extent (by omega) (fun x hx => hpositive x (List.mem_cons_of_mem _ hx)) hbytes

end Call

def byte : El := ⟨1, 1, .basic ⟨1, .other, Nat.one_pos⟩⟩

def intsLoop : TypeLoop := ⟨12, 16, byte.type, some (.leaf (.indexed 3 [6, 2, 4] [0, 6, 12] 12) byte, 1)⟩

def fourBytes (loc : Int) : List Element := [⟨loc, byte⟩, ⟨loc + 1, byte⟩, ⟨loc + 2, byte⟩, ⟨loc + 3, byte⟩]

theorem intsLoop_copyAt (off : Int) :
    copyAt intsLoop off = fourBytes off ++ (fourBytes (off + 4) ++ (fourBytes (off + 12) ++ [])) := by
  simp [copyAt, intsLoop, Dataloop.elements, Params.blocks, blockElements, fourBytes, byte, List.range_succ, Int.add_assoc]

theorem fourBytes_bytes (loc : Int) : elementBytes 0 (fourBytes loc) = interval loc 4 := by
  simp [elementBytes, elementRegion, fourBytes, byte, interval, bytes, Region.bytes, List.range_succ]

def intsType : Derived where
  basicType := ⟨0, 4, 4, Types.Bounds.int_pos⟩
  extent := rfl
  maxContigBlocks := 2
  loop := intsLoop
  committed := by
    refine ⟨nofun, fun dl depth h => ?_⟩
    cases h
    refine ⟨⟨by decide, rfl, rfl, by decide, rfl⟩, ⟨?_, by decide, rfl⟩, Nat.le_refl 1, rfl⟩
    show ∀ B ∈ (Params.indexed 3 [6, 2, 4] [0, 6, 12] 12).blocks, 0 < B.blocklength
    decide
  grouped := fun off => by
    rw [intsLoop_copyAt]
    exact ⟨_, .cons off (fourBytes_bytes off) (.cons (off + 4) (fourBytes_bytes _)
      (.cons (off + 12) (fourBytes_bytes _) .nil))⟩

theorem intsType_stream (count : Nat) : (intsType.stream count).length = 12 * count ∧
    runs (intsType.stream count) ≤ intsType.maxContigBlocks * count := by
  induction count with
  | zero => exact ⟨rfl, Nat.le_refl 0⟩
  | succ count ih =>
    have hcopy : ∀ off, (elementBytes 0 (copyAt intsLoop off)).length = 12 ∧
        runs (elementBytes 0 (copyAt intsLoop off)) ≤ 2 := by
      intro off
      have hjoin : interval off 4 ++ interval (off + 4) 4 = interval off 8 := (interval_add off 4 4).symm
      rw [intsLoop_copyAt, elementBytes_append, elementBytes_append, fourBytes_bytes, fourBytes_bytes, ← List.append_assoc,
        hjoin, elementBytes_append, fourBytes_bytes, elementBytes_nil, List.append_nil]
      refine ⟨by simp, Nat.le_trans (runs_append_le _ _) ?_⟩
      exact Nat.add_le_add (runs_interval_le _ _) (runs_interval_le _ _)
    have hsplit : intsType.stream (count + 1) =
        intsType.stream count ++ elementBytes 0 (copyAt intsLoop (count * intsLoop.extent)) := by
      rw [Derived.stream, copies, List.range_succ, List.flatMap_append, elementBytes_append, List.flatMap_singleton]
      rfl
    obtain ⟨hlen, hruns⟩ := hcopy (count * intsLoop.extent)
    have happend := runs_append_le (intsType.stream count) (elementBytes 0 (copyAt intsLoop (count * intsLoop.extent)))
    rw [hsplit, List.length_append, hlen, ih.1, Nat.mul_succ, Nat.mul_succ]
    exact ⟨rfl, Nat.le_trans happend (Nat.add_le_add ih.2 hruns)⟩

end FgMpi.Rma.AccumulateOp
