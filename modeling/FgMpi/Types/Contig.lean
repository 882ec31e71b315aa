import FgMpi.Types.Layout

/-! `is_contig` says that any number of instances of a type is one block of memory. -/

namespace FgMpi.Types.Contig
open Types.Typemap Types.Constructors Types.Bounds Types.Layout

def Adjoining : Int → List (Int × Nat) → Prop
  | _, [] => True
  | a, (d, n) :: rest => (n = 0 ∨ d = a) ∧ Adjoining (a + n) rest

instance decidableAdjoining : (a : Int) → (bs : List (Int × Nat)) → Decidable (Adjoining a bs)
  | _, [] => isTrue trivial
  | a, (d, n) :: rest =>
    have := decidableAdjoining (a + n) rest
    inferInstanceAs (Decidable ((n = 0 ∨ d = a) ∧ Adjoining (a + n) rest))

theorem flatMap_interval_iff (a : Int) (bs : List (Int × Nat)) :
    (bs.flatMap fun b => interval b.1 b.2) = interval a (bs.map Prod.snd).sum ↔
      Adjoining a bs := by
  induction bs generalizing a with
  | nil => exact iff_of_true rfl trivial
  | cons b bs ih =>
    rw [List.flatMap_cons, List.map_cons, List.sum_cons, interval_add]
    constructor
    · intro h
      obtain ⟨h1, h2⟩ := List.append_inj h (by simp)
      exact ⟨interval_inj.mp h1, (ih _).mp h2⟩
    · rintro ⟨h1, h2⟩
      rw [interval_inj.mpr h1, (ih _).mpr h2]

def Contiguous (o : Old) (m : Map) : Prop := bytes m = interval o.trueLb o.sz.toNat

def ContigSound (cfg : Config) (left : Datatype → Left) (t : Datatype) : Prop :=
  (t.handle cfg left).old.isContig = true → ∀ count,
    bytes (instances cfg left count t) = interval (t.handle cfg left).old.trueLb
      (count * (t.handle cfg left).old.sz.toNat)

variable {cfg : Config} {left : Datatype → Left}

theorem shift_zero (xs : List Int) : xs.map ((0 : Int) + ·) = xs := by
  simp

theorem sums_shift (d : Int) (os xs : List Int) : sums (os.map (d + ·)) xs = (sums os xs).map (d + ·) := by
  have h := sums_sums [d] os xs
  simpa [sums] using h

theorem bytes_spaced {o : Old} {m : Map} (hm : Contiguous o m) (h0 : 0 ≤ o.sz) (d : Int) (n : Nat) :
    bytes (copies ((steps n o.sz).map (d + ·)) m) = interval (d + o.trueLb) (n * o.sz.toNat) := by
  obtain ⟨k, hk⟩ := Int.eq_ofNat_of_zero_le h0
  unfold Contiguous at hm
  rw [bytes_copies, hm, sums_shift, hk, Int.toNat_natCast, sums_steps_interval, interval_shift]

theorem contigSound_iff (t : Datatype) : ContigSound cfg left t ↔
    ((t.handle cfg left).old.isContig = true →
      Contiguous (t.handle cfg left).old (layout cfg left t)) := by
  have hsized := sized cfg left t
  constructor
  · intro h hflag
    have hone := h hflag 1
    have hsteps : steps 1 (t.handle cfg left).old.extent = [0] := by simp [steps]
    rw [instances, bytes_copies, hsteps, Nat.one_mul] at hone
    have hsums : sums [0] (bytes (layout cfg left t)) = bytes (layout cfg left t) := by simp [sums]
    rw [hsums] at hone
    exact hone
  · intro h hflag count
    have hspaced := bytes_spaced (h hflag) hsized.nonneg 0 count
    rw [shift_zero, Int.zero_add] at hspaced
    rw [instances, hsized.contig hflag]
    exact hspaced

theorem steps_add (m n : Nat) (e : Int) :
    steps (m + n) e = steps m e ++ (steps n e).map ((m : Int) * e + ·) := by
  simp only [steps, List.range_add, List.map_append, List.map_map]
  congr 1
  refine List.map_congr_left ?_
  intro i _
  simp only [Function.comp_apply]
  push_cast
  ring

theorem join_steps (d e : Int) (m n : Nat) : (steps m e).map (d + ·) ++
    (steps n e).map (d + m * e + ·) = (steps (m + n) e).map (d + ·) := by
  rw [steps_add, List.map_append, List.map_map]
  congr 1
  refine List.map_congr_left ?_
  intro x _
  simp only [Function.comp_apply]
  ring

theorem sums_steps (n m : Nat) (e : Int) : sums (steps n ((m : Int) * e)) (steps m e) = steps (n * m) e := by
  induction n with
  | zero => simp [steps]
  | succ n ih =>
    have hlast : sums [(n : Int) * ((m : Int) * e)] (steps m e) =
        (steps m e).map (((n * m : Nat) : Int) * e + ·) := by
      simp only [sums, List.flatMap_cons, List.flatMap_nil, List.append_nil]
      refine List.map_congr_left ?_
      intro x _
      push_cast
      ring
    rw [steps_succ, sums_append, ih, hlast, Nat.succ_mul, ← steps_add]

theorem contiguous_copies {o new : Old} {m : Map} {n : Nat} {lo hi d : Int} {os : List Int}
    (hm : Contiguous o m) (h0 : 0 ≤ o.sz) (hn : n ≠ 0) (hspread : Spread o new lo hi n)
    (hlo : os.min? = some lo) (hos : os = (steps n o.sz).map (d + ·)) :
    Contiguous new (copies os m) := by
  obtain ⟨k, hk⟩ := Int.eq_ofNat_of_zero_le h0
  have hlow : lo = d := by
    have hmin := min?_shift d (min?_steps hn o.sz)
    rw [if_pos h0, ← hos, hlo, Int.add_zero, Option.some.injEq] at hmin
    exact hmin
  have htrue : new.trueLb = d + o.trueLb := by
    rw [hspread.trueLb, hspread.lb, hlow]
    omega
  have hsize : new.sz.toNat = n * o.sz.toNat := by
    rw [hspread.size, hk, Int.toNat_natCast, ← Nat.cast_mul, Int.toNat_natCast]
  unfold Contiguous
  rw [hos, bytes_spaced hm h0 d n, htrue, hsize]

theorem contiguous_empty {new : Old} {m : Map} (hsize : Sized new m) (hz : new.sz = 0) :
    Contiguous new m := by
  have hlength := bytes_length m
  have hzero : size m = 0 := by
    have := hsize.size
    omega
  unfold Contiguous
  rw [hz, Int.toNat_zero, interval_zero, ← List.length_eq_zero_iff, hlength, hzero]

variable {old : Datatype}

theorem contiguous_sound {count : Nat} (h : ContigSound cfg left old) :
    ContigSound cfg left (.contiguous count old) := by
  rw [contigSound_iff] at h ⊢
  intro hflag
  have hsized := sized cfg left (.contiguous count old)
  have hold := sized cfg left old
  by_cases hn : count = 0
  · refine contiguous_empty hsized ?_
    subst hn
    rw [Datatype.handle]
    rfl
  have hflagOld : (old.handle cfg left).old.isContig = true := by
    rw [Datatype.handle] at hflag
    cases hh : old.handle cfg left with
    | builtin b => rfl
    | derived d =>
      rw [hh] at hflag
      simpa [typeContiguous, hn, Handle.old] using hflag
  obtain ⟨lo, hi, hlo, -, hspread⟩ := contiguous_extrema (left (.contiguous count old)) hn (old.handle cfg left) hold.extent
  have hext := hold.contig hflagOld
  rw [Datatype.handle, layout]
  refine contiguous_copies (h hflagOld) hold.nonneg hn hspread hlo (d := 0) ?_
  rw [shift_zero, hext]

theorem vector_sound {count blocklength : Nat} {stride : Int} {strideinbytes : Bool} (h : ContigSound cfg left old) :
    ContigSound cfg left (.vector count blocklength stride strideinbytes old) := by
  rw [contigSound_iff] at h ⊢
  intro hflag
  have hsized := sized cfg left (.vector count blocklength stride strideinbytes old)
  have hold := sized cfg left old
  by_cases hn : count = 0
  · refine contiguous_empty hsized ?_
    subst hn
    rw [Datatype.handle]
    rfl
  by_cases hb : blocklength = 0
  · refine contiguous_empty hsized ?_
    subst hb
    rw [Datatype.handle]
    simp [typeVector, hn, Handle.old]
  -- the flag was set: the blocks have no gaps between them
  have htests : effDisp strideinbytes (old.handle cfg left).old.extent stride =
      blocklength * (old.handle cfg left).old.sz ∧ (old.handle cfg left).old.isContig = true := by
    rw [Datatype.handle] at hflag
    simp only [typeVector, if_neg hn] at hflag
    exact (of_decide_eq_true hflag).2
  have hext := hold.contig htests.2
  obtain ⟨lo, hi, hlo, -, hspread⟩ := vector_extrema (left (.vector count blocklength stride strideinbytes old)) hn hb
    stride strideinbytes (old.handle cfg left)
  rw [Datatype.handle, layout]
  refine contiguous_copies (h htests.2) hold.nonneg (Nat.mul_ne_zero hn hb) hspread hlo (d := 0) ?_
  rw [shift_zero, htests.1, hext, vectorOffsets, sums_steps]

variable {dispinbytes : Bool}

theorem effDisp_add {e cur next : Int} {n : Nat}
    (h : if dispinbytes = true then cur + n * e = next else cur + n = next) :
    effDisp dispinbytes e next = effDisp dispinbytes e cur + n * e := by
  unfold effDisp
  cases dispinbytes with
  | true => exact h.symm
  | false =>
    have hnext : cur + n = next := h
    simp only [Bool.false_eq_true, if_false]
    rw [← hnext]
    ring

theorem le_indexedCountContigLoop (dispinbytes : Bool) (e : Int) (rest : List Block) (cur : Int)
    (curBlklen n : Nat) : n ≤ indexedCountContigLoop dispinbytes e cur curBlklen n rest := by
  induction rest generalizing cur curBlklen n with
  | nil => exact le_refl n
  | cons next rest ih =>
    rw [indexedCountContigLoop]
    by_cases hz : next.blocklength = 0
    · rw [if_pos hz]
      exact ih cur curBlklen n
    rw [if_neg hz]
    by_cases hadj : if dispinbytes = true then cur + curBlklen * e = next.disp
        else cur + curBlklen = next.disp
    · rw [if_pos hadj]
      exact ih cur _ n
    · rw [if_neg hadj]
      exact le_trans (Nat.le_succ n) (ih next.disp next.blocklength (n + 1))

theorem indexed_consecutive (dispinbytes : Bool) (e : Int) (rest : List Block) (cur : Int)
    (curBlklen n : Nat) (h : indexedCountContigLoop dispinbytes e cur curBlklen n rest = n) :
    ∃ k, blockOffset dispinbytes e ⟨curBlklen, cur⟩ ++ blockOffsets rest dispinbytes e =
      (steps k e).map (effDisp dispinbytes e cur + ·) := by
  induction rest generalizing curBlklen with
  | nil => exact ⟨curBlklen, by simp [blockOffsets, blockOffset]⟩
  | cons next rest ih =>
    have hcons : blockOffsets (next :: rest) dispinbytes e =
        blockOffset dispinbytes e next ++ blockOffsets rest dispinbytes e := rfl
    rw [indexedCountContigLoop] at h
    by_cases hz : next.blocklength = 0
    · rw [if_pos hz] at h
      have hempty : blockOffset dispinbytes e next = [] := by simp [blockOffset, hz]
      rw [hcons, hempty, List.nil_append]
      exact ih curBlklen h
    rw [if_neg hz] at h
    by_cases hadj : if dispinbytes = true then cur + curBlklen * e = next.disp
        else cur + curBlklen = next.disp
    · rw [if_pos hadj] at h
      have hjoin : blockOffset dispinbytes e ⟨curBlklen, cur⟩ ++ blockOffset dispinbytes e next =
          blockOffset dispinbytes e ⟨curBlklen + next.blocklength, cur⟩ := by
        unfold blockOffset
        rw [effDisp_add hadj, join_steps]
      rw [hcons, ← List.append_assoc, hjoin]
      exact ih _ h
    · rw [if_neg hadj] at h
      have hle := le_indexedCountContigLoop dispinbytes e rest next.disp next.blocklength (n + 1)
      omega

theorem indexed_sound {blocks : List Block}
    (h : ContigSound cfg left old) : ContigSound cfg left (.indexed blocks dispinbytes old) := by
  rw [contigSound_iff] at h ⊢
  intro hflag
  have hsized := sized cfg left (.indexed blocks dispinbytes old)
  have hold := sized cfg left old
  cases hdrop : blocks.dropWhile (·.blocklength = 0) with
  | nil =>
    refine contiguous_empty hsized ?_
    rw [Datatype.handle, typeIndexed, hdrop]
    rfl
  | cons first rest =>
    have hfirst := blocklength_first hdrop
    have hmem : first ∈ blocks := by
      have hin : first ∈ blocks.dropWhile (·.blocklength = 0) := by simp [hdrop]
      exact (List.dropWhile_sublist _).subset hin
    have htests : (old.handle cfg left).old.isContig = true ∧
        indexedCountContigLoop dispinbytes (old.handle cfg left).old.extent first.disp
          first.blocklength 1 rest = 1 := by
      rw [Datatype.handle, typeIndexed, hdrop] at hflag
      obtain ⟨h1, h2⟩ := Bool.and_eq_true_iff.mp hflag
      exact ⟨h1, (of_decide_eq_true h2).1⟩
    have hext := hold.contig htests.1
    obtain ⟨lo, hi, hlo, hhi, hspread⟩ := indexed_spread (left (.indexed blocks dispinbytes old))
      dispinbytes (old.handle cfg left) hold.extent hmem hfirst
    obtain ⟨k, hk⟩ := indexed_consecutive dispinbytes _ rest first.disp first.blocklength 1 htests.2
    have hos : blockOffsets blocks dispinbytes (old.handle cfg left).old.extent =
        (steps k (old.handle cfg left).old.extent).map
          (effDisp dispinbytes (old.handle cfg left).old.extent first.disp + ·) := by
      rw [← blockOffsets_dropWhile, hdrop]
      exact hk
    have hlength : (blockOffsets blocks dispinbytes (old.handle cfg left).old.extent).length = k := by
      rw [hos, List.length_map, steps_length]
    have hk0 : k ≠ 0 := by
      rintro rfl
      rw [hos] at hlo
      cases hlo
    rw [hlength] at hspread
    rw [Datatype.handle, layout]
    refine contiguous_copies (h htests.1) hold.nonneg hk0 hspread hlo
      (d := effDisp dispinbytes (old.handle cfg left).old.extent first.disp) ?_
    rw [hos, hext]

theorem le_blockindexedCountContigLoop (blklen : Nat) (dispinbytes : Bool) (e : Int)
    (rest : List Int) (cur : Int) (n : Nat) :
    n ≤ blockindexedCountContigLoop blklen dispinbytes e cur n rest := by
  induction rest generalizing cur n with
  | nil => exact le_refl n
  | cons next rest ih =>
    rw [blockindexedCountContigLoop]
    refine le_trans ?_ (ih next _)
    by_cases hadj : if dispinbytes = true then cur + blklen * e = next else cur + blklen = next
    · rw [if_pos hadj]
    · rw [if_neg hadj]
      exact Nat.le_succ n

theorem blockindexed_consecutive (blklen : Nat) (dispinbytes : Bool) (e d : Int) (rest : List Int)
    (cur : Int) (n j : Nat) (hcur : effDisp dispinbytes e cur + blklen * e = d + j * e)
    (h : blockindexedCountContigLoop blklen dispinbytes e cur n rest = n) :
    ∃ k, (steps j e).map (d + ·) ++ blockOffsets (rest.map (⟨blklen, ·⟩)) dispinbytes e =
      (steps k e).map (d + ·) := by
  induction rest generalizing cur j with
  | nil => exact ⟨j, by simp [blockOffsets]⟩
  | cons next rest ih =>
    have hcons : blockOffsets ((next :: rest).map (⟨blklen, ·⟩)) dispinbytes e =
        blockOffset dispinbytes e ⟨blklen, next⟩ ++
          blockOffsets (rest.map (⟨blklen, ·⟩)) dispinbytes e := rfl
    rw [blockindexedCountContigLoop] at h
    by_cases hadj : if dispinbytes = true then cur + blklen * e = next else cur + blklen = next
    · rw [if_pos hadj] at h
      have hnext := effDisp_add hadj
      have hjoin : (steps j e).map (d + ·) ++ blockOffset dispinbytes e ⟨blklen, next⟩ =
          (steps (j + blklen) e).map (d + ·) := by
        unfold blockOffset
        rw [hnext, hcur, join_steps]
      rw [hcons, ← List.append_assoc, hjoin]
      refine ih next (j + blklen) ?_ h
      rw [hnext, hcur]
      push_cast
      ring
    · rw [if_neg hadj] at h
      have hle := le_blockindexedCountContigLoop blklen dispinbytes e rest next (n + 1)
      omega

section
variable (h : ContigSound cfg left old)
include h

theorem blockindexed_sound {blocklength : Nat} {disps : List Int} :
    ContigSound cfg left (.blockindexed blocklength disps dispinbytes old) := by
  rw [contigSound_iff] at h ⊢
  intro hflag
  have hsized := sized cfg left (.blockindexed blocklength disps dispinbytes old)
  have hold := sized cfg left old
  cases disps with
  | nil =>
    refine contiguous_empty hsized ?_
    rw [Datatype.handle]
    rfl
  | cons first rest =>
    by_cases hb : blocklength = 0
    · refine contiguous_empty hsized ?_
      subst hb
      rw [Datatype.handle]
      simp [typeBlockindexed, typeBlockindexedFrom, Handle.old]
    have htests : (old.handle cfg left).old.isContig = true ∧
        blockindexedCountContigLoop blocklength dispinbytes (old.handle cfg left).old.extent first 1
          rest = 1 := by
      rw [Datatype.handle] at hflag
      obtain ⟨h1, h2⟩ := Bool.and_eq_true_iff.mp hflag
      exact ⟨h1, (of_decide_eq_true h2).1⟩
    have hext := hold.contig htests.1
    obtain ⟨lo, hi, hlo, hhi, hspread⟩ :=
      blockindexed_spread (left (.blockindexed blocklength (first :: rest) dispinbytes old)) hb
        (List.cons_ne_nil first rest) dispinbytes (old.handle cfg left) hold.extent
    obtain ⟨k, hk⟩ := blockindexed_consecutive blocklength dispinbytes _ _ rest first 1 blocklength
      rfl htests.2
    have hos : blockOffsets ((first :: rest).map (⟨blocklength, ·⟩)) dispinbytes
        (old.handle cfg left).old.extent = (steps k (old.handle cfg left).old.extent).map
          (effDisp dispinbytes (old.handle cfg left).old.extent first + ·) := hk
    have hlength : (blockOffsets ((first :: rest).map (⟨blocklength, ·⟩)) dispinbytes
        (old.handle cfg left).old.extent).length = k := by
      rw [hos, List.length_map, steps_length]
    have hk0 : k ≠ 0 := by
      rintro rfl
      rw [hos] at hlo
      cases hlo
    rw [hlength] at hspread
    rw [Datatype.handle, layout]
    refine contiguous_copies (h htests.1) hold.nonneg hk0 hspread hlo
      (d := effDisp dispinbytes (old.handle cfg left).old.extent first) ?_
    rw [hos, hext]

theorem resized_sound {lb extent : Int} : ContigSound cfg left (.resized old lb extent) := by
  rw [contigSound_iff] at h ⊢
  rw [Datatype.handle, layout]
  intro hflag
  cases hh : old.handle cfg left with
  | builtin b =>
    rw [hh] at h
    exact h rfl
  | derived d =>
    rw [hh] at h hflag
    have hold : d.isContig = true := by
      simp only [typeCreateResized, Handle.old] at hflag
      split at hflag
      · exact hflag
      · cases hflag
    exact h hold

theorem dup_sound : ContigSound cfg left (.dup old) := by
  rw [contigSound_iff] at h ⊢
  rw [Datatype.handle, layout]
  intro hflag
  cases hh : old.handle cfg left with
  | builtin b =>
    rw [hh] at h
    have hsame : (Handle.derived (typeDup (left (.dup old)) (.builtin b))).old =
        (Handle.builtin b).old := by
      simp [typeDup, typeContiguous, Handle.old]
    rw [hsame]
    exact h rfl
  | derived d =>
    rw [hh] at h hflag
    exact h hflag

end

theorem builtin_sound (b : Builtin) : ContigSound cfg left (.builtin b) := by
  rw [contigSound_iff]
  intro _
  rw [Datatype.handle, layout]
  unfold Contiguous
  cases b with
  | basic b =>
    simp [builtinData, bytes, Entry.size, Handle.old, Builtin.size]
  | lb => rfl
  | ub => rfl

def blockOf (m : Member) : Int × Nat :=
  (m.disp + m.oldtype.old.trueLb, m.blocklength * m.oldtype.old.sz.toNat)

def counts (m : Member) : Bool := decide (m.blocklength ≠ 0) && !m.isMarker

def lowestStart (members : List Member) : Int :=
  ((members.filter counts).map fun m => (blockOf m).1).min?.getD 0

def Adjacent (members : List Member) : Prop := Adjoining (lowestStart members) (members.map blockOf)

instance (members : List Member) : Decidable (Adjacent members) :=
  inferInstanceAs (Decidable (Adjoining _ _))

theorem scan_contig {ms : List Member} {s : Scan} (h : (ms.foldl Scan.member s).oldAreContig = true) :
    s.oldAreContig = true ∧ ∀ m ∈ ms, m.blocklength ≠ 0 → m.oldIsContig = true := by
  induction ms generalizing s with
  | nil => exact ⟨h, fun m hm => nomatch hm⟩
  | cons m ms ih =>
    obtain ⟨hs, hrest⟩ := ih h
    unfold Scan.member at hs
    split at hs
    · rename_i hz
      exact ⟨hs, List.forall_mem_cons.mpr ⟨fun hn => absurd hz hn, hrest⟩⟩
    · obtain ⟨h1, h2⟩ := Bool.and_eq_true_iff.mp hs
      exact ⟨h1, List.forall_mem_cons.mpr ⟨fun _ => h2, hrest⟩⟩

theorem scan_trueLb {ms : List Member} {s : Scan} {xs : List Int} (hs : s.trueLb = xs.min?) :
    (ms.foldl Scan.member s).trueLb =
      (xs ++ (ms.filter counts).map fun m => m.tmp.2.1).min? := by
  induction ms generalizing s xs with
  | nil => simpa using hs
  | cons m ms ih =>
    rw [List.foldl_cons]
    by_cases hc : counts m = true
    · obtain ⟨hn, hmark⟩ := Bool.and_eq_true_iff.mp hc
      have hn := of_decide_eq_true hn
      have hmark : m.isMarker = false := by simpa using hmark
      have hstep : (s.member m).trueLb = some (keepLowest s.trueLb m.tmp.2.1) := by
        unfold Scan.member
        rw [if_neg hn]
        simp only [Scan.bounds, hmark, Bool.false_eq_true, if_false]
      have hcons : xs ++ ((m :: ms).filter counts).map (fun m => m.tmp.2.1) =
          (xs ++ [m.tmp.2.1]) ++ (ms.filter counts).map fun m => m.tmp.2.1 := by
        rw [List.filter_cons_of_pos hc]
        simp
      rw [hcons]
      refine ih ?_
      rw [hstep]
      exact keepLowest_eq hs List.min?_singleton
    · have hstep : (s.member m).trueLb = s.trueLb := by
        unfold Scan.member
        split
        · rfl
        · rename_i hn
          have hmark : m.isMarker = true := by
            simpa [counts, hn] using hc
          simp only [Scan.bounds, hmark, if_true]
      rw [List.filter_cons_of_neg hc]
      exact ih (hstep ▸ hs)

theorem oldIsContig_eq (m : Member) : m.oldIsContig = m.oldtype.old.isContig := by
  obtain ⟨blocklength, disp, oldtype⟩ := m
  cases oldtype <;> rfl

theorem tmp_trueLb {m : Member} {mx : Map} (hn : m.blocklength ≠ 0)
    (hsized : Sized m.oldtype.old mx) (hflag : m.oldtype.old.isContig = true) :
    m.tmp.2.1 = (blockOf m).1 := by
  have hext := hsized.contig hflag
  have hpos : 0 ≤ m.oldtype.old.extent := hext ▸ hsized.nonneg
  have hlo := min?_steps hn m.oldtype.old.extent
  rw [if_pos hpos] at hlo
  rw [Member.tmp_eq m hn hsized.extent hlo (max?_steps hn m.oldtype.old.extent), blockOf]
  dsimp only
  omega

theorem struct_sound_iff {members : Members} (h : ∀ x ∈ members.list, ContigSound cfg left x.oldtype) :
    ContigSound cfg left (.struct members) ↔
      (((Datatype.struct members).handle cfg left).old.isContig = true →
        Adjacent (members.handles cfg left)) := by
  have hhandles : members.handles cfg left = members.list.map (memberOf cfg left) :=
    members.handles_eq cfg left
  have hsized := sized cfg left (.struct members)
  rw [contigSound_iff, hhandles]
  refine forall_congr' ?_
  intro hflag
  -- every member that is not empty is flagged
  have hcontig : ∀ x ∈ members.list, x.blocklength ≠ 0 →
      (x.oldtype.handle cfg left).old.isContig = true := by
    rw [Datatype.handle, hhandles, typeStruct] at hflag
    split at hflag
    · rename_i hzero
      intro x hx hn
      have hx0 := List.all_eq_true.mp hzero (memberOf cfg left x)
        (List.mem_map.mpr ⟨x, hx, rfl⟩)
      exact absurd (of_decide_eq_true hx0) hn
    · have hold := (Bool.and_eq_true_iff.mp (Bool.and_eq_true_iff.mp hflag).1).2
      intro x hx hn
      have hmember := (scan_contig hold).2 (memberOf cfg left x) (List.mem_map.mpr ⟨x, hx, rfl⟩) hn
      rw [oldIsContig_eq] at hmember
      exact hmember
  -- the bytes are those of the blocks
  have hbytes : bytes (layout cfg left (.struct members)) =
      ((members.list.map (memberOf cfg left)).map blockOf).flatMap fun b => interval b.1 b.2 := by
    rw [layout, layoutMembers_eq, List.map_map, List.flatMap_map]
    have hdist : ∀ xs : List MemberTerm, bytes (xs.flatMap (memberLayout cfg left)) =
        xs.flatMap fun x => bytes (memberLayout cfg left x) := by
      intro xs
      simp [bytes, List.flatMap_assoc]
    rw [hdist]
    refine List.flatMap_congr ?_
    intro x hx
    by_cases hn : x.blocklength = 0
    · simp [memberLayout, memberOf, blockOf, hn, bytes]
    · have hxflag := hcontig x hx hn
      have hxsized := sized cfg left x.oldtype
      have hblock := (contigSound_iff x.oldtype).mp (h x hx) hxflag
      rw [memberLayout, hxsized.contig hxflag]
      exact bytes_spaced hblock hxsized.nonneg x.disp x.blocklength
  have hsize : ((Datatype.struct members).handle cfg left).old.sz.toNat =
      (((members.list.map (memberOf cfg left)).map blockOf).map Prod.snd).sum := by
    have hlength := congrArg List.length hbytes
    rw [bytes_length, List.length_flatMap] at hlength
    rw [hsized.size, Int.toNat_natCast, hlength]
    simp
  have htrue : ((Datatype.struct members).handle cfg left).old.trueLb =
      lowestStart (members.list.map (memberOf cfg left)) := by
    have hstarts : ((members.list.map (memberOf cfg left)).filter counts).map (fun m => m.tmp.2.1) =
        ((members.list.map (memberOf cfg left)).filter counts).map fun m => (blockOf m).1 := by
      refine List.map_congr_left ?_
      intro m hm
      obtain ⟨hmem, hc⟩ := List.mem_filter.mp hm
      obtain ⟨x, hx, rfl⟩ := List.mem_map.mp hmem
      have hn := of_decide_eq_true (Bool.and_eq_true_iff.mp hc).1
      exact tmp_trueLb hn (sized cfg left x.oldtype) (hcontig x hx hn)
    rw [Datatype.handle, hhandles, typeStruct]
    split
    · rename_i hzero
      have hnone : (members.list.map (memberOf cfg left)).filter counts = [] := by
        rw [List.filter_eq_nil_iff]
        intro m hm
        have hm0 := of_decide_eq_true (List.all_eq_true.mp hzero m hm)
        simp [counts, hm0]
      rw [lowestStart, hnone]
      rfl
    · have hscan := @scan_trueLb (members.list.map (memberOf cfg left)) {} [] rfl
      rw [List.nil_append, hstarts] at hscan
      rw [lowestStart, ← hscan]
      rfl
  unfold Contiguous Adjacent
  rw [hbytes, hsize, htrue]
  exact flatMap_interval_iff _ _

mutual

def Throughout (P : Datatype → Prop) : Datatype → Prop
  | .builtin b => P (.builtin b)
  | .contiguous count old => P (.contiguous count old) ∧ Throughout P old
  | .vector count blocklength stride strideinbytes old =>
    P (.vector count blocklength stride strideinbytes old) ∧ Throughout P old
  | .indexed blocks dispinbytes old => P (.indexed blocks dispinbytes old) ∧ Throughout P old
  | .blockindexed blocklength disps dispinbytes old =>
    P (.blockindexed blocklength disps dispinbytes old) ∧ Throughout P old
  | .struct members => P (.struct members) ∧ ThroughoutMembers P members
  | .resized old lb extent => P (.resized old lb extent) ∧ Throughout P old
  | .dup old => P (.dup old) ∧ Throughout P old

def ThroughoutMembers (P : Datatype → Prop) : Members → Prop
  | .nil => True
  | .cons _ _ old rest => Throughout P old ∧ ThroughoutMembers P rest

end

theorem throughoutMembers_iff (P : Datatype → Prop) (ms : Members) :
    ThroughoutMembers P ms ↔ ∀ x ∈ ms.list, Throughout P x.oldtype := by
  match ms with
  | .nil => simp [ThroughoutMembers, Members.list]
  | .cons blocklength disp old rest =>
    rw [ThroughoutMembers, Members.list, List.forall_mem_cons, throughoutMembers_iff P rest]

theorem Throughout.self {P : Datatype → Prop} {t : Datatype} (h : Throughout P t) : P t := by
  cases t with
  | builtin b => exact h
  | contiguous count old => exact h.1
  | vector count blocklength stride strideinbytes old => exact h.1
  | indexed blocks dispinbytes old => exact h.1
  | blockindexed blocklength disps dispinbytes old => exact h.1
  | struct members => exact h.1
  | resized old lb extent => exact h.1
  | dup old => exact h.1

def StructAdjacent (cfg : Config) (left : Datatype → Left) : Datatype → Prop
  | .struct members => ((Datatype.struct members).handle cfg left).old.isContig = true →
      Adjacent (members.handles cfg left)
  | _ => True

/-- The flag of a type and of all types it is built from is right exactly when the members of each
structure that is flagged follow each other. -/
theorem is_contig_iff (cfg : Config) (left : Datatype → Left) (t : Datatype) :
    Throughout (ContigSound cfg left) t ↔ Throughout (StructAdjacent cfg left) t := by
  induction t with
  | builtin b => exact iff_of_true (builtin_sound b) trivial
  | contiguous count old ih =>
    rw [Throughout, Throughout, ← ih]
    exact ⟨fun h => ⟨trivial, h.2⟩, fun h => ⟨contiguous_sound h.2.self, h.2⟩⟩
  | vector count blocklength stride strideinbytes old ih =>
    rw [Throughout, Throughout, ← ih]
    exact ⟨fun h => ⟨trivial, h.2⟩, fun h => ⟨vector_sound h.2.self, h.2⟩⟩
  | indexed blocks dispinbytes old ih =>
    rw [Throughout, Throughout, ← ih]
    exact ⟨fun h => ⟨trivial, h.2⟩, fun h => ⟨indexed_sound h.2.self, h.2⟩⟩
  | blockindexed blocklength disps dispinbytes old ih =>
    rw [Throughout, Throughout, ← ih]
    exact ⟨fun h => ⟨trivial, h.2⟩, fun h => ⟨blockindexed_sound h.2.self, h.2⟩⟩
  | struct members ih =>
    rw [Throughout, Throughout, throughoutMembers_iff, throughoutMembers_iff]
    have hmembers : (∀ x ∈ members.list, Throughout (ContigSound cfg left) x.oldtype) ↔
        ∀ x ∈ members.list, Throughout (StructAdjacent cfg left) x.oldtype :=
      forall₂_congr ih
    rw [← hmembers]
    refine and_congr_left ?_
    intro hall
    exact struct_sound_iff fun x hx => (hall x hx).self
  | resized old lb extent ih =>
    rw [Throughout, Throughout, ← ih]
    exact ⟨fun h => ⟨trivial, h.2⟩, fun h => ⟨resized_sound h.2.self, h.2⟩⟩
  | dup old ih =>
    rw [Throughout, Throughout, ← ih]
    exact ⟨fun h => ⟨trivial, h.2⟩, fun h => ⟨dup_sound h.2.self, h.2⟩⟩

def gapped : Datatype := .struct (.cons 1 0 int (.cons 1 5 (.resized int (-1) 4) .nil))

def unpadded : Datatype :=
  .struct (.cons 1 0 (.indexed [⟨1, 0⟩] true (.contiguous 1 int)) (.cons 1 5 (.resized char (-1) 1) .nil))

theorem is_contig_wrong :
    ¬ ContigSound plain (fun _ => ⟨0, 0⟩) gapped ∧ ¬ ContigSound plain (fun _ => ⟨0, 0⟩) unpadded := by
  refine ⟨fun h => ?_, fun h => ?_⟩
  · have hone := h (by decide) 1
    exact absurd hone (by decide)
  · have hone := h (by decide) 1
    exact absurd hone (by decide)

end FgMpi.Types.Contig
