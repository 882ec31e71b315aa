import FgMpi.Types.Contig

/-! `max_contig_blocks` is to bound the contiguous pieces of one instance. -/

namespace FgMpi.Types.Pieces
open Types.Typemap Types.Constructors Types.Bounds Types.Layout
open Types.Contig

def runs : List Int → Nat
  | [] => 0
  | [_] => 1
  | a :: b :: rest => (if b = a + 1 then 0 else 1) + runs (b :: rest)

theorem runs_cons_le (a : Int) (xs : List Int) : runs (a :: xs) ≤ 1 + runs xs := by
  cases xs with
  | nil => exact le_refl 1
  | cons b xs =>
    rw [runs]
    split
    · omega
    · exact le_refl _

theorem runs_append_le (xs ys : List Int) : runs (xs ++ ys) ≤ runs xs + runs ys := by
  induction xs with
  | nil => simp [runs]
  | cons a xs ih =>
    cases xs with
    | nil =>
      have := runs_cons_le a ys
      simpa [runs] using this
    | cons b xs =>
      rw [List.cons_append, List.cons_append, runs, runs]
      rw [List.cons_append] at ih
      omega

theorem runs_shift (d : Int) (xs : List Int) : runs (xs.map (d + ·)) = runs xs := by
  induction xs with
  | nil => rfl
  | cons a xs ih =>
    cases xs with
    | nil => rfl
    | cons b xs =>
      rw [List.map_cons, List.map_cons, runs, runs]
      rw [List.map_cons] at ih
      rw [ih]
      congr 1
      refine if_congr ?_ rfl rfl
      omega

theorem interval_succ (a : Int) (n : Nat) : interval a (n + 1) = a :: interval (a + 1) n := by
  rw [Nat.add_comm n 1, interval_add]
  simp [interval]

theorem runs_interval_le (a : Int) (n : Nat) : runs (interval a n) ≤ 1 := by
  induction n generalizing a with
  | zero => simp [runs]
  | succ n ih =>
    have hrest := ih (a + 1)
    rw [interval_succ]
    cases n with
    | zero => exact le_refl 1
    | succ n =>
      rw [interval_succ] at hrest ⊢
      rw [runs, if_pos rfl, Nat.zero_add]
      exact hrest

theorem runs_sums_le (os xs : List Int) : runs (sums os xs) ≤ os.length * runs xs := by
  induction os with
  | nil => simp [runs]
  | cons o os ih =>
    have hcons : sums (o :: os) xs = xs.map (o + ·) ++ sums os xs := rfl
    have happ := runs_append_le (xs.map (o + ·)) (sums os xs)
    rw [runs_shift] at happ
    rw [hcons, List.length_cons, Nat.succ_mul]
    omega

def maxContigBlocks : Handle → Nat
  | .builtin _ => 1
  | .derived d => d.maxContigBlocks

def pieces (cfg : Config) (left : Datatype → Left) (t : Datatype) : Nat := runs (bytes (layout cfg left t))

def Fits (cfg : Config) (left : Datatype → Left) (t : Datatype) : Prop :=
  pieces cfg left t ≤ maxContigBlocks (t.handle cfg left)

variable {cfg : Config} {left : Datatype → Left}

variable {t old : Datatype}

theorem pieces_contig (h : ContigSound cfg left t)
    (hflag : (t.handle cfg left).old.isContig = true) : pieces cfg left t ≤ 1 := by
  have hblock := (contigSound_iff t).mp h hflag
  unfold pieces
  rw [hblock]
  exact runs_interval_le _ _

theorem pieces_copies {os : List Int} (h : layout cfg left t = copies os (layout cfg left old)) :
    pieces cfg left t ≤ os.length * pieces cfg left old := by
  unfold pieces
  rw [h, bytes_copies]
  exact runs_sums_le _ _

theorem fits_empty (h : layout cfg left t = []) : Fits cfg left t := by
  unfold Fits pieces
  rw [h]
  exact Nat.zero_le _

theorem fits_builtin (b : Builtin) : Fits cfg left (.builtin b) := by
  unfold Fits
  exact pieces_contig (builtin_sound b) (by rw [Datatype.handle]; rfl)

variable {count : Nat}

theorem fits_contiguous (hold : Fits cfg left old)
    (hsound : ContigSound cfg left old) : Fits cfg left (.contiguous count old) := by
  by_cases hn : count = 0
  · subst hn
    exact fits_empty (by rw [layout]; rfl)
  have hlayout : layout cfg left (.contiguous count old) =
      copies (steps count (old.handle cfg left).old.extent) (layout cfg left old) := by
    rw [layout]
  have hcopies := pieces_copies hlayout
  rw [steps_length] at hcopies
  have hsoundNew : ContigSound cfg left (.contiguous count old) := contiguous_sound hsound
  unfold Fits at hold ⊢
  rw [Datatype.handle]
  cases hh : old.handle cfg left with
  | builtin b =>
    have hflag : ((Datatype.contiguous count old).handle cfg left).old.isContig = true := by
      rw [Datatype.handle, hh]
      simp [typeContiguous, hn, Handle.old]
    have hone := pieces_contig hsoundNew hflag
    simpa [typeContiguous, hn, maxContigBlocks] using hone
  | derived d =>
    rw [hh] at hold
    by_cases hc : d.isContig = true
    · have hflag : ((Datatype.contiguous count old).handle cfg left).old.isContig = true := by
        rw [Datatype.handle, hh]
        simpa [typeContiguous, hn, Handle.old] using hc
      have hone := pieces_contig hsoundNew hflag
      simpa [typeContiguous, hn, maxContigBlocks, hc] using hone
    · simp only [typeContiguous, if_neg hn, maxContigBlocks, if_neg hc]
      exact le_trans hcopies (Nat.mul_le_mul_left count hold)

theorem block_contiguous (hsound : ContigSound cfg left old)
    (hflag : (old.handle cfg left).old.isContig = true) (d : Int) (n : Nat) :
    sums ((steps n (old.handle cfg left).old.extent).map (d + ·)) (bytes (layout cfg left old)) =
      interval (d + (old.handle cfg left).old.trueLb) (n * (old.handle cfg left).old.sz.toNat) := by
  have hsized := sized cfg left old
  have hspaced := bytes_spaced ((contigSound_iff old).mp hsound hflag) hsized.nonneg d n
  rw [bytes_copies] at hspaced
  rw [hsized.contig hflag]
  exact hspaced

theorem vector_blocks (n : Left) (hn : count ≠ 0) (blocklength : Nat) (stride : Int)
    (strideinbytes : Bool) (h : Handle) :
    (typeVector n count blocklength stride strideinbytes h).maxContigBlocks =
      if (typeVector n count blocklength stride strideinbytes h).isContig then 1
      else
        match h with
        | .builtin _ => count
        | .derived d => d.maxContigBlocks * count * blocklength := by
  cases h with
  | builtin b => simp only [typeVector, if_neg hn]
  | derived d => simp only [typeVector, if_neg hn]

theorem fits_vector {blocklength : Nat} {stride : Int} {strideinbytes : Bool} (hold : Fits cfg left old) (hsound : ContigSound cfg left old) :
    Fits cfg left (.vector count blocklength stride strideinbytes old) := by
  by_cases hn : count = 0
  · subst hn
    exact fits_empty (by rw [layout]; rfl)
  have hsoundNew : ContigSound cfg left (.vector count blocklength stride strideinbytes old) :=
    vector_sound hsound
  have hlayout : layout cfg left (.vector count blocklength stride strideinbytes old) =
      copies (vectorOffsets count blocklength
        (effDisp strideinbytes (old.handle cfg left).old.extent stride)
        (old.handle cfg left).old.extent) (layout cfg left old) := by
    rw [layout]
  have hone := pieces_contig hsoundNew
  unfold Fits at hold ⊢
  rw [Datatype.handle] at hone ⊢
  rw [maxContigBlocks, vector_blocks _ hn]
  split
  · rename_i hflag
    exact hone hflag
  cases hh : old.handle cfg left with
  | builtin b =>
    dsimp only
    have hflag : (old.handle cfg left).old.isContig = true := by
      rw [hh]
      rfl
    have hblock := block_contiguous hsound hflag 0 blocklength
    rw [shift_zero] at hblock
    unfold pieces
    rw [hlayout, bytes_copies, vectorOffsets, sums_sums, hblock]
    refine le_trans (runs_sums_le _ _) ?_
    rw [steps_length]
    exact le_trans (Nat.mul_le_mul_left count (runs_interval_le _ _)) (le_of_eq (Nat.mul_one count))
  | derived d =>
    dsimp only
    rw [hh] at hold
    have hcopies := pieces_copies hlayout
    have hlength : ∀ os ps : List Int, (sums os ps).length = os.length * ps.length := by
      intro os ps
      simp [sums]
    rw [vectorOffsets, hlength, steps_length, steps_length] at hcopies
    refine le_trans hcopies ?_
    rw [Nat.mul_assoc d.maxContigBlocks, Nat.mul_comm d.maxContigBlocks]
    exact Nat.mul_le_mul_left _ hold

theorem runs_indexed (dispinbytes : Bool) (s : Nat) (a : Int) (rest : List Block) (cur : Int)
    (curBlklen n : Nat) :
    runs (sums (blockOffset dispinbytes s ⟨curBlklen, cur⟩ ++ blockOffsets rest dispinbytes s)
      (interval a s)) + n ≤ indexedCountContigLoop dispinbytes s cur curBlklen n rest + 1 := by
  have hblock : ∀ (d : Int) (k : Nat), runs (sums ((steps k s).map (d + ·)) (interval a s)) ≤ 1 := by
    intro d k
    rw [sums_shift, sums_steps_interval, interval_shift]
    exact runs_interval_le _ _
  induction rest generalizing cur curBlklen n with
  | nil =>
    have hone := hblock (effDisp dispinbytes s cur) curBlklen
    simp only [blockOffsets, List.flatMap_nil, List.append_nil, blockOffset]
    rw [indexedCountContigLoop]
    omega
  | cons next rest ih =>
    have hcons : blockOffsets (next :: rest) dispinbytes s =
        blockOffset dispinbytes s next ++ blockOffsets rest dispinbytes s := rfl
    rw [indexedCountContigLoop, hcons]
    by_cases hz : next.blocklength = 0
    · have hempty : blockOffset dispinbytes s next = [] := by simp [blockOffset, hz]
      rw [if_pos hz, hempty, List.nil_append]
      exact ih cur curBlklen n
    rw [if_neg hz]
    by_cases hadj : if dispinbytes = true then cur + curBlklen * s = next.disp
        else cur + curBlklen = next.disp
    · have hjoin : blockOffset dispinbytes s ⟨curBlklen, cur⟩ ++ blockOffset dispinbytes s next =
          blockOffset dispinbytes s ⟨curBlklen + next.blocklength, cur⟩ := by
        unfold blockOffset
        rw [effDisp_add hadj, join_steps]
      rw [if_pos hadj, ← List.append_assoc, hjoin]
      exact ih cur _ n
    · have happ := runs_append_le (sums (blockOffset dispinbytes s ⟨curBlklen, cur⟩) (interval a s))
        (sums (blockOffset dispinbytes s next ++ blockOffsets rest dispinbytes s) (interval a s))
      have hone := hblock (effDisp dispinbytes s cur) curBlklen
      have hnext := ih next.disp next.blocklength (n + 1)
      rw [if_neg hadj, sums_append]
      unfold blockOffset at happ hnext ⊢
      dsimp only at happ hnext ⊢
      omega

theorem runs_blockindexed (blklen : Nat) (dispinbytes : Bool) (s : Nat) (a : Int) (rest : List Int)
    (d cur : Int) (n j : Nat) (hcur : effDisp dispinbytes s cur + blklen * (s : Int) = d + j * s) :
    runs (sums ((steps j s).map (d + ·) ++ blockOffsets (rest.map (⟨blklen, ·⟩)) dispinbytes s)
      (interval a s)) + n ≤ blockindexedCountContigLoop blklen dispinbytes s cur n rest + 1 := by
  have hblock : ∀ (d : Int) (k : Nat), runs (sums ((steps k s).map (d + ·)) (interval a s)) ≤ 1 := by
    intro d k
    rw [sums_shift, sums_steps_interval, interval_shift]
    exact runs_interval_le _ _
  induction rest generalizing d cur n j with
  | nil =>
    have hone := hblock d j
    simp only [blockOffsets, List.map_nil, List.flatMap_nil, List.append_nil]
    rw [blockindexedCountContigLoop]
    omega
  | cons next rest ih =>
    have hcons : blockOffsets ((next :: rest).map (⟨blklen, ·⟩)) dispinbytes s =
        blockOffset dispinbytes s ⟨blklen, next⟩ ++
          blockOffsets (rest.map (⟨blklen, ·⟩)) dispinbytes s := rfl
    rw [blockindexedCountContigLoop, hcons]
    by_cases hadj : if dispinbytes = true then cur + blklen * s = next else cur + blklen = next
    · have hnext := effDisp_add hadj
      have hjoin : (steps j s).map (d + ·) ++ blockOffset dispinbytes s ⟨blklen, next⟩ =
          (steps (j + blklen) s).map (d + ·) := by
        unfold blockOffset
        rw [hnext, hcur, join_steps]
      rw [if_pos hadj, ← List.append_assoc, hjoin]
      refine ih d next n (j + blklen) ?_
      rw [hnext, hcur]
      push_cast
      ring
    · have happ := runs_append_le (sums ((steps j s).map (d + ·)) (interval a s))
        (sums (blockOffset dispinbytes s ⟨blklen, next⟩ ++
          blockOffsets (rest.map (⟨blklen, ·⟩)) dispinbytes s) (interval a s))
      have hone := hblock d j
      have hrest := ih (effDisp dispinbytes s next) next (n + 1) blklen rfl
      rw [if_neg hadj, sums_append]
      unfold blockOffset at happ ⊢
      dsimp only at happ ⊢
      omega

theorem bytes_flagged (hsound : ContigSound cfg left old)
    (hflag : (old.handle cfg left).old.isContig = true) : ∃ s : Nat,
    (old.handle cfg left).old.extent = s ∧
      bytes (layout cfg left old) = interval (old.handle cfg left).old.trueLb s := by
  have hsized := sized cfg left old
  obtain ⟨s, hs⟩ := Int.eq_ofNat_of_zero_le hsized.nonneg
  refine ⟨s, by rw [hsized.contig hflag, hs], ?_⟩
  have hblock := (contigSound_iff old).mp hsound hflag
  unfold Contiguous at hblock
  rw [hblock, hs, Int.toNat_natCast]

section
variable (hold : Fits cfg left old)
include hold

theorem fits_indexed {blocks : List Block} {dispinbytes : Bool} (hsound : ContigSound cfg left old) :
    Fits cfg left (.indexed blocks dispinbytes old) := by
  have hlayout : layout cfg left (.indexed blocks dispinbytes old) =
      copies (blockOffsets blocks dispinbytes (old.handle cfg left).old.extent)
        (layout cfg left old) := by
    rw [layout]
  cases hdrop : blocks.dropWhile (·.blocklength = 0) with
  | nil =>
    refine fits_empty ?_
    rw [hlayout, ← blockOffsets_dropWhile, hdrop]
    rfl
  | cons first rest =>
    unfold Fits at hold ⊢
    rw [Datatype.handle, typeIndexed, hdrop]
    by_cases hflag : (old.handle cfg left).old.isContig = true
    · obtain ⟨s, hs, hbytes⟩ := bytes_flagged hsound hflag
      have hruns := runs_indexed dispinbytes s (old.handle cfg left).old.trueLb rest first.disp
        first.blocklength 1
      have hmax : maxContigBlocks (.derived (typeIndexedFrom (left (.indexed blocks dispinbytes old)) blocks.length
          (blocks.map (·.blocklength)).sum first rest dispinbytes (old.handle cfg left))) =
          indexedCountContigLoop dispinbytes (old.handle cfg left).old.extent first.disp
            first.blocklength 1 rest := by
        simp only [maxContigBlocks, typeIndexedFrom, hflag, if_true]
      unfold pieces
      dsimp only
      rw [hmax, hlayout, bytes_copies, ← blockOffsets_dropWhile, hdrop, hs, hbytes]
      exact Nat.le_of_add_le_add_right hruns
    · cases hh : old.handle cfg left with
      | builtin b =>
        rw [hh] at hflag
        exact absurd rfl hflag
      | derived d =>
        rw [hh] at hold hflag
        have hflag' : d.isContig = false := Bool.eq_false_iff.mpr hflag
        have hcopies := pieces_copies hlayout
        have hlength : ∀ e, (blockOffsets blocks dispinbytes e).length =
            (blocks.map (·.blocklength)).sum := by
          intro e
          simp [blockOffsets, blockOffset, List.length_flatMap]
        rw [hlength] at hcopies
        have hmax : maxContigBlocks (.derived (typeIndexedFrom (left (.indexed blocks dispinbytes old)) blocks.length
            (blocks.map (·.blocklength)).sum first rest dispinbytes (.derived d))) =
            d.maxContigBlocks * (blocks.map (·.blocklength)).sum := by
          simp only [maxContigBlocks, typeIndexedFrom, Handle.old, hflag', Bool.false_eq_true, if_false]
        dsimp only
        rw [hmax, Nat.mul_comm]
        exact le_trans hcopies (Nat.mul_le_mul_left _ hold)

theorem fits_blockindexed {blocklength : Nat} {disps : List Int} {dispinbytes : Bool} (hsound : ContigSound cfg left old) :
    Fits cfg left (.blockindexed blocklength disps dispinbytes old) := by
  have hlayout : layout cfg left (.blockindexed blocklength disps dispinbytes old) =
      copies (blockOffsets (disps.map (⟨blocklength, ·⟩)) dispinbytes
        (old.handle cfg left).old.extent) (layout cfg left old) := by
    rw [layout]
  cases disps with
  | nil => exact fits_empty hlayout
  | cons first rest =>
    unfold Fits at hold ⊢
    rw [Datatype.handle, typeBlockindexed]
    by_cases hflag : (old.handle cfg left).old.isContig = true
    · obtain ⟨s, hs, hbytes⟩ := bytes_flagged hsound hflag
      have hruns := runs_blockindexed blocklength dispinbytes s (old.handle cfg left).old.trueLb rest
        (effDisp dispinbytes s first) first 1 blocklength rfl
      have hmax : maxContigBlocks (.derived (typeBlockindexedFrom blocklength first rest dispinbytes
          (old.handle cfg left))) = blockindexedCountContigLoop blocklength dispinbytes
            (old.handle cfg left).old.extent first 1 rest := by
        simp only [maxContigBlocks, typeBlockindexedFrom, hflag, if_true]
      unfold pieces
      rw [hmax, hlayout, bytes_copies, hs, hbytes]
      exact Nat.le_of_add_le_add_right hruns
    · cases hh : old.handle cfg left with
      | builtin b =>
        rw [hh] at hflag
        exact absurd rfl hflag
      | derived d =>
        rw [hh] at hold hflag
        have hflag' : d.isContig = false := Bool.eq_false_iff.mpr hflag
        have hcopies := pieces_copies hlayout
        rw [blockOffsets_length] at hcopies
        have hmax : maxContigBlocks (.derived (typeBlockindexedFrom blocklength first rest
            dispinbytes (.derived d))) =
            d.maxContigBlocks * (rest.length + 1) * blocklength := by
          simp only [maxContigBlocks, typeBlockindexedFrom, Handle.old, hflag', Bool.false_eq_true,
            if_false]
        rw [hmax, Nat.mul_assoc, Nat.mul_comm d.maxContigBlocks]
        exact le_trans hcopies (Nat.mul_le_mul_left _ hold)

theorem fits_resized (lb extent : Int) : Fits cfg left (.resized old lb extent) := by
  unfold Fits pieces at hold ⊢
  rw [Datatype.handle, layout]
  cases hh : old.handle cfg left with
  | builtin b =>
    rw [hh] at hold
    exact le_trans hold (by decide : 1 ≤ 3)
  | derived d =>
    rw [hh] at hold
    exact hold

end

theorem runs_eq_zero {xs : List Int} (h : runs xs = 0) : xs = [] := by
  induction xs with
  | nil => rfl
  | cons a xs ih =>
    cases xs with
    | nil => cases h
    | cons b xs =>
      rw [runs] at h
      have hnil := ih (by omega)
      cases hnil

theorem bytes_of_size {m : Map} (h : size m = 0) : bytes m = [] := by
  rw [← List.length_eq_zero_iff, bytes_length, h]

theorem fits_dup (hold : Fits cfg left old)
    (h : (∃ b, old = .builtin b) ∨ size (layout cfg left old) = 0) : Fits cfg left (.dup old) := by
  unfold Fits pieces at hold ⊢
  rcases h with ⟨b, rfl⟩ | hz
  · rw [Datatype.handle, layout]
    exact hold
  · rw [layout, bytes_of_size hz]
    exact Nat.zero_le _

theorem fits_member {x : MemberTerm} (hn : x.blocklength ≠ 0) (hold : Fits cfg left x.oldtype)
    (hsound : ContigSound cfg left x.oldtype)
    (h : x.blocklength ≤ 1 ∨ (x.oldtype.handle cfg left).old.isContig = true ∨
      size (layout cfg left x.oldtype) = 0) :
    runs (bytes (memberLayout cfg left x)) ≤ (memberOf cfg left x).maxContigBlocks := by
  have hmax : (memberOf cfg left x).maxContigBlocks =
      maxContigBlocks (x.oldtype.handle cfg left) := by
    unfold memberOf Member.maxContigBlocks maxContigBlocks
    cases x.oldtype.handle cfg left <;> rfl
  unfold Fits pieces at hold
  rw [hmax, memberLayout, bytes_copies]
  by_cases hz : size (layout cfg left x.oldtype) = 0
  · rw [bytes_of_size hz, sums_nil_right]
    exact Nat.zero_le _
  rcases h with hone | hflag | hzero
  · have hle := runs_sums_le ((steps x.blocklength (x.oldtype.handle cfg left).old.extent).map
      (x.disp + ·)) (bytes (layout cfg left x.oldtype))
    rw [List.length_map, steps_length, show x.blocklength = 1 by omega, Nat.one_mul] at hle
    rw [show x.blocklength = 1 by omega]
    exact le_trans hle hold
  · have hpos : runs (bytes (layout cfg left x.oldtype)) ≠ 0 := by
      intro h0
      have hlength := bytes_length (layout cfg left x.oldtype)
      rw [runs_eq_zero h0] at hlength
      exact hz hlength.symm
    rw [block_contiguous hsound hflag]
    have hle := runs_interval_le (x.disp + (x.oldtype.handle cfg left).old.trueLb)
      (x.blocklength * (x.oldtype.handle cfg left).old.sz.toNat)
    omega
  · exact absurd hzero hz

theorem scan_maxContigBlocks (ms : List Member) (s : Scan) :
    (ms.foldl Scan.member s).maxContigBlocks = s.maxContigBlocks +
      ((ms.filter (·.blocklength ≠ 0)).map Member.maxContigBlocks).sum := by
  induction ms generalizing s with
  | nil => simp
  | cons m ms ih =>
    rw [List.foldl_cons, ih]
    unfold Scan.member
    by_cases hn : m.blocklength = 0
    · rw [if_pos hn, List.filter_cons_of_neg (by simpa using hn)]
    · rw [if_neg hn, List.filter_cons_of_pos (by simpa using hn), List.map_cons, List.sum_cons]
      dsimp only
      omega

theorem fits_struct {members : Members} (hold : ∀ x ∈ members.list, Fits cfg left x.oldtype)
    (hsound : ∀ x ∈ members.list, ContigSound cfg left x.oldtype) (h : ∀ x ∈ members.list, x.blocklength ≤ 1 ∨
      (x.oldtype.handle cfg left).old.isContig = true ∨ size (layout cfg left x.oldtype) = 0) :
    Fits cfg left (.struct members) := by
  have hhandles : members.handles cfg left = members.list.map (memberOf cfg left) :=
    members.handles_eq cfg left
  have hsum : ∀ ms : List MemberTerm, (∀ x ∈ ms, x ∈ members.list) →
      runs (bytes (ms.flatMap (memberLayout cfg left))) ≤
        (((ms.map (memberOf cfg left)).filter (·.blocklength ≠ 0)).map Member.maxContigBlocks).sum := by
    intro ms hms
    induction ms with
    | nil => exact Nat.zero_le _
    | cons x ms ih =>
      have hrest := ih fun y hy => hms y (List.mem_cons_of_mem _ hy)
      have hx := hms x List.mem_cons_self
      rw [List.flatMap_cons, bytes_append, List.map_cons]
      refine le_trans (runs_append_le _ _) ?_
      by_cases hn : x.blocklength = 0
      · have hempty : bytes (memberLayout cfg left x) = [] := by
          simp [memberLayout, hn, bytes]
        have hskip : ((memberOf cfg left x :: ms.map (memberOf cfg left)).filter
            (·.blocklength ≠ 0)) = (ms.map (memberOf cfg left)).filter (·.blocklength ≠ 0) :=
          List.filter_cons_of_neg (p := fun m : Member => decide (m.blocklength ≠ 0))
            (fun hne => of_decide_eq_true hne hn)
        rw [hempty, hskip, runs, Nat.zero_add]
        exact hrest
      · have hmember := fits_member hn (hold x hx) (hsound x hx) (h x hx)
        have htake : ((memberOf cfg left x :: ms.map (memberOf cfg left)).filter
            (·.blocklength ≠ 0)) = memberOf cfg left x ::
              (ms.map (memberOf cfg left)).filter (·.blocklength ≠ 0) :=
          List.filter_cons_of_pos (p := fun m : Member => decide (m.blocklength ≠ 0))
            (decide_eq_true hn)
        rw [htake, List.map_cons, List.sum_cons]
        exact Nat.add_le_add hmember hrest
  have hbound := hsum members.list fun _ hx => hx
  unfold Fits pieces
  rw [layout, layoutMembers_eq, Datatype.handle, hhandles, typeStruct]
  split
  · rename_i hzero
    have hnone : (members.list.map (memberOf cfg left)).filter (·.blocklength ≠ 0) = [] := by
      rw [List.filter_eq_nil_iff]
      intro m hm
      simpa using of_decide_eq_true (List.all_eq_true.mp hzero m hm)
    rw [hnone] at hbound
    exact le_trans hbound (Nat.zero_le _)
  · have hscan := scan_maxContigBlocks (members.list.map (memberOf cfg left)) {}
    rw [Nat.zero_add] at hscan
    rw [← hscan] at hbound
    exact hbound

/-- No member that is repeated is in several pieces, and only types that are not derived, or have no
data, are duplicated. -/
def Counted (cfg : Config) (left : Datatype → Left) : Datatype → Prop
  | .struct members => ∀ x ∈ members.list, x.blocklength ≤ 1 ∨
      (x.oldtype.handle cfg left).old.isContig = true ∨ size (layout cfg left x.oldtype) = 0
  | .dup old => (∃ b, old = .builtin b) ∨ size (layout cfg left old) = 0
  | _ => True

theorem fits_of_counted (hsound : Throughout (ContigSound cfg left) t)
    (h : Throughout (Counted cfg left) t) : Fits cfg left t := by
  induction t with
  | builtin b => exact fits_builtin b
  | contiguous count old ih => exact fits_contiguous (ih hsound.2 h.2) hsound.2.self
  | vector count blocklength stride strideinbytes old ih =>
    exact fits_vector (ih hsound.2 h.2) hsound.2.self
  | indexed blocks dispinbytes old ih => exact fits_indexed (ih hsound.2 h.2) hsound.2.self
  | blockindexed blocklength disps dispinbytes old ih =>
    exact fits_blockindexed (ih hsound.2 h.2) hsound.2.self
  | struct members ih =>
    have hsounds := (throughoutMembers_iff _ members).mp hsound.2
    have hcounts := (throughoutMembers_iff _ members).mp h.2
    exact fits_struct (fun x hx => ih x hx (hsounds x hx) (hcounts x hx))
      (fun x hx => (hsounds x hx).self) h.1
  | resized old lb extent ih => exact fits_resized (ih hsound.2 h.2) lb extent
  | dup old ih => exact fits_dup (ih hsound.2 h.2) h.1

/-- The stored bound holds for one instance, and times the count for several. -/
theorem max_contig_blocks_bound (cfg : Config) (left : Datatype → Left) (t : Datatype)
    (hadjacent : Throughout (StructAdjacent cfg left) t) (hcounted : Throughout (Counted cfg left) t) :
    pieces cfg left t ≤ maxContigBlocks (t.handle cfg left) ∧
      ∀ count, runs (bytes (instances cfg left count t)) ≤
        maxContigBlocks (t.handle cfg left) * count := by
  have hfits := fits_of_counted ((is_contig_iff cfg left t).mpr hadjacent) hcounted
  refine ⟨hfits, ?_⟩
  intro count
  have hle := runs_sums_le (steps count (t.handle cfg left).old.extent)
    (bytes (layout cfg left t))
  rw [steps_length] at hle
  rw [instances, bytes_copies, Nat.mul_comm]
  exact le_trans hle (Nat.mul_le_mul_left count hfits)

def columns : Datatype := .struct (.cons 1 0 (.vector 2 1 2 false int) (.cons 3 12 int .nil))

theorem max_contig_blocks_bound_columns :
    (Throughout (StructAdjacent plain fun _ => ⟨0, 0⟩) columns ∧
      Throughout (Counted plain fun _ => ⟨0, 0⟩) columns) ∧
    pieces plain (fun _ => ⟨0, 0⟩) columns ≤ maxContigBlocks (columns.handle plain fun _ => ⟨0, 0⟩) := by
  have hadjacent : Throughout (StructAdjacent plain fun _ => ⟨0, 0⟩) columns :=
    ⟨fun hflag => absurd hflag (by decide), ⟨trivial, trivial⟩, trivial, trivial⟩
  have hcounted : Throughout (Counted plain fun _ => ⟨0, 0⟩) columns := by
    refine ⟨?_, ⟨trivial, trivial⟩, trivial, trivial⟩
    intro x hx
    rcases List.mem_cons.mp hx with rfl | hx
    · exact Or.inl (by decide)
    rcases List.mem_cons.mp hx with rfl | hx
    · exact Or.inr (Or.inl (by decide))
    · cases hx
  exact ⟨⟨hadjacent, hcounted⟩, (max_contig_blocks_bound plain _ columns hadjacent hcounted).1⟩

theorem max_contig_blocks_exceeded :
    (maxContigBlocks ((Datatype.struct (.cons 3 0 (.vector 2 1 2 false int) .nil)).handle plain
      fun _ => ⟨0, 0⟩) + 1 <
      pieces plain (fun _ => ⟨0, 0⟩) (.struct (.cons 3 0 (.vector 2 1 2 false int) .nil))) ∧
    maxContigBlocks ((Datatype.dup (.vector 2 1 2 false int)).handle plain fun _ => ⟨0, 0⟩) <
      pieces plain (fun _ => ⟨0, 0⟩) (.dup (.vector 2 1 2 false int)) := by
  decide

end FgMpi.Types.Pieces
