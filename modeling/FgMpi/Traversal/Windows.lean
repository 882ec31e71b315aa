import FgMpi.Traversal.Packing
import FgMpi.Types.Pieces

/-! What one call of `MPID_Segment_pack_vector` describes. -/

namespace FgMpi.Traversal.Windows
open Types.Typemap (interval)
open Types.Pieces Machine.Regions Traversal.Dataloops
open Traversal.Manipulate Traversal.Cursors Traversal.Turning
open Traversal.Calls Traversal.Filling Traversal.Packing

section Runs
variable {xs ys : List Int} {r : Region} {rs rs' : List Region}

theorem runs_pos (x : Int) (xs : List Int) : 0 < runs (x :: xs) := by
  induction xs generalizing x with
  | nil => exact Nat.one_pos
  | cons y xs ih =>
    rw [runs]
    exact Nat.add_pos_right _ (ih y)

theorem runs_le_cons (x : Int) (xs : List Int) : runs xs ≤ runs (x :: xs) := by
  cases xs with
  | nil => exact Nat.zero_le _
  | cons y xs => exact Nat.le_add_left _ _

theorem runs_append_right (xs ys : List Int) : runs ys ≤ runs (xs ++ ys) := by
  induction xs with
  | nil => exact Nat.le_refl _
  | cons x xs ih => exact Nat.le_trans ih (runs_le_cons x _)

theorem runs_append_left (xs ys : List Int) : runs xs ≤ runs (xs ++ ys) := by
  induction xs with
  | nil => exact Nat.zero_le _
  | cons x xs ih =>
    cases xs with
    | nil => exact runs_pos x ys
    | cons y xs => exact Nat.add_le_add_left ih _

theorem runs_interval_append (a : Int) (n : Nat) (hnext : ∀ x, xs[0]? = some x → x ≠ a + (n + 1 : Nat)) :
    runs (interval a (n + 1) ++ xs) = 1 + runs xs := by
  induction n generalizing a with
  | zero =>
    cases xs with
    | nil => rfl
    | cons x xs => simpa [interval, runs] using hnext x rfl
  | succ n ih =>
    have hmore := ih (a + 1) fun x hx => by
      have := hnext x hx
      push_cast at this ⊢
      omega
    rw [interval_succ, List.cons_append] at hmore ⊢
    rw [interval_succ, List.cons_append, runs, if_pos rfl, Nat.zero_add, hmore]

theorem bytes_getElem? (rs : List Region) {n : Nat} (hn : (n : Int) < r.len) :
    (bytes (r :: rs))[n]? = some (r.start + n) := by
  have hlt : n < r.bytes.length := by rw [bytes_length_region]; omega
  rw [bytes_cons, List.getElem?_append_left hlt, List.getElem?_eq_getElem hlt]
  simp [Region.bytes]

theorem bytes_stop (hpos : Positive rs) (hapart : Apart (r :: rs)) :
    (bytes (r :: rs))[r.len.toNat]? ≠ some r.stop := by
  rw [bytes_cons, List.getElem?_append_right (by rw [bytes_length_region]), bytes_length_region, Nat.sub_self]
  cases rs with
  | nil => exact nofun
  | cons r' rs =>
    have hfirst := bytes_getElem? (r := r') (n := 0) rs (hpos r' List.mem_cons_self)
    have hstop : r.stop ≠ r'.start := (List.isChain_cons_cons.mp hapart).1
    rw [hfirst, Int.natCast_zero, Int.add_zero]
    exact fun h => hstop (Option.some.inj h).symm

theorem runs_bytes (hpos : Positive rs) (hapart : Apart rs) (hnext : ∀ x, xs[0]? = some x → ¬Adjoins rs x) :
    runs (bytes rs ++ xs) = rs.length + runs xs := by
  induction rs with
  | nil => exact (Nat.zero_add _).symm
  | cons r rs ih =>
    have hr := hpos r List.mem_cons_self
    have hpos' : Positive rs := fun r' hr' => hpos r' (List.mem_cons_of_mem _ hr')
    have hrest := ih hpos' hapart.tail fun x hx hadj => by
      obtain ⟨before, last, rfl, hlast⟩ := adjoins_cases hadj
      exact hnext x hx (by rw [← List.cons_append, Adjoins, lastEnd_concat, hlast])
    obtain ⟨n, hn⟩ : ∃ n : Nat, r.len = (n + 1 : Nat) := ⟨(r.len - 1).toNat, by omega⟩
    have hbytes : r.bytes = interval r.start (n + 1) := by rw [Region.bytes, hn]; rfl
    rw [bytes_cons, List.append_assoc, hbytes, runs_interval_append, hrest, List.length_cons]
    · omega
    rintro x hx rfl
    rw [← hn] at hx
    cases rs with
    | nil => exact hnext _ hx rfl
    | cons r' rs =>
      refine bytes_stop hpos' hapart ?_
      rw [List.getElem?_append_left] at hx
      · rw [bytes_cons, List.getElem?_append_right (by rw [bytes_length_region]), bytes_length_region, Nat.sub_self]
        exact hx
      · have hr' := hpos' r' List.mem_cons_self
        rw [bytes_cons, List.length_append, bytes_length_region]
        omega

theorem len_le_of_bytes (hpos : Positive (r :: rs)) (hapart : Apart (r :: rs)) {r' : Region}
    (hstart : r.start = r'.start) (h : bytes (r :: rs) = bytes (r' :: rs')) : r'.len ≤ r.len := by
  by_contra hlt
  have hr := hpos r List.mem_cons_self
  refine bytes_stop (fun x hx => hpos x (List.mem_cons_of_mem _ hx)) hapart ?_
  rw [h, bytes_getElem? rs' (by omega), Region.stop, hstart]
  congr 1
  omega

theorem eq_of_bytes (hpos : Positive rs) (hapart : Apart rs) (hpos' : Positive rs') (hapart' : Apart rs')
    (h : bytes rs = bytes rs') : rs = rs' := by
  induction rs generalizing rs' with
  | nil => exact (eq_nil_of_bytes hpos' h.symm).symm
  | cons r rs ih =>
    cases rs' with
    | nil => exact eq_nil_of_bytes hpos h
    | cons r' rs' =>
      have hfirst := congrArg (·[0]?) h
      have hhead := bytes_getElem? (n := 0) rs (hpos r List.mem_cons_self)
      have hhead' := bytes_getElem? (n := 0) rs' (hpos' r' List.mem_cons_self)
      have hstart : r.start = r'.start := by
        have := Option.some.inj (hhead.symm.trans (hfirst.trans hhead'))
        omega
      have hlen := Int.le_antisymm (len_le_of_bytes hpos' hapart' hstart.symm h.symm)
        (len_le_of_bytes hpos hapart hstart h)
      obtain rfl : r = r' := by
        cases r
        cases r'
        simp_all
      rw [ih (fun x hx => hpos x (List.mem_cons_of_mem _ hx)) hapart.tail
        (fun x hx => hpos' x (List.mem_cons_of_mem _ hx)) hapart'.tail (List.append_cancel_left h)]

end Runs

def size (es : List Element) : Nat := streamSize packVectorPieces es

theorem size_append (es es' : List Element) : size (es ++ es') = size es + size es' := streamSize_append es es'

theorem size_cons (e : Element) (es : List Element) : size (e :: es) = e.el.size + size es := rfl

/-- `W` are the elements from `first` on that end by `last`. -/
structure Window (es P W R : List Element) (first last : Nat) : Prop where
  split : es = P ++ (W ++ R)
  start : first = size P
  within : size (P ++ W) ≤ last
  next : ∀ e more, R = e :: more → last < size (P ++ W) + e.el.size

theorem exists_window {es P Q : List Element} {first last : Nat} (hsplit : es = P ++ Q) (hfirst : first = size P)
    (hle : first ≤ last) : ∃ W R, Window es P W R first last ∧ Q = W ++ R := by
  have hgreedy : ∀ (Q : List Element) (start : Nat), start ≤ last → ∃ W R, Q = W ++ R ∧ start + size W ≤ last ∧
      ∀ e more, R = e :: more → last < start + size W + e.el.size := by
    intro Q
    induction Q with
    | nil => exact fun start hstart => ⟨[], [], rfl, hstart, fun _ _ h => nomatch h⟩
    | cons e Q ih =>
      intro start hstart
      by_cases hfits : start + e.el.size ≤ last
      · obtain ⟨W, R, rfl, hW, hnext⟩ := ih (start + e.el.size) hfits
        refine ⟨e :: W, R, rfl, by rw [size_cons]; omega, fun e' more hR => ?_⟩
        rw [size_cons, ← Nat.add_assoc start]
        exact hnext e' more hR
      · refine ⟨[], e :: Q, rfl, hstart, fun e' more hR => ?_⟩
        obtain ⟨rfl, -⟩ := List.cons.inj hR
        exact Nat.lt_of_not_le hfits
  obtain ⟨W, R, rfl, hW, hnext⟩ := hgreedy Q first hle
  subst hfirst
  exact ⟨W, R, ⟨hsplit, rfl, by rwa [size_append], fun e more hR => by rw [size_append]; exact hnext e more hR⟩, rfl⟩

/-- The first part of a window, and why a call describes no more. -/
structure Described (ptr length : Int) (P W : List Element) (out : Outcome PackVector) (taken rest : List Element) :
    Prop where
  split : W = taken ++ rest
  fault : out.fault = none
  packed : Packed ptr length out.pieceparams taken
  lastp : out.lastp = size (P ++ taken)
  streamOff : out.segment.streamOff = out.lastp
  full : ∀ e more, rest = e :: more →
    (out.pieceparams.vectorp.length : Int) = length ∧ ¬Adjoins out.pieceparams.vectorp (ptr + e.disp)

section Call
variable (beyond : Int → Int) {root : Dataloop} {segp : Segment} {consumed P W R : List Element} {stack : List Cursor}
  {first last : Nat} {length : Int}

theorem packVector_window (hroot : root.Shaped) (hfilled : root.Filled)
    (h : Positioned True root packVectorPieces segp consumed stack) (hwindow : Window (root.elements 0) P W R first last)
    (hmore : W ++ R ≠ []) (hlt : first < last) (hbehind : segp.streamOff ≤ first) (hlength : 0 < length) :
    ∃ taken rest stack', Described segp.ptr length P W (segmentPackVector beyond segp first last length) taken rest ∧
      Positioned True root packVectorPieces (segmentPackVector beyond segp first last length).segment (P ++ taken) stack' ∧
      (segmentPackVector beyond segp first last length).segment.ptr = segp.ptr := by
  obtain ⟨e, Q, hQ⟩ := List.exists_cons_of_ne_nil hmore
  obtain ⟨taken, rest, stack', hcall⟩ := packVector_call beyond hroot hfilled h (hQ ▸ hwindow.split)
    (congrArg Nat.cast hwindow.start) hbehind (Or.inr (Int.ofNat_lt.mpr hlt)) hlength
  have hsize : ∀ x ∈ W ++ R, 0 < x.el.size := fun x hx =>
    (elements_pos hfilled (by rw [hwindow.split]; exact List.mem_append_right _ hx)).1
  have hlastp : (segmentPackVector beyond segp first last length).lastp = size (P ++ taken) := by
    rw [hcall.lastp, hcall.positioned.stream]
    rfl
  have hwithin : size (P ++ taken) ≤ last := by
    have hle := hcall.within (by rw [show ignoreLast = -1 from rfl]; omega)
    omega
  obtain ⟨more, hW, hrest⟩ : ∃ more, W = taken ++ more ∧ rest = more ++ R := by
    rcases List.append_eq_append_iff.mp (hQ.trans hcall.split) with ⟨as, htaken, hR⟩ | ⟨bs, hW, hrest⟩
    · cases as with
      | nil => exact ⟨[], by rw [htaken, List.append_nil, List.append_nil], hR.symm⟩
      | cons a as =>
        have hover := hwindow.next a (as ++ rest) hR
        rw [htaken, ← List.append_assoc, size_append, size_cons] at hwithin
        omega
    · exact ⟨bs, hW, hrest⟩
  refine ⟨taken, more, stack', ⟨hW, hcall.fault, hcall.packed, hlastp, hcall.lastp.symm, fun a as has => ?_⟩,
    hcall.positioned, hcall.ptr⟩
  subst hW hrest has
  rcases hcall.stopped with hnil | ⟨e', es, hes, ⟨_, hover⟩ | hfull⟩
  · cases hnil
  · obtain ⟨rfl, -⟩ := List.cons.inj hes
    have hlast := hwindow.within
    rw [hlastp] at hover
    rw [← List.append_assoc, size_append, size_cons] at hlast
    omega
  · obtain ⟨rfl, -⟩ := List.cons.inj hes
    exact hfull

end Call

section Described
variable {ptr length : Int} {P W taken rest : List Element} {out : Outcome PackVector}

theorem elementBytes_head {e : Element} (he : 0 < e.el.size) (es : List Element) :
    (elementBytes ptr (e :: es))[0]? = some (ptr + e.disp) := by
  rw [elementBytes, List.map_cons, bytes_getElem? (n := 0) _ (Int.ofNat_lt.mpr he), Int.natCast_zero, Int.add_zero]
  rfl

theorem Described.more (h : Described ptr length P W out taken rest) {e : Element} {more : List Element}
    (hrest : rest = e :: more) (he : 0 < e.el.size) (es : List Element) :
    length < runs (elementBytes ptr (taken ++ e :: es)) := by
  obtain ⟨hfull, hnext⟩ := h.full e more hrest
  have hhead : (elementBytes ptr (e :: es))[0]? = some (ptr + e.disp) := elementBytes_head he es
  have hpos : 0 < runs (elementBytes ptr (e :: es)) := by
    cases hbytes : elementBytes ptr (e :: es) with
    | nil =>
      rw [hbytes] at hhead
      cases hhead
    | cons x xs => exact runs_pos x xs
  rw [elementBytes_append, ← h.packed.bytes, runs_bytes h.packed.positive h.packed.apart]
  · omega
  · intro x hx
    rw [hhead] at hx
    obtain rfl := Option.some.inj hx
    exact hnext

theorem Described.counts (h : Described ptr length P W out taken rest) :
    runs (elementBytes ptr taken) = out.pieceparams.vectorp.length := by
  rw [← h.packed.bytes, ← List.append_nil (bytes _)]
  exact runs_bytes h.packed.positive h.packed.apart (fun x hx => nomatch hx)

theorem Described.all_iff (h : Described ptr length P W out taken rest) (hsize : ∀ e ∈ W, 0 < e.el.size) :
    rest = [] ↔ (runs (elementBytes ptr W) : Int) ≤ length := by
  have hroom := h.packed.room
  have hcounts := h.counts
  cases hrest : rest with
  | nil =>
    refine ⟨fun _ => ?_, fun _ => rfl⟩
    rw [h.split, hrest, List.append_nil]
    omega
  | cons e more =>
    have hmore := h.more hrest (hsize e (by rw [h.split, hrest]; simp)) more
    rw [← hrest, ← h.split] at hmore
    exact ⟨(fun hnil => nomatch hnil), fun hle => by omega⟩

theorem Described.same (h : Described ptr length P W out taken rest) {out' : Outcome PackVector}
    {taken' rest' : List Element} (h' : Described ptr length P W out' taken' rest') (hsize : ∀ e ∈ W, 0 < e.el.size) :
    out.pieceparams.vectorp = out'.pieceparams.vectorp := by
  have hlongest : ∀ {out out' : Outcome PackVector} {taken rest taken' rest' as : List Element},
      Described ptr length P W out taken rest → Described ptr length P W out' taken' rest' →
        taken' = taken ++ as → rest = as ++ rest' → taken = taken' := by
    intro out out' taken rest taken' rest' as h h' htaken hrest
    cases as with
    | nil => rw [htaken, List.append_nil]
    | cons a as =>
      have hmore := h.more hrest (hsize a (by rw [h.split, hrest]; simp)) as
      rw [← htaken] at hmore
      have hroom := h'.packed.room
      have hcounts := h'.counts
      omega
  have htaken : taken = taken' := by
    rcases List.append_eq_append_iff.mp (h.split.symm.trans h'.split) with ⟨as, htaken, hrest⟩ | ⟨as, htaken, hrest⟩
    · exact hlongest h h' htaken hrest
    · exact (hlongest h' h htaken hrest).symm
  refine eq_of_bytes h.packed.positive h.packed.apart h'.packed.positive h'.packed.apart ?_
  rw [h.packed.bytes, h'.packed.bytes, htaken]

end Described

end FgMpi.Traversal.Windows
