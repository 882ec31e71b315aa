import FgMpi.Procmap.Mapping

/-! `populate_ids_from_mapping` of `src/mpid/ch3/src/mpid_vc.c:1027`. -/

namespace FgMpi.Procmap.BlockIds
open Machine.Ints Procmap.Mapping

section Functions
variable (size : Nat)

/-- `node_proc`: ids for the next ranks, and whether `rank == pg->size` was reached. -/
def procLoop (nodeId : Int) : Nat → List Int → List Int × Bool
  | 0, ids => (ids, false)
  | n + 1, ids => if (ids ++ [nodeId]).length = size then (ids ++ [nodeId], true) else procLoop nodeId n (ids ++ [nodeId])

/-- `block_node`. -/
def nodeLoop (b : MapBlock) : Nat → Nat → List Int → List Int × Bool
  | _, 0, ids => (ids, false)
  | blockNode, n + 1, ids =>
    let r := procLoop size (toInt (b.startId + blockNode)) b.size.toNat ids
    if r.2 then r else nodeLoop b (blockNode + 1) n r.1

/-- `block`, with `found_wrap`. -/
def blockLoop : List MapBlock → Bool → List Int → Bool × List Int × Bool
  | [], foundWrap, ids => (foundWrap, ids, false)
  | b :: mb, foundWrap, ids =>
    let foundWrap := foundWrap || b.startId = 0
    let r := nodeLoop size b 0 b.count.toNat ids
    if r.2 then (foundWrap, r) else blockLoop mb foundWrap r.1

/-- `for (block = 0; found_wrap && mb[block].start_id; block++);` -/
def firstBlock (mb : List MapBlock) (foundWrap : Bool) : List MapBlock :=
  mb.dropWhile fun b => foundWrap && b.startId ≠ 0

/-- `for (rank = 0;;)`; `none` when the fuel does not last. -/
def rankLoop (mb : List MapBlock) : Nat → Bool → List Int → Option (List Int)
  | 0, _, _ => none
  | fuel + 1, foundWrap, ids =>
    match blockLoop size (firstBlock mb foundWrap) foundWrap ids with
    | (_, ids, true) => some ids
    | (foundWrap, ids, false) => rankLoop mb fuel foundWrap ids

def maxNodeId (ids : List Int) : Int := ids.foldl (fun m nodeId => if m < toInt (nodeId + 1) then nodeId else m) (-1)

inductive Populated
  | failed
  | unmapped
  | mapped (nodeId : List Int) (maxNodeId : Int)

def populateIdsFromMapping (mapping : List Char) (fuel : Nat) : Option Populated :=
  match parseMapping mapping with
  | none => some .failed
  | some .null => some .unmapped
  | some (.vector mb) => (rankLoop size mb fuel false []).map fun ids => .mapped ids (maxNodeId ids)

end Functions

def blockIds (b : MapBlock) : List Int :=
  (List.range b.count.toNat).flatMap fun n : Nat => List.replicate b.size.toNat (b.startId + n)

def passIds (mb : List MapBlock) : List Int := mb.flatMap blockIds

def repeated (mb : List MapBlock) : List MapBlock := firstBlock mb (mb.any fun b => b.startId = 0)

def rankIds (mb : List MapBlock) (size : Nat) : List Int :=
  (passIds mb ++ (List.replicate size (passIds (repeated mb))).flatten).take size

def PopulatesRight (mapping : List Char) (size : Nat) : Prop :=
  parseMapping mapping ≠ none →
    ∃ fuel o, populateIdsFromMapping size mapping fuel = some o ∧ ∀ mb, parseMapping mapping = some (.vector mb) →
      ∃ ids m, o = .mapped ids m ∧ ids.length = size ∧ ids = rankIds mb size ∧ m ∈ ids ∧ ∀ id ∈ ids, id ≤ m

def Enough (mb : List MapBlock) (size : Nat) : Prop := size ≤ (passIds mb).length ∨ passIds (repeated mb) ≠ []

instance (mb : List MapBlock) (size : Nat) : Decidable (Enough mb size) := inferInstanceAs (Decidable (_ ∨ _))

/-- No id of a rank is the largest `int` or beyond, and some id is not below `-1`. -/
def IdsFit (mb : List MapBlock) (size : Nat) : Prop :=
  (∀ id ∈ rankIds mb size, id < 2 ^ 31 - 1) ∧ ∃ id ∈ rankIds mb size, -1 ≤ id

section Loops
variable {size : Nat} {ids xs ys : List Int} {mb : List MapBlock}

def give (size : Nat) (ids : List Int) : List Int → List Int × Bool
  | [] => (ids, false)
  | x :: xs => if (ids ++ [x]).length = size then (ids ++ [x], true) else give size (ids ++ [x]) xs

theorem give_cons (x : Int) : give size ids (x :: xs) =
    if (ids ++ [x]).length = size then (ids ++ [x], true) else give size (ids ++ [x]) xs := rfl

theorem give_append : give size ids (xs ++ ys) =
    if (give size ids xs).2 then give size ids xs else give size (give size ids xs).1 ys := by
  induction xs generalizing ids with
  | nil => rfl
  | cons x xs ih =>
    rw [List.cons_append, give_cons, give_cons]
    by_cases hfull : (ids ++ [x]).length = size
    · rw [if_pos hfull, if_pos hfull, if_pos rfl]
    · rw [if_neg hfull, if_neg hfull]
      exact ih

theorem give_eq (h : ids.length < size) :
    give size ids xs = ((ids ++ xs).take size, decide (size ≤ (ids ++ xs).length)) := by
  induction xs generalizing ids with
  | nil =>
    rw [List.append_nil, List.take_of_length_le (Nat.le_of_lt h), decide_eq_false (Nat.not_le_of_lt h)]
    rfl
  | cons x xs ih =>
    have hlength : (ids ++ [x]).length = ids.length + 1 := List.length_append
    have hassoc : ids ++ x :: xs = ids ++ [x] ++ xs := by simp
    unfold give
    rw [hassoc]
    by_cases hfull : (ids ++ [x]).length = size
    · have hle : size ≤ (ids ++ [x] ++ xs).length := by
        rw [List.length_append]
        omega
      rw [if_pos hfull, decide_eq_true hle, ← hfull, List.take_left]
    · rw [if_neg hfull]
      exact ih (by omega)

theorem procLoop_eq (nodeId : Int) (n : Nat) (ids : List Int) :
    procLoop size nodeId n ids = give size ids (List.replicate n nodeId) := by
  induction n generalizing ids with
  | zero => rfl
  | succ n ih =>
    rw [List.replicate_succ]
    unfold procLoop give
    rw [ih]

theorem nodeLoop_eq (b : MapBlock) (k n : Nat) (ids : List Int) :
    nodeLoop size b k n ids =
      give size ids ((List.range' k n).flatMap fun j : Nat => List.replicate b.size.toNat (toInt (b.startId + j))) := by
  induction n generalizing k ids with
  | zero => rfl
  | succ n ih =>
    rw [List.range'_succ, List.flatMap_cons, give_append]
    unfold nodeLoop
    rw [procLoop_eq]
    dsimp only
    rw [ih]

theorem blockLoop_eq (mb : List MapBlock) (foundWrap : Bool) (ids : List Int) (h : ids.length < size) :
    ∃ foundWrap', blockLoop size mb foundWrap ids = (foundWrap', give size ids ((passIds mb).map toInt)) ∧
      ((give size ids ((passIds mb).map toInt)).2 = false → foundWrap' = (foundWrap || mb.any fun b => b.startId = 0)) := by
  induction mb generalizing foundWrap ids with
  | nil => exact ⟨foundWrap, rfl, fun _ => by simp⟩
  | cons b mb ih =>
    have hblock : (blockIds b).map toInt =
        (List.range' 0 b.count.toNat).flatMap fun j : Nat => List.replicate b.size.toNat (toInt (b.startId + j)) := by
      unfold blockIds
      rw [List.map_flatMap, List.range_eq_range']
      congr 1
      funext j
      exact List.map_replicate
    have hpass : (passIds (b :: mb)).map toInt = (blockIds b).map toInt ++ (passIds mb).map toInt := by
      unfold passIds
      rw [List.flatMap_cons, List.map_append]
    rw [hpass, give_append]
    unfold blockLoop
    rw [nodeLoop_eq, ← hblock]
    dsimp only
    by_cases hfull : (give size ids ((blockIds b).map toInt)).2 = true
    · rw [if_pos hfull, if_pos hfull]
      refine ⟨_, rfl, ?_⟩
      rw [hfull]
      exact fun hfalse => nomatch hfalse
    · rw [if_neg hfull, if_neg hfull]
      have hroom : (give size ids ((blockIds b).map toInt)).1.length < size := by
        rw [give_eq h] at hfull ⊢
        rw [decide_eq_true_iff] at hfull
        rw [List.length_take]
        omega
      obtain ⟨foundWrap', hrun, hfound⟩ := ih (foundWrap || b.startId = 0) _ hroom
      refine ⟨foundWrap', hrun, ?_⟩
      intro hrest
      rw [hfound hrest, List.any_cons, Bool.or_assoc]

theorem firstBlock_false (mb : List MapBlock) : firstBlock mb false = mb := by
  cases mb <;> rfl

theorem found_repeated (mb : List MapBlock) :
    ((mb.any fun b => b.startId = 0) || (repeated mb).any fun b => b.startId = 0) =
      mb.any fun b => b.startId = 0 := by
  unfold repeated
  cases hany : mb.any fun b => b.startId = 0 with
  | true => rfl
  | false => rw [firstBlock_false, hany, Bool.or_self]

theorem rankLoop_again (fuel : Nat) (h : ids.length < size) :
    rankLoop size mb (fuel + 1) (mb.any fun b => b.startId = 0) ids =
      if size ≤ (ids ++ (passIds (repeated mb)).map toInt).length then
        some ((ids ++ (passIds (repeated mb)).map toInt).take size)
      else rankLoop size mb fuel (mb.any fun b => b.startId = 0) (ids ++ (passIds (repeated mb)).map toInt) := by
  obtain ⟨foundWrap, hrun, hfound⟩ := blockLoop_eq (repeated mb) (mb.any fun b => b.startId = 0) ids h
  rw [give_eq h] at hrun hfound
  conv_lhs => unfold rankLoop
  rw [show firstBlock mb (mb.any fun b => b.startId = 0) = repeated mb from rfl, hrun]
  by_cases hfull : size ≤ (ids ++ (passIds (repeated mb)).map toInt).length
  · rw [if_pos hfull, decide_eq_true hfull]
  · rw [if_neg hfull, hfound (decide_eq_false hfull), decide_eq_false hfull, found_repeated,
      List.take_of_length_le (Nat.le_of_not_le hfull)]

theorem rankLoop_none (hnil : passIds (repeated mb) = []) (fuel : Nat) (h : ids.length < size) :
    rankLoop size mb fuel (mb.any fun b => b.startId = 0) ids = none := by
  induction fuel with
  | zero => rfl
  | succ fuel ih =>
    rw [rankLoop_again fuel h, hnil, List.map_nil, List.append_nil, if_neg (Nat.not_le_of_lt h)]
    exact ih

theorem rankLoop_some (hne : passIds (repeated mb) ≠ []) (k : Nat) (h : ids.length < size)
    (hk : size ≤ ids.length + k) :
    rankLoop size mb k (mb.any fun b => b.startId = 0) ids =
      some ((ids ++ (List.replicate k ((passIds (repeated mb)).map toInt)).flatten).take size) := by
  induction k generalizing ids with
  | zero => omega
  | succ k ih =>
    rw [rankLoop_again k h, List.replicate_succ, List.flatten_cons, ← List.append_assoc]
    by_cases hfull : size ≤ (ids ++ (passIds (repeated mb)).map toInt).length
    · rw [if_pos hfull, List.take_append_of_le_length hfull]
    · rw [if_neg hfull]
      have hpos : 0 < (passIds (repeated mb)).length := List.length_pos_iff.mpr hne
      have hlength : (ids ++ (passIds (repeated mb)).map toInt).length = ids.length + (passIds (repeated mb)).length := by
        rw [List.length_append, List.length_map]
      exact ih (by omega) (by omega)

theorem rankLoop_first (fuel : Nat) (h : 0 < size) :
    rankLoop size mb (fuel + 1) false [] =
      if size ≤ (passIds mb).length then some (((passIds mb).map toInt).take size)
      else rankLoop size mb fuel (mb.any fun b => b.startId = 0) ((passIds mb).map toInt) := by
  obtain ⟨foundWrap, hrun, hfound⟩ := blockLoop_eq mb false [] h
  rw [give_eq h, List.nil_append, List.length_map] at hrun hfound
  conv_lhs => unfold rankLoop
  rw [firstBlock_false, hrun]
  by_cases hfull : size ≤ (passIds mb).length
  · rw [if_pos hfull, decide_eq_true hfull]
  · rw [if_neg hfull, hfound (decide_eq_false hfull), decide_eq_false hfull, Bool.false_or,
      List.take_of_length_le (by rw [List.length_map]; omega)]

theorem rankLoop_eq (hpos : 0 < size) (h : Enough mb size) :
    rankLoop size mb (size + 1) false [] = some ((rankIds mb size).map toInt) := by
  rw [rankLoop_first size hpos]
  unfold rankIds
  rw [List.map_take, List.map_append]
  by_cases hfull : size ≤ (passIds mb).length
  · rw [if_pos hfull, List.take_append_of_le_length (by rw [List.length_map]; exact hfull)]
  · rw [if_neg hfull, rankLoop_some (h.resolve_left hfull) size (by rw [List.length_map]; omega) (Nat.le_add_left _ _),
      List.map_flatten, List.map_replicate]

theorem rankLoop_never (hpos : 0 < size) (h : ¬ Enough mb size) (fuel : Nat) : rankLoop size mb fuel false [] = none := by
  obtain ⟨hshort, hnil⟩ := not_or.mp h
  cases fuel with
  | zero => rfl
  | succ fuel =>
    rw [rankLoop_first fuel hpos, if_neg hshort]
    exact rankLoop_none (not_not.mp hnil) fuel (by rw [List.length_map]; omega)

end Loops

section Maximum
variable {ids : List Int} {m : Int}

theorem foldl_max (ids : List Int) (m : Int) (h : ∀ id ∈ ids, -2 ^ 31 ≤ id ∧ id < 2 ^ 31 - 1) :
    ids.foldl (fun m nodeId => if m < toInt (nodeId + 1) then nodeId else m) m = ids.foldl max m := by
  induction ids generalizing m with
  | nil => rfl
  | cons id ids ih =>
    obtain ⟨hid, hrest⟩ := List.forall_mem_cons.mp h
    have hstep : (if m < toInt (id + 1) then id else m) = max m id := by
      rw [toInt_eq (by omega) (by omega)]
      split <;> omega
    rw [List.foldl_cons, List.foldl_cons, hstep]
    exact ih _ hrest

theorem foldl_ne (ids : List Int) (m : Int) (hm : -1 ≤ m) (hm' : m ≠ 2 ^ 31 - 1)
    (h : ∀ id ∈ ids, -2 ^ 31 ≤ id ∧ id < 2 ^ 31) :
    -1 ≤ ids.foldl (fun m nodeId => if m < toInt (nodeId + 1) then nodeId else m) m ∧
      ids.foldl (fun m nodeId => if m < toInt (nodeId + 1) then nodeId else m) m ≠ 2 ^ 31 - 1 := by
  induction ids generalizing m with
  | nil => exact ⟨hm, hm'⟩
  | cons id ids ih =>
    obtain ⟨hid, hrest⟩ := List.forall_mem_cons.mp h
    rw [List.foldl_cons]
    by_cases hlt : m < toInt (id + 1)
    · have hne : id ≠ 2 ^ 31 - 1 := by
        rintro rfl
        have hwrapped : toInt (2 ^ 31 - 1 + 1) = -2 ^ 31 := by decide
        omega
      rw [toInt_eq (by omega) (by omega)] at hlt
      rw [if_pos (by rw [toInt_eq (by omega) (by omega)]; exact hlt)]
      exact ih id (by omega) hne hrest
    · rw [if_neg hlt]
      exact ih m hm hm' hrest

theorem foldl_max_spec (ids : List Int) (m : Int) :
    (ids.foldl max m = m ∨ ids.foldl max m ∈ ids) ∧ m ≤ ids.foldl max m ∧ ∀ id ∈ ids, id ≤ ids.foldl max m := by
  induction ids generalizing m with
  | nil => exact ⟨.inl rfl, Int.le_refl m, fun _ hid => absurd hid List.not_mem_nil⟩
  | cons id ids ih =>
    obtain ⟨hmem, hle, hall⟩ := ih (max m id)
    rw [List.foldl_cons]
    refine ⟨?_, by omega, List.forall_mem_cons.mpr ⟨by omega, hall⟩⟩
    rcases hmem with heq | hmem
    · have hchoice : max m id = m ∨ max m id = id := by omega
      rcases hchoice with hmax | hmax
      · exact .inl (heq.trans hmax)
      · rw [heq, hmax]
        exact .inr List.mem_cons_self
    · exact .inr (List.mem_cons_of_mem id hmem)

theorem maxNodeId_eq (h : ∀ id ∈ ids, -2 ^ 31 ≤ id ∧ id < 2 ^ 31 - 1) (hex : ∃ id ∈ ids, -1 ≤ id) :
    maxNodeId ids ∈ ids ∧ ∀ id ∈ ids, id ≤ maxNodeId ids := by
  unfold maxNodeId
  rw [foldl_max ids (-1) h]
  obtain ⟨hmem, -, hall⟩ := foldl_max_spec ids (-1)
  refine ⟨?_, hall⟩
  obtain ⟨id, hid, hge⟩ := hex
  rcases hmem with heq | hmem
  · have hle := hall id hid
    rw [heq] at hle ⊢
    rw [Int.le_antisymm hge hle]
    exact hid
  · exact hmem

end Maximum

section Populating
variable {size : Nat} {mb : List MapBlock} {mapping : List Char}

theorem rankLoop_mono {fuel : Nat} {foundWrap : Bool} {ids r : List Int} (k : Nat)
    (h : rankLoop size mb fuel foundWrap ids = some r) : rankLoop size mb (fuel + k) foundWrap ids = some r := by
  induction fuel generalizing foundWrap ids with
  | zero => exact nomatch h
  | succ fuel ih =>
    rw [Nat.succ_add]
    unfold rankLoop at h ⊢
    split at h
    · exact h
    · exact ih h

theorem rankLoop_unique {fuel : Nat} {r : List Int} (hpos : 0 < size) (henough : Enough mb size)
    (h : rankLoop size mb fuel false [] = some r) : r = (rankIds mb size).map toInt := by
  have hmore := rankLoop_mono (size + 1) h
  rw [Nat.add_comm, rankLoop_mono fuel (rankLoop_eq hpos henough)] at hmore
  exact (Option.some.inj hmore).symm

theorem length_rankIds (h : Enough mb size) : (rankIds mb size).length = size := by
  unfold rankIds
  rw [List.length_take, List.length_append, List.length_flatten, List.map_replicate, List.sum_replicate_nat]
  apply Nat.min_eq_left
  rcases h with hfull | hne
  · omega
  · have hlength : 0 < (passIds (repeated mb)).length := List.length_pos_iff.mpr hne
    have hle : size * 1 ≤ size * (passIds (repeated mb)).length := Nat.mul_le_mul_left size hlength
    omega

theorem rankIds_ge (hparse : parseMapping mapping = some (.vector mb)) : ∀ id ∈ rankIds mb size, -2 ^ 31 ≤ id := by
  have hpass : ∀ l : List MapBlock, (∀ b ∈ l, b ∈ mb) → ∀ id ∈ passIds l, -2 ^ 31 ≤ id := by
    intro l hl id hid
    obtain ⟨b, hb, hid⟩ := List.mem_flatMap.mp hid
    obtain ⟨n, -, hid⟩ := List.mem_flatMap.mp hid
    rw [List.eq_of_mem_replicate hid]
    obtain ⟨w, -, -, rfl⟩ := parseMapping_eq hparse
    obtain ⟨t, -, rfl⟩ := List.mem_map.mp (hl b hb)
    have hstart : -2 ^ 31 ≤ longInt t.startId.num.value := (toInt_bounds _).1
    unfold Triple.block
    dsimp only
    omega
  intro id hid
  rcases List.mem_append.mp (List.mem_of_mem_take hid) with hid | hid
  · exact hpass mb (fun _ hb => hb) id hid
  · obtain ⟨l, hl, hid⟩ := List.mem_flatten.mp hid
    rw [List.eq_of_mem_replicate hl] at hid
    exact hpass (repeated mb) (fun b hb => (List.dropWhile_sublist _).subset hb) id hid

/-- Every mapping that is accepted ends with the ids of the sequence exactly when there are enough of them and they
fit. -/
theorem populate_ids_iff (mapping : List Char) (hsize : 1 ≤ size) :
    PopulatesRight mapping size ↔ ∀ mb, parseMapping mapping = some (.vector mb) → Enough mb size ∧ IdsFit mb size := by
  constructor
  · intro hright mb hparse
    obtain ⟨fuel, o, hrun, hall⟩ := hright (by rw [hparse]; exact Option.some_ne_none _)
    obtain ⟨ids, m, rfl, hlength, hids, hmem, hmax⟩ := hall mb hparse
    unfold populateIdsFromMapping at hrun
    rw [hparse] at hrun
    obtain ⟨r, hloop, heq⟩ := Option.map_eq_some_iff.mp hrun
    obtain ⟨rfl, rfl⟩ := Populated.mapped.inj heq
    by_cases henough : Enough mb size
    · refine ⟨henough, ?_⟩
      have hwrapped := rankLoop_unique hsize henough hloop
      have hbounds : ∀ id ∈ r, -2 ^ 31 ≤ id ∧ id < 2 ^ 31 := by
        intro id hid
        rw [hwrapped] at hid
        obtain ⟨x, -, rfl⟩ := List.mem_map.mp hid
        exact toInt_bounds x
      obtain ⟨hge, hne⟩ := foldl_ne r (-1) (by decide) (by decide) hbounds
      unfold IdsFit
      rw [← hids]
      refine ⟨?_, maxNodeId r, hmem, hge⟩
      intro id hid
      have hid' := hbounds id hid
      have hle := hmax id hid
      have hm := hbounds _ hmem
      unfold maxNodeId at hle hm
      omega
    · rw [rankLoop_never hsize henough fuel] at hloop
      exact nomatch hloop
  · intro hall haccepted
    unfold populateIdsFromMapping
    cases hparse : parseMapping mapping with
    | none => exact absurd hparse haccepted
    | some t =>
      cases t with
      | null => exact ⟨0, .unmapped, rfl, fun mb h => nomatch h⟩
      | vector mb =>
        obtain ⟨henough, hfit, hex⟩ := hall mb hparse
        have hge : ∀ id ∈ rankIds mb size, -2 ^ 31 ≤ id := rankIds_ge hparse
        have hids : (rankIds mb size).map toInt = rankIds mb size := by
          conv_rhs => rw [← List.map_id (rankIds mb size)]
          rw [List.map_inj_left]
          intro id hid
          have hlt := hfit id hid
          exact toInt_eq (hge id hid) (by omega)
        refine ⟨size + 1, .mapped (rankIds mb size) (maxNodeId (rankIds mb size)), ?_, ?_⟩
        · show (rankLoop size mb (size + 1) false []).map _ = _
          rw [rankLoop_eq hsize henough, hids]
          rfl
        · intro mb' heq
          obtain rfl := MappingType.vector.inj (Option.some.inj heq)
          exact ⟨_, _, rfl, length_rankIds henough, rfl,
            maxNodeId_eq (fun id hid => ⟨hge id hid, hfit id hid⟩) hex⟩

end Populating

def wrappedMapping : List Char :=
  ['(', 'v', 'e', 'c', 't', 'o', 'r', ',', '(', '1', ',', '1', ',', '1', ')', ',', '(', '0', ',', '2', ',', '2', ')', ')']

theorem wrapped_populated : PopulatesRight wrappedMapping 7 := by
  refine (populate_ids_iff wrappedMapping (by decide)).mpr ?_
  intro mb hparse
  have hblocks : parseMapping wrappedMapping = some (.vector [⟨1, 1, 1⟩, ⟨0, 2, 2⟩]) := by decide +kernel
  rw [hblocks] at hparse
  obtain rfl := MappingType.vector.inj (Option.some.inj hparse)
  exact ⟨.inr (by decide), by decide, 1, by decide, by decide⟩

theorem no_nodes : ¬ PopulatesRight ['(', 'v', 'e', 'c', 't', 'o', 'r', ',', '(', '0', ',', '0', ',', '1', ')', ')'] 2 := by
  intro hright
  have hblocks : parseMapping ['(', 'v', 'e', 'c', 't', 'o', 'r', ',', '(', '0', ',', '0', ',', '1', ')', ')'] =
      some (.vector [⟨0, 0, 1⟩]) := by decide +kernel
  obtain ⟨fuel, o, hrun, hall⟩ := hright (by rw [hblocks]; exact Option.some_ne_none _)
  unfold populateIdsFromMapping at hrun
  rw [hblocks] at hrun
  obtain ⟨r, hloop, -⟩ := Option.map_eq_some_iff.mp hrun
  rw [rankLoop_never (by decide) (by decide) fuel] at hloop
  exact nomatch hloop

end FgMpi.Procmap.BlockIds
