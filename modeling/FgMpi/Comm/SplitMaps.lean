import FgMpi.Comm.Split

/-! All processes of the parent call, in any order, each with either sort. -/

namespace FgMpi.Comm.SplitMaps
open Machine.Runs ContextId.Mask
open Comm.NestedMaps Comm.Membership
open Comm.Communicator hiding sortInttable
open Comm.SplitSort Comm.Split

def colorAt (table : List SplitType) (r : Nat) : Option Int := table[r]?.map SplitType.color

/-- The ranks with the color of `r`, by key and then by rank. -/
structure Members (table : List SplitType) (r : Nat) (members : List Nat) : Prop where
  mem : ∀ r', r' ∈ members ↔ colorAt table r' = colorAt table r
  order : members.Pairwise
    (fun a b => keyAt table a < keyAt table b ∨ keyAt table a = keyAt table b ∧ a < b)

def Lists (parent : Parent) (table : List SplitType) (r : Nat) (rtwMap : List Proc) : Prop :=
  ∃ members, Members table r members ∧ rtwMap.map some = members.map parent.rtwMap.get

/-- The smallest world rank of the color of `r`. -/
structure Least (parent : Parent) (table : List SplitType) (r : Nat) (leader : Proc) : Prop where
  mem : ∃ r', colorAt table r' = colorAt table r ∧ parent.rtwMap.get r' = some leader
  le : ∀ r' w, colorAt table r' = colorAt table r → parent.rtwMap.get r' = some w → leader ≤ w

/-- The communicator of the process `r` of the parent. -/
structure Obtained (parent : Parent) (table : List SplitType) (r : Nat) (c : NewComm)
    (members : List Nat) : Prop where
  color : Members table r members
  size : c.localSize = members.length
  map : c.rtwMap.map some = members.map parent.rtwMap.get
  nodup : c.rtwMap.Nodup
  rank : ∃ i, c.rank = some i ∧ members[i]? = some r ∧ c.rtwMap[i]? = parent.rtwMap.get r
  leader : c.leaderWorldrank ∈ c.rtwMap ∧ ∀ w ∈ c.rtwMap, c.leaderWorldrank ≤ w

def Right (parent : Parent) (table : List SplitType) (r : Nat) : Option NewComm → Prop
  | none => colorAt table r = some undefined
  | some c => colorAt table r ≠ some undefined ∧ ∃ members, Obtained parent table r c members

section Results
variable {parent : Parent} {table : List SplitType} {contextId : Nat} {pid : Proc → Nat}
  {path : Nat → Option Qsort} {shared : Nat → Shared} {r : Nat} {color : Int}

def result (pid : Proc → Nat) (parent : Parent) (table : List SplitType) (contextId : Nat)
    (shared : Nat → Shared) (r : Nat) : Option NewComm :=
  table[r]?.bind fun own =>
    if own.color = undefined then none
    else some (newComm parent table contextId own.color r
      (shared (pid (worldrankOf parent.rtwMap r))
        ⟨contextId, leaderOf parent table own.color⟩))

def Kept (parent : Parent) (table : List SplitType) (contextId : Nat)
    (shared shared' : Nat → Shared) : Prop :=
  ∀ p r color, colorAt table r = some color →
    (shared' p ⟨contextId, leaderOf parent table color⟩).getD (newMap parent table color) =
      (shared p ⟨contextId, leaderOf parent table color⟩).getD (newMap parent table color)

theorem newComm_congr {color : Int} {stored stored' : Option (List Proc)}
    (h : stored'.getD (newMap parent table color) = stored.getD (newMap parent table color)) :
    newComm parent table contextId color r stored' = newComm parent table contextId color r stored := by
  unfold newComm
  rw [h]

theorem splitStep_of_splitImpl {st : (Nat → Shared) × List (Nat × Option NewComm)}
    {comm : Option NewComm} {shared' : Shared}
    (h : splitImpl (path r) parent table contextId r (st.1 (pid (worldrankOf parent.rtwMap r))) =
      .ok (comm, shared')) :
    splitStep path pid parent table contextId st r =
      .ok (Function.update st.1 (pid (worldrankOf parent.rtwMap r)) shared', st.2 ++ [(r, comm)]) := by
  unfold splitStep
  change (splitImpl (path r) parent table contextId r
    (st.1 (pid (worldrankOf parent.rtwMap r))) >>= _) = _
  rw [h]
  rfl

theorem splitStep_eq {shared' : Nat → Shared} {results : List (Nat × Option NewComm)}
    (hsize : table.length = parent.size) (hr : r < parent.size)
    (hkept : Kept parent table contextId shared shared') :
    ∃ shared'', splitStep path pid parent table contextId (shared', results) r =
        .ok (shared'', results ++ [(r, result pid parent table contextId shared r)]) ∧
      Kept parent table contextId shared shared'' := by
  obtain ⟨own, hown⟩ : ∃ own, table[r]? = some own :=
    ⟨_, List.getElem?_eq_getElem (by omega)⟩
  have hcolorAt : colorAt table r = some own.color := by rw [colorAt, hown]; rfl
  by_cases hcolor : own.color = undefined
  · have hnone : result pid parent table contextId shared r = none := by
      rw [result, hown]
      exact if_pos hcolor
    rw [splitStep_of_splitImpl (splitImpl_undefined hown hcolor), hnone]
    refine ⟨_, rfl, ?_⟩
    rw [Function.update_eq_self]
    exact hkept
  · have hsome : result pid parent table contextId shared r =
        some (newComm parent table contextId own.color r
          (shared' (pid (worldrankOf parent.rtwMap r))
            ⟨contextId, leaderOf parent table own.color⟩)) := by
      rw [newComm_congr (hkept _ r own.color hcolorAt), result, hown]
      exact if_neg hcolor
    rw [splitStep_of_splitImpl (splitImpl_eq hsize hown hcolor), hsome]
    refine ⟨_, rfl, ?_⟩
    intro p r' color hr'
    rw [← hkept p r' color hr']
    by_cases hp : p = pid (worldrankOf parent.rtwMap r)
    · subst hp
      rw [Function.update_self]
      by_cases hleader : leaderOf parent table color = leaderOf parent table own.color
      · have hsame := leaderOf_inj hsize hr' hcolorAt hleader
        subst hsame
        rw [Function.update_self]
        rfl
      · rw [Function.update_of_ne fun hkey => hleader (congrArg Key.leader hkey)]
    · rw [Function.update_of_ne hp]

theorem splitAll_eq (path : Nat → Option Qsort) (pid : Proc → Nat) (contextId : Nat) {order : List Nat}
    (hsize : table.length = parent.size) (horder : ∀ r ∈ order, r < parent.size) (shared : Nat → Shared) :
    ∃ shared', splitAll path pid parent table contextId order shared =
      .ok (shared', order.map fun r => (r, result pid parent table contextId shared r)) := by
  have hfold : ∀ shared' results, Kept parent table contextId shared shared' →
      ∃ shared'', order.foldlM (splitStep path pid parent table contextId) (shared', results) =
        .ok (shared'', results ++
          order.map fun r => (r, result pid parent table contextId shared r)) := by
    induction order with
    | nil =>
      intro shared' results _
      exact ⟨shared', by rw [List.map_nil, List.append_nil]; rfl⟩
    | cons r order ih =>
      intro shared' results hkept
      obtain ⟨shared'', hstep, hkept'⟩ := splitStep_eq hsize (horder r List.mem_cons_self) hkept
      obtain ⟨final, hfinal⟩ := ih (fun r' hr' => horder r' (List.mem_cons_of_mem r hr'))
        shared'' (results ++ [(r, result pid parent table contextId shared r)]) hkept'
      refine ⟨final, ?_⟩
      rw [List.foldlM_cons, hstep]
      change order.foldlM _ _ = _
      rw [hfinal, List.map_cons, List.append_assoc]
      rfl
  obtain ⟨shared', h⟩ := hfold shared [] fun _ _ _ _ => rfl
  exact ⟨shared', h⟩

theorem members_newOrder (hr : colorAt table r = some color) : Members table r (newOrder table color) where
  mem r' := by
    rw [mem_newOrder, hr]
    rfl
  order := newOrder_sorted

theorem Members.unique {members members' : List Nat} (h : Members table r members)
    (h' : Members table r members') : members = members' := by
  have hnodup : ∀ ms, Members table r ms → ms.Nodup := by
    intro ms hms
    apply hms.order.imp
    intro a b hab heq
    subst heq
    omega
  have hperm : members.Perm members' := by
    rw [List.perm_ext_iff_of_nodup (hnodup _ h) (hnodup _ h')]
    intro r'
    rw [h.mem, h'.mem]
  apply List.Perm.eq_of_pairwise _ h.order h'.order hperm
  intro a b _ _ hab hba
  omega

section
variable (hsize : table.length = parent.size)
include hsize

theorem newMap_get (color : Int) :
    (newMap parent table color).map some = (newOrder table color).map parent.rtwMap.get := by
  rw [newMap, List.map_map]
  apply List.map_congr_left
  intro r' hr'
  obtain ⟨e, he, _⟩ := Option.map_eq_some_iff.mp (mem_newOrder.mp hr')
  have hlt : r' < parent.size := by
    rw [← hsize]
    exact (List.getElem?_eq_some_iff.mp he).1
  obtain ⟨w, hw⟩ := Option.isSome_iff_exists.mp (parent.covers r' hlt)
  change some ((parent.rtwMap.get r').getD 0) = _
  rw [hw]
  rfl

theorem lists_iff (hr : colorAt table r = some color)
    {rtwMap : List Proc} : Lists parent table r rtwMap ↔ rtwMap = newMap parent table color := by
  constructor
  · rintro ⟨members, hmembers, hmap⟩
    rw [hmembers.unique (members_newOrder hr), ← newMap_get hsize] at hmap
    exact List.map_injective_iff.mpr (Option.some_injective _) hmap
  · rintro rfl
    exact ⟨_, members_newOrder hr, newMap_get hsize _⟩

theorem least_iff (hr : colorAt table r = some color)
    {leader : Proc} : Least parent table r leader ↔ leader = leaderOf parent table color := by
  have hin : ∀ r' w, colorAt table r' = colorAt table r → parent.rtwMap.get r' = some w →
      w ∈ newMap parent table color := by
    intro r' w hr' hw
    have hmem : r' ∈ newOrder table color := ((members_newOrder hr).mem r').mpr hr'
    have hsome : some w ∈ (newMap parent table color).map some := by
      rw [newMap_get hsize, ← hw]
      exact List.mem_map_of_mem hmem
    obtain ⟨w', hw', heq⟩ := List.mem_map.mp hsome
    exact Option.some.inj heq ▸ hw'
  have hout : ∀ w ∈ newMap parent table color,
      ∃ r', colorAt table r' = colorAt table r ∧ parent.rtwMap.get r' = some w := by
    intro w hw
    have hsome : some w ∈ (newMap parent table color).map some := List.mem_map_of_mem hw
    rw [newMap_get hsize] at hsome
    obtain ⟨r', hr', heq⟩ := List.mem_map.mp hsome
    exact ⟨r', ((members_newOrder hr).mem r').mp hr', heq⟩
  obtain ⟨hmem, hle⟩ := leaderOf_mem parent hr
  constructor
  · intro h
    obtain ⟨r', hr', hw'⟩ := h.mem
    obtain ⟨r'', hr'', hw''⟩ := hout _ hmem
    exact Nat.le_antisymm (h.le r'' _ hr'' hw'') (hle _ (hin r' _ hr' hw'))
  · rintro rfl
    exact ⟨hout _ hmem, fun r' w hr' hw => hle w (hin r' w hr' hw)⟩

theorem newMap_nodup (color : Int) : (newMap parent table color).Nodup := by
  apply List.Nodup.of_map some
  rw [newMap_get hsize]
  apply newOrder_nodup.map_on
  intro a ha b hb heq
  have hlt : ∀ r' ∈ newOrder table color, r' < parent.size := by
    intro r' hr'
    obtain ⟨e, he, _⟩ := Option.map_eq_some_iff.mp (mem_newOrder.mp hr')
    rw [← hsize]
    exact (List.getElem?_eq_some_iff.mp he).1
  exact parent.injective a (hlt a ha) b (hlt b hb) heq

theorem newComm_obtained (hr : colorAt table r = some color) {stored : Option (List Proc)} :
    (∃ members, Obtained parent table r (newComm parent table contextId color r stored) members) ↔
      ∀ rtwMap, stored = some rtwMap → Lists parent table r rtwMap := by
  constructor
  · rintro ⟨members, hobtained⟩ rtwMap rfl
    exact ⟨members, hobtained.color, hobtained.map⟩
  · intro hstored
    have hmap : stored.getD (newMap parent table color) = newMap parent table color := by
      cases stored with
      | none => rfl
      | some rtwMap => exact (lists_iff hsize hr).mp (hstored rtwMap rfl)
    have hown : r ∈ newOrder table color := ((members_newOrder hr).mem r).mpr rfl
    have hlt := List.idxOf_lt_length_iff.mpr hown
    have hidx : (newOrder table color)[(newOrder table color).idxOf r]? = some r := by
      rw [List.getElem?_eq_getElem hlt, List.getElem_idxOf]
    refine ⟨newOrder table color, members_newOrder hr, rfl, ?_, ?_, ⟨_, rfl, hidx, ?_⟩, ?_⟩
    · change (stored.getD _).map some = _
      rw [hmap, newMap_get hsize]
    · change (stored.getD _).Nodup
      rw [hmap]
      exact newMap_nodup hsize _
    · change (stored.getD _)[_]? = _
      have hget := congrArg (fun l : List (Option Proc) => l[(newOrder table color).idxOf r]?)
        (newMap_get hsize color)
      simp only [List.getElem?_map, hidx, Option.map_some] at hget
      rw [hmap]
      cases hw : (newMap parent table color)[(newOrder table color).idxOf r]? with
      | none =>
        rw [hw] at hget
        cases hget
      | some w =>
        rw [hw] at hget
        exact Option.some.inj hget
    · change leaderOf parent table color ∈ stored.getD _ ∧ ∀ w ∈ stored.getD _, _
      rw [hmap]
      exact leaderOf_mem parent hr

end

end Results

/-- The processes of every color get the right communicator exactly when no table holds another
list under the context id and the leader of a color.  This is so for either sort in any process,
and the sorts give the same order. -/
theorem split_right_iff (path : Nat → Option Qsort) (pid : Proc → Nat) (parent : Parent)
    (table : List SplitType) (hsize : table.length = parent.size) (contextId : Nat)
    (order : List Nat) (horder : ∀ r ∈ order, r < parent.size) (shared : Nat → Shared) :
    (∀ q q' keytable, (sortInttable q keytable).map SortType.clear =
        (sortInttable q' keytable).map SortType.clear) ∧
      ∃ shared' results, splitAll path pid parent table contextId order shared = .ok (shared', results) ∧
        results.map Prod.fst = order ∧
        ((∀ rc ∈ results, Right parent table rc.1 rc.2) ↔
          ∀ r ∈ order, colorAt table r ≠ some undefined →
            ∀ worldrank leader rtwMap, parent.rtwMap.get r = some worldrank →
              Least parent table r leader →
              shared (pid worldrank) ⟨contextId, leader⟩ = some rtwMap →
              Lists parent table r rtwMap) := by
  refine ⟨sortInttable_agree, ?_⟩
  obtain ⟨shared', hall⟩ := splitAll_eq path pid contextId hsize horder shared
  refine ⟨shared', _, hall, ?_, ?_⟩
  · rw [List.map_map]
    exact List.map_id _
  · rw [List.forall_mem_map]
    refine forall_congr' fun r => forall_congr' fun hr => ?_
    obtain ⟨own, hown⟩ : ∃ own, table[r]? = some own :=
      ⟨_, List.getElem?_eq_getElem (by have := horder r hr; omega)⟩
    have hcolorAt : colorAt table r = some own.color := by rw [colorAt, hown]; rfl
    obtain ⟨worldrank, hworldrank⟩ := Option.isSome_iff_exists.mp (parent.covers r (horder r hr))
    by_cases hcolor : own.color = undefined
    · have hnone : result pid parent table contextId shared r = none := by
        rw [result, hown]
        exact if_pos hcolor
      rw [hnone, hcolorAt, hcolor]
      exact ⟨fun _ h => absurd rfl h, fun _ => by rw [Right, hcolorAt, hcolor]⟩
    · have hwhere : worldrankOf parent.rtwMap r = worldrank := by rw [worldrankOf, hworldrank]; rfl
      have hsome : result pid parent table contextId shared r =
          some (newComm parent table contextId own.color r
            (shared (pid worldrank) ⟨contextId, leaderOf parent table own.color⟩)) := by
        rw [result, hown, hwhere]
        exact if_neg hcolor
      have hne : colorAt table r ≠ some undefined := by
        rw [hcolorAt]
        exact fun h => hcolor (Option.some.inj h)
      rw [hsome]
      change (_ ∧ _) ↔ _
      rw [newComm_obtained hsize hcolorAt]
      constructor
      · rintro ⟨_, hstored⟩ _ worldrank' leader rtwMap hw hleast hentry
        rw [hworldrank] at hw
        rw [(least_iff hsize hcolorAt).mp hleast, ← Option.some.inj hw] at hentry
        exact hstored rtwMap hentry
      · intro hfits
        exact ⟨hne, fun rtwMap hentry =>
          hfits hne worldrank _ rtwMap hworldrank ((least_iff hsize hcolorAt).mpr rfl) hentry⟩

def trio : Parent where
  size := 3
  rtwMap := .ranks [5, 2, 7]
  covers := by decide
  injective := by decide

theorem split_right_trio :
    (∀ q q' keytable, (sortInttable q keytable).map SortType.clear =
        (sortInttable q' keytable).map SortType.clear) ∧
      ∃ shared' results, splitAll (fun r => if r = 0 then some Qsort.stable else none) (· / 4) trio
          [⟨1, 3⟩, ⟨1, -2⟩, ⟨1, 3⟩] 48 [2, 0, 1] (fun _ _ => none) = .ok (shared', results) ∧
        results.map Prod.fst = [2, 0, 1] ∧
        ((∀ rc ∈ results, Right trio [⟨1, 3⟩, ⟨1, -2⟩, ⟨1, 3⟩] rc.1 rc.2) ↔
          ∀ r ∈ [2, 0, 1], colorAt [⟨1, 3⟩, ⟨1, -2⟩, ⟨1, 3⟩] r ≠ some undefined →
            ∀ worldrank leader rtwMap, trio.rtwMap.get r = some worldrank →
              Least trio [⟨1, 3⟩, ⟨1, -2⟩, ⟨1, 3⟩] r leader →
              (fun _ _ => none : Nat → Shared) (worldrank / 4) ⟨48, leader⟩ = some rtwMap →
              Lists trio [⟨1, 3⟩, ⟨1, -2⟩, ⟨1, 3⟩] r rtwMap) :=
  split_right_iff _ (· / 4) trio [⟨1, 3⟩, ⟨1, -2⟩, ⟨1, 3⟩] rfl 48 [2, 0, 1] (by decide) _

def sharedOf (w : World) (pid : Nat) : Shared := fun key => do
  let i ← w.table pid key
  let co ← w.heap.cos[i]?
  let m ← co.rtwMap
  let rtwMap ← w.heap.maps[m]?
  some rtwMap.ranks

def outer : Parent where
  size := 2
  rtwMap := .ranks [0, 3]
  covers := by decide
  injective := by decide

theorem stale_map_obtained :
    ∃ w, run (step quad) (World.init quad) (twoSplits ++ [.commFree 10]) = .ok w ∧
      hasBit (w.masks 0) 480 = true ∧ hasBit (w.masks 3) 480 = true ∧
      ∃ shared' results, splitAll (fun _ => none) quad.pid outer [⟨0, 0⟩, ⟨0, 0⟩] 480 [0, 1]
          (sharedOf w) = .ok (shared', results) ∧
        ¬∀ rc ∈ results, Right outer [⟨0, 0⟩, ⟨0, 0⟩] rc.1 rc.2 := by
  have hrun : (run (step quad) (World.init quad) (twoSplits ++ [.commFree 10])).toOption.map
      (fun w => (hasBit (w.masks 0) 480, hasBit (w.masks 3) 480, sharedOf w 0 ⟨480, 0⟩)) =
        some (true, true, some [0, 1, 2]) := by decide +kernel
  cases hw : run (step quad) (World.init quad) (twoSplits ++ [.commFree 10]) with
  | error e =>
    rw [hw] at hrun
    cases hrun
  | ok w =>
    rw [hw] at hrun
    simp only [Except.toOption, Option.map_some, Option.some.injEq, Prod.mk.injEq] at hrun
    obtain ⟨h0, h3, hstale⟩ := hrun
    have hsize : [(⟨0, 0⟩ : SplitType), ⟨0, 0⟩].length = outer.size := rfl
    have horder : ∀ r ∈ [0, 1], r < outer.size := by decide
    obtain ⟨shared', hall⟩ := splitAll_eq (fun _ => none) quad.pid 480 hsize horder (sharedOf w)
    refine ⟨w, rfl, h0, h3, shared', _, hall, ?_⟩
    intro hright
    have hfirst : Right outer [⟨0, 0⟩, ⟨0, 0⟩] 0
        (result quad.pid outer [⟨0, 0⟩, ⟨0, 0⟩] 480 (sharedOf w) 0) :=
      hright _ List.mem_cons_self
    have hresult : result quad.pid outer [⟨0, 0⟩, ⟨0, 0⟩] 480 (sharedOf w) 0 =
        some (newComm outer [⟨0, 0⟩, ⟨0, 0⟩] 480 0 0 (some [0, 1, 2])) := by
      rw [← hstale]
      rfl
    rw [hresult] at hfirst
    have hcolor : colorAt [⟨0, 0⟩, ⟨0, 0⟩] 0 = some 0 := rfl
    have hlists := (newComm_obtained hsize hcolor).mp hfirst.2 [0, 1, 2] rfl
    exact absurd ((lists_iff hsize hcolor).mp hlists) (by decide)

end FgMpi.Comm.SplitMaps
