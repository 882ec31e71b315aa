import FgMpi.Comm.SplitSort
import FgMpi.Comm.Membership

/-! `MPIR_Comm_split_impl` (`mpi/comm/comm_split.c:130`). -/

namespace FgMpi.Comm.Split
open Comm.NestedMaps Comm.SharedVars
open Comm.Communicator hiding sortInttable
open Comm.SplitSort

def undefined : Int := -32766

/-- `splittype`. -/
structure SplitType where
  color : Int
  key : Int
deriving Repr, DecidableEq

/-- An `rtw_map`; the one of `MPI_COMM_WORLD` has no entries. -/
inductive RankMap
  | world
  | ranks (worldranks : List Proc)
deriving Repr, DecidableEq

def RankMap.get : RankMap → Nat → Option Proc
  | .world, lrank => some lrank
  | .ranks worldranks, lrank => worldranks[lrank]?

/-- `RTWPmapFind`, `fginit.c:301`. -/
def rtwpMapFind (rtwMap : RankMap) (lrank : Nat) : Except Fault Proc :=
  match rtwMap.get lrank with
  | some worldrank => .ok worldrank
  | none => .error .abort

/-- A parent communicator: its map gives every rank a world rank of its own. -/
structure Parent where
  size : Nat
  rtwMap : RankMap
  covers : ∀ r < size, (rtwMap.get r).isSome
  injective : ∀ r < size, ∀ r' < size, rtwMap.get r = rtwMap.get r' → r = r'

/-- The loop of `comm_split.c:180-202`; `last` is where `last_ptr` points, `none` to
`first_entry`, and `leaderWid` is -1 at first. -/
structure Linked where
  table : List SplitType
  newSize : Nat
  firstEntry : Nat
  last : Option Nat
  leaderWid : Option Proc
deriving Repr, DecidableEq

def linkStep (rtwMap : RankMap) (color : Int) (s : Linked) (i : Nat) : Except Fault Linked :=
  match s.table[i]? with
  | none => .error .abort
  | some entry =>
    if entry.color = color then do
      let worldrank ← rtwpMapFind rtwMap i
      .ok {
        table := match s.last with
          | none => s.table
          | some l => s.table.modify l fun e => { e with color := i }
        newSize := s.newSize + 1
        firstEntry := match s.last with
          | none => i
          | some _ => s.firstEntry
        last := some i
        leaderWid := match s.leaderWid with
          | none => some worldrank
          | some leader => some (if leader > worldrank then worldrank else leader) }
    else .ok s

def linkColors (rtwMap : RankMap) (color : Int) (table : List SplitType) : Except Fault Linked :=
  (List.range table.length).foldlM (linkStep rtwMap color) ⟨table, 0, 0, none, none⟩

/-- The loop of `comm_split.c:296-300`. -/
def extractKeys (table : List SplitType) : Nat → Int → Except Fault (List SortType)
  | 0, _ => .ok []
  | n + 1, firstEntry =>
    match table[firstEntry.toNat]? with
    | none => .error .abort
    | some entry => do
      let rest ← extractKeys table n entry.color
      .ok (⟨firstEntry.toNat, entry.key, 0⟩ :: rest)

/-- The loop of `comm_split.c:373-379`; the rank stays -1 when nothing matches. -/
def findNewRank (keytable : List SortType) (rank : Nat) : Option Nat :=
  (List.range keytable.length).foldl
    (fun newRank i => if keytable[i]?.map SortType.color = some rank then some i else newRank) none

/-- The loop of `comm_split.c:413-428`. -/
def blockInsert (rtwMap : RankMap) : List SortType → Except Fault (List Proc)
  | [] => .ok []
  | s :: keytable => do
    let worldrank ← rtwpMapFind rtwMap s.color
    let rest ← blockInsert rtwMap keytable
    .ok (worldrank :: rest)

structure NewComm where
  contextId : Nat
  localSize : Nat
  rank : Option Nat
  leaderWorldrank : Proc
  rtwMap : List Proc
deriving Repr, DecidableEq

/-- The maps that an OS process shares, by context id and leader: `contextLeader_hshtbl`. -/
abbrev Shared := Key → Option (List Proc)

/-- `MPIR_Comm_split_impl` of the process `rank`; `table` is what the allgather returns. -/
def splitImpl (qsort : Option Qsort) (parent : Parent) (table : List SplitType)
    (contextId rank : Nat) (shared : Shared) : Except Fault (Option NewComm × Shared) :=
  match table[rank]? with
  | none => .error .abort
  | some own =>
    if own.color = undefined then .ok (none, shared)
    else do
      let s ← linkColors parent.rtwMap own.color table
      match s.leaderWid with
      | none => .ok (none, shared)
      | some leader => do
        let keytable ← extractKeys s.table s.newSize s.firstEntry
        let keytable := sortInttable qsort keytable
        let comm (rtwMap : List Proc) : NewComm :=
          ⟨contextId, s.newSize, findNewRank keytable rank, leader, rtwMap⟩
        match shared ⟨contextId, leader⟩ with
        | some stored => .ok (some (comm stored), shared)
        | none => do
          let rtwMap ← blockInsert parent.rtwMap keytable
          .ok (some (comm rtwMap), Function.update shared ⟨contextId, leader⟩ (some rtwMap))

def splitStep (path : Nat → Option Qsort) (pid : Proc → Nat) (parent : Parent)
    (table : List SplitType) (contextId : Nat) (st : (Nat → Shared) × List (Nat × Option NewComm))
    (rank : Nat) : Except Fault ((Nat → Shared) × List (Nat × Option NewComm)) := do
  let osproc := pid ((parent.rtwMap.get rank).getD 0)
  let (comm, shared) ← splitImpl (path rank) parent table contextId rank (st.1 osproc)
  .ok (Function.update st.1 osproc shared, st.2 ++ [(rank, comm)])

def splitAll (path : Nat → Option Qsort) (pid : Proc → Nat) (parent : Parent)
    (table : List SplitType) (contextId : Nat) (order : List Nat) (shared : Nat → Shared) :
    Except Fault ((Nat → Shared) × List (Nat × Option NewComm)) :=
  order.foldlM (splitStep path pid parent table contextId) (shared, [])

def colored (table : List SplitType) (color : Int) (n : Nat) : List Nat :=
  (List.range n).filter fun r => table[r]?.map SplitType.color = some color

def keyAt (table : List SplitType) (r : Nat) : Int := (table[r]?.map SplitType.key).getD 0

def worldrankOf (rtwMap : RankMap) (r : Nat) : Proc := (rtwMap.get r).getD 0

section Linking
variable {rtwMap : RankMap} {table : List SplitType} {color : Int} {n : Nat}

theorem mem_colored {r : Nat} :
    r ∈ colored table color n ↔ r < n ∧ table[r]?.map SplitType.color = some color := by
  simp [colored]

theorem colored_lt (table : List SplitType) (color : Int) (n : Nat) :
    (colored table color n).Pairwise (fun a b => a < b) :=
  List.pairwise_lt_range.filter _

theorem colored_succ : colored table color (n + 1) =
    if table[n]?.map SplitType.color = some color then colored table color n ++ [n]
    else colored table color n := by
  unfold colored
  rw [List.range_succ, List.filter_append]
  by_cases h : table[n]?.map SplitType.color = some color
  · rw [if_pos h, List.filter_singleton, decide_eq_true h]
    rfl
  · rw [if_neg h, List.filter_singleton, decide_eq_false h]
    exact List.append_nil _

/-- What the first `i` turns of the loop have left: the ranks of the color are linked in
order, and the rest of the table is as it was. -/
structure Links (rtwMap : RankMap) (table : List SplitType) (color : Int) (i : Nat) (s : Linked) :
    Prop where
  size : s.newSize = (colored table color i).length
  first : s.firstEntry = (colored table color i).headD 0
  last : s.last = (colored table color i).getLast?
  leader : s.leaderWid = ((colored table color i).map (worldrankOf rtwMap)).min?
  length : s.table.length = table.length
  keys : ∀ r : Nat, s.table[r]?.map SplitType.key = table[r]?.map SplitType.key
  later : ∀ r : Nat, i ≤ r → s.table[r]? = table[r]?
  chain : (colored table color i).IsChain
    (fun (a b : Nat) => a < b ∧ s.table[a]?.map SplitType.color = some (b : Int))

theorem min?_concat (ws : List Proc) (w : Proc) :
    (ws ++ [w]).min? = some (match ws.min? with
      | none => w
      | some leader => if leader > w then w else leader) := by
  rw [List.min?_eq_some_iff]
  cases hmin : ws.min? with
  | none =>
    rw [List.min?_eq_none_iff] at hmin
    simp [hmin]
  | some leader =>
    rw [List.min?_eq_some_iff] at hmin
    obtain ⟨hmem, hle⟩ := hmin
    dsimp only
    split
    · rename_i hlarger
      refine ⟨by simp, ?_⟩
      intro v hv
      rcases List.mem_append.mp hv with hv | hv
      · exact Nat.le_trans (Nat.le_of_lt hlarger) (hle v hv)
      · exact Nat.le_of_eq (List.mem_singleton.mp hv).symm
    · refine ⟨by simp [hmem], ?_⟩
      intro v hv
      rcases List.mem_append.mp hv with hv | hv
      · exact hle v hv
      · rw [List.mem_singleton.mp hv]
        exact Nat.not_lt.mp ‹_›

def relink (table : List SplitType) (l i : Nat) : List SplitType :=
  table.modify l fun e => { e with color := i }

theorem relink_other {l r : Nat} (h : l ≠ r) (i : Nat) : (relink table l i)[r]? = table[r]? := by
  rw [relink, List.getElem?_modify]
  cases table[r]? with
  | none => rfl
  | some e => exact congrArg some (if_neg h)

theorem relink_key (l r i : Nat) :
    (relink table l i)[r]?.map SplitType.key = table[r]?.map SplitType.key := by
  rw [relink, List.getElem?_modify]
  cases table[r]? with
  | none => rfl
  | some e =>
    by_cases h : l = r
    · simp [h]
    · simp [h]

theorem relink_self {l : Nat} (h : l < table.length) (i : Nat) :
    (relink table l i)[l]?.map SplitType.color = some (i : Int) := by
  rw [relink, List.getElem?_modify, List.getElem?_eq_getElem h]
  simp

theorem linkStep_links {i : Nat} {s : Linked} (h : Links rtwMap table color i s)
    (hi : i < table.length) (hget : (rtwMap.get i).isSome) :
    ∃ s', linkStep rtwMap color s i = .ok s' ∧ Links rtwMap table color (i + 1) s' := by
  obtain ⟨entry, hentry⟩ : ∃ entry, table[i]? = some entry := ⟨_, List.getElem?_eq_getElem hi⟩
  obtain ⟨worldrank, hworldrank⟩ := Option.isSome_iff_exists.mp hget
  have hsame : s.table[i]? = some entry := by rw [h.later i le_rfl, hentry]
  unfold linkStep
  rw [hsame]
  dsimp only
  by_cases hcolor : entry.color = color
  · have hsucc : colored table color (i + 1) = colored table color i ++ [i] := by
      rw [colored_succ, hentry, Option.map_some, hcolor, if_pos rfl]
    have hfind : rtwpMapFind rtwMap i = .ok worldrank := by rw [rtwpMapFind, hworldrank]
    have hown : worldrankOf rtwMap i = worldrank := by rw [worldrankOf, hworldrank]; rfl
    have hleader : ((colored table color (i + 1)).map (worldrankOf rtwMap)).min? =
        some (match s.leaderWid with
          | none => worldrank
          | some leader => if leader > worldrank then worldrank else leader) := by
      rw [hsucc, List.map_append, List.map_singleton, min?_concat, hown, ← h.leader]
    rw [if_pos hcolor, hfind]
    refine ⟨_, rfl, ?_⟩
    cases hlast : s.last with
    | none =>
      have hempty : colored table color i = [] := by
        rw [← List.getLast?_eq_none_iff, ← h.last, hlast]
      refine ⟨?_, ?_, ?_, ?_, h.length, h.keys, ?_, ?_⟩
      · rw [hsucc, List.length_append, ← h.size]
        rfl
      · rw [hsucc, hempty]
        rfl
      · rw [hsucc, List.getLast?_concat]
      · rw [hleader]
        cases s.leaderWid <;> rfl
      · intro r hr
        exact h.later r (by omega)
      · rw [hsucc, hempty]
        exact List.isChain_singleton i
    | some l =>
      have hl : l ∈ colored table color i := by
        apply List.mem_of_getLast?
        rw [← h.last, hlast]
      have hlt : l < i := (mem_colored.mp hl).1
      refine ⟨?_, ?_, ?_, ?_, ?_, ?_, ?_, ?_⟩
      · rw [hsucc, List.length_append, ← h.size]
        rfl
      · rw [hsucc]
        cases hms : colored table color i with
        | nil =>
          rw [hms] at hl
          cases hl
        | cons a ms =>
          have hfirst := h.first
          rw [hms] at hfirst
          exact hfirst
      · rw [hsucc, List.getLast?_concat]
      · rw [hleader]
        cases s.leaderWid <;> rfl
      · rw [List.length_modify]
        exact h.length
      · exact fun r => (relink_key l r i).trans (h.keys r)
      · exact fun r hr => (relink_other (by omega) i).trans (h.later r (by omega))
      · obtain ⟨front, hfront⟩ := List.getLast?_eq_some_iff.mp (h.last.symm.trans hlast)
        have hsorted := colored_lt table color i
        have hchain := h.chain
        rw [hfront] at hsorted hchain
        have hmax : ∀ b ∈ front ++ [l], b ≤ l := by
          intro b hb
          rcases List.mem_append.mp hb with hb | hb
          · exact Nat.le_of_lt ((List.pairwise_append.mp hsorted).2.2 b hb l (by simp))
          · exact Nat.le_of_eq (List.mem_singleton.mp hb)
        rw [hsucc, hfront, List.append_assoc, List.singleton_append, List.isChain_append_cons_cons]
        refine ⟨?_, ⟨hlt, ?_⟩, List.isChain_singleton i⟩
        · -- the links before the last one stay
          apply hchain.imp_of_mem_imp
          intro a b _ hb hab
          refine ⟨hab.1, ?_⟩
          have hal : l ≠ a := by
            have := hmax b hb
            omega
          exact (congrArg _ (relink_other hal i)).trans hab.2
        · exact relink_self (by rw [h.length]; omega) i
  · have hsucc : colored table color (i + 1) = colored table color i := by
      rw [colored_succ, hentry, Option.map_some, if_neg (by simpa using hcolor)]
    rw [if_neg hcolor]
    refine ⟨s, rfl, ?_⟩
    obtain ⟨hsize, hfirst, hlast, hleader, hlength, hkeys, hlater, hchain⟩ := h
    rw [← hsucc] at hsize hfirst hlast hleader hchain
    exact ⟨hsize, hfirst, hlast, hleader, hlength, hkeys, fun r hr => hlater r (by omega), hchain⟩

theorem linkColors_links (color : Int) (hcovers : ∀ r < table.length, (rtwMap.get r).isSome) :
    ∃ s, linkColors rtwMap color table = .ok s ∧ Links rtwMap table color table.length s := by
  have hprefix : ∀ n ≤ table.length, ∃ s,
      (List.range n).foldlM (linkStep rtwMap color) ⟨table, 0, 0, none, none⟩ = .ok s ∧
        Links rtwMap table color n s := by
    intro n hn
    induction n with
    | zero =>
      exact ⟨_, rfl, rfl, rfl, rfl, rfl, rfl, fun _ => rfl, fun _ _ => rfl, List.isChain_nil⟩
    | succ n ih =>
      obtain ⟨s, hs, hlinks⟩ := ih (by omega)
      obtain ⟨s', hs', hlinks'⟩ := linkStep_links hlinks (by omega) (hcovers n (by omega))
      refine ⟨s', ?_, hlinks'⟩
      rw [List.range_succ, List.foldlM_append, hs]
      change (linkStep rtwMap color s n >>= fun s => pure s) = _
      rw [hs']
      rfl
  exact hprefix table.length le_rfl

def keyEntry (table : List SplitType) (r : Nat) : SortType := ⟨r, keyAt table r, 0⟩

theorem extractKeys_eq {links : List SplitType} {ms : List Nat} (hchain : ms.IsChain
      (fun (a b : Nat) => a < b ∧ links[a]?.map SplitType.color = some (b : Int)))
    (hkeys : ∀ r : Nat, links[r]?.map SplitType.key = table[r]?.map SplitType.key)
    (hlt : ∀ r ∈ ms, r < links.length) :
    extractKeys links ms.length (ms.headD 0 : Nat) = .ok (ms.map (keyEntry table)) := by
  induction ms with
  | nil => rfl
  | cons a ms ih =>
    obtain ⟨e, hget⟩ : ∃ e, links[a]? = some e := ⟨_, List.getElem?_eq_getElem (hlt a List.mem_cons_self)⟩
    have hkey : e.key = keyAt table a := by
      rw [keyAt, ← hkeys a, hget]
      rfl
    have hrest := ih hchain.tail fun r hr => hlt r (List.mem_cons_of_mem a hr)
    rw [List.length_cons, extractKeys]
    simp only [List.headD_cons, Int.toNat_natCast, hget]
    have hnext : extractKeys links ms.length e.color = .ok (ms.map (keyEntry table)) := by
      cases ms with
      | nil => rfl
      | cons b ms =>
        obtain ⟨⟨_, hcolor⟩, _⟩ := List.isChain_cons_cons.mp hchain
        rw [hget] at hcolor
        rw [Option.some.inj hcolor]
        exact hrest
    rw [hnext, hkey]
    rfl

end Linking

section Ranks
variable {parent : Parent} {table : List SplitType} {color : Int} {qsort : Option Qsort}

def newOrder (table : List SplitType) (color : Int) : List Nat :=
  (insertionPath ((colored table color table.length).map (keyEntry table))).map SortType.color

theorem keytable_sorted (table : List SplitType) (color : Int) :
    (insertionPath ((colored table color table.length).map (keyEntry table))).Perm
        ((colored table color table.length).map (keyEntry table)) ∧
      (insertionPath ((colored table color table.length).map (keyEntry table))).Pairwise
        (Before SortType.color) := by
  apply insertionPath_sorted
  exact List.pairwise_map.mpr (colored_lt table color table.length)

theorem sortInttable_colors (table : List SplitType) (color : Int) (qsort : Option Qsort) :
    (sortInttable qsort ((colored table color table.length).map (keyEntry table))).map
      SortType.color = newOrder table color := by
  have hclear : ∀ keytable : List SortType,
      keytable.map SortType.color = (keytable.map SortType.clear).map SortType.color := by
    intro keytable
    rw [List.map_map]
    rfl
  rw [hclear, sortInttable_agree qsort none, ← hclear]
  rfl

theorem newOrder_perm : (newOrder table color).Perm (colored table color table.length) := by
  have hperm := (keytable_sorted table color).1.map SortType.color
  rw [List.map_map] at hperm
  have hid : (SortType.color ∘ keyEntry table) = id := rfl
  rw [hid, List.map_id] at hperm
  exact hperm

theorem mem_newOrder {r : Nat} : r ∈ newOrder table color ↔ table[r]?.map SplitType.color = some color := by
  rw [newOrder_perm.mem_iff, mem_colored]
  constructor
  · exact fun h => h.2
  · intro h
    refine ⟨?_, h⟩
    obtain ⟨e, he, _⟩ := Option.map_eq_some_iff.mp h
    exact (List.getElem?_eq_some_iff.mp he).1

theorem newOrder_nodup : (newOrder table color).Nodup :=
  newOrder_perm.nodup_iff.mpr ((colored_lt table color table.length).imp fun h => Nat.ne_of_lt h)

theorem newOrder_sorted : (newOrder table color).Pairwise
    (fun r r' => keyAt table r < keyAt table r' ∨ keyAt table r = keyAt table r' ∧ r < r') := by
  obtain ⟨hperm, hsorted⟩ := keytable_sorted table color
  apply List.pairwise_map.mpr
  apply hsorted.imp_of_mem
  intro s s' hs hs' hbefore
  have hentry : ∀ s ∈ insertionPath ((colored table color table.length).map (keyEntry table)),
      s.key = keyAt table s.color := by
    intro s hs
    obtain ⟨r, _, rfl⟩ := List.mem_map.mp (hperm.mem_iff.mp hs)
    rfl
  rw [← hentry s hs, ← hentry s' hs']
  exact hbefore

variable {rank : Nat}

theorem findNewRank_eq {keytable : List SortType} {i : Nat} (hnodup : (keytable.map SortType.color).Nodup)
    (hi : (keytable.map SortType.color)[i]? = some rank) : findNewRank keytable rank = some i := by
  have hlt : i < keytable.length := by
    have := (List.getElem?_eq_some_iff.mp hi).1
    rwa [List.length_map] at this
  have hprefix : ∀ n, (List.range n).foldl (fun newRank j =>
      if keytable[j]?.map SortType.color = some rank then some j else newRank) none =
        if i < n then some i else none := by
    intro n
    induction n with
    | zero => rfl
    | succ n ih =>
      rw [List.range_succ, List.foldl_append, ih, List.foldl_cons, List.foldl_nil]
      rw [← List.getElem?_map]
      by_cases hn : n = i
      · rw [hn, if_pos hi, if_pos (Nat.lt_succ_self i)]
      · have hother : (keytable.map SortType.color)[n]? ≠ some rank := by
          intro hsame
          have hbound := (List.getElem?_eq_some_iff.mp hsame).1
          exact hn ((List.getElem?_inj hbound hnodup).mp (hsame.trans hi.symm))
        rw [if_neg hother]
        by_cases hin : i < n
        · rw [if_pos hin, if_pos (by omega)]
        · rw [if_neg hin, if_neg (by omega)]
  rw [findNewRank, hprefix keytable.length, if_pos hlt]

theorem blockInsert_eq {rtwMap : RankMap} {keytable : List SortType}
    (hcovers : ∀ s ∈ keytable, (rtwMap.get s.color).isSome) :
    blockInsert rtwMap keytable =
      .ok ((keytable.map SortType.color).map (worldrankOf rtwMap)) := by
  induction keytable with
  | nil => rfl
  | cons s keytable ih =>
    obtain ⟨worldrank, hworldrank⟩ := Option.isSome_iff_exists.mp (hcovers s List.mem_cons_self)
    have hfind : rtwpMapFind rtwMap s.color = .ok worldrank := by rw [rtwpMapFind, hworldrank]
    have hrest := ih fun s' hs' => hcovers s' (List.mem_cons_of_mem s hs')
    rw [blockInsert, hfind, hrest, List.map_cons, List.map_cons, worldrankOf, hworldrank]
    rfl

def newMap (parent : Parent) (table : List SplitType) (color : Int) : List Proc :=
  (newOrder table color).map (worldrankOf parent.rtwMap)

def leaderOf (parent : Parent) (table : List SplitType) (color : Int) : Proc :=
  ((colored table color table.length).map (worldrankOf parent.rtwMap)).min?.getD 0

def newComm (parent : Parent) (table : List SplitType) (contextId : Nat) (color : Int) (rank : Nat)
    (stored : Option (List Proc)) : NewComm where
  contextId := contextId
  localSize := (newOrder table color).length
  rank := some ((newOrder table color).idxOf rank)
  leaderWorldrank := leaderOf parent table color
  rtwMap := stored.getD (newMap parent table color)

theorem leaderOf_least (parent : Parent) (hrank : table[rank]?.map SplitType.color = some color) :
    ((colored table color table.length).map (worldrankOf parent.rtwMap)).min? =
      some (leaderOf parent table color) := by
  have hmem : rank ∈ colored table color table.length := newOrder_perm.mem_iff.mp (mem_newOrder.mpr hrank)
  unfold leaderOf
  cases hmin : ((colored table color table.length).map (worldrankOf parent.rtwMap)).min? with
  | none =>
    rw [List.min?_eq_none_iff, List.map_eq_nil_iff] at hmin
    rw [hmin] at hmem
    cases hmem
  | some l => rfl

theorem leaderOf_mem (parent : Parent) (hrank : table[rank]?.map SplitType.color = some color) :
    leaderOf parent table color ∈ newMap parent table color ∧
      ∀ w ∈ newMap parent table color, leaderOf parent table color ≤ w := by
  have hmin := List.min?_eq_some_iff.mp (leaderOf_least parent hrank)
  have hperm : (newMap parent table color).Perm
      ((colored table color table.length).map (worldrankOf parent.rtwMap)) := newOrder_perm.map _
  exact ⟨hperm.mem_iff.mpr hmin.1, fun w hw => hmin.2 w (hperm.mem_iff.mp hw)⟩

theorem splitImpl_undefined {own : SplitType} {contextId : Nat} {shared : Shared}
    (hown : table[rank]? = some own) (hcolor : own.color = undefined) :
    splitImpl qsort parent table contextId rank shared = .ok (none, shared) := by
  rw [splitImpl, hown]
  exact if_pos hcolor

theorem splitImpl_eq {own : SplitType} {contextId : Nat} {shared : Shared}
    (hsize : table.length = parent.size) (hown : table[rank]? = some own)
    (hcolor : own.color ≠ undefined) :
    splitImpl qsort parent table contextId rank shared =
      .ok (some (newComm parent table contextId own.color rank
          (shared ⟨contextId, leaderOf parent table own.color⟩)),
        Function.update shared ⟨contextId, leaderOf parent table own.color⟩
          (some ((shared ⟨contextId, leaderOf parent table own.color⟩).getD
            (newMap parent table own.color)))) := by
  have hcovers : ∀ r < table.length, (parent.rtwMap.get r).isSome := hsize ▸ parent.covers
  have hrank : table[rank]?.map SplitType.color = some own.color := by rw [hown]; rfl
  obtain ⟨s, hs, hlinks⟩ := linkColors_links own.color hcovers
  have hleader : s.leaderWid = some (leaderOf parent table own.color) :=
    hlinks.leader.trans (leaderOf_least parent hrank)
  have hextract : extractKeys s.table s.newSize s.firstEntry =
      .ok ((colored table own.color table.length).map (keyEntry table)) := by
    rw [hlinks.size, hlinks.first]
    apply extractKeys_eq hlinks.chain hlinks.keys
    intro r hr
    rw [hlinks.length]
    exact (mem_colored.mp hr).1
  have hcolors := sortInttable_colors table own.color qsort
  have hnewRank : findNewRank (sortInttable qsort
      ((colored table own.color table.length).map (keyEntry table))) rank =
        some ((newOrder table own.color).idxOf rank) := by
    apply findNewRank_eq
    · rw [hcolors]
      exact newOrder_nodup
    · have hlt := List.idxOf_lt_length_iff.mpr (mem_newOrder.mpr hrank)
      rw [hcolors, List.getElem?_eq_getElem hlt, List.getElem_idxOf]
  have hlength : s.newSize = (newOrder table own.color).length :=
    hlinks.size.trans newOrder_perm.length_eq.symm
  have hblock : blockInsert parent.rtwMap (sortInttable qsort
      ((colored table own.color table.length).map (keyEntry table))) =
        .ok (newMap parent table own.color) := by
    rw [blockInsert_eq, hcolors]
    · rfl
    · intro e he
      have hmem : e.color ∈ newOrder table own.color := hcolors ▸ List.mem_map_of_mem he
      obtain ⟨e', he', _⟩ := Option.map_eq_some_iff.mp (mem_newOrder.mp hmem)
      exact hcovers e.color (List.getElem?_eq_some_iff.mp he').1
  rw [splitImpl, hown]
  dsimp only
  rw [if_neg hcolor, hs]
  simp only [bind, Except.bind, hleader, hextract]
  simp only [hnewRank, hlength]
  cases hstored : shared ⟨contextId, leaderOf parent table own.color⟩ with
  | some stored =>
    have hsame : Function.update shared ⟨contextId, leaderOf parent table own.color⟩
        (some stored) = shared := by
      rw [← hstored]
      exact Function.update_eq_self _ _
    simp only [Option.getD_some, hsame]
    rfl
  | none =>
    simp only [hblock]
    rfl

theorem leaderOf_inj {color' : Int} {r r' : Nat} (hsize : table.length = parent.size)
    (hr : table[r]?.map SplitType.color = some color)
    (hr' : table[r']?.map SplitType.color = some color')
    (heq : leaderOf parent table color = leaderOf parent table color') : color = color' := by
  obtain ⟨a, ha, hla⟩ := List.mem_map.mp (leaderOf_mem parent hr).1
  obtain ⟨b, hb, hlb⟩ := List.mem_map.mp (leaderOf_mem parent hr').1
  have hcolor := mem_newOrder.mp ha
  have hcolor' := mem_newOrder.mp hb
  have hlt : ∀ r c, table[r]?.map SplitType.color = some c → r < parent.size := by
    intro r c h
    obtain ⟨e, he, _⟩ := Option.map_eq_some_iff.mp h
    rw [← hsize]
    exact (List.getElem?_eq_some_iff.mp he).1
  obtain ⟨wa, hwa⟩ := Option.isSome_iff_exists.mp (parent.covers a (hlt a color hcolor))
  obtain ⟨wb, hwb⟩ := Option.isSome_iff_exists.mp (parent.covers b (hlt b color' hcolor'))
  have hsame : wa = wb := by
    rw [worldrankOf, hwa] at hla
    rw [worldrankOf, hwb] at hlb
    exact hla.trans (heq.trans hlb.symm)
  have hab : a = b :=
    parent.injective a (hlt a color hcolor) b (hlt b color' hcolor') (by rw [hwa, hwb, hsame])
  rw [hab, hcolor'] at hcolor
  exact (Option.some.inj hcolor).symm

end Ranks

end FgMpi.Comm.Split
