import FgMpi.Group.Ranges
import FgMpi.Group.Translation
import FgMpi.Machine.Runs

/-! `MPIR_Comm_group_impl`, `MPI_Group_incl` and `MPI_Group_excl`, and runs of all constructors. -/

namespace FgMpi.Group.Constructors
open Machine.Runs
open Group.LpidOrder Group.Groups Group.SetOperations Group.Ranges Group.Translation

/-- What `MPID_Comm_get_lpid` gives for the ranks of a communicator; ids are below `lpid_counter`. -/
structure CommLpids (lpidCounter : Nat) where
  lpids : List Int
  distinct : lpids.Nodup
  inside : ∀ p ∈ lpids, 0 ≤ p ∧ p < lpidCounter

/-- The local ranks, the calling process among them. -/
structure LocalComm (me : Int) (lpidCounter : Nat) extends CommLpids lpidCounter where
  rank : Nat
  own : lpids[rank]? = some me

structure RemoteComm (me : Int) (lpidCounter : Nat) extends CommLpids lpidCounter where
  other : me ∉ lpids

section Functions
variable {me : Int} {lpidCounter : Nat} (memory : MpidGroup) (s : GroupMem)

def putLpids (lpids : List Int) (after : Filling → Filling) (f : Filling) : Option Filling :=
  lpids.foldlM (fun f lpid => (putMember lpid false f).map after) f

/-- `MPIR_Comm_group_impl`. -/
def commGroup (commWorldSize : Int) (comm : LocalComm me lpidCounter) : Option (GroupMem × Nat) :=
  let g := { groupCreate s.build memory comm.lpids.length with isLocalDenseMonotonic := true }
  match s.build with
  | .plain => do
    let f ← putLpids comm.lpids (checkDense commWorldSize) ⟨g, 0⟩
    some (s.add { f.group with rank := comm.rank })
  | .fineGrain => some (s.add { g with lpid := fun i => comm.lpids.getD i 0, rank := comm.rank })

/-- `MPIR_Comm_remote_group_impl`. -/
def remoteGroup (comm : RemoteComm me lpidCounter) : Option (GroupMem × Nat) := do
  let f ← putLpids comm.lpids id ⟨groupCreate s.build memory comm.lpids.length, 0⟩
  some (s.add { f.group with rank := mpiUndefined })

inductive RankError
  | rankarray (i : Nat) (rank last : Int)
  | rankdup (i : Nat) (rank before : Int)
deriving Repr, DecidableEq

/-- `for (i=0; i<n; i++)` over the ranks. -/
def checkRanksFrom (b : Build) (size : Nat) : Nat → List Int → (Nat → Int) → Option ((Nat → Int) × Option RankError)
  | _, [], flag => some (flag, none)
  | i, rank :: ranks, flag =>
    if rank < 0 ∨ size ≤ rank then some (flag, some (.rankarray i rank (size - 1)))
    else
      match b with
      | .plain => do
        let k ← element 0 size rank
        if flag k ≠ 0 then some (flag, some (.rankdup i rank (flag k - 1)))
        else checkRanksFrom b size (i + 1) ranks (Function.update flag k (i + 1))
      | .fineGrain => checkRanksFrom b size (i + 1) ranks flag

def checkValidRanks (h : Nat) (ranks : List Int) : Option (GroupMem × Option RankError) := do
  let g := s.group h
  let cleared := match s.build with
    | .plain => clearFlags g
    | .fineGrain => g.flag
  let (flag, errno) ← checkRanksFrom s.build g.size 0 ranks cleared
  some (s.set h { g with flag := flag }, errno)

/-- `rtw_blockinsert[i] = worldrank`, with the rank of the calling process. -/
def mapRank (g : MpidGroup) (f : Filling) (j : Int) : Filling where
  group := { f.group with
    lpid := Function.update f.group.lpid f.k (g.lpid j.toNat)
    rank := if j = g.rank then f.k else f.group.rank }
  k := f.k + 1

/-- `MPIR_Group_incl_impl`. -/
def groupIncl (h : Nat) (ranks : List Int) : Option (GroupMem × Nat) :=
  newGroup memory s ranks.length mpiUndefined fun f =>
    match s.build with
    | .plain => (foldBody (takeRank (s.group h)) ranks f).map Prod.fst
    | .fineGrain => some (ranks.foldl (mapRank (s.group h)) f)

/-- `MPIR_Group_excl_impl`, and what `MPI_Group_excl` does when all members are excluded. -/
def groupExcl (h : Nat) (ranks : List Int) : Option (GroupMem × Nat) :=
  let g := s.group h
  if g.size = ranks.length then some (s, 0)
  else if g.readable = true then do
    let (flag, _) ← foldBody (excludeRank g.size) ranks (clearFlags g)
    newGroup memory (s.set h { g with flag := flag }) (g.size - ranks.length) mpiUndefined
      (fillFrom g (fun i => flag i = 0) id)
  else none

end Functions

structure Program where
  mem : GroupMem
  handles : List Nat

inductive Op (me : Int) (lpidCounter : Nat)
  | commGroup (comm : LocalComm me lpidCounter)
  | remoteGroup (comm : RemoteComm me lpidCounter)
  | incl (h : Nat) (ranks : List Int)
  | excl (h : Nat) (ranks : List Int)
  | rangeIncl (h : Nat) (ranges : List Range)
  | rangeExcl (h : Nat) (ranges : List Range)
  | union (h1 h2 : Nat)
  | intersection (h1 h2 : Nat)
  | difference (h1 h2 : Nat)
  | compare (h1 h2 : Nat)
  | translateRanks (h1 : Nat) (ranks1 : List Int) (h2 : Nat)

section Steps
variable (me : Int) (lpidCounter : Nat) (commWorldSize : Int) (memory : MpidGroup) (s : GroupMem)

def Op.handles : Op me lpidCounter → List Nat
  | .commGroup _ | .remoteGroup _ => []
  | .incl h _ | .excl h _ | .rangeIncl h _ | .rangeExcl h _ => [h]
  | .union h1 h2 | .intersection h1 h2 | .difference h1 h2 | .compare h1 h2 | .translateRanks h1 _ h2 => [h1, h2]

def made (r : Option (GroupMem × Nat)) : Option (GroupMem × Option Nat) := r.map fun (s, h) => (s, some h)

def answered {α : Type} (r : Option (GroupMem × α)) : Option (GroupMem × Option Nat) := r.map fun (s, _) => (s, none)

def checked {ε : Type} (check : Option (GroupMem × Option ε)) (body : GroupMem → Option (GroupMem × Nat)) :
    Option (GroupMem × Option Nat) := do
  match ← check with
  | (s, some _) => some (s, none)
  | (s, none) => made (body s)

instance (g : MpidGroup) (ranks1 : List Int) : Decidable (RanksOf g ranks1) :=
  inferInstanceAs (Decidable (∀ rank ∈ ranks1, _))

def perform : Op me lpidCounter → Option (GroupMem × Option Nat)
  | .commGroup comm => made (commGroup memory s commWorldSize comm)
  | .remoteGroup comm => made (remoteGroup memory s comm)
  | .incl h ranks => checked (checkValidRanks s h ranks) fun s => groupIncl memory s h ranks
  | .excl h ranks => checked (checkValidRanks s h ranks) fun s => groupExcl memory s h ranks
  | .rangeIncl h ranges => checked (checkValidRanges s h ranges) fun s => groupRangeIncl memory s h ranges
  | .rangeExcl h ranges => checked (checkValidRanges s h ranges) fun s => groupRangeExcl memory s h ranges
  | .union h1 h2 => made (groupUnion memory s h1 h2)
  | .intersection h1 h2 => made (groupIntersection memory s h1 h2 commWorldSize)
  | .difference h1 h2 => made (groupDifference memory s h1 h2)
  | .compare h1 h2 => answered (groupCompare s h1 h2)
  | .translateRanks h1 ranks1 h2 =>
    if RanksOf (s.group h1) ranks1 then answered (Translation.translateRanks s h1 ranks1 h2) else some (s, none)

inductive Fault
  | outside

def step (p : Program) (o : MpidGroup × Op me lpidCounter) : Except Fault Program :=
  if ∀ h ∈ o.2.handles, h ∈ p.handles then
    match perform me lpidCounter commWorldSize o.1 p.mem o.2 with
    | some (s, h) => .ok ⟨s, h.toList ++ p.handles⟩
    | none => .error .outside
  else .ok p

/-- `MPIR_Group_init`. -/
def emptyGroup : MpidGroup where
  size := 0
  rank := mpiUndefined
  idxOfFirstLpid := -1
  lrankToLpid := false
  lpid := fun _ => 0
  nextLpid := fun _ => 0
  flag := fun _ => 0
  isLocalDenseMonotonic := false

def start (b : Build) : Program := ⟨⟨b, 1, fun _ => emptyGroup⟩, [0]⟩

end Steps

section Making
variable {me : Int} {lpidCounter : Nat} {memory : MpidGroup} {s : GroupMem} {h : Nat} {ranks : List Int}

structure Room (n : Nat) (f : Filling) : Prop where
  size : f.group.size = n
  idx : f.group.idxOfFirstLpid = -1
  array : f.group.lrankToLpid = true

theorem putLpids_eq (after : Filling → Filling) (Q : List Int → Bool → Prop) (lpids list : List Int) {n : Nat}
    {f : Filling} (hafter : ∀ f list p, Filled (list ++ [p]) f → Room n f → Q list f.group.isLocalDenseMonotonic →
      Filled (list ++ [p]) (after f) ∧ Room n (after f) ∧ Q (list ++ [p]) (after f).group.isLocalDenseMonotonic)
    (hfilled : Filled list f) (hf : Room n f) (hQ : Q list f.group.isLocalDenseMonotonic)
    (hroom : list.length + lpids.length ≤ n) :
    ∃ f', putLpids lpids after f = some f' ∧ Filled (list ++ lpids) f' ∧ Room n f' ∧
      Q (list ++ lpids) f'.group.isLocalDenseMonotonic := by
  induction lpids generalizing list f with
  | nil =>
    rw [List.append_nil]
    exact ⟨f, rfl, hfilled, hf, hQ⟩
  | cons p lpids ih =>
    rw [List.length_cons] at hroom
    have hk := hfilled.length
    have hsize := hf.size
    obtain ⟨f', hput, hfilled', hsize', -, hidx, hdense, harray⟩ := putMember_eq p false hfilled hf.array (by omega)
    obtain ⟨hfilled'', hf', hQ'⟩ :=
      hafter f' list p hfilled' ⟨hsize'.trans hsize, hidx.trans hf.idx, harray⟩ (hdense ▸ hQ)
    have hassoc : list ++ p :: lpids = list ++ [p] ++ lpids := by simp
    rw [hassoc]
    obtain ⟨f'', hrun, hfilled3, hf'', hQ''⟩ := ih (list ++ [p]) hfilled'' hf' hQ' (by
      rw [List.length_append, List.length_singleton]
      omega)
    refine ⟨f'', ?_, hfilled3, hf'', hQ''⟩
    unfold putLpids at hrun ⊢
    rw [List.foldlM_cons, hput]
    exact hrun

theorem add_eq {list : List Int} {f : Filling} {rank : Int} (hfilled : Filled list f) (hf : Room list.length f)
    (hnodup : list.Nodup) (hnonneg : ∀ p ∈ list, 0 ≤ p) (hrank : rank = rankIn list me)
    (hdense : Consecutive list f.group.isLocalDenseMonotonic) :
    Result me s (s.add { f.group with rank := rank }).1 (s.add { f.group with rank := rank }).2 list := by
  have hmembers : ({ f.group with rank := rank } : MpidGroup).members = list := by
    show (List.range f.group.size).map f.group.lpid = list
    rw [hf.size, ← hfilled.length]
    exact hfilled
  have hget : (s.add { f.group with rank := rank }).1.group s.count = { f.group with rank := rank } :=
    Function.update_self ..
  have hvalid : Valid me ({ f.group with rank := rank } : MpidGroup) := by
    refine ⟨?_, ?_, ?_, .inl hf.idx, ?_, ?_⟩
    · rw [hmembers]
      exact hnodup
    · rw [hmembers]
      exact hnonneg
    · rw [hmembers]
      exact hrank
    · intro htrue i hi
      have hi' : i < list.length := hf.size ▸ hi
      have hconsecutive := hdense htrue i hi'
      show f.group.lpid i = f.group.lpid 0 + i
      rw [hfilled.get hi', hfilled.get (Nat.lt_of_le_of_lt (Nat.zero_le i) hi')]
      exact hconsecutive
    · show (f.group.lrankToLpid || _) = true
      rw [hf.array]
      rfl
  apply Result.of_valid (grown_add _) (Nat.lt_succ_self _)
  · show Valid me ((s.add { f.group with rank := rank }).1.group s.count)
    rw [hget]
    exact hvalid
  · show ((s.add { f.group with rank := rank }).1.group s.count).members = list
    rw [hget]
    exact hmembers

section
variable (hplain : s.build = .plain)
include hplain

theorem commGroup_eq (commWorldSize : Int) (comm : LocalComm me lpidCounter) :
    ∃ s' k, commGroup memory s commWorldSize comm = some (s', k) ∧ Result me s s' k comm.lpids := by
  have hrank : (comm.rank : Int) = rankIn comm.lpids me := by
    obtain ⟨hlt, hget⟩ := List.getElem?_eq_some_iff.mp comm.own
    have hidx := comm.distinct.idxOf_getElem comm.rank hlt
    rw [hget] at hidx
    unfold rankIn
    rw [if_pos (List.mem_of_getElem hget), hidx]
  have hafter : ∀ f list p, Filled (list ++ [p]) f → Room comm.lpids.length f →
      Consecutive list f.group.isLocalDenseMonotonic →
      Filled (list ++ [p]) (checkDense commWorldSize f) ∧ Room comm.lpids.length (checkDense commWorldSize f) ∧
      Consecutive (list ++ [p]) (checkDense commWorldSize f).group.isLocalDenseMonotonic := by
    intro f list p hfilled hf hdense
    obtain ⟨-, -, hsize, -, hidx, harray⟩ := checkDense_same commWorldSize f
    exact ⟨checkDense_filled hfilled, ⟨hsize.trans hf.size, hidx.trans hf.idx, harray.trans hf.array⟩,
      checkDense_consecutive hfilled hdense⟩
  obtain ⟨f, hrun, hfilled, hf, hdense⟩ := putLpids_eq (checkDense commWorldSize) Consecutive comm.lpids []
    (f := ⟨{ groupCreate .plain memory comm.lpids.length with isLocalDenseMonotonic := true }, 0⟩) hafter rfl
    ⟨rfl, rfl, rfl⟩ (fun _ i hi => absurd hi (Nat.not_lt_zero i)) (Nat.le_of_eq (Nat.zero_add _))
  unfold commGroup
  simp only [hplain]
  rw [hrun]
  exact ⟨_, _, rfl, add_eq hfilled hf comm.distinct (fun p hp => (comm.inside p hp).1) hrank hdense⟩

theorem remoteGroup_eq (comm : RemoteComm me lpidCounter) :
    ∃ s' k, remoteGroup memory s comm = some (s', k) ∧ Result me s s' k comm.lpids := by
  obtain ⟨f, hrun, hfilled, hf, hdense⟩ := putLpids_eq id (fun _ dense => dense = false) comm.lpids []
    (n := comm.lpids.length) (f := ⟨groupCreate .plain memory comm.lpids.length, 0⟩)
    (fun _ _ _ hfilled hf hdense => ⟨hfilled, hf, hdense⟩) rfl ⟨rfl, rfl, rfl⟩ rfl (Nat.le_of_eq (Nat.zero_add _))
  unfold remoteGroup
  rw [hplain, hrun]
  refine ⟨_, _, rfl, add_eq hfilled hf comm.distinct (fun p hp => (comm.inside p hp).1)
    (if_neg comm.other).symm ?_⟩
  rw [hdense]
  exact fun htrue => nomatch htrue

end

theorem checkRanksFrom_eq (ranks : List Int) {size i : Nat} {seen : List Int} {flag : Nat → Int} (hseen : Marked size seen flag)
    (hnodup : seen.Nodup) :
    ∃ flag' errno, checkRanksFrom .plain size i ranks flag = some (flag', errno) ∧
      (errno = none → (∀ j ∈ ranks, 0 ≤ j ∧ j < size) ∧ (seen ++ ranks).Nodup) := by
  induction ranks generalizing i seen flag with
  | nil =>
    refine ⟨flag, none, rfl, fun _ => ⟨fun j hj => absurd hj List.not_mem_nil, ?_⟩⟩
    rw [List.append_nil]
    exact hnodup
  | cons j ranks ih =>
    unfold checkRanksFrom
    by_cases hout : j < 0 ∨ size ≤ j
    · rw [if_pos hout]
      exact ⟨flag, _, rfl, fun h => nomatch h⟩
    · have hj : 0 ≤ j ∧ j < size := by omega
      rw [if_neg hout, Ranges.element_of_rank hj]
      simp only [Option.bind_eq_bind, Option.bind_some]
      by_cases hset : flag j.toNat ≠ 0
      · rw [if_pos hset]
        exact ⟨flag, _, rfl, fun h => nomatch h⟩
      · rw [if_neg hset]
        have hnew : j ∉ seen := by
          intro hmem
          apply hset
          rw [hseen j.toNat (by omega), Int.toNat_of_nonneg hj.1]
          exact hmem
        have hnodup' : (seen ++ [j]).Nodup := by
          rw [List.nodup_append]
          refine ⟨hnodup, List.nodup_singleton j, ?_⟩
          intro x hx y hy
          rw [List.mem_singleton.mp hy]
          exact ne_of_mem_of_not_mem hx hnew
        have hvalue : ((i : Int) + 1) ≠ 0 := by omega
        obtain ⟨flag', errno, hrun, hok⟩ := ih (i := i + 1) (hseen.update hj hvalue) hnodup'
        refine ⟨flag', errno, hrun, ?_⟩
        intro hnone
        obtain ⟨hinside, hall⟩ := hok hnone
        rw [List.append_assoc] at hall
        exact ⟨List.forall_mem_cons.mpr ⟨hj, hinside⟩, hall⟩

theorem checkValidRanks_eq (me : Int) (hplain : s.build = .plain) (h : Nat) (ranks : List Int) :
    ∃ s' errno, checkValidRanks s h ranks = some (s', errno) ∧ Grown me s s' ∧
      (errno = none → (∀ j ∈ ranks, 0 ≤ j ∧ j < (s.group h).size) ∧ ranks.Nodup) := by
  obtain ⟨flag, errno, hrun, hok⟩ :=
    checkRanksFrom_eq ranks (i := 0) (marked_clear (s.group h)) List.nodup_nil
  refine ⟨_, errno, ?_, grown_setFlag h flag, hok⟩
  unfold checkValidRanks
  simp only [hplain]
  rw [hrun]
  rfl

def membersAt (g : MpidGroup) (ranks : List Int) : List Int := ranks.map fun j => g.lpid j.toNat

theorem membersAt_subset {g : MpidGroup} (hinside : ∀ j ∈ ranks, 0 ≤ j ∧ j < g.size) :
    ∀ p ∈ membersAt g ranks, p ∈ g.members := by
  intro p hp
  obtain ⟨j, hj, rfl⟩ := List.mem_map.mp hp
  have hj' := hinside j hj
  exact mem_members.mpr ⟨j.toNat, by omega, rfl⟩

theorem nodup_membersAt {g : MpidGroup} (hg : Valid me g) (hinside : ∀ j ∈ ranks, 0 ≤ j ∧ j < g.size)
    (hnodup : ranks.Nodup) : (membersAt g ranks).Nodup := by
  apply List.Nodup.map_on _ hnodup
  intro x hx y hy heq
  have hx' := hinside x hx
  have hy' := hinside y hy
  have hinj := hg.injective (by omega) (by omega) heq
  omega

section
variable (hempty : HasEmpty me s) (hplain : s.build = .plain)
include hempty hplain

theorem groupIncl_eq (hg : Valid me (s.group h))
    (hinside : ∀ j ∈ ranks, 0 ≤ j ∧ j < (s.group h).size) (hnodup : ranks.Nodup) :
    ∃ s' k, groupIncl memory s h ranks = some (s', k) ∧ Result me s s' k (membersAt (s.group h) ranks) := by
  have hlength : (membersAt (s.group h) ranks).length = ranks.length := List.length_map _
  have hdistinct := nodup_membersAt hg hinside hnodup
  unfold groupIncl
  apply newGroup_eq hempty (fun _ => hplain)
  · rw [hlength]
  · exact hdistinct
  · exact fun p hp => hg.nonneg p (membersAt_subset hinside p hp)
  · intro _
    have hstart : Filling.Has me (membersAt (s.group h) ranks).length []
        ⟨{ groupCreate .plain memory (membersAt (s.group h) ranks).length with rank := mpiUndefined }, 0⟩ :=
      ⟨rfl, rfl, rfl, rfl, rfl⟩
    obtain ⟨f, hrun, hhas, hdense⟩ := foldBody_take hg hinside hstart
      (by rw [hlength]; exact Nat.le_of_eq (Nat.zero_add _)) hdistinct
    refine ⟨f, ?_, hhas, ?_⟩
    · simp only [hplain]
      rw [hrun]
      rfl
    · rw [hdense]
      exact fun htrue => nomatch htrue

theorem groupExcl_eq (hg : Valid me (s.group h))
    (hinside : ∀ j ∈ ranks, 0 ≤ j ∧ j < (s.group h).size) (hnodup : ranks.Nodup) :
    ∃ s' k, groupExcl memory s h ranks = some (s', k) ∧ Result me s s' k (unseen (s.group h) ranks) := by
  have hlength := length_unseen hinside hnodup
  unfold groupExcl
  by_cases hall : (s.group h).size = ranks.length
  · have hnil : unseen (s.group h) ranks = [] := List.eq_nil_of_length_eq_zero (by omega)
    rw [hnil]
    exact ⟨s, 0, if_pos hall, hempty.result⟩
  · obtain ⟨flag, hmark, hmarked⟩ := foldBody_exclude hinside (marked_clear (s.group h))
    rw [List.nil_append] at hmarked
    rw [if_neg hall, if_pos hg.readable, hmark]
    exact fillUnmarked_eq memory hempty hg (.inl hplain) hmarked (by omega)

end

end Making

section Runs
variable {me : Int} {lpidCounter : Nat} {commWorldSize : Int} {memory : MpidGroup} {s s' : GroupMem} {p p' : Program}
  {handles : List Nat} {h k : Nat} {list : List Int}

structure Sound (me : Int) (lpidCounter : Nat) (s : GroupMem) (handles : List Nat) : Prop where
  plain : s.build = .plain
  empty : HasEmpty me s
  inside : ∀ h ∈ handles, h < s.count
  valid : ∀ h ∈ handles, Valid me (s.group h)
  lpids : ∀ h ∈ handles, ∀ q ∈ (s.group h).members, q < lpidCounter

section
variable (hs : Sound me lpidCounter s handles)
include hs

theorem Sound.grown (hgrown : Grown me s s') : Sound me lpidCounter s' handles := by
  refine ⟨hgrown.build.trans hs.plain, hs.empty.grown hgrown, ?_, ?_, ?_⟩
  · exact fun h hh => Nat.lt_of_lt_of_le (hs.inside h hh) hgrown.count
  · exact fun h hh => hgrown.valid h (hs.inside h hh) (hs.valid h hh)
  · intro h hh
    rw [(hgrown.same h (hs.inside h hh)).members]
    exact hs.lpids h hh

theorem Sound.result (hresult : Result me s s' k list)
    (hlist : ∀ q ∈ list, q < lpidCounter) : Sound me lpidCounter s' (k :: handles) := by
  have hold := hs.grown hresult.grown
  refine ⟨hold.plain, hold.empty, ?_, ?_, ?_⟩
  · exact List.forall_mem_cons.mpr ⟨hresult.inside, hold.inside⟩
  · exact List.forall_mem_cons.mpr ⟨hresult.valid, hold.valid⟩
  · apply List.forall_mem_cons.mpr ⟨?_, hold.lpids⟩
    rw [hresult.members]
    exact hlist

theorem Sound.size_le (hh : h ∈ handles) : (s.group h).size ≤ lpidCounter := by
  have hvalid := hs.valid h hh
  have hnodup : ((s.group h).members.map Int.toNat).Nodup := by
    apply List.Nodup.map_on _ hvalid.distinct
    intro x hx y hy heq
    have hx' := hvalid.nonneg x hx
    have hy' := hvalid.nonneg y hy
    omega
  have hsubset : (s.group h).members.map Int.toNat ⊆ List.range lpidCounter := by
    intro q hq
    obtain ⟨x, hx, rfl⟩ := List.mem_map.mp hq
    have hx' := hvalid.nonneg x hx
    have hlt := hs.lpids h hh x hx
    exact List.mem_range.mpr (by omega)
  have hle := (List.subperm_of_subset hnodup hsubset).length_le
  rw [List.length_map, List.length_range, length_members] at hle
  exact hle

end

def Keeps (me : Int) (lpidCounter : Nat) (handles : List Nat) (r : Option (GroupMem × Option Nat)) : Prop :=
  ∀ s' k, r = some (s', k) → Sound me lpidCounter s' (k.toList ++ handles)

theorem keeps_made {r : Option (GroupMem × Nat)} (hs : Sound me lpidCounter s handles)
    (hr : ∃ s' k, r = some (s', k) ∧ Result me s s' k list) (hlist : ∀ q ∈ list, q < lpidCounter) :
    Keeps me lpidCounter handles (made r) := by
  obtain ⟨s', k, rfl, hresult⟩ := hr
  rintro t j heq
  obtain ⟨rfl, rfl⟩ := Prod.mk.inj (Option.some.inj heq)
  exact hs.result hresult hlist

theorem keeps_answered {α : Type} {r : Option (GroupMem × α)} (hs : Sound me lpidCounter s handles)
    (hr : ∃ s' a, r = some (s', a) ∧ Grown me s s') : Keeps me lpidCounter handles (answered r) := by
  obtain ⟨s', a, rfl, hgrown⟩ := hr
  rintro t j heq
  obtain ⟨rfl, rfl⟩ := Prod.mk.inj (Option.some.inj heq)
  exact hs.grown hgrown

variable {body : GroupMem → Option (GroupMem × Nat)}

theorem keeps_checked {ε : Type} {check : Option (GroupMem × Option ε)}
    (hs : Sound me lpidCounter s handles) (hcheck : ∀ s' errno, check = some (s', errno) → Grown me s s')
    (hbody : ∀ s', check = some (s', none) → Sound me lpidCounter s' handles →
      Keeps me lpidCounter handles (made (body s'))) :
    Keeps me lpidCounter handles (checked check body) := by
  unfold checked
  cases hrun : check with
  | none => exact fun _ _ heq => nomatch heq
  | some r =>
    obtain ⟨s', errno⟩ := r
    have hs' := hs.grown (hcheck s' errno hrun)
    cases errno with
    | none => exact hbody s' hrun hs'
    | some e =>
      rintro t j heq
      obtain ⟨rfl, rfl⟩ := Prod.mk.inj (Option.some.inj heq)
      exact hs'

variable {ranges : List Range}

theorem checkValidRanges_eq (hg : Valid me (s.group h)) {errno : Option RangeError}
    (hrun : checkValidRanges s h ranges = some (s', errno)) :
    Grown me s s' ∧ (errno = none → AllValid (s.group h).size ranges ∧ Looped (s.group h).size ranges) := by
  unfold checkValidRanges at hrun
  rw [if_pos hg.readable] at hrun
  by_cases hfit : StepsFit (s.group h).size [] ranges
  · obtain ⟨flag, errno', hcheck, hiff⟩ := checkFrom_eq (i := 0) (marked_clear (s.group h)) List.nodup_nil hfit
    rw [hcheck] at hrun
    obtain ⟨rfl, rfl⟩ := Prod.mk.inj (Option.some.inj hrun)
    refine ⟨grown_setFlag h flag, ?_⟩
    intro hnone
    have haccepted := hiff.mp hnone
    exact ⟨(accepted_iff.mp haccepted).1, haccepted.looped hfit⟩
  · rw [checkFrom_none (i := 0) (marked_clear (s.group h)) List.nodup_nil hfit] at hrun
    exact nomatch hrun

theorem rangeMembers_subset {g : MpidGroup} (hvalid : AllValid g.size ranges) :
    ∀ q ∈ rangeMembers g ranges, q ∈ g.members :=
  membersAt_subset fun _ hj => hvalid.inside hj

section
variable (hs : Sound me lpidCounter s handles) (hh : h ∈ handles)
include hs hh

theorem Sound.below (hlist : ∀ q ∈ list, q ∈ (s.group h).members) : ∀ q ∈ list, q < lpidCounter :=
  fun q hq => hs.lpids h hh q (hlist q hq)

theorem keeps_ranks {ranks : List Int}
    (hbody : ∀ s', Sound me lpidCounter s' handles → (∀ j ∈ ranks, 0 ≤ j ∧ j < (s'.group h).size) → ranks.Nodup →
      Keeps me lpidCounter handles (made (body s'))) :
    Keeps me lpidCounter handles (checked (checkValidRanks s h ranks) body) := by
  obtain ⟨t, errno, hrun, hgrown, hok⟩ := checkValidRanks_eq me hs.plain h ranks
  rw [hrun]
  apply keeps_checked hs
  · intro s' errno' heq
    obtain ⟨rfl, -⟩ := Prod.mk.inj (Option.some.inj heq)
    exact hgrown
  · intro s' heq hs'
    obtain ⟨rfl, hnone⟩ := Prod.mk.inj (Option.some.inj heq)
    obtain ⟨hinside, hnodup⟩ := hok hnone
    rw [← (hgrown.same h (hs.inside h hh)).size] at hinside
    exact hbody t hs' hinside hnodup

theorem keeps_ranges
    (hbody : ∀ s', Sound me lpidCounter s' handles → AllValid (s'.group h).size ranges →
      Looped (s'.group h).size ranges → Keeps me lpidCounter handles (made (body s'))) :
    Keeps me lpidCounter handles (checked (checkValidRanges s h ranges) body) := by
  apply keeps_checked hs
  · intro s' errno hrun
    exact (checkValidRanges_eq (hs.valid h hh) hrun).1
  · intro s' hrun hs'
    obtain ⟨hgrown, hok⟩ := checkValidRanges_eq (hs.valid h hh) hrun
    obtain ⟨hvalid, hlooped⟩ := hok rfl
    rw [← (hgrown.same h (hs.inside h hh)).size] at hvalid hlooped
    exact hbody s' hs' hvalid hlooped

end

theorem keeps_perform (hs : Sound me lpidCounter s handles) (hint : lpidCounter < 2 ^ 31) (o : Op me lpidCounter)
    (hhandles : ∀ h ∈ o.handles, h ∈ handles) :
    Keeps me lpidCounter handles (perform me lpidCounter commWorldSize memory s o) := by
  cases o with
  | commGroup comm => exact keeps_made hs (commGroup_eq hs.plain commWorldSize comm) fun q hq => (comm.inside q hq).2
  | remoteGroup comm => exact keeps_made hs (remoteGroup_eq hs.plain comm) fun q hq => (comm.inside q hq).2
  | incl h ranks =>
    have hh := hhandles h List.mem_cons_self
    apply keeps_ranks hs hh
    intro s' hs' hinside hnodup
    exact keeps_made hs' (groupIncl_eq hs'.empty hs'.plain (hs'.valid h hh) hinside hnodup)
      (hs'.below hh (membersAt_subset hinside))
  | excl h ranks =>
    have hh := hhandles h List.mem_cons_self
    apply keeps_ranks hs hh
    intro s' hs' hinside hnodup
    exact keeps_made hs' (groupExcl_eq hs'.empty hs'.plain (hs'.valid h hh) hinside hnodup) (hs'.below hh unseen_subset)
  | rangeIncl h ranges =>
    have hh := hhandles h List.mem_cons_self
    apply keeps_ranges hs hh
    intro s' hs' hvalid hlooped
    exact keeps_made hs' (groupRangeIncl_eq memory hs'.empty (hs'.valid h hh) (.inl hs'.plain)
      (Nat.lt_of_le_of_lt (hs'.size_le hh) hint) hvalid hlooped) (hs'.below hh (rangeMembers_subset hvalid))
  | rangeExcl h ranges =>
    have hh := hhandles h List.mem_cons_self
    apply keeps_ranges hs hh
    intro s' hs' hvalid hlooped
    exact keeps_made hs' (groupRangeExcl_eq memory hs'.empty (hs'.valid h hh) (.inl hs'.plain)
      (Nat.lt_of_le_of_lt (hs'.size_le hh) hint) hvalid hlooped) (hs'.below hh unseen_subset)
  | union h1 h2 =>
    have hh1 := hhandles h1 List.mem_cons_self
    have hh2 := hhandles h2 (List.mem_cons_of_mem h1 List.mem_cons_self)
    apply keeps_made hs
      (groupUnion_eq hs.empty (hs.inside h1 hh1) (hs.inside h2 hh2) (hs.valid h1 hh1) (hs.valid h2 hh2)
        (.inl hs.plain))
    intro q hq
    rcases List.mem_append.mp hq with hq | hq
    · exact hs.lpids h1 hh1 q hq
    · exact hs.lpids h2 hh2 q (List.mem_of_mem_filter hq)
  | intersection h1 h2 =>
    have hh1 := hhandles h1 List.mem_cons_self
    have hh2 := hhandles h2 (List.mem_cons_of_mem h1 List.mem_cons_self)
    exact keeps_made hs
      (groupIntersection_eq hs.empty (hs.inside h1 hh1) (hs.inside h2 hh2) (hs.valid h1 hh1) (hs.valid h2 hh2)
        (.inl hs.plain))
      (hs.below hh1 fun q hq => List.mem_of_mem_filter hq)
  | difference h1 h2 =>
    have hh1 := hhandles h1 List.mem_cons_self
    have hh2 := hhandles h2 (List.mem_cons_of_mem h1 List.mem_cons_self)
    exact keeps_made hs
      (groupDifference_eq hs.empty (hs.inside h1 hh1) (hs.inside h2 hh2) (hs.valid h1 hh1) (hs.valid h2 hh2)
        (.inl hs.plain))
      (hs.below hh1 fun q hq => List.mem_of_mem_filter hq)
  | compare h1 h2 =>
    have hh1 := hhandles h1 List.mem_cons_self
    have hh2 := hhandles h2 (List.mem_cons_of_mem h1 List.mem_cons_self)
    obtain ⟨s', r, hrun, hgrown, -⟩ :=
      groupCompare_eq (hs.inside h1 hh1) (hs.inside h2 hh2) (hs.valid h1 hh1) (hs.valid h2 hh2)
    exact keeps_answered hs ⟨s', r, hrun, hgrown⟩
  | translateRanks h1 ranks1 h2 =>
    have hh1 := hhandles h1 List.mem_cons_self
    have hh2 := hhandles h2 (List.mem_cons_of_mem h1 List.mem_cons_self)
    show Keeps me lpidCounter handles (if _ then _ else _)
    by_cases hranks : RanksOf (s.group h1) ranks1
    · obtain ⟨s', hgrown, hrun⟩ :=
        translateRanks_eq (hs.inside h1 hh1) (hs.inside h2 hh2) (hs.valid h1 hh1) (hs.valid h2 hh2) hranks
      rw [if_pos hranks]
      exact keeps_answered hs ⟨s', _, hrun, hgrown⟩
    · rw [if_neg hranks]
      exact keeps_answered (r := some (s, ())) hs ⟨s, (), rfl, Grown.refl s⟩

theorem emptyGroup_valid : Valid me emptyGroup :=
  ⟨List.nodup_nil, fun _ hp => absurd hp List.not_mem_nil, rfl, .inl rfl, (fun htrue => nomatch htrue), rfl⟩

theorem sound_start : Sound me lpidCounter (start .plain).mem (start .plain).handles := by
  refine ⟨rfl, ⟨Nat.one_pos, rfl, emptyGroup_valid⟩, ?_, fun _ _ => emptyGroup_valid,
    fun _ _ _ hq => absurd hq List.not_mem_nil⟩
  intro h hh
  rw [List.mem_singleton.mp hh]
  exact Nat.one_pos

theorem sound_step {o : MpidGroup × Op me lpidCounter} (hint : lpidCounter < 2 ^ 31)
    (hs : Sound me lpidCounter p.mem p.handles) (hstep : step me lpidCounter commWorldSize p o = .ok p') :
    Sound me lpidCounter p'.mem p'.handles := by
  unfold step at hstep
  by_cases hhandles : ∀ h ∈ o.2.handles, h ∈ p.handles
  · rw [if_pos hhandles] at hstep
    cases hrun : perform me lpidCounter commWorldSize o.1 p.mem o.2 with
    | none =>
      rw [hrun] at hstep
      exact nomatch hstep
    | some r =>
      rw [hrun] at hstep
      obtain rfl := Except.ok.inj hstep
      exact keeps_perform hs hint o.2 hhandles r.1 r.2 hrun
  · rw [if_neg hhandles] at hstep
    obtain rfl := Except.ok.inj hstep
    exact hs

theorem sound_run {ops : List (MpidGroup × Op me lpidCounter)} (hint : lpidCounter < 2 ^ 31)
    (hrun : run (step me lpidCounter commWorldSize) (start .plain) ops = .ok p) : Sound me lpidCounter p.mem p.handles :=
  run_invariant (P := fun _ _ => True) (fun _ _ _ hs _ hstep => sound_step hint hs hstep) sound_start
    (Along.of_forall (fun _ _ => trivial) (start .plain) ops) hrun

structure AllBare (s : GroupMem) : Prop where
  build : s.build = .fineGrain
  bare : ∀ k, NoArray (s.group k)

def KeepsBare (fill : Filling → Option Filling) : Prop :=
  ∀ f f', NoArray f.group → fill f = some f' → NoArray f'.group

section Filling
variable {α : Type} {f : Filling} {g : MpidGroup}

theorem putMember_bare {lpid : Int} {caller : Bool} (hf : NoArray f.group) : putMember lpid caller f = none := by
  rw [putMember, hf.array]
  exact if_neg fun hand => Bool.false_ne_true hand.1

theorem takeRank_bare {j : Int} (hf : NoArray f.group) : takeRank g j f = none := by
  unfold takeRank
  cases element 0 g.size j with
  | none => rfl
  | some k =>
    show (takeMember g f k).bind _ = none
    rw [takeMember, putMember_bare hf]
    rfl

theorem keepsBare_foldlM {step : Filling → α → Option Filling} (l : List α) (h : ∀ a, KeepsBare fun f => step f a) :
    KeepsBare fun f => l.foldlM step f := by
  intro f f' hf hrun
  induction l generalizing f with
  | nil =>
    obtain rfl := Option.some.inj hrun
    exact hf
  | cons a l ih =>
    dsimp only at hrun
    rw [List.foldlM_cons] at hrun
    obtain ⟨f'', hstep, hrest⟩ := Option.bind_eq_some_iff.mp hrun
    exact ih f'' (h a f f'' hf hstep) hrest

theorem keepsBare_ite {c : Prop} [Decidable c] {lpid : Int} {caller : Filling → Bool} :
    KeepsBare fun f => if c then putMember lpid (caller f) f else some f := by
  intro f f' hf hrun
  dsimp only at hrun
  by_cases hc : c
  · rw [if_pos hc, putMember_bare hf] at hrun
    exact nomatch hrun
  · rw [if_neg hc] at hrun
    obtain rfl := Option.some.inj hrun
    exact hf

theorem keepsBare_fillFrom (g : MpidGroup) (keep : Nat → Bool) (after : Filling → Filling) :
    KeepsBare (fillFrom g keep after) := by
  refine keepsBare_foldlM (List.range g.size) fun i f f' hf hrun => ?_
  dsimp only at hrun
  by_cases hkeep : keep i = true
  · rw [if_pos hkeep, takeMember, putMember_bare hf] at hrun
    exact nomatch hrun
  · rw [if_neg hkeep] at hrun
    obtain rfl := Option.some.inj hrun
    exact hf

theorem keepsBare_ranges (g : MpidGroup) (ranges : List Range) :
    KeepsBare fun f => ranges.foldlM (fun f r => strideLoop r.last r.stride (takeRank g) g.size r.first f) f := by
  refine keepsBare_foldlM ranges fun r f f' hf hrun => ?_
  dsimp only at hrun
  cases hgo : goesOn r.last r.stride r.first with
  | true =>
    rw [strideLoop_outside hgo (takeRank_bare hf)] at hrun
    exact nomatch hrun
  | false =>
    rw [strideLoop_stop hgo] at hrun
    obtain rfl := Option.some.inj hrun
    exact hf

end Filling

section Bare
variable {h1 h2 : Nat} {g : MpidGroup} {ranks ranks1 : List Int} {nnew rank : Int} {fill : Filling → Option Filling}
  {flag : Nat → Int} (hs : AllBare s)

section
variable {r : Option (GroupMem × Nat)} {body : GroupMem → Option (GroupMem × Nat)} {k : Option Nat}

theorem bare_made (hr : ∀ t j, r = some (t, j) → AllBare t) (hrun : made r = some (s', k)) : AllBare s' := by
  obtain ⟨⟨t, j⟩, heq, hpair⟩ := Option.map_eq_some_iff.mp hrun
  obtain ⟨rfl, -⟩ := Prod.mk.inj hpair
  exact hr t j heq

theorem bare_answered {α : Type} {r : Option (GroupMem × α)} (hr : ∀ t a, r = some (t, a) → AllBare t)
    (hrun : answered r = some (s', k)) : AllBare s' := by
  obtain ⟨⟨t, a⟩, heq, hpair⟩ := Option.map_eq_some_iff.mp hrun
  obtain ⟨rfl, -⟩ := Prod.mk.inj hpair
  exact hr t a heq

theorem bare_checked {ε : Type} {check : Option (GroupMem × Option ε)}
    (hcheck : ∀ t errno, check = some (t, errno) → AllBare t)
    (hbody : ∀ t, AllBare t → ∀ u j, body t = some (u, j) → AllBare u) (hrun : checked check body = some (s', k)) :
    AllBare s' := by
  obtain ⟨⟨t, errno⟩, heq, hrest⟩ := Option.bind_eq_some_iff.mp hrun
  have ht := hcheck t errno heq
  cases errno with
  | none => exact bare_made (hbody t ht) hrest
  | some e =>
    obtain ⟨rfl, -⟩ := Prod.mk.inj (Option.some.inj hrest)
    exact ht

end

include hs

theorem AllBare.set (hg : NoArray g) : AllBare (s.set k g) := by
  refine ⟨hs.build, fun j => ?_⟩
  show NoArray (Function.update s.group k g j)
  by_cases hjk : j = k
  · rw [hjk, Function.update_self]
    exact hg
  · rw [Function.update_of_ne hjk]
    exact hs.bare j

theorem AllBare.flags (k : Nat) (flag : Nat → Int) : AllBare (s.set k { s.group k with flag := flag }) :=
  hs.set ⟨(hs.bare k).array, (hs.bare k).idx⟩

theorem AllBare.add (hg : NoArray g) : AllBare (s.add g).1 :=
  ⟨hs.build, (hs.set (k := s.count) hg).bare⟩

theorem AllBare.created (memory : MpidGroup) (nproc : Nat) : NoArray (groupCreate s.build memory nproc) := by
  rw [hs.build]
  exact ⟨rfl, rfl⟩

theorem AllBare.newGroup (hfill : KeepsBare fill) (hrun : newGroup memory s nnew rank fill = some (s', k)) :
    AllBare s' := by
  unfold SetOperations.newGroup at hrun
  by_cases hnil : nnew = 0
  · rw [if_pos hnil] at hrun
    obtain ⟨rfl, -⟩ := Prod.mk.inj (Option.some.inj hrun)
    exact hs
  · rw [if_neg hnil] at hrun
    obtain ⟨f, hput, hadd⟩ := Option.bind_eq_some_iff.mp hrun
    obtain ⟨rfl, -⟩ := Prod.mk.inj (Option.some.inj hadd)
    have hnew := hs.created memory nnew.toNat
    exact hs.add (hfill _ f ⟨hnew.array, hnew.idx⟩ hput)

theorem AllBare.setupAt (hrun : setupAt s k = some s') : s' = s := by
  rw [setupAt_bare (hs.bare k)] at hrun
  exact (Option.some.inj (Option.ite_none_right_eq_some.mp hrun).2).symm

theorem AllBare.setup (hrun : setupLpidPairs s h1 h2 = some s') : s' = s := by
  rw [setupLpidPairs_bare (hs.bare h1) (hs.bare h2)] at hrun
  exact (Option.some.inj (Option.ite_none_right_eq_some.mp hrun).2).symm

theorem AllBare.commGroup {comm : LocalComm me lpidCounter}
    (hrun : commGroup memory s commWorldSize comm = some (s', k)) : AllBare s' := by
  unfold Constructors.commGroup at hrun
  simp only [hs.build] at hrun
  obtain ⟨rfl, -⟩ := Prod.mk.inj (Option.some.inj hrun)
  exact hs.add ⟨rfl, rfl⟩

theorem AllBare.remoteGroup {comm : RemoteComm me lpidCounter}
    (hrun : remoteGroup memory s comm = some (s', k)) : AllBare s' := by
  have hput : KeepsBare (putLpids comm.lpids id) := by
    refine keepsBare_foldlM comm.lpids fun lpid f f' hf hrun => ?_
    dsimp only at hrun
    rw [putMember_bare hf] at hrun
    exact nomatch hrun
  obtain ⟨f, hfill, hadd⟩ := Option.bind_eq_some_iff.mp hrun
  obtain ⟨rfl, -⟩ := Prod.mk.inj (Option.some.inj hadd)
  have hf := hput _ f (hs.created memory comm.lpids.length) hfill
  exact hs.add ⟨hf.array, hf.idx⟩

theorem AllBare.checkValidRanks {errno : Option RankError} (hrun : checkValidRanks s h ranks = some (s', errno)) :
    AllBare s' := by
  obtain ⟨⟨flag, e⟩, -, hset⟩ := Option.bind_eq_some_iff.mp hrun
  obtain ⟨rfl, -⟩ := Prod.mk.inj (Option.some.inj hset)
  exact hs.flags h flag

theorem AllBare.checkValidRanges {ranges : List Range} {errno : Option RangeError}
    (hrun : checkValidRanges s h ranges = some (s', errno)) : AllBare s' := by
  obtain ⟨-, hchecked⟩ := Option.ite_none_right_eq_some.mp hrun
  obtain ⟨⟨flag, e⟩, -, hset⟩ := Option.bind_eq_some_iff.mp hchecked
  obtain ⟨rfl, -⟩ := Prod.mk.inj (Option.some.inj hset)
  exact hs.flags h flag

theorem AllBare.groupIncl (hrun : groupIncl memory s h ranks = some (s', k)) : AllBare s' := by
  refine hs.newGroup (fun f f' hf hfill => ?_) hrun
  simp only [hs.build] at hfill
  obtain rfl := Option.some.inj hfill
  clear hrun hfill
  induction ranks generalizing f with
  | nil => exact hf
  | cons j ranks ih => exact ih (mapRank (s.group h) f j) ⟨hf.array, hf.idx⟩

theorem AllBare.groupExcl (hrun : groupExcl memory s h ranks = some (s', k)) : AllBare s' := by
  unfold Constructors.groupExcl at hrun
  dsimp only at hrun
  split at hrun
  · obtain ⟨rfl, -⟩ := Prod.mk.inj (Option.some.inj hrun)
    exact hs
  split at hrun
  · obtain ⟨⟨flag, stop⟩, -, hnew⟩ := Option.bind_eq_some_iff.mp hrun
    exact (hs.flags h flag).newGroup (keepsBare_fillFrom (s.group h) _ id) hnew
  · exact nomatch hrun

theorem AllBare.groupRangeIncl {ranges : List Range} (hrun : groupRangeIncl memory s h ranges = some (s', k)) :
    AllBare s' := by
  obtain ⟨nnew, -, hnew⟩ := Option.bind_eq_some_iff.mp hrun
  exact hs.newGroup (keepsBare_ranges (s.group h) ranges) hnew

theorem AllBare.groupRangeExcl {ranges : List Range} (hrun : groupRangeExcl memory s h ranges = some (s', k)) :
    AllBare s' := by
  obtain ⟨excluded, -, hrest⟩ := Option.bind_eq_some_iff.mp hrun
  dsimp only at hrest
  split at hrest
  · obtain ⟨rfl, -⟩ := Prod.mk.inj (Option.some.inj hrest)
    exact hs
  · obtain ⟨flag, -, hnew⟩ := Option.bind_eq_some_iff.mp hrest
    exact (hs.flags h flag).newGroup (keepsBare_fillFrom (s.group h) _ id) hnew

theorem AllBare.groupUnion (hrun : groupUnion memory s h1 h2 = some (s', k)) : AllBare s' := by
  obtain ⟨t, hsetup, hrest⟩ := Option.bind_eq_some_iff.mp hrun
  obtain rfl := hs.setup hsetup
  obtain ⟨⟨idx1, idx2, m⟩, -, hwalked⟩ := Option.bind_eq_some_iff.mp hrest
  obtain ⟨m', -, hnew⟩ := Option.bind_eq_some_iff.mp hwalked
  refine (hs.flags h2 m'.flag).newGroup (fun f f' hf hfill => ?_) hnew
  obtain ⟨f'', hfirst, hsecond⟩ := Option.bind_eq_some_iff.mp hfill
  have hf'' := keepsBare_foldlM (List.range _) (fun i f f' hf hput => by
    dsimp only at hput
    rw [putMember_bare hf] at hput
    exact nomatch hput) f f'' hf hfirst
  exact keepsBare_foldlM (List.range _) (fun i => keepsBare_ite) f'' f' hf'' hsecond

theorem AllBare.groupIntersection (hrun : groupIntersection memory s h1 h2 commWorldSize = some (s', k)) :
    AllBare s' := by
  obtain ⟨t, hsetup, hrest⟩ := Option.bind_eq_some_iff.mp hrun
  obtain rfl := hs.setup hsetup
  obtain ⟨⟨idx1, idx2, m⟩, -, hnew⟩ := Option.bind_eq_some_iff.mp hrest
  refine (hs.flags h1 m.flag).newGroup (fun f f' hf hfill => ?_) hnew
  exact keepsBare_fillFrom (t.group h1) _ _ ⟨{ f.group with isLocalDenseMonotonic := true }, f.k⟩ f'
    ⟨hf.array, hf.idx⟩ hfill

theorem AllBare.groupDifference (hrun : groupDifference memory s h1 h2 = some (s', k)) : AllBare s' := by
  obtain ⟨t, hsetup, hrest⟩ := Option.bind_eq_some_iff.mp hrun
  obtain rfl := hs.setup hsetup
  obtain ⟨⟨idx1, idx2, m⟩, -, hnew⟩ := Option.bind_eq_some_iff.mp hrest
  exact (hs.flags h1 m.flag).newGroup (keepsBare_fillFrom (t.group h1) _ id) hnew

theorem AllBare.groupCompare {r : Comparison} (hrun : groupCompare s h1 h2 = some (s', r)) : AllBare s' := by
  unfold SetOperations.groupCompare at hrun
  split at hrun
  · obtain ⟨rfl, -⟩ := Prod.mk.inj (Option.some.inj hrun)
    exact hs
  · obtain ⟨t, hsetup, hrest⟩ := Option.bind_eq_some_iff.mp hrun
    obtain rfl := hs.setup hsetup
    obtain ⟨equal, -, hcompared⟩ := Option.bind_eq_some_iff.mp hrest
    split at hcompared
    · obtain ⟨rfl, -⟩ := Prod.mk.inj (Option.some.inj hcompared)
      exact hs
    split at hcompared
    all_goals
      obtain ⟨rfl, -⟩ := Prod.mk.inj (Option.some.inj hcompared)
      exact hs

theorem AllBare.translateRanks {ranks2 : List Int}
    (hrun : Translation.translateRanks s h1 ranks1 h2 = some (s', ranks2)) : AllBare s' := by
  unfold Translation.translateRanks at hrun
  split at hrun
  · obtain ⟨ranks, -, hsame⟩ := Option.bind_eq_some_iff.mp hrun
    obtain ⟨rfl, -⟩ := Prod.mk.inj (Option.some.inj hsame)
    exact hs
  · obtain ⟨t, hfirst, hrest⟩ := Option.bind_eq_some_iff.mp hrun
    obtain ⟨ranks, -, hsame⟩ := Option.bind_eq_some_iff.mp hrest
    obtain ⟨rfl, -⟩ := Prod.mk.inj (Option.some.inj hsame)
    unfold setupMissing at hfirst
    split at hfirst
    · rw [hs.setupAt hfirst]
      exact hs
    · obtain rfl := Option.some.inj hfirst
      exact hs

theorem AllBare.perform {o : Op me lpidCounter} {k : Option Nat}
    (hrun : perform me lpidCounter commWorldSize memory s o = some (s', k)) : AllBare s' := by
  cases o with
  | commGroup comm => exact bare_made (fun _ _ => hs.commGroup) hrun
  | remoteGroup comm => exact bare_made (fun _ _ => hs.remoteGroup) hrun
  | incl h ranks => exact bare_checked (fun _ _ => hs.checkValidRanks) (fun _ ht _ _ => ht.groupIncl) hrun
  | excl h ranks => exact bare_checked (fun _ _ => hs.checkValidRanks) (fun _ ht _ _ => ht.groupExcl) hrun
  | rangeIncl h ranges => exact bare_checked (fun _ _ => hs.checkValidRanges) (fun _ ht _ _ => ht.groupRangeIncl) hrun
  | rangeExcl h ranges => exact bare_checked (fun _ _ => hs.checkValidRanges) (fun _ ht _ _ => ht.groupRangeExcl) hrun
  | union h1 h2 => exact bare_made (fun _ _ => hs.groupUnion) hrun
  | intersection h1 h2 => exact bare_made (fun _ _ => hs.groupIntersection) hrun
  | difference h1 h2 => exact bare_made (fun _ _ => hs.groupDifference) hrun
  | compare h1 h2 => exact bare_answered (fun _ _ => hs.groupCompare) hrun
  | translateRanks h1 ranks1 h2 =>
    unfold Constructors.perform at hrun
    dsimp only at hrun
    split at hrun
    · exact bare_answered (fun _ _ => hs.translateRanks) hrun
    · obtain ⟨rfl, -⟩ := Prod.mk.inj (Option.some.inj hrun)
      exact hs

end Bare

theorem bare_step {o : MpidGroup × Op me lpidCounter} (hs : AllBare p.mem)
    (hstep : step me lpidCounter commWorldSize p o = .ok p') : AllBare p'.mem := by
  unfold step at hstep
  split at hstep
  · cases hrun : perform me lpidCounter commWorldSize o.1 p.mem o.2 with
    | none =>
      rw [hrun] at hstep
      exact nomatch hstep
    | some r =>
      rw [hrun] at hstep
      obtain rfl := Except.ok.inj hstep
      exact hs.perform hrun
  · obtain rfl := Except.ok.inj hstep
    exact hs

theorem bare_run {ops : List (MpidGroup × Op me lpidCounter)}
    (hrun : run (step me lpidCounter commWorldSize) (start .fineGrain) ops = .ok p) : AllBare p.mem :=
  run_invariant (I := fun p => AllBare p.mem) (P := fun _ _ => True) (fun _ _ _ hs _ hstep => bare_step hs hstep)
    ⟨rfl, fun _ => ⟨rfl, rfl⟩⟩ (Along.of_forall (fun _ _ => trivial) (start .fineGrain) ops) hrun

/-- In every run the ranks are translated right, unless `MPI_PROC_NULL` is translated to an empty group; with
`FINEGRAIN_MPI` only ranks that are translated to an empty group are. -/
theorem translate_ranks_iff {b : Build} {ops : List (MpidGroup × Op me lpidCounter)} {h1 h2 : Nat} {ranks1 : List Int}
    (hint : lpidCounter < 2 ^ 31) (hrun : run (step me lpidCounter commWorldSize) (start b) ops = .ok p)
    (hh1 : h1 ∈ p.handles) (hh2 : h2 ∈ p.handles) (hranks : RanksOf (p.mem.group h1) ranks1) :
    TranslatesRight p.mem h1 ranks1 h2 ↔
      (0 < (p.mem.group h2).size ∨ mpiProcNull ∉ ranks1) ∧ (b = .plain ∨ (p.mem.group h2).size = 0) := by
  cases b with
  | plain =>
    have hs := sound_run hint hrun
    rw [translatesRight_iff (hs.inside h1 hh1) (hs.inside h2 hh2) (hs.valid h1 hh1) (hs.valid h2 hh2) hranks]
    exact (and_iff_left (.inl rfl)).symm
  | fineGrain =>
    rw [translatesRight_bare ((bare_run hrun).bare h2)]
    have hbuild : ¬ Build.fineGrain = .plain := by decide
    constructor
    · exact fun hand => ⟨.inr hand.2, .inr hand.1⟩
    · rintro ⟨hnull, hsize⟩
      have hzero := hsize.resolve_left hbuild
      exact ⟨hzero, hnull.resolve_left (by omega)⟩

end Runs

def threeProcesses : LocalComm 1 3 where
  lpids := [0, 1, 2]
  distinct := by decide
  inside := by decide
  rank := 1
  own := rfl

def reorder : List (MpidGroup × Op 1 3) := [(emptyGroup, .commGroup threeProcesses), (emptyGroup, .incl 1 [2, 0])]

def reordered (b : Build) : Program := (run (step 1 3 3) (start b) reorder).toOption.getD (start b)

theorem reordered_run (b : Build) : run (step 1 3 3) (start b) reorder = .ok (reordered b) := by
  cases b <;> rfl

theorem reordered_translated : TranslatesRight (reordered .plain).mem 1 [2, 1, -1, 0] 2 :=
  (translate_ranks_iff (by decide) (reordered_run .plain) (by decide) (by decide) (by decide)).mpr
    ⟨.inl (by decide), .inl rfl⟩

theorem not_translated :
    (run (step 1 3 3) (start .plain) reorder = .ok (reordered .plain) ∧
      (1 ∈ (reordered .plain).handles ∧ 0 ∈ (reordered .plain).handles) ∧
      RanksOf ((reordered .plain).mem.group 1) [0, mpiProcNull] ∧
      ¬ TranslatesRight (reordered .plain).mem 1 [0, mpiProcNull] 0) ∧
    run (step 1 3 3) (start .fineGrain) reorder = .ok (reordered .fineGrain) ∧
      (1 ∈ (reordered .fineGrain).handles ∧ 2 ∈ (reordered .fineGrain).handles) ∧
      RanksOf ((reordered .fineGrain).mem.group 1) [0] ∧ ¬ TranslatesRight (reordered .fineGrain).mem 1 [0] 2 := by
  have hranks : RanksOf ((reordered .plain).mem.group 1) [0, mpiProcNull] := by decide
  refine ⟨⟨rfl, by decide, hranks, ?_⟩, rfl, by decide, by decide, ?_⟩
  · have hs := sound_run (by decide) (reordered_run .plain)
    rw [translatesRight_iff (hs.inside 1 (by decide)) (hs.inside 0 (by decide)) (hs.valid 1 (by decide))
      (hs.valid 0 (by decide)) hranks]
    decide
  · rw [translatesRight_bare ((bare_run (reordered_run .fineGrain)).bare 2)]
    decide

end FgMpi.Group.Constructors
