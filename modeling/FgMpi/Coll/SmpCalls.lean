import FgMpi.Coll.Buffers
import FgMpi.Coll.SmpStages
import FgMpi.Machine.Folds

/-! Collective calls on sub-communicators. -/

namespace FgMpi.Coll.SmpCalls
open Comm.NestedMaps Hierarchy Machine.Dialogues Machine.Folds Machine.Ints
open SmpBcast (Kind CommId)

inductive Call
  | reduce (root : Nat)
  | allreduce
  | bcast (root : Nat)
  | scan
deriving Repr, DecidableEq

inductive Item (α : Type)
  | call (c : Call)
  | int (n : Nat)
  | elem (x : α)

/-- What a pointer points to; `written` is false for memory that nothing has been written to. -/
inductive Memory (α : Type)
  | null
  | mem (written : Bool) (contents : Nat → α)

def Memory.isNull {α : Type} : Memory α → Bool
  | .null => true
  | .mem .. => false

/-- `inPlace` is `MPI_IN_PLACE`. -/
inductive SendBuf (α : Type)
  | inPlace
  | buf (memory : Memory α)

inductive Fault
  | nullOrUnwritten
  | nullResult
  | inPlaceElsewhere
  | mismatch
  | assertion
deriving Repr, DecidableEq

abbrev SmpProg (α : Type) := Prog CommId Proc (Item α) (Except Fault (Memory α))

section Data
variable {α : Type}

def pack (buf : Nat → α) (count : Nat) : List (Item α) := (List.range count).map fun i => .elem (buf i)

def elemAt (msg : List (Item α)) (i : Nat) : Option α :=
  match msg[i]? with
  | some (.elem x) => some x
  | _ => none

def unpack (count : Nat) (msg : List (Item α)) (buf : Nat → α) : Nat → α := fun i =>
  if i < count then (elemAt msg i).getD (buf i) else buf i

def combined (op : α → α → α) (count : Nat) (msgs : List (List (Item α))) (buf : Nat → α) : Nat → α := fun i =>
  if i < count then (total op (msgs.filterMap fun msg => elemAt msg i)).getD (buf i) else buf i

def isCall (call : Call) : List (Item α) → Bool
  | .call c :: _ => c = call
  | _ => false

def callOf : List (Item α) → Option Call
  | .call c :: _ => some c
  | _ => none

def contribution (atRoot : Bool) (sendbuf : SendBuf α) (recvbuf : Memory α) : Except Fault (Nat → α) :=
  match sendbuf, recvbuf with
  | .inPlace, .mem true contents => if atRoot then .ok contents else .error .inPlaceElsewhere
  | .inPlace, _ => .error .nullOrUnwritten
  | .buf (.mem true contents), _ => .ok contents
  | .buf _, _ => .error .nullOrUnwritten

/-- A call that the processes in `needs` have to come to first, with what they give. -/
def callOn (comm : CommId) (call : Call) (mine : List (Item α)) (needs : List Proc)
    (next : List (List (Item α)) → SmpProg α) : SmpProg α :=
  .coll comm (.call call :: mine) needs fun msgs =>
    if msgs.all (isCall call) then next (msgs.map List.tail) else .done (.error .mismatch)

end Data

/-- The length in bytes, which is an `int`. -/
@[irreducible] def nbytes (typeSize count : Nat) : Int := toInt (typeSize * count : Nat)

section Impl
variable {α : Type} (op : α → α → α) (count : Nat) (comm : CommId) (rank : Nat)

/-- `MPIR_Reduce_impl`.  The result is for the root only. -/
def reduceImpl (sendbuf : SendBuf α) (recvbuf : Memory α) (root : Nat) (next : Memory α → SmpProg α) :
    SmpProg α :=
  match contribution (rank = root) sendbuf recvbuf with
  | .error fault => .done (.error fault)
  | .ok data =>
    if rank = root then
      match recvbuf with
      | .null => .done (.error .nullResult)
      | .mem _ contents =>
        callOn comm (.reduce root) (pack data count) comm.members fun msgs =>
          next (.mem true (combined op count msgs contents))
    else callOn comm (.reduce root) (pack data count) [] fun _ => next recvbuf

/-- `allreduce_intra_or_coll_fn`. -/
def allreduceImpl (sendbuf : SendBuf α) (recvbuf : Memory α) (next : Memory α → SmpProg α) : SmpProg α :=
  match contribution true sendbuf recvbuf with
  | .error fault => .done (.error fault)
  | .ok data =>
    match recvbuf with
    | .null => .done (.error .nullResult)
    | .mem _ contents =>
      callOn comm .allreduce (pack data count) comm.members fun msgs =>
        next (.mem true (combined op count msgs contents))

/-- `MPIR_Bcast_impl` on a communicator without a hierarchy. -/
def bcastImpl (typeSize : Nat) (buffer : Memory α) (root : Nat) (next : Memory α → SmpProg α) : SmpProg α :=
  if nbytes typeSize count = 0 then next buffer  -- "nothing to do"
  else
    match buffer with
    | .null => .done (.error .nullOrUnwritten)
    | .mem written contents =>
      if rank = root then
        if written = true then
          callOn comm (.bcast root) (pack contents count) [] fun _ => next buffer
        else .done (.error .nullOrUnwritten)
      else
        callOn comm (.bcast root) [] [comm.process root] fun msgs =>
          next (.mem true (unpack count (msgs.headD []) contents))

end Impl

theorem nbytes_eq_zero {typeSize count : Nat} : nbytes typeSize count = 0 ↔ 2 ^ 32 ∣ typeSize * count := by
  unfold nbytes
  exact toInt_eq_zero

theorem nbytes_ne_zero {typeSize count : Nat} (htype : 0 < typeSize) (hcount : 0 < count)
    (hlen : typeSize * count < 2 ^ 31) : nbytes typeSize count ≠ 0 := by
  intro hzero
  have hle := Nat.le_of_dvd (Nat.mul_pos htype hcount) (nbytes_eq_zero.mp hzero)
  omega

section Lemmas
variable {α : Type} {op : α → α → α} {count i : Nat} {x : Proc → Nat → α} {buf b : Nat → α}
variable {members : List Proc} {w : Proc}

theorem pack_congr (h : ∀ i < count, buf i = b i) : pack buf count = pack b count :=
  List.map_congr_left fun i hi => by rw [h i (List.mem_range.mp hi)]

theorem elemAt_pack (hi : i < count) : elemAt (pack buf count) i = some (buf i) := by
  rw [elemAt, pack, List.getElem?_map, List.getElem?_range hi]
  rfl

def sumOf (op : α → α → α) (x : Proc → Nat → α) (members : List Proc) (w : Proc) : Nat → α := fun i =>
  (total op (members.map fun v => x v i)).getD (x w i)

theorem total_sumOf (hw : w ∈ members) (i : Nat) :
    total op (members.map fun v => x v i) = some (sumOf op x members w i) := by
  rw [sumOf]
  cases hsum : total op (members.map fun v => x v i) with
  | none =>
    rw [total_eq_none, List.map_eq_nil_iff] at hsum
    rw [hsum] at hw
    exact nomatch hw
  | some y => rfl

theorem combined_pack (hw : w ∈ members) :
    combined op count (members.map fun v => pack (x v) count) buf =
      Buffers.localcopy (sumOf op x members w) buf count := by
  funext i
  rw [combined, Buffers.localcopy]
  split
  · rename_i hi
    have hall : (members.map fun v => pack (x v) count).filterMap (fun msg => elemAt msg i) =
        members.map fun v => x v i := by
      rw [List.filterMap_map, ← List.filterMap_eq_map]
      refine List.filterMap_congr fun v _ => ?_
      exact elemAt_pack hi
    rw [hall, total_sumOf hw]
    rfl
  · rfl

theorem unpack_pack : unpack count (pack b count) buf = Buffers.localcopy b buf count := by
  funext i
  rw [unpack, Buffers.localcopy]
  split
  · rename_i hi
    rw [elemAt_pack hi]
    rfl
  · rfl

theorem localcopy_below (hi : i < count) : Buffers.localcopy b buf count i = b i := if_pos hi

theorem localcopy_self (buf : Nat → α) (count : Nat) : Buffers.localcopy buf buf count = buf := by
  funext i
  exact ite_self _

theorem localcopy_twice (b b' buf : Nat → α) :
    Buffers.localcopy b (Buffers.localcopy b' buf count) count = Buffers.localcopy b buf count := by
  funext i
  unfold Buffers.localcopy
  split <;> rfl

theorem localcopy_congr {b' : Nat → α} (h : ∀ i < count, b i = b' i) :
    Buffers.localcopy b buf count = Buffers.localcopy b' buf count := by
  funext i
  unfold Buffers.localcopy
  split
  · rename_i hi
    exact h i hi
  · rfl

end Lemmas

section Groups
variable {kind : Kind} {members : List Proc} {w v : Proc} {c : CommId} {part : Proc → List Proc}

def procsOf (comm : CommId) : Finset Proc := comm.members.toFinset

def groupOf (kind : Kind) (members : List Proc) (w : Proc) : Option CommId :=
  if 1 < members.length ∧ w ∈ members then some ⟨kind, members⟩ else none

theorem groupOf_pos (hlen : 1 < members.length) (hw : w ∈ members) :
    groupOf kind members w = some ⟨kind, members⟩ := if_pos ⟨hlen, hw⟩

theorem groupOf_neg (h : ¬ (1 < members.length ∧ w ∈ members)) : groupOf kind members w = none := if_neg h

theorem groupOf_some (h : groupOf kind members w = some c) :
    1 < members.length ∧ w ∈ members ∧ c = ⟨kind, members⟩ := by
  unfold groupOf at h
  split at h
  · rename_i hand
    exact ⟨hand.1, hand.2, (Option.some.inj h).symm⟩
  · exact nomatch h

def Grouped (group : Proc → Option CommId) : Prop :=
  ∀ w c, group w = some c → w ∈ procsOf c ∧ ∀ v ∈ procsOf c, group v = some c

theorem groupOf_grouped (hpart : ∀ w v, v ∈ part w → part v = part w) :
    Grouped fun w => groupOf kind (part w) w := by
  intro w c h
  obtain ⟨hlen, hw, rfl⟩ := groupOf_some h
  refine ⟨List.mem_toFinset.mpr hw, fun v hv => ?_⟩
  have hv' : v ∈ part w := List.mem_toFinset.mp hv
  dsimp only
  rw [hpart w v hv']
  exact groupOf_pos hlen hv'

theorem groupOf_length (h : groupOf kind members w = some c) : 0 < c.members.length := by
  obtain ⟨hlen, -, rfl⟩ := groupOf_some h
  exact Nat.lt_of_succ_lt hlen

theorem Grouped.restrict {group : Proc → Option CommId} (hgroup : Grouped group) {p : Proc → Prop} [DecidablePred p]
    (hp : ∀ w c, group w = some c → ∀ v ∈ procsOf c, p v ↔ p w) :
    Grouped fun w => if p w then group w else none := by
  intro w c h
  dsimp only at h
  split at h
  · rename_i hw
    obtain ⟨hmem, hmates⟩ := hgroup w c h
    exact ⟨hmem, fun v hv => (if_pos ((hp w c h v hv).mpr hw)).trans (hmates v hv)⟩
  · exact nomatch h

def wholeGroup (ranks : List Proc) (w : Proc) : Option CommId := if w ∈ ranks then some ⟨.comm, ranks⟩ else none

theorem wholeGroup_grouped (ranks : List Proc) : Grouped (wholeGroup ranks) := by
  intro w c h
  unfold wholeGroup at h
  split at h
  · rename_i hw
    obtain rfl := Option.some.inj h
    exact ⟨List.mem_toFinset.mpr hw, fun v hv => if_pos (List.mem_toFinset.mp hv)⟩
  · exact nomatch h

end Groups

section Calling
variable {α : Type} {group : Proc → Option CommId} {call : CommId → Call} {data : Proc → List (Item α)}
variable {wants : CommId → Proc → List Proc} {w : Proc} {c : CommId}

def calling (group : Proc → Option CommId) (call : CommId → Call) (data : Proc → List (Item α))
    (wants : CommId → Proc → List Proc) : Proc → Act CommId Proc (Item α) :=
  collecting group (fun w => (group w).elim [] fun c => .call (call c) :: data w)
    (fun w => (group w).elim [] fun c => wants c w)

theorem calling_none (h : group w = none) : calling group call data wants w = .idle := collecting_none h

theorem calling_some (h : group w = some c) (hwants : ∀ v ∈ wants c w, group v = some c) :
    calling group call data wants w =
      .coll c (.call (call c) :: data w) ((wants c w).map fun v => (v, .call (call c) :: data v)) := by
  rw [calling, collecting_some h, h]
  congr 1
  refine List.map_congr_left fun v hv => ?_
  rw [hwants v hv]
  rfl

theorem calling_agree (hgroup : Grouped group)
    (hwants : ∀ w c, group w = some c → ∀ v ∈ wants c w, v ∈ c.members) :
    LevelAgree procsOf (calling group call data wants) := by
  refine collecting_agree hgroup fun w c hw v hv => ?_
  rw [hw] at hv
  exact List.mem_toFinset.mpr (hwants w c hw v hv)

def SameCalls (act : Proc → Act CommId Proc (Item α)) : Prop :=
  ∀ c, ∀ p ∈ procsOf c, ∀ q ∈ procsOf c, ∀ k,
    ((⟨k, act p⟩ : Op CommId Proc (Item α)).colls c).map (fun e => callOf e.2) =
      ((⟨k, act q⟩ : Op CommId Proc (Item α)).colls c).map fun e => callOf e.2

theorem calling_colls (hgroup : group w = some c) (k : Nat) :
    ((⟨k, calling group call data wants w⟩ : Op CommId Proc (Item α)).colls c).map (fun e => callOf e.2) =
      [some (call c)] := by
  rw [calling, colls_of_coll (collecting_some hgroup), hgroup]
  rfl

theorem calling_colls_other (hgroup : group w ≠ some c) (k : Nat) :
    ((⟨k, calling group call data wants w⟩ : Op CommId Proc (Item α)).colls c).map (fun e => callOf e.2) =
      [] := by
  rw [calling, colls_of_other fun mine needs hcoll => hgroup (group_of_collecting hcoll).1]
  rfl

theorem calling_same (hgroup : Grouped group) : SameCalls (calling group call data wants) := by
  intro c p hp q hq k
  by_cases hthis : group p = some c
  · rw [calling_colls hthis, calling_colls ((hgroup p c hthis).2 q hq)]
  · have hother : group q ≠ some c := fun hsome => hthis ((hgroup q c hsome).2 p hp)
    rw [calling_colls_other hthis, calling_colls_other hother]

theorem sameCalls_nothing {act : Proc → Act CommId Proc (Item α)}
    (h : ∀ p c mine needs, act p ≠ .coll c mine needs) : SameCalls act := by
  intro c p _ q _ k
  rw [colls_of_other (h p c), colls_of_other (h q c)]

end Calling

section Levels
variable {α : Type} (op : α → α → α) (count : Nat) (group : Proc → Option CommId) (root : CommId → Nat)

def reduceLevel (x : Proc → Nat → α) : Proc → Act CommId Proc (Item α) :=
  calling group (fun c => .reduce (root c)) (fun v => pack (x v) count)
    fun c v => if c.members.idxOf v = root c then c.members else []

def allreduceLevel (x : Proc → Nat → α) : Proc → Act CommId Proc (Item α) :=
  calling group (fun _ => .allreduce) (fun v => pack (x v) count) fun c _ => c.members

def bcastLevel (y : Proc → Nat → α) : Proc → Act CommId Proc (Item α) :=
  calling group (fun c => .bcast (root c))
    (fun v => (group v).elim [] fun c => if c.members.idxOf v = root c then pack (y v) count else [])
    fun c v => if c.members.idxOf v = root c then [] else [c.process (root c)]

variable {count group root}

theorem reduceLevel_agree (hgroup : Grouped group) (x : Proc → Nat → α) :
    LevelAgree procsOf (reduceLevel count group root x) := by
  refine calling_agree hgroup fun w c _ v hv => ?_
  split at hv
  · exact hv
  · exact nomatch hv

theorem allreduceLevel_agree (hgroup : Grouped group) (x : Proc → Nat → α) :
    LevelAgree procsOf (allreduceLevel count group x) :=
  calling_agree hgroup fun _ _ _ _ hv => hv

theorem bcastLevel_agree (hgroup : Grouped group) (hroot : ∀ w c, group w = some c → root c < c.members.length)
    (y : Proc → Nat → α) : LevelAgree procsOf (bcastLevel count group root y) := by
  refine calling_agree hgroup fun w c hw v hv => ?_
  split at hv
  · exact nomatch hv
  · obtain rfl := List.mem_singleton.mp hv
    rw [CommId.process, List.getD_eq_getElem?_getD, List.getElem?_eq_getElem (hroot w c hw)]
    exact List.getElem_mem _

theorem reduceLevel_none {w : Proc} (h : group w = none) (x : Proc → Nat → α) :
    reduceLevel count group root x w = .idle := calling_none h

theorem allreduceLevel_none {w : Proc} (h : group w = none) (x : Proc → Nat → α) :
    allreduceLevel count group x w = .idle := calling_none h

theorem bcastLevel_none {w : Proc} (h : group w = none) (y : Proc → Nat → α) :
    bcastLevel count group root y w = .idle := calling_none h

end Levels

section Following
variable {α : Type} {fits : List (Item α) → Inp CommId Proc → Prop} {op : α → α → α} {count k root : Nat}
variable {r : Except Fault (Memory α)} {rest : List (Op CommId Proc (Item α))} {comm : CommId}
variable {sendbuf : SendBuf α} {recvbuf : Memory α} {next : Memory α → SmpProg α} {w : Proc}

variable {call : Call} {mine : List (Item α)}

theorem follows_callOn {data : Proc → List (Item α)} {needs : List Proc}
    {next : List (List (Item α)) → SmpProg α} (h : Follows fits r rest (next (needs.map data))) :
    Follows fits r (⟨k, .coll comm (.call call :: mine) (needs.map fun v => (v, .call call :: data v))⟩ :: rest)
      (callOn comm call mine needs next) := by
  refine ⟨rfl, rfl, ?_, ?_⟩
  · rw [List.map_map]
    exact (List.map_id _).symm
  · have hcalls : ((needs.map fun v => (v, Item.call call :: data v)).map Prod.snd).all (isCall call) = true := by
      rw [List.map_map, List.all_map, List.all_eq_true]
      intro v _
      exact decide_eq_true rfl
    have htails : ((needs.map fun v => (v, Item.call call :: data v)).map Prod.snd).map List.tail =
        needs.map data := by
      rw [List.map_map, List.map_map]
      rfl
    dsimp only
    rw [if_pos hcalls, htails]
    exact h

theorem follows_give {next : SmpProg α} (h : Follows fits r rest next) :
    Follows fits r (⟨k, .coll comm (.call call :: mine) []⟩ :: rest) (callOn comm call mine [] fun _ => next) :=
  ⟨rfl, rfl, rfl, h⟩

theorem follows_get {msg : List (Item α)} {v : Proc}
    {next : List (List (Item α)) → SmpProg α} (h : Follows fits r rest (next [msg])) :
    Follows fits r (⟨k, .coll comm (.call call :: mine) [(v, .call call :: msg)]⟩ :: rest)
      (callOn comm call mine [v] next) := by
  have h' : Follows fits r rest (next ([v].map fun _ => msg)) := h
  exact follows_callOn h'

variable {data contents : Nat → α} {x : Proc → Nat → α} {written : Bool}

variable {rank typeSize : Nat}

theorem follows_reduce_root (hrank : rank = root) (hw : w ∈ comm.members)
    (hdata : contribution true sendbuf (.mem written contents) = .ok data) (hx : ∀ i < count, data i = x w i)
    (h : Follows fits r rest (next (.mem true (Buffers.localcopy (sumOf op x comm.members w) contents count)))) :
    Follows fits r (⟨k, .coll comm (.call (.reduce root) :: pack (x w) count)
        (comm.members.map fun v => (v, .call (.reduce root) :: pack (x v) count))⟩ :: rest)
      (reduceImpl op count comm rank sendbuf (.mem written contents) root next) := by
  rw [reduceImpl, decide_eq_true hrank, hdata]
  dsimp only
  rw [if_pos hrank, pack_congr hx]
  refine follows_callOn ?_
  rw [combined_pack hw]
  exact h

theorem follows_reduce_other (hrank : rank ≠ root)
    (hdata : contribution false sendbuf recvbuf = .ok data) (hx : ∀ i < count, data i = x w i)
    (h : Follows fits r rest (next recvbuf)) :
    Follows fits r (⟨k, .coll comm (.call (.reduce root) :: pack (x w) count) []⟩ :: rest)
      (reduceImpl op count comm rank sendbuf recvbuf root next) := by
  rw [reduceImpl, decide_eq_false hrank, hdata]
  dsimp only
  rw [if_neg hrank, pack_congr hx]
  exact follows_give h

theorem follows_allreduce (hw : w ∈ comm.members)
    (hdata : contribution true sendbuf (.mem written contents) = .ok data) (hx : ∀ i < count, data i = x w i)
    (h : Follows fits r rest (next (.mem true (Buffers.localcopy (sumOf op x comm.members w) contents count)))) :
    Follows fits r (⟨k, .coll comm (.call .allreduce :: pack (x w) count)
        (comm.members.map fun v => (v, .call .allreduce :: pack (x v) count))⟩ :: rest)
      (allreduceImpl op count comm sendbuf (.mem written contents) next) := by
  rw [allreduceImpl, hdata]
  dsimp only
  rw [pack_congr hx]
  refine follows_callOn ?_
  rw [combined_pack hw]
  exact h

theorem follows_bcast_root (hbytes : nbytes typeSize count ≠ 0) (hrank : rank = root) {y : Nat → α}
    (hy : ∀ i < count, contents i = y i)
    (h : Follows fits r rest (next (.mem true contents))) :
    Follows fits r (⟨k, .coll comm (.call (.bcast root) :: pack y count) []⟩ :: rest)
      (bcastImpl count comm rank typeSize (.mem true contents) root next) := by
  rw [bcastImpl, if_neg hbytes]
  rw [if_pos hrank, if_pos rfl, pack_congr hy]
  exact follows_give h

theorem follows_bcast_other (hbytes : nbytes typeSize count ≠ 0) (hrank : rank ≠ root) {y : Nat → α}
    {v : Proc} (hv : comm.process root = v) (h : Follows fits r rest (next (.mem true (Buffers.localcopy y contents count)))) :
    Follows fits r (⟨k, .coll comm [.call (.bcast root)] [(v, .call (.bcast root) :: pack y count)]⟩ :: rest)
      (bcastImpl count comm rank typeSize (.mem written contents) root next) := by
  rw [bcastImpl, if_neg hbytes]
  rw [if_neg hrank, hv]
  refine follows_get ?_
  rw [List.headD_cons, unpack_pack]
  exact h

end Following

section Joined
variable {α : Type}

def callsOf (board : List (List (Item α))) : List (Option Call) := board.map callOf

def Joined (prog : Proc → SmpProg α) : Prop :=
  ∃ calls : CommId → List (Option Call), ∀ es s, FgMpi.Machine.Runs.run step (init prog) es = .ok s →
    ∀ c, ∀ p ∈ procsOf c, callsOf (s.board c p) <+: calls c ∧ (Finished s → callsOf (s.board c p) = calls c)

variable {act : Proc → Nat → Act CommId Proc (Item α)} {n : Nat}

theorem levels_same (hsame : ∀ k < n, SameCalls fun w => act w k) {c : CommId} {p q : Proc} (hp : p ∈ procsOf c)
    (hq : q ∈ procsOf c) : callsOf ((colls c (staged (act p) 0 n)).map Prod.snd) =
      callsOf ((colls c (staged (act q) 0 n)).map Prod.snd) := by
  rw [callsOf, callsOf, List.map_map, List.map_map, colls, colls, flatMap_staged fun k => idle_colls k c,
    flatMap_staged fun k => idle_colls k c, List.map_flatMap, List.map_flatMap]
  refine List.flatMap_congr fun k hk => ?_
  obtain ⟨-, hlt⟩ := List.mem_range'_1.mp hk
  exact hsame k (by omega) c p hp q hq k

theorem joined {procs : Finset Proc} {fits : List (Item α) → Inp CommId Proc → Prop} {prog : Proc → SmpProg α}
    {result : Proc → Except Fault (Memory α)} (hplan : Plan procs procsOf fun w => staged (act w) 0 n)
    (hsame : ∀ k < n, SameCalls fun w => act w k) (hle : ∀ msg i, fits msg i → msg.length ≤ i.cap)
    (hfollows : ∀ p, Follows fits (result p) (staged (act p) 0 n) (prog p)) : Joined prog := by
  refine ⟨fun c => callsOf ((colls c (staged (act (c.members.headD 0)) 0 n)).map Prod.snd),
    fun es s hrun c p hp => ?_⟩
  have hhead : c.members.headD 0 ∈ procsOf c :=
    List.mem_toFinset.mpr (SmpBcast.headD_mem (List.mem_toFinset.mp hp))
  obtain ⟨hpart, hdone⟩ := hplan.board_prefix hle hfollows hrun c p
  dsimp only
  rw [← levels_same hsame hp hhead]
  exact ⟨hpart.map _, fun hfin => congrArg callsOf (hdone hfin)⟩

end Joined

section Steps
variable {α : Type} {fits : List (Item α) → Inp CommId Proc → Prop} {op : α → α → α} {count k n : Nat}
variable {r : Except Fault (Memory α)} {act : Nat → Act CommId Proc (Item α)} {kind : Kind}
variable {group : Proc → Option CommId} {members : List Proc} {w : Proc} {recvbuf : Memory α}
variable {next : Memory α → SmpProg α} {x : Proc → Nat → α} {buf : Nat → α}

theorem alone (hw : w ∈ members) (h : ¬ (1 < members.length ∧ w ∈ members)) : members = [w] := by
  have hlen : members.length = 1 :=
    Nat.le_antisymm (Nat.le_of_not_lt fun hlt => h ⟨hlt, hw⟩) (List.length_pos_of_mem hw)
  obtain ⟨v, rfl⟩ := List.length_eq_one_iff.mp hlen
  rw [List.mem_singleton.mp hw]

theorem sumOf_alone (hw : w ∈ members) (h : ¬ (1 < members.length ∧ w ∈ members)) :
    sumOf op x members w = x w := by
  rw [alone hw h]
  rfl

def allreduceStep (op : α → α → α) (count : Nat) (kind : Kind) (sub : Option SubComm) (recvbuf : Memory α)
    (next : Memory α → SmpProg α) : SmpProg α :=
  match sub with
  | some c => allreduceImpl op count ⟨kind, c.members⟩ .inPlace recvbuf next
  | none => next recvbuf

def bcastStep (count typeSize : Nat) (kind : Kind) (sub : Option SubComm) (buffer : Memory α)
    (next : Memory α → SmpProg α) : SmpProg α :=
  match sub with
  | some c => bcastImpl count ⟨kind, c.members⟩ c.rank typeSize buffer 0 next
  | none => next buffer

theorem bcastStep_lost {typeSize : Nat} (hbytes : nbytes typeSize count = 0) (sub : Option SubComm)
    (buffer : Memory α) : bcastStep count typeSize kind sub buffer next = next buffer := by
  cases sub with
  | none => rfl
  | some c =>
    rw [bcastStep, bcastImpl.eq_def, if_pos hbytes]

theorem allreduceStep_follows (hgroup : Grouped group) (hthis : group w = groupOf kind members w)
    (hact : act k = allreduceLevel count group x w)
    (hrecv : w ∈ members → recvbuf = .mem true (Buffers.localcopy (x w) buf count))
    (hnext : ∀ recvbuf', (w ∈ members → recvbuf' = .mem true (Buffers.localcopy (sumOf op x members w) buf count)) →
      (w ∉ members → recvbuf' = recvbuf) → Follows fits r (staged act (k + 1) n) (next recvbuf')) :
    Follows fits r (staged act k (n + 1)) (allreduceStep op count kind (subComm members w) recvbuf next) := by
  by_cases hin : 1 < members.length ∧ w ∈ members
  · rw [groupOf_pos hin.1 hin.2] at hthis
    have hmates : ∀ v ∈ members, group v = some ⟨kind, members⟩ :=
      fun v hv => (hgroup w _ hthis).2 v (List.mem_toFinset.mpr hv)
    rw [allreduceLevel, calling_some hthis hmates] at hact
    rw [staged_coll hact, subComm, if_pos hin, hrecv hin.2]
    have hdata : contribution true .inPlace (.mem true (Buffers.localcopy (x w) buf count)) =
        .ok (Buffers.localcopy (x w) buf count) := rfl
    refine follows_allreduce hin.2 hdata (fun i hi => localcopy_below hi) ?_
    refine hnext _ (fun _ => ?_) fun hnot => absurd hin.2 hnot
    rw [localcopy_twice]
  · rw [groupOf_neg hin] at hthis
    rw [allreduceLevel, calling_none hthis] at hact
    rw [staged_idle hact, subComm, if_neg hin]
    refine hnext _ (fun hw => ?_) fun _ => rfl
    rw [sumOf_alone hw hin]
    exact hrecv hw

theorem idxOf_ne_zero (hw : w ∈ members) (hne : w ≠ members.headD 0) : members.idxOf w ≠ 0 :=
  fun hzero => hne ((SmpBcast.idxOf_zero hw).mp hzero.symm)

theorem bcastStep_follows {y : Proc → Nat → α} {typeSize : Nat} (hbytes : nbytes typeSize count ≠ 0)
    (hgroup : Grouped group) (hthis : group w = groupOf kind members w)
    (hact : act k = bcastLevel count group (fun _ => 0) y w)
    (hroot : w = members.headD 0 → w ∈ members → recvbuf = .mem true (Buffers.localcopy (y w) buf count))
    (hrecv : w ∈ members → ∃ written b, recvbuf = .mem written (Buffers.localcopy b buf count))
    (hnext : ∀ recvbuf',
      (w ∈ members → recvbuf' = .mem true (Buffers.localcopy (y (members.headD 0)) buf count)) →
      (w ∉ members → recvbuf' = recvbuf) → Follows fits r (staged act (k + 1) n) (next recvbuf')) :
    Follows fits r (staged act k (n + 1)) (bcastStep count typeSize kind (subComm members w) recvbuf next) := by
  by_cases hin : 1 < members.length ∧ w ∈ members
  · rw [groupOf_pos hin.1 hin.2] at hthis
    have hmates : ∀ v ∈ members, group v = some ⟨kind, members⟩ :=
      fun v hv => (hgroup w _ hthis).2 v (List.mem_toFinset.mpr hv)
    have hhead : members.headD 0 ∈ members := SmpBcast.headD_mem hin.2
    have hprocess : CommId.process ⟨kind, members⟩ 0 = members.headD 0 := SmpBcast.process_zero kind members
    have hdata : ∀ v ∈ members, (group v).elim [] (fun c => if c.members.idxOf v = 0 then pack (y v) count else []) =
        if members.idxOf v = 0 then pack (y v) count else [] := by
      intro v hv
      rw [hmates v hv]
      rfl
    rw [subComm, if_pos hin, bcastStep]
    dsimp only
    by_cases hself : w = members.headD 0
    · have hzero : members.idxOf w = 0 := ((SmpBcast.idxOf_zero hin.2).mpr hself).symm
      have hwants : (if members.idxOf w = 0 then [] else [CommId.process ⟨kind, members⟩ 0]) = [] := if_pos hzero
      rw [bcastLevel, calling_some hthis (by rw [hwants]; rintro v ⟨⟩), hwants, hdata w hin.2,
        if_pos hzero, List.map_nil] at hact
      rw [staged_coll hact, hroot hself hin.2]
      refine follows_bcast_root hbytes hzero (fun i hi => localcopy_below hi) ?_
      refine hnext _ (fun _ => ?_) fun hnot => absurd hin.2 hnot
      rw [← hself]
    · have hzero : members.idxOf w ≠ 0 := idxOf_ne_zero hin.2 hself
      have hwants : (if members.idxOf w = 0 then [] else [CommId.process ⟨kind, members⟩ 0]) =
          [members.headD 0] := by
        rw [if_neg hzero, hprocess]
      have hfirst : members.idxOf (members.headD 0) = 0 := ((SmpBcast.idxOf_zero hhead).mpr rfl).symm
      rw [bcastLevel, calling_some hthis (by
          rw [hwants]
          exact fun v hv => hmates v (List.mem_singleton.mp hv ▸ hhead)), hwants, hdata w hin.2,
        if_neg hzero, List.map_singleton, hdata _ hhead, if_pos hfirst] at hact
      obtain ⟨written, b, hbuf⟩ := hrecv hin.2
      rw [staged_coll hact, hbuf]
      refine follows_bcast_other hbytes hzero hprocess ?_
      refine hnext _ (fun _ => ?_) fun hnot => absurd hin.2 hnot
      rw [localcopy_twice]
  · rw [groupOf_neg hin] at hthis
    rw [bcastLevel, calling_none hthis] at hact
    rw [staged_idle hact, subComm, if_neg hin]
    refine hnext _ (fun hw => ?_) fun _ => rfl
    have hhead : members.headD 0 = w := by rw [alone hw hin]; rfl
    rw [hhead]
    exact hroot hhead.symm hw

variable {root : CommId → Nat} {c : CommId} {sendbuf : SendBuf α} {data contents : Nat → α} {written : Bool}

theorem reduce_root_level (hgroup : Grouped group) (hact : act k = reduceLevel count group root x w)
    (hthis : group w = some c) (hrank : c.members.idxOf w = root c) (hrecv : recvbuf = .mem written contents)
    (hdata : contribution true sendbuf recvbuf = .ok data) (hx : ∀ i < count, data i = x w i)
    (hnext : Follows fits r (staged act (k + 1) n)
      (next (.mem true (Buffers.localcopy (sumOf op x c.members w) contents count)))) :
    Follows fits r (staged act k (n + 1))
      (reduceImpl op count c (c.members.idxOf w) sendbuf recvbuf (root c) next) := by
  subst hrecv
  obtain ⟨hw, hmates⟩ := hgroup w c hthis
  have hwants : (if c.members.idxOf w = root c then c.members else []) = c.members := if_pos hrank
  rw [reduceLevel, calling_some hthis (by
    rw [hwants]
    exact fun v hv => hmates v (List.mem_toFinset.mpr hv)), hwants] at hact
  rw [staged_coll hact]
  exact follows_reduce_root hrank (List.mem_toFinset.mp hw) hdata hx hnext

theorem reduce_give_level (hact : act k = reduceLevel count group root x w)
    (hthis : group w = some c) (hrank : c.members.idxOf w ≠ root c)
    (hdata : contribution false sendbuf recvbuf = .ok data) (hx : ∀ i < count, data i = x w i)
    (hnext : Follows fits r (staged act (k + 1) n) (next recvbuf)) :
    Follows fits r (staged act k (n + 1))
      (reduceImpl op count c (c.members.idxOf w) sendbuf recvbuf (root c) next) := by
  have hwants : (if c.members.idxOf w = root c then c.members else []) = [] := if_neg hrank
  rw [reduceLevel, calling_some hthis (by
    rw [hwants]
    exact fun v hv => (nomatch hv)), hwants] at hact
  rw [staged_coll hact]
  exact follows_reduce_other hrank hdata hx hnext

end Steps

end FgMpi.Coll.SmpCalls
