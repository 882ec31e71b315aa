import FgMpi.Zerocopy.Ownership

/-! The search of `mpi/init/fginit.c` in the table of the ranges of ranks. -/

namespace FgMpi.Procmap.WorldRanks

/-- `FGP_tuple_t`. -/
structure FgpTuple where
  fgStartrank : Int
  numfgps : Int
deriving Repr, DecidableEq

inductive Order
  | less
  | equal
  | greater
deriving Repr, DecidableEq

/-- What a search comes to; `unfinished` is a search that has run out of steps, `outOfTable` an access
outside the table. -/
inductive Search
  | found (pid : Nat)
  | notFound
  | outOfTable
  | unfinished
deriving Repr, DecidableEq

def fgIsWithin (rank startFgrank numfgps : Int) : Order :=
  if rank ≥ startFgrank ∧ rank < startFgrank + numfgps then .equal
  else if rank ≥ startFgrank + numfgps then .greater
  else .less

/-- The loop of `FGI_worldrank_to_pid`; the first argument is the number of steps that are left. -/
def searchLoop (pidToFgps : List FgpTuple) (fgwrank : Int) : Nat → Int → Int → Search
  | 0, _, _ => .unfinished
  | fuel + 1, low, high =>
    if low ≤ high then
      let mid := (low + high).tdiv 2
      if mid < 0 then .outOfTable
      else
        match pidToFgps[mid.toNat]? with
        | none => .outOfTable
        | some entry =>
          match fgIsWithin fgwrank entry.fgStartrank entry.numfgps with
          | .less => searchLoop pidToFgps fgwrank fuel low (mid - 1)
          | .greater => searchLoop pidToFgps fgwrank fuel (mid + 1) high
          | .equal => .found mid.toNat
    else .notFound

def worldrankToPidI (pidToFgps : List FgpTuple) (fgwrank : Int) : Search :=
  searchLoop pidToFgps fgwrank (pidToFgps.length + 1) 0 (pidToFgps.length - 1)

/-- `FG_worldrank_to_pid`; `none` where it calls `MPID_Abort`. -/
def worldrankToPid (pidToFgps : List FgpTuple) (fgWorldrank : Int) : Option Nat :=
  match worldrankToPidI pidToFgps fgWorldrank with
  | .found pid => some pid
  | _ => none

def FgpTuple.Holds (entry : FgpTuple) (rank : Int) : Prop :=
  entry.fgStartrank ≤ rank ∧ rank < entry.fgStartrank + entry.numfgps

/-- A table whose ranges follow each other from 0 on. -/
structure Table where
  entries : List FgpTuple
  first : ∀ entry : FgpTuple, entries[0]? = some entry → entry.fgStartrank = 0
  next : ∀ (i : Nat) (entry entry' : FgpTuple), entries[i]? = some entry → entries[i + 1]? = some entry' →
    entry'.fgStartrank = entry.fgStartrank + entry.numfgps
  positive : ∀ (i : Nat) (entry : FgpTuple), entries[i]? = some entry → 1 ≤ entry.numfgps
  nonempty : 0 < entries.length

section Ranges
variable {table : Table} {i j : Nat} {entry entry' : FgpTuple} {rank : Int}

theorem ends_before (hij : i < j) (hi : table.entries[i]? = some entry) (hj : table.entries[j]? = some entry') :
    entry.fgStartrank + entry.numfgps ≤ entry'.fgStartrank := by
  induction j generalizing entry' with
  | zero => omega
  | succ j ih =>
    have hlt : j < table.entries.length := by
      have := (List.getElem?_eq_some_iff.mp hj).1
      omega
    have hmid : table.entries[j]? = some table.entries[j] := List.getElem?_eq_getElem hlt
    have hstep := table.next j _ _ hmid hj
    rcases Nat.lt_or_eq_of_le (Nat.le_of_lt_succ hij) with hlater | rfl
    · have hend := ih hlater hmid
      have hpos := table.positive j _ hmid
      omega
    · rw [hi] at hmid
      rw [hstep, ← Option.some.inj hmid]

theorem start_nonneg (hi : table.entries[i]? = some entry) : 0 ≤ entry.fgStartrank := by
  have hpos := table.nonempty
  have hfirst : table.entries[0]? = some table.entries[0] := List.getElem?_eq_getElem hpos
  have hzero := table.first _ hfirst
  rcases Nat.eq_zero_or_pos i with rfl | hpos
  · rw [hi] at hfirst
    rw [Option.some.inj hfirst, hzero]
  · have hend := ends_before hpos hfirst hi
    have hsize := table.positive 0 _ hfirst
    omega

theorem holds_unique (hi : table.entries[i]? = some entry) (hj : table.entries[j]? = some entry')
    (hrank : entry.Holds rank) (hrank' : entry'.Holds rank) : i = j := by
  obtain ⟨hlow, hhigh⟩ := hrank
  obtain ⟨hlow', hhigh'⟩ := hrank'
  rcases Nat.lt_trichotomy i j with hlt | heq | hlt
  · have := ends_before hlt hi hj
    omega
  · exact heq
  · have := ends_before hlt hj hi
    omega

def Table.totprocs (table : Table) : Int :=
  (table.entries[table.entries.length - 1]?).elim 0 fun entry => entry.fgStartrank + entry.numfgps

theorem exists_holds_below (n : Nat) (hn : table.entries[n]? = some entry) (hzero : 0 ≤ rank)
    (hrank : rank < entry.fgStartrank + entry.numfgps) :
    ∃ (j : Nat) (entry' : FgpTuple), table.entries[j]? = some entry' ∧ entry'.Holds rank := by
  induction n generalizing entry with
  | zero =>
    have hstart := table.first entry hn
    exact ⟨0, entry, hn, by omega, hrank⟩
  | succ n ih =>
    have hlt : n < table.entries.length := by
      have := (List.getElem?_eq_some_iff.mp hn).1
      omega
    have hmid : table.entries[n]? = some table.entries[n] := List.getElem?_eq_getElem hlt
    have hstep := table.next n _ _ hmid hn
    by_cases hlow : entry.fgStartrank ≤ rank
    · exact ⟨n + 1, entry, hn, hlow, hrank⟩
    · exact ih hmid (by omega)

theorem exists_holds_iff : (∃ (j : Nat) (entry' : FgpTuple), table.entries[j]? = some entry' ∧ entry'.Holds rank) ↔
    0 ≤ rank ∧ rank < table.totprocs := by
  have hpos := table.nonempty
  have hlt : table.entries.length - 1 < table.entries.length := by omega
  have hlast := List.getElem?_eq_getElem hlt
  have htotal : table.totprocs = table.entries[table.entries.length - 1].fgStartrank +
      table.entries[table.entries.length - 1].numfgps := by
    rw [Table.totprocs, hlast]
    rfl
  rw [htotal]
  constructor
  · rintro ⟨j, entry', hj, hlow, hhigh⟩
    have hstart := start_nonneg hj
    have hbound := (List.getElem?_eq_some_iff.mp hj).1
    refine ⟨by omega, ?_⟩
    rcases Nat.lt_or_eq_of_le (Nat.le_sub_one_of_lt hbound) with hbefore | rfl
    · have hend := ends_before hbefore hj hlast
      have hsize := table.positive _ _ hlast
      omega
    · rw [hj] at hlast
      rw [← Option.some.inj hlast]
      exact hhigh
  · rintro ⟨hzero, hrank⟩
    exact exists_holds_below _ hlast hzero hrank

end Ranges

section Searching
variable {table : Table} {rank low high : Int} {fuel : Nat}

variable {entry : FgpTuple}

theorem fgIsWithin_equal : fgIsWithin rank entry.fgStartrank entry.numfgps = .equal ↔ entry.Holds rank := by
  unfold fgIsWithin FgpTuple.Holds
  split
  · rename_i h
    exact ⟨fun _ => ⟨h.1, h.2⟩, fun _ => rfl⟩
  · rename_i h
    constructor
    · intro heq
      split at heq <;> exact nomatch heq
    · exact fun hand => absurd ⟨hand.1, hand.2⟩ h

theorem fgIsWithin_less (h : fgIsWithin rank entry.fgStartrank entry.numfgps = .less) :
    rank < entry.fgStartrank := by
  unfold fgIsWithin at h
  split at h
  · exact nomatch h
  · split at h
    · exact nomatch h
    · omega

theorem fgIsWithin_greater (h : fgIsWithin rank entry.fgStartrank entry.numfgps = .greater) :
    entry.fgStartrank + entry.numfgps ≤ rank := by
  unfold fgIsWithin at h
  split at h
  · exact nomatch h
  · split at h
    · omega
    · exact nomatch h

structure Bracket (table : Table) (rank low high : Int) : Prop where
  low_nonneg : 0 ≤ low
  high_lt : high < table.entries.length
  ordered : low ≤ high + 1
  between : ∀ (j : Nat) (entry : FgpTuple), table.entries[j]? = some entry → entry.Holds rank → low ≤ j ∧ j ≤ high

theorem searchLoop_spec (h : Bracket table rank low high) (hfuel : high + 1 - low < fuel) :
    (∃ (pid : Nat) (entry : FgpTuple), searchLoop table.entries rank fuel low high = .found pid ∧
        table.entries[pid]? = some entry ∧ entry.Holds rank) ∨
      searchLoop table.entries rank fuel low high = .notFound ∧
        ∀ (j : Nat) (entry : FgpTuple), table.entries[j]? = some entry → ¬ entry.Holds rank := by
  induction fuel generalizing low high with
  | zero =>
    have hordered := h.ordered
    omega
  | succ fuel ih =>
    obtain ⟨hzero, hhigh, hordered, hbetween⟩ := h
    rw [searchLoop]
    by_cases hle : low ≤ high
    · have hdiv : (low + high).tdiv 2 = (low + high) / 2 := Int.tdiv_eq_ediv_of_nonneg (by omega)
      obtain ⟨mid, hmid⟩ : ∃ mid : Nat, (low + high) / 2 = mid := ⟨((low + high) / 2).toNat, by omega⟩
      have hlow : low ≤ mid := by omega
      have hup : (mid : Int) ≤ high := by omega
      have hlt : mid < table.entries.length := by omega
      have hentry := List.getElem?_eq_getElem hlt
      rw [if_pos hle, hdiv, hmid]
      dsimp only
      rw [if_neg (by omega), Int.toNat_natCast, hentry]
      dsimp only
      cases hcase : fgIsWithin rank table.entries[mid].fgStartrank table.entries[mid].numfgps with
      | equal => exact .inl ⟨mid, _, rfl, hentry, fgIsWithin_equal.mp hcase⟩
      | less =>
        -- the range of the rank comes before this one
        have hbelow := fgIsWithin_less hcase
        refine ih ⟨hzero, by omega, by omega, fun j entry hj hrank => ?_⟩ (by omega)
        obtain ⟨hj₁, hj₂⟩ := hbetween j entry hj hrank
        refine ⟨hj₁, ?_⟩
        obtain ⟨hstart, -⟩ := hrank
        have hne : j ≠ mid := by
          rintro rfl
          rw [hentry] at hj
          rw [Option.some.inj hj] at hbelow
          omega
        have hnot : ¬ mid < j := by
          intro hafter
          have hend := ends_before hafter hentry hj
          have hsize := table.positive mid _ hentry
          omega
        omega
      | greater =>
        have habove := fgIsWithin_greater hcase
        refine ih ⟨by omega, hhigh, by omega, fun j entry hj hrank => ?_⟩ (by omega)
        obtain ⟨hj₁, hj₂⟩ := hbetween j entry hj hrank
        refine ⟨?_, hj₂⟩
        obtain ⟨-, hend⟩ := hrank
        have hne : j ≠ mid := by
          rintro rfl
          rw [hentry] at hj
          rw [Option.some.inj hj] at habove
          omega
        have hnot : ¬ j < mid := by
          intro hbefore
          have hend' := ends_before hbefore hj hentry
          have hsize := table.positive mid _ hentry
          omega
        omega
    · rw [if_neg hle]
      refine .inr ⟨rfl, fun j entry hj hrank => ?_⟩
      obtain ⟨hj₁, hj₂⟩ := hbetween j entry hj hrank
      omega

theorem worldrankToPidI_spec (table : Table) (rank : Int) :
    (∃ (pid : Nat) (entry : FgpTuple), worldrankToPidI table.entries rank = .found pid ∧
        table.entries[pid]? = some entry ∧ entry.Holds rank) ∨
      worldrankToPidI table.entries rank = .notFound ∧
        ∀ (j : Nat) (entry : FgpTuple), table.entries[j]? = some entry → ¬ entry.Holds rank := by
  refine searchLoop_spec ⟨Int.le_refl 0, by omega, by omega, fun j entry hj _ => ?_⟩ (by omega)
  have hlt := (List.getElem?_eq_some_iff.mp hj).1
  omega

theorem worldrankToPidI_found {pid : Nat} : worldrankToPidI table.entries rank = .found pid ↔
    ∃ entry : FgpTuple, table.entries[pid]? = some entry ∧ entry.Holds rank := by
  rcases worldrankToPidI_spec table rank with ⟨pid', entry', hfound, hentry', hrank'⟩ | ⟨hnone, hnot⟩
  · rw [hfound, Search.found.injEq]
    constructor
    · rintro rfl
      exact ⟨entry', hentry', hrank'⟩
    · rintro ⟨entry, hentry, hrank⟩
      exact holds_unique hentry' hentry hrank' hrank
  · rw [hnone]
    constructor
    · intro h
      exact nomatch h
    · rintro ⟨entry, hentry, hrank⟩
      exact absurd hrank (hnot pid entry hentry)

theorem worldrankToPidI_notFound :
    worldrankToPidI table.entries rank = .notFound ↔ ¬ (0 ≤ rank ∧ rank < table.totprocs) := by
  rw [← exists_holds_iff]
  rcases worldrankToPidI_spec table rank with ⟨pid, entry, hfound, hentry, hrank⟩ | ⟨hnone, hnot⟩
  · rw [hfound]
    exact ⟨fun h => (nomatch h), fun h => absurd ⟨pid, entry, hentry, hrank⟩ h⟩
  · rw [hnone]
    refine ⟨fun _ => ?_, fun _ => rfl⟩
    rintro ⟨j, entry, hentry, hrank⟩
    exact hnot j entry hentry hrank

theorem worldrankToPid_some {pid : Nat} : worldrankToPid table.entries rank = some pid ↔
    ∃ entry : FgpTuple, table.entries[pid]? = some entry ∧ entry.Holds rank := by
  rw [← worldrankToPidI_found, worldrankToPid]
  cases worldrankToPidI table.entries rank with
  | found pid' => simp
  | notFound => simp
  | outOfTable => simp
  | unfinished => simp

end Searching

def Colocated (table : Table) (rank rank' : Int) : Prop :=
  ∃ (pid : Nat) (entry : FgpTuple), table.entries[pid]? = some entry ∧ entry.Holds rank ∧ entry.Holds rank'

section Colocation
variable {table : Table}

theorem worldrankToPid_inRange {rank : Int} (h : 0 ≤ rank ∧ rank < table.totprocs) :
    ∃ (pid : Nat) (entry : FgpTuple), worldrankToPid table.entries rank = some pid ∧
      table.entries[pid]? = some entry ∧ entry.Holds rank := by
  obtain ⟨pid, entry, hentry, hrank⟩ := exists_holds_iff.mpr h
  exact ⟨pid, entry, worldrankToPid_some.mpr ⟨entry, hentry, hrank⟩, hentry, hrank⟩

theorem same_pid_iff {rank rank' : Int} (h : 0 ≤ rank ∧ rank < table.totprocs)
    (h' : 0 ≤ rank' ∧ rank' < table.totprocs) :
    worldrankToPid table.entries rank = worldrankToPid table.entries rank' ↔ Colocated table rank rank' := by
  obtain ⟨pid, entry, hpid, hentry, hrank⟩ := worldrankToPid_inRange h
  obtain ⟨pid', entry', hpid', hentry', hrank'⟩ := worldrankToPid_inRange h'
  rw [hpid, hpid', Option.some.injEq]
  constructor
  · rintro rfl
    rw [hentry] at hentry'
    obtain rfl := Option.some.inj hentry'
    exact ⟨pid, entry, hentry, hrank, hrank'⟩
  · rintro ⟨p, e, he, hin, hin'⟩
    rw [← holds_unique he hentry hin hrank, ← holds_unique he hentry' hin' hrank']

def placeOf (pidToFgps : List FgpTuple) (worldrank : Nat) : Nat := (worldrankToPid pidToFgps worldrank).getD 0

end Colocation

def threeRanges : Table where
  entries := [⟨0, 2⟩, ⟨2, 1⟩, ⟨3, 3⟩]
  first entry h := by
    obtain rfl := Option.some.inj h
    rfl
  next i entry entry' h h' := by
    match i with
    | 0 => obtain ⟨rfl, rfl⟩ := And.intro (Option.some.inj h) (Option.some.inj h'); rfl
    | 1 => obtain ⟨rfl, rfl⟩ := And.intro (Option.some.inj h) (Option.some.inj h'); rfl
    | i + 2 => exact nomatch h'
  positive i entry h := by
    match i with
    | 0 => obtain rfl := Option.some.inj h; decide
    | 1 => obtain rfl := Option.some.inj h; decide
    | 2 => obtain rfl := Option.some.inj h; decide
    | i + 3 => exact nomatch h
  nonempty := by decide

end FgMpi.Procmap.WorldRanks
