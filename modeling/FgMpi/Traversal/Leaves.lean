import FgMpi.Traversal.Turning

/-! A piece function is handed the rest of a block or all that is left of the leaf, cut at `last`. -/

namespace FgMpi.Traversal.Leaves
open Types.Constructors (Builtin Block)
open Traversal.Dataloops Traversal.Manipulate
open Traversal.Cursors Traversal.Turning

def skipRuns : List Nat → Nat → Nat × Nat
  | [], j => (0, j)
  | n :: ns, j =>
    if 0 < j ∧ n ≤ j then ((skipRuns ns (j - n)).1 + 1, (skipRuns ns (j - n)).2) else (0, j)

theorem flatten_drop_skip {α : Type} (runs : List (List α)) (j : Nat) :
    runs.flatten.drop j = ((runs.drop (skipRuns (runs.map List.length) j).1).flatten).drop
      (skipRuns (runs.map List.length) j).2 := by
  induction runs generalizing j with
  | nil => rfl
  | cons run runs ih =>
    rw [List.map_cons, skipRuns]
    split
    · rename_i hj
      rw [List.drop_succ_cons, ← ih, List.flatten_cons, List.drop_append,
        List.drop_eq_nil_of_le hj.2, List.nil_append]
    · rfl

variable {ns : List Nat} {j : Nat}

theorem skipRuns_inside (hpos : ∀ n ∈ ns, 0 < n) (hj : j ≤ ns.sum) :
    (ns.drop (skipRuns ns j).1 = [] ∧ (skipRuns ns j).2 = 0) ∨
      ∃ n later, ns.drop (skipRuns ns j).1 = n :: later ∧ (skipRuns ns j).2 < n := by
  induction ns generalizing j with
  | nil =>
    rw [List.sum_nil, Nat.le_zero] at hj
    exact Or.inl ⟨rfl, hj⟩
  | cons n ns ih =>
    rw [skipRuns]
    split
    · rename_i hn
      rw [List.drop_succ_cons]
      refine ih (fun k hk => hpos k (List.mem_cons_of_mem _ hk)) ?_
      rw [List.sum_cons] at hj
      omega
    · rename_i hn
      have hnpos := hpos n List.mem_cons_self
      exact Or.inr ⟨n, ns, rfl, by omega⟩

theorem skipRuns_le (ns : List Nat) (j : Nat) : (skipRuns ns j).1 ≤ ns.length := by
  induction ns generalizing j with
  | nil => exact le_refl 0
  | cons n ns ih =>
    rw [skipRuns]
    split
    · exact Nat.succ_le_succ (ih (j - n))
    · exact Nat.zero_le _

theorem skipBlocks_spec (origCount : Int) (next : Int → Int) (nextLog : Int → List Event)
    (fuel : Nat) {n : Nat} (s : Skip) (hj : s.myblocks = j)
    (hcount : s.curcount = ns.length + 1) (hblock : s.curblock = n) (hsum : j ≤ n + ns.sum)
    (hpos : ∀ k ∈ ns, 0 < k) (hfuel : ns.length + 1 < fuel)
    (hnext : ∀ k v : Nat, ns[k]? = some v → next (origCount - (ns.length - k)) = v) :
    ∃ s', skipBlocks origCount next nextLog fuel s = some s' ∧ s'.myblocks = (skipRuns (n :: ns) j).2 ∧
      s'.curcount = ns.length + 1 - (skipRuns (n :: ns) j).1 ∧
      (0 < (skipRuns (n :: ns) j).1 ∨ s.countIndex = origCount - s.curcount →
        s'.countIndex = origCount - s'.curcount) ∧
      (∀ v later, (n :: ns).drop (skipRuns (n :: ns) j).1 = v :: later → s'.curblock = v) := by
  induction ns generalizing n s j fuel with
  | nil =>
    obtain ⟨fuel, rfl⟩ := Nat.exists_eq_add_of_lt hfuel
    rw [List.length_nil, Nat.zero_add, show 1 + fuel + 1 = fuel + 1 + 1 by omega]
    rw [List.sum_nil, Nat.add_zero] at hsum
    rw [skipBlocks, skipRuns, hj, hblock]
    by_cases hn : 0 < j ∧ n ≤ j
    · have hlast : j - n = 0 := by omega
      have hc : ¬s.curcount - 1 < 0 := by
        rw [hcount]
        simp
      rw [if_pos (by omega), if_pos hn]
      dsimp only
      rw [if_neg hc, hlast, skipBlocks, if_neg (by dsimp only; omega)]
      refine ⟨_, rfl, ?_, ?_, ?_, ?_⟩
      · simp only [skipRuns]
        omega
      · rw [hcount]
        simp [skipRuns]
      · intro _
        rfl
      · intro v later hv
        simp [skipRuns] at hv
    · rw [if_neg (by omega), if_neg hn]
      refine ⟨s, rfl, hj, ?_, ?_, ?_⟩
      · rw [hcount]
        simp
      · intro hidx
        exact hidx.resolve_left (Nat.lt_irrefl 0)
      · intro v later hv
        cases hv
        exact hblock
  | cons n' ns ih =>
    obtain ⟨fuel, rfl⟩ := Nat.exists_eq_add_of_lt (Nat.lt_of_le_of_lt (Nat.zero_le _) hfuel)
    rw [Nat.zero_add] at hfuel ⊢
    rw [skipBlocks, skipRuns, hj, hblock]
    by_cases hn : 0 < j ∧ n ≤ j
    · have hc : ¬s.curcount - 1 < 0 := by
        rw [hcount, List.length_cons]
        omega
      rw [if_pos (by omega), if_pos hn]
      dsimp only
      rw [if_neg hc]
      have hcount' : s.curcount - 1 = ns.length + 1 := by
        rw [hcount, List.length_cons]
        push_cast
        omega
      have hread : next (origCount - (s.curcount - 1)) = n' := by
        have := hnext 0 n' rfl
        rw [hcount']
        rwa [List.length_cons, Nat.cast_zero, Int.sub_zero, Nat.cast_succ] at this
      have hmyblocks : (j : Int) - n = ((j - n : Nat) : Int) := by omega
      obtain ⟨s', hs', hmy, hcur, hidx, hblk⟩ := ih fuel
        ⟨j - n, s.curcount - 1, next (origCount - (s.curcount - 1)),
          origCount - (s.curcount - 1), s.log ++ nextLog (origCount - (s.curcount - 1))⟩
        hmyblocks hcount' hread
        (by rw [List.sum_cons] at hsum; omega) (fun k hk => hpos k (List.mem_cons_of_mem _ hk))
        (by rw [List.length_cons] at hfuel; omega)
        (by
          intro k v hv
          have := hnext (k + 1) v (by rw [List.getElem?_cons_succ]; exact hv)
          rw [List.length_cons] at this
          rw [← this]
          congr 1
          push_cast
          omega)
      refine ⟨s', hs', hmy, ?_, ?_, ?_⟩
      · rw [hcur, List.length_cons]
        push_cast
        omega
      · intro _
        exact hidx (Or.inr rfl)
      · intro v later hv
        rw [List.drop_succ_cons] at hv
        exact hblk v later hv
    · rw [if_neg (by omega), if_neg hn]
      refine ⟨s, rfl, hj, ?_, ?_, ?_⟩
      · rw [hcount]
        simp
      · intro hidx
        exact hidx.resolve_left (Nat.lt_irrefl 0)
      · intro v later hv
        cases hv
        exact hblock

theorem skipRuns_const {v : Nat} (hv : 0 < v) (hns : ∀ n ∈ ns, n = v)
    (hj : j ≤ ns.sum) : skipRuns ns j = (j / v, j % v) := by
  induction ns generalizing j with
  | nil =>
    rw [List.sum_nil, Nat.le_zero] at hj
    subst hj
    simp [skipRuns]
  | cons n ns ih =>
    obtain rfl := hns n List.mem_cons_self
    rw [List.sum_cons] at hj
    rw [skipRuns]
    split
    · rename_i hn
      rw [ih (fun k hk => hns k (List.mem_cons_of_mem _ hk)) (by omega)]
      have hdiv := Nat.div_eq_sub_div hv hn.2
      have hmod := Nat.mod_eq_sub_mod hn.2
      rw [hdiv, hmod]
    · rename_i hn
      have hlt : j < n := by omega
      rw [Nat.div_eq_of_lt hlt, Nat.mod_eq_of_lt hlt]

def leafRuns (el : El) (off : Int) (B : Block) (later : List Block) (b : Nat) : List (List Element) :=
  (blockElements el off B).drop b :: later.map (blockElements el off)

def leafSizes (B : Block) (later : List Block) (b : Nat) : List Nat :=
  (B.blocklength - b) :: later.map (·.blocklength)

section
variable (el : El) (off : Int) (B : Block)
include el off B

theorem blockElements_length : (blockElements el off B).length = B.blocklength := by
  simp [blockElements]

theorem leafRuns_sizes (later : List Block) (b : Nat) :
    (leafRuns el off B later b).map List.length = leafSizes B later b := by
  rw [leafRuns, leafSizes, List.map_cons, List.length_drop, blockElements_length, List.map_map]
  congr 1
  refine List.map_congr_left ?_
  intro B' _
  exact blockElements_length el off B'

theorem leafRest_runs (later : List Block) (b : Nat) :
    leafRest el off (B :: later) b = (leafRuns el off B later b).flatten := by
  rw [leafRest, leafRuns, List.flatten_cons, List.flatMap_def]

theorem leafRest_length (later : List Block) (b : Nat) :
    (leafRest el off (B :: later) b).length = (leafSizes B later b).sum := by
  rw [leafRest_runs, List.length_flatten, leafRuns_sizes]

end

theorem drop_add_of_drop {α : Type} {xs later : List α} {x : α} {c : Nat}
    (h : xs.drop c = x :: later) (q : Nat) : xs.drop (c + (q + 1)) = later.drop q := by
  rw [← Nat.add_assoc, Nat.add_right_comm, ← List.drop_drop, drop_succ_of_drop h]

def Inside (p : Params) (c r : Nat) : Prop :=
  (p.blocks.drop c = [] ∧ r = 0) ∨ ∃ B later, p.blocks.drop c = B :: later ∧ r < B.blocklength

theorem leafRest_skip (el : El) (off : Int) {p : Params} {later : List Block} {B : Block}
    {c b q r : Nat} (hdrop : p.blocks.drop c = B :: later) (hpos : ∀ B' ∈ later, 0 < B'.blocklength)
    (hj : 0 < j) (hB : B.blocklength - b ≤ j) (hb : b < B.blocklength)
    (hsum : j ≤ (leafSizes B later b).sum) (hskip : skipRuns (leafSizes B later b) j = (q, r)) :
    (leafRest el off (B :: later) b).drop j = leafRest el off (p.blocks.drop (c + q)) r ∧
      p.blocks.length - (c + q) < p.blocks.length - c ∧ Inside p (c + q) r := by
  have hflat := flatten_drop_skip (leafRuns el off B later b) j
  have hsizes : ∀ n ∈ leafSizes B later b, 0 < n := by
    intro n hn
    rw [leafSizes] at hn
    rcases List.mem_cons.mp hn with rfl | hn
    · omega
    · obtain ⟨B', hB', rfl⟩ := List.mem_map.mp hn
      exact hpos B' hB'
  have hinside := skipRuns_inside hsizes hsum
  rw [leafRuns_sizes, hskip] at hflat
  rw [hskip] at hinside
  have hq : 0 < q := by
    rw [leafSizes, skipRuns, if_pos ⟨hj, hB⟩, Prod.mk.injEq] at hskip
    omega
  obtain ⟨q, rfl⟩ := Nat.exists_eq_succ_of_ne_zero (Nat.pos_iff_ne_zero.mp hq)
  have hlen := length_of_drop hdrop
  rw [leafRest_runs, hflat, Inside, Nat.succ_eq_add_one, drop_add_of_drop hdrop, leafRuns,
    List.drop_succ_cons, ← List.map_drop]
  rw [leafSizes, List.drop_succ_cons, ← List.map_drop] at hinside
  cases hmore : later.drop q with
  | nil =>
    rw [hmore] at hinside
    refine ⟨by simp [leafRest], by omega, Or.inl ⟨rfl, ?_⟩⟩
    rcases hinside with hin | ⟨n, ns, hns, _⟩
    · exact hin.2
    · cases hns
  | cons B' more =>
    rw [hmore] at hinside
    have hr : r < B'.blocklength := by
      rcases hinside with hin | ⟨n, ns, hns, hr⟩
      · cases hin.1
      · cases hns
        exact hr
    refine ⟨?_, by omega, Or.inr ⟨B', more, rfl, hr⟩⟩
    rw [List.map_cons, List.flatten_cons, leafRest, List.flatMap_def]
    exact List.drop_append_of_le_length (by rw [blockElements_length]; omega)

section Advance
variable (beyond : Int → Int) {exact : Prop} {p : Params} {el : El} {off : Int} {c b : Nat}
  {elm : Stackelm} {B : Block} {later : List Block}

structure Advances (exact : Prop) (p : Params) (el : El) (off : Int) (elm : Stackelm) (c' r : Nat)
    (a : Advance) : Prop where
  fixed : Fixed (.leaf p el) a.elm
  reloading : a.elm.mayRequireReloading = elm.mayRequireReloading
  done : a.pop = true → p.blocks.drop c' = []
  goesOn : a.pop = false → ∃ B' later', LeafAt exact p el off c' r a.elm B' later'

variable {count j q r : Nat}

theorem advance_contig
    (h : LeafAt exact (.contig count) el off c b elm B later)
    (hfixed : Fixed (.leaf (.contig count) el) elm) (hj : elm.curblock ≤ j)
    (hsum : j ≤ (leafSizes B later b).sum) (hb : b < B.blocklength)
    (hskip : skipRuns (leafSizes B later b) j = (q, r)) :
    ∃ a, advance beyond (.contig count) el elm j = some a ∧
      Advances exact (.contig count) el off elm (c + q) r a := by
  obtain ⟨rfl, rfl⟩ := contig_block (getElem?_of_drop h.blocks)
  have hlater : later = [] := (List.cons.inj h.blocks).2.symm
  subst hlater
  have hblock := h.curblock
  have hcount : elm.curcount = 1 := h.curcount
  have hsizes : leafSizes ⟨count, 0⟩ [] b = [count - b] := rfl
  rw [hsizes, List.sum_cons, List.sum_nil] at hsum
  dsimp only at hblock hb
  have hjeq : (j : Int) = elm.curblock := by omega
  rw [hsizes, skipRuns, if_pos ⟨by omega, by omega⟩, Prod.mk.injEq] at hskip
  refine ⟨⟨elm, true, []⟩, by simp only [advance, hjeq, hcount, and_self, if_true],
    hfixed, rfl, ?_, fun h => nomatch h⟩
  intro _
  obtain ⟨hq, _⟩ := hskip
  have hzero : (skipRuns [] (j - (count - b))).1 = 0 := rfl
  rw [hzero] at hq
  subst hq
  rfl

theorem reached_count (hp : p.Consistent) (h : LeafAt exact p el off c b elm B later)
    (hskip : skipRuns (leafSizes B later b) j = (q, r)) :
    elm.curcount - q = ((p.blocks.drop (c + q)).length : Int) := by
  have hlen := length_of_drop h.blocks
  have hle := skipRuns_le (leafSizes B later b) j
  rw [hskip, leafSizes, List.length_cons, List.length_map] at hle
  rw [h.curcount, ← blocks_length hp, List.length_drop]
  dsimp only at hle
  omega

theorem skipRuns_zero (ns : List Nat) : skipRuns ns 0 = (0, 0) := by
  cases ns with
  | nil => rfl
  | cons n ns => rw [skipRuns, if_neg (by omega)]

theorem skip_vector {v : Nat} (hB : B.blocklength = v)
    (hlater : ∀ B' ∈ later, B'.blocklength = v) (hb : b < v) (hcut : b = 0 ∨ j = v - b)
    (hsum : j ≤ (leafSizes B later b).sum) (hskip : skipRuns (leafSizes B later b) j = (q, r)) :
    q = j / (v - b) ∧ r = j % (v - b) := by
  rcases hcut with rfl | rfl
  · rw [skipRuns_const hb ?_ hsum, Prod.mk.injEq] at hskip
    · rw [Nat.sub_zero]
      exact ⟨hskip.1.symm, hskip.2.symm⟩
    · intro n hn
      rw [leafSizes, Nat.sub_zero] at hn
      rcases List.mem_cons.mp hn with rfl | hn
      · exact hB
      · obtain ⟨B', hB', rfl⟩ := List.mem_map.mp hn
        exact hlater B' hB'
  · rw [leafSizes, hB, skipRuns, if_pos ⟨by omega, le_refl _⟩, Nat.sub_self, skipRuns_zero,
      Prod.mk.injEq] at hskip
    rw [Nat.div_self (by omega), Nat.mod_self]
    exact ⟨hskip.1.symm, hskip.2.symm⟩

theorem advance_vector {blocksize : Nat} {stride : Int}
    (hp : (Params.vector count blocksize stride).Consistent)
    (h : LeafAt exact (.vector count blocksize stride) el off c b elm B later)
    (hfixed : Fixed (.leaf (.vector count blocksize stride) el) elm)
    (hcut : b = 0 ∨ j = B.blocklength - b) (hsum : j ≤ (leafSizes B later b).sum)
    (hb : b < B.blocklength) (hskip : skipRuns (leafSizes B later b) j = (q, r))
    (hin : Inside (.vector count blocksize stride) (c + q) r) :
    ∃ a, advance beyond (.vector count blocksize stride) el elm j = some a ∧
      Advances exact (.vector count blocksize stride) el off elm (c + q) r a := by
  have hall : ∀ B' ∈ (Params.vector count blocksize stride).blocks, B'.blocklength = blocksize :=
    fun B' hB' => blocksize_of_block rfl hB'
  have hmemB : B ∈ (Params.vector count blocksize stride).blocks :=
    List.mem_of_getElem? (getElem?_of_drop h.blocks)
  have hlater : ∀ B' ∈ later, B'.blocklength = blocksize := by
    intro B' hB'
    refine hall B' (List.mem_of_mem_drop (i := c) ?_)
    rw [h.blocks]
    exact List.mem_cons_of_mem _ hB'
  have hB := hall B hmemB
  rw [hB] at hb hcut
  obtain ⟨hq, hr⟩ := skip_vector hB hlater hb hcut hsum hskip
  have hblock : elm.curblock = ((blocksize - b : Nat) : Int) := by
    rw [h.curblock, hB]
    omega
  have hcount := reached_count hp h hskip
  have horigBlock : elm.origBlock = blocksize := hfixed.origBlock _ rfl
  have horigCount : elm.origCount = count := hfixed.origCount
  simp only [advance, hblock, ← Int.ofNat_tdiv, ← Int.ofNat_tmod, ← hq, ← hr, hcount]
  rcases hin with ⟨hnil, hzero⟩ | ⟨B', later', hdrop, hr'⟩
  · rw [hnil, hzero]
    refine ⟨_, rfl, ?_, rfl, fun _ => hnil, fun h => nomatch h⟩
    exact ⟨hfixed.loopP, hfixed.origCount, hfixed.reloading, hfixed.origBlock⟩
  · have hne : ((Params.vector count blocksize stride).blocks.drop (c + q)).length ≠ 0 := by
      rw [hdrop]
      exact Nat.succ_ne_zero _
    have hB' := vector_block (getElem?_of_drop hdrop)
    have hcurcount : (((Params.vector count blocksize stride).blocks.drop (c + q)).length : Int) =
        paramsOrigCount (.vector count blocksize stride) - ((c + q : Nat) : Int) := by
      rw [← hcount, h.curcount]
      push_cast
      omega
    rw [if_neg (by exact_mod_cast hne)]
    refine ⟨_, rfl, ?_, rfl, (fun h => nomatch h),
      fun _ => ⟨B', later', hdrop, ?_, ?_, ?_, h.origOffset, ?_⟩⟩
    · exact ⟨hfixed.loopP, hfixed.origCount, hfixed.reloading, hfixed.origBlock⟩
    · exact hcurcount
    · rw [hB']
      dsimp only
      rw [horigBlock]
    · exact Or.inl hr'
    · intro hexact
      dsimp only
      rw [hcurcount, horigCount, horigBlock, h.origOffset hexact, hB']
      have hsub : (count : Int) - (paramsOrigCount (.vector count blocksize stride) -
          ((c + q : Nat) : Int)) = ((c + q : Nat) : Int) := by
        simp only [paramsOrigCount, Params.count]
        omega
      rw [hsub]
      congr 2
      omega

theorem advance_skipping {next newOrig : Int → Int} {nextLog : Int → List Event}
    {offsetArray : List Int} (hp : p.Consistent)
    (h : LeafAt exact p el off c b elm B later) (hfixed : Fixed (.leaf p el) elm)
    (hpos : ∀ B' ∈ later, 0 < B'.blocklength)
    (hnext : ∀ (i : Nat) (B' : Block), p.blocks[i]? = some B' → next i = B'.blocklength)
    (hoff : ∀ (i : Nat) (B' : Block), p.blocks[i]? = some B' → offsetArray[i]? = some B'.disp)
    (horig : ∀ n, paramsBlocksize? p = some n → ∀ x, newOrig x = n)
    (hB : B.blocklength - b ≤ j) (hb : b < B.blocklength)
    (hsum : j ≤ (leafSizes B later b).sum) (hskip : skipRuns (leafSizes B later b) j = (q, r))
    (hin : Inside p (c + q) r) :
    ∃ a, (skipBlocks elm.origCount next nextLog (elm.curcount.toNat + 1)
        ⟨j, elm.curcount, elm.curblock, 0, []⟩).bind
          (skipped beyond el elm offsetArray count newOrig) = some a ∧
      Advances exact p el off elm (c + q) r a := by
  have hlen := length_of_drop h.blocks
  have hcount : elm.curcount = ((later.map (·.blocklength)).length : Int) + 1 := by
    rw [h.curcount, ← blocks_length hp, hlen, List.length_map]
    push_cast
    omega
  have hblock : elm.curblock = ((B.blocklength - b : Nat) : Int) := by
    rw [h.curblock]
    omega
  have horigCount : elm.origCount = (p.blocks.length : Int) := by
    rw [blocks_length hp]
    exact hfixed.origCount
  have hskip' : skipRuns ((B.blocklength - b) :: later.map (·.blocklength)) j = (q, r) := hskip
  obtain ⟨s', hs', hmy, hcur, hidx, hblk⟩ := skipBlocks_spec elm.origCount next nextLog
    (elm.curcount.toNat + 1) ⟨j, elm.curcount, elm.curblock, 0, []⟩ rfl hcount hblock hsum
    (by
      intro k hk
      obtain ⟨B', hB', rfl⟩ := List.mem_map.mp hk
      exact hpos B' hB')
    (by omega)
    (by
      intro k v hv
      rw [List.getElem?_map, Option.map_eq_some_iff] at hv
      obtain ⟨B', hB', rfl⟩ := hv
      have hget : p.blocks[c + 1 + k]? = some B' := by
        rw [← List.getElem?_drop, drop_succ_of_drop h.blocks]
        exact hB'
      rw [← hnext _ _ hget, horigCount, hlen, List.length_map]
      congr 1
      push_cast
      omega)
  rw [hskip'] at hmy hcur hidx hblk
  have hqpos : 0 < q := by
    have hstep := hskip'
    rw [skipRuns, if_pos ⟨by omega, hB⟩, Prod.mk.injEq] at hstep
    omega
  have hreached := reached_count hp h hskip
  have hcurcount : s'.curcount = ((p.blocks.drop (c + q)).length : Int) := by
    rw [hcur, ← hreached, hcount]
  rw [hs', Option.bind_some, skipped]
  rcases hin with ⟨hnil, hzero⟩ | ⟨B', later', hdrop, hr⟩
  · rw [hnil] at hcurcount
    have hmyblocks : s'.myblocks = 0 := by rw [hmy, hzero]; rfl
    rw [if_pos (show s'.curcount = 0 from hcurcount), if_pos hmyblocks]
    exact ⟨_, rfl, ⟨hfixed.loopP, hfixed.origCount, hfixed.reloading, hfixed.origBlock⟩, rfl,
      fun _ => hnil, fun h => nomatch h⟩
  · have hne : s'.curcount ≠ 0 := by
      rw [hcurcount, hdrop, List.length_cons]
      omega
    have hindex : s'.countIndex = ((c + q : Nat) : Int) := by
      have hlen' := length_of_drop hdrop
      rw [hidx (Or.inl hqpos), hcurcount, horigCount, hdrop, hlen', List.length_cons]
      push_cast
      omega
    have hsize : s'.curblock = (B'.blocklength : Int) := by
      have hruns : ((B.blocklength - b) :: later.map (·.blocklength)).drop q =
          B'.blocklength :: later'.map (·.blocklength) := by
        obtain ⟨q, rfl⟩ := Nat.exists_eq_succ_of_ne_zero (Nat.pos_iff_ne_zero.mp hqpos)
        rw [Nat.succ_eq_add_one, drop_add_of_drop h.blocks] at hdrop
        rw [List.drop_succ_cons, ← List.map_drop, hdrop, List.map_cons]
      exact hblk _ _ hruns
    rw [if_neg hne]
    refine ⟨_, rfl, ⟨hfixed.loopP, hfixed.origCount, hfixed.reloading, ?_⟩, rfl,
      (fun h => nomatch h), fun _ => ⟨B', later', hdrop, ?_, ?_, Or.inl hr, h.origOffset, ?_⟩⟩
    · intro n hn
      exact horig n hn _
    · dsimp only
      rw [hcurcount, ← hreached, h.curcount]
      push_cast
      omega
    · dsimp only
      rw [hsize, hmy]
    · intro hexact
      dsimp only
      rw [hindex, readArray_nat beyond (hoff _ _ (getElem?_of_drop hdrop)), h.origOffset hexact, hmy]

theorem advance_spec (hp : p.Consistent) (h : LeafAt exact p el off c b elm B later)
    (hfixed : Fixed (.leaf p el) elm) (hpos : ∀ B' ∈ later, 0 < B'.blocklength)
    (hcut : b = 0 ∨ j = B.blocklength - b) (hB : B.blocklength - b ≤ j)
    (hb : b < B.blocklength) (hsum : j ≤ (leafSizes B later b).sum)
    (hskip : skipRuns (leafSizes B later b) j = (q, r)) :
    ∃ a, advance beyond p el elm j = some a ∧ Advances exact p el off elm (c + q) r a := by
  obtain ⟨_, _, hin⟩ :=
    leafRest_skip el off h.blocks hpos (by omega) hB hb hsum hskip
  cases p with
  | contig count =>
    refine advance_contig beyond h hfixed ?_ hsum hb hskip
    rw [h.curblock]
    omega
  | vector count blocksize stride => exact advance_vector beyond hp h hfixed hcut hsum hb hskip hin
  | blockindexed count blocksize offsetArray =>
    have hsize : elm.origBlock = blocksize := hfixed.origBlock _ rfl
    refine advance_skipping beyond hp h hfixed hpos ?_ ?_ ?_ hB hb hsum hskip hin
    · intro i B' hB'
      rw [hsize, (blockindexed_block hB').1]
    · intro i B' hB'
      exact (blockindexed_block hB').2
    · intro n hn _
      exact hfixed.origBlock n hn
  | indexed count blocksizeArray offsetArray totalBlocks =>
    refine advance_skipping beyond hp h hfixed hpos ?_ ?_ ?_ hB hb hsum hskip hin
    · intro i B' hB'
      exact readBlocksizes_nat beyond (indexed_block hB').1
    · intro i B' hB'
      exact (indexed_block hB').2
    · intro n hn
      cases hn

end Advance

end FgMpi.Traversal.Leaves
