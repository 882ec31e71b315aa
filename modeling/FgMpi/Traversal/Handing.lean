import FgMpi.Traversal.Offers
import Mathlib.Tactic.Linarith

namespace FgMpi.Traversal.Handing
open Types.Constructors (Builtin Block)
open Machine.Turns Traversal.Dataloops Traversal.Manipulate
open Traversal.Cursors Traversal.Turning Traversal.Leaves
open Traversal.Offers

section Handing
variable {σ : Type} (beyond : Int → Int) (fns : Pieces σ) (ptr last : Int)

structure Offer where
  el : El
  piece : Piece
  blocks : Int
  cut : Bool

def leafOffer (p : Params) (el : El) (m : Local σ) : Option Offer :=
  let choice := choose beyond fns p el m.curElmp
  let myblocks := limit fns last el m choice.2
  if cuts fns last el m choice.2 ∧ myblocks = 0 then none
  else choice.1.map (⟨el, ·, myblocks, decide (cuts fns last el m choice.2)⟩)

def offer (m : Local σ) : Option Offer :=
  match m.curElmp.loopP with
  | .leaf p el => leafOffer beyond fns last p el m
  | _ => none

def call (m : Local σ) (o : Offer) : Ret σ := fns.apply o.piece o.blocks ptr m.pieceparams

def Asked (m : Local σ) : Prop :=
  ∃ o, offer beyond fns last m = some o ∧
    ((call fns ptr m o).exit = true ∨ (call fns ptr m o).blocks < o.blocks)

def Processes (m : Local σ) : Prop :=
  ∀ o, offer beyond fns last m = some o → ∀ k : Nat, o.blocks = k → Proper fns o.el k o.piece →
    0 < k → ∃ j : Nat, (call fns ptr m o).blocks = j ∧ j ≤ k ∧ (call fns ptr m o).failed = false

def Within (m : Local σ) : Prop := last ≠ ignoreLast → m.streamOff ≤ last

def Stops (m : Local σ) (stack : List Cursor) : Prop :=
  restOf stack = [] ∨ ∃ e es, restOf stack = e :: es ∧ last ≠ ignoreLast ∧
    last < m.streamOff + streamElSize fns e.el

variable (exact : Prop) (root : Dataloop)

structure Handed (m : Local σ) (stack : List Cursor) (taken : List Element) (m' : Local σ)
    (stack' : List Cursor) : Prop where
  moves : Moves exact root fns m stack taken m' stack'
  within : Within last m'
  nothing : offer beyond fns last m = none →
    m'.pieceparams = m.pieceparams ∧ (fns.contigfn = true → taken = [])
  piece : ∀ o, offer beyond fns last m = some o →
    m'.pieceparams = (call fns ptr m o).pieceparams ∧ (call fns ptr m o).blocks = taken.length ∧
      (exact → taken = pieceElements o.el taken.length o.piece) ∧
      ∃ k : Nat, o.blocks = k ∧ Proper fns o.el k o.piece ∧ 0 < k
  cut : ∀ o, offer beyond fns last m = some o → o.cut = true → (taken.length : Int) = o.blocks →
    Stops fns last m' stack'

def Hands (m : Local σ) (stack : List Cursor) (t : Turn (Local σ) (Local σ)) : Prop :=
  t.Ends
    (fun m' => ∃ taken stack', stack' ≠ [] ∧
      Handed beyond fns ptr last exact root m stack taken m' stack' ∧
      leftOf stack' < leftOf stack)
    (fun m' => ∃ taken stack', Handed beyond fns ptr last exact root m stack taken m' stack' ∧
      leftOf stack' ≤ leftOf stack ∧
      (Stops fns last m' stack' ∨ Asked beyond fns ptr last m))

variable {fns last exact root} {el : El} {m : Local σ}

structure Limited (fns : Pieces σ) (last : Int) (el : El) (m : Local σ) (n k : Nat) : Prop where
  eq : limit fns last el m n = k
  le : k ≤ n
  within : last ≠ ignoreLast → m.streamOff + k * streamElSize fns el ≤ last
  cut : cuts fns last el m n →
    last ≠ ignoreLast ∧ last < m.streamOff + (k + 1 : Nat) * streamElSize fns el
  whole : ¬cuts fns last el m n → k = n

theorem limit_spec (fns : Pieces σ) (el : El) (hwithin : Within last m) (n : Nat) : ∃ k, Limited fns last el m n k := by
  by_cases hcut : cuts fns last el m n
  · obtain ⟨hlast, hover⟩ := hcut
    have hroom : 0 ≤ last - m.streamOff := by
      have := hwithin hlast
      omega
    obtain ⟨room, hroomeq⟩ := Int.eq_ofNat_of_zero_le hroom
    have hsize : 0 < streamElSize fns el := by
      refine Nat.pos_of_ne_zero ?_
      intro hzero
      rw [hzero] at hover
      have := hwithin hlast
      simp at hover
      omega
    have hmul : room / streamElSize fns el * streamElSize fns el ≤ room := Nat.div_mul_le_self _ _
    have hlt : room < (room / streamElSize fns el + 1) * streamElSize fns el := by
      rw [Nat.add_mul, Nat.one_mul]
      exact Nat.lt_div_mul_add hsize
    refine ⟨room / streamElSize fns el, ?_, ?_, ?_, ?_, ?_⟩
    · rw [limit, if_pos ⟨hlast, hover⟩, hroomeq, ← Int.ofNat_tdiv]
    · refine Nat.le_of_lt ((Nat.div_lt_iff_lt_mul hsize).mpr ?_)
      have hroom' : (room : Int) < n * streamElSize fns el := by omega
      exact_mod_cast hroom'
    · intro _
      omega
    · intro _
      exact ⟨hlast, by omega⟩
    · intro hnot
      exact absurd ⟨hlast, hover⟩ hnot
  · refine ⟨n, ?_, le_refl n, ?_, fun h => absurd h hcut, fun _ => rfl⟩
    · rw [limit, if_neg hcut]
    · intro hlast
      by_contra hover
      exact hcut ⟨hlast, by omega⟩

theorem blocklength_pos_of {p : Params} (hp : p.Consistent) {B : Block} (hB : B ∈ p.blocks)
    (hpos : 0 < B.blocklength) : p.Full := by
  intro B' hB'
  cases p with
  | contig count =>
    rw [Params.blocks, List.mem_singleton] at hB hB'
    rw [hB', ← hB]
    exact hpos
  | vector count blocksize stride =>
    rw [blocksize_of_block rfl hB] at hpos
    rw [blocksize_of_block rfl hB']
    exact hpos
  | blockindexed count blocksize offsetArray =>
    rw [blocksize_of_block rfl hB] at hpos
    rw [blocksize_of_block rfl hB']
    exact hpos
  | indexed count blocksizeArray offsetArray totalBlocks =>
    obtain ⟨b, hb, rfl⟩ := List.mem_map.mp hB'
    exact hp.2.2.2.1 b.1 (List.of_mem_zip hb).1

theorem leafRest_el {el : El} {off : Int} {bs : List Block} {b : Nat} {e : Element}
    (he : e ∈ leafRest el off bs b) : e.el = el := by
  have hblock : ∀ B : Block, ∀ e ∈ blockElements el off B, e.el = el := by
    intro B e he
    obtain ⟨i, _, rfl⟩ := List.mem_map.mp he
    rfl
  cases bs with
  | nil => cases he
  | cons B later =>
    rcases List.mem_append.mp he with he | he
    · exact hblock B e (List.mem_of_mem_drop he)
    · obtain ⟨B', _, he⟩ := List.mem_flatMap.mp he
      exact hblock B' e he

theorem streamSize_const {es : List Element} (h : ∀ e ∈ es, e.el = el) :
    streamSize fns es = es.length * streamElSize fns el := by
  rw [streamSize, List.map_congr_left fun e he => congrArg (streamElSize fns) (h e he),
    List.map_const', List.sum_replicate]
  rfl

variable {p : Params} {off : Int} {c b : Nat} {below : List Cursor} {B : Block}
  {later : List Block}

theorem moves_leaf (elm : Stackelm) (blocks : Int) {taken : List Element} {c' r : Nat}
    {m' : Local σ} (h : Sim exact root m.stackelm m.curSp (⟨.leaf p el, off, c, b⟩ :: below))
    (hat : At exact ⟨.leaf p el, off, c', r⟩ elm)
    (hmay : elm.mayRequireReloading = m.curElmp.mayRequireReloading)
    (hst : m'.stackelm = Function.update m.stackelm m.curSp.toNat elm) (hsp : m'.curSp = m.curSp)
    (hstream : m'.streamOff = m.streamOff + blocks * streamElSize fns el)
    (hblocks : blocks = taken.length) (hel : ∀ e ∈ taken, e.el = el)
    (hrest : leafRest el off (p.blocks.drop c) b =
      taken ++ leafRest el off (p.blocks.drop c') r) (hfault : m'.fault = none) :
    Moves exact root fns m (⟨.leaf p el, off, c, b⟩ :: below) taken m'
      (⟨.leaf p el, off, c', r⟩ :: below) where
  sim := by
    rw [hst, hsp]
    exact h.moved hat hmay
  rest := by
    rw [restOf_cons, restOf_cons, rest_leaf, rest_leaf, hrest, List.append_assoc]
  stream := by
    rw [hstream, hblocks, streamSize_const hel]
    push_cast
    rfl
  fault := hfault

variable {ret : Ret σ}

theorem update_spec (hroot : root.Shaped)
    (h : Sim exact root m.stackelm m.curSp (⟨.leaf p el, off, c, b⟩ :: below))
    (hat : LeafAt exact p el off c b m.curElmp B later) (hb : b < B.blocklength)
    (hfault : m.fault = none) {j : Nat} (hj : ret.blocks = j)
    (hok : ret.failed = false) (hsum : j ≤ (leafSizes B later b).sum) (hcut : b = 0 ∨ j ≤ B.blocklength - b) :
    (update beyond fns p el m ret).Ends
      (fun m' => ∃ stack', stack' ≠ [] ∧
        Moves exact root fns m (⟨.leaf p el, off, c, b⟩ :: below)
          ((leafRest el off (B :: later) b).take j) m' stack' ∧
        m'.pieceparams = ret.pieceparams ∧
        leftOf stack' < leftOf (⟨.leaf p el, off, c, b⟩ :: below))
      (fun m' => ∃ stack',
        Moves exact root fns m (⟨.leaf p el, off, c, b⟩ :: below)
          ((leafRest el off (B :: later) b).take j) m' stack' ∧
        m'.pieceparams = ret.pieceparams ∧
        leftOf stack' ≤ leftOf (⟨.leaf p el, off, c, b⟩ :: below) ∧
        (stack' = [] ∨ ret.exit = true ∨ j < B.blocklength - b)) := by
  have hshaped : p.Consistent := h.shaped hroot
  have hfixed : Fixed (.leaf p el) m.curElmp := h.at_top.1
  have hdrop := hat.blocks
  have hmem : B ∈ p.blocks := List.mem_of_getElem? (getElem?_of_drop hdrop)
  have hfull := blocklength_pos_of hshaped hmem (by omega)
  have hlater : ∀ B' ∈ later, 0 < B'.blocklength := by
    intro B' hB'
    refine hfull B' (List.mem_of_mem_drop (i := c) ?_)
    rw [hdrop]
    exact List.mem_cons_of_mem _ hB'
  have hlen := leafRest_length el off B later b
  have htaken : (((leafRest el off (B :: later) b).take j).length : Int) = j := by
    rw [List.length_take, hlen, min_eq_left hsum]
  have hel : ∀ e ∈ (leafRest el off (B :: later) b).take j, e.el = el :=
    fun e he => leafRest_el (List.mem_of_mem_take he)
  have hcurblock : m.curElmp.curblock = ((B.blocklength - b : Nat) : Int) := by
    rw [hat.curblock]
    omega
  have hrest : ∀ {c' r : Nat}, (leafRest el off (B :: later) b).drop j =
      leafRest el off (p.blocks.drop c') r → leafRest el off (p.blocks.drop c) b =
        (leafRest el off (B :: later) b).take j ++ leafRest el off (p.blocks.drop c') r := by
    intro c' r heq
    rw [hdrop, ← heq, List.take_append_drop]
  unfold update
  have hgood : ¬(false = true ∨ (j : Int) < 0) := by
    rintro (hfail | hneg)
    · cases hfail
    · omega
  simp only [hj, hok, hcurblock]
  rw [if_neg hgood]
  have hinside : j < B.blocklength - b →
      (leafRest el off (B :: later) b).drop j = leafRest el off (p.blocks.drop c) (b + j) := by
    intro hlt
    have hle : j ≤ ((blockElements el off B).drop b).length := by
      rw [List.length_drop, blockElements_length]
      omega
    rw [hdrop, leafRest, leafRest, List.drop_append_of_le_length hle, List.drop_drop]
  by_cases hzero : j = 0
  · -- nothing has been processed
    subst hzero
    rw [if_pos (by rfl)]
    refine ⟨⟨.leaf p el, off, c, b⟩ :: below, ⟨h, ?_, ?_, hfault⟩, rfl, le_refl _,
      Or.inr (Or.inr (by omega))⟩
    · rw [List.take_zero, List.nil_append]
    · simp
  rw [if_neg (by omega)]
  by_cases hlt : j < B.blocklength - b
  · -- the rest of the block stays
    rw [if_pos (by omega)]
    refine ⟨⟨.leaf p el, off, c, b + j⟩ :: below,
      moves_leaf
        { m.curElmp with
          curoffset := m.curElmp.curoffset + j * el.size
          curblock := ((B.blocklength - b : Nat) : Int) - j }
        j h
        ⟨⟨hfixed.loopP, hfixed.origCount, hfixed.reloading, hfixed.origBlock⟩, B, later, hdrop,
          hat.curcount, ?_, Or.inl (show b + j < B.blocklength by omega), hat.origOffset, ?_⟩ rfl rfl
        rfl rfl htaken.symm hel (hrest (hinside hlt)) hfault, rfl, ?_, Or.inr (Or.inr hlt)⟩
    · change ((B.blocklength - b : Nat) : Int) - j = B.blocklength - ((b + j : Nat) : Int)
      omega
    · intro hexact
      dsimp only
      rw [hat.curoffset hexact]
      push_cast
      ring
    · rw [leftOf_cons, leftOf_cons, left_leaf, left_leaf]
  -- whole blocks
  rw [if_neg (by omega)]
  have hB : B.blocklength - b ≤ j := by omega
  rcases hskip : skipRuns (leafSizes B later b) j with ⟨q, r⟩
  obtain ⟨hgoes, hless, _⟩ :=
    leafRest_skip el off hdrop hlater (by omega) hB hb hsum hskip
  obtain ⟨a, hadvance, hadv⟩ := advance_spec beyond hshaped hat hfixed hlater
    (hcut.imp_right fun hle => by omega) hB hb hsum hskip
  rw [hadvance]
  dsimp only
  by_cases hpop : a.pop = true
  · rw [if_pos hpop]
    have hdone := hadv.done hpop
    have hpopped := h.popped hadv.fixed (by rintro _ _ _ ⟨⟩) hadv.reloading
    have hleft : leftOf below < leftOf (⟨.leaf p el, off, c, b⟩ :: below) := by
      rw [leftOf_cons, left_leaf, hdrop, List.length_cons]
      omega
    have hend : restOf (⟨.leaf p el, off, c, b⟩ :: below) =
        (leafRest el off (B :: later) b).take j ++ restOf below := by
      rw [restOf_cons, rest_leaf, hrest hgoes, hdone, leafRest, List.append_nil]
    refine Turn.Ends.mono (pop_moves fns m hpopped hend ?_ hfault h.nonneg) ?_ ?_
    · rw [streamSize_const hel]
      push_cast
      rw [htaken]
      rfl
    · intro m'' hm
      exact ⟨below, hm.1, hm.2.1, hm.2.2, hleft⟩
    · intro m'' hm
      exact ⟨below, hm.1, hm.2.1, le_of_lt hleft, hm.2.2.imp_right Or.inl⟩
  · rw [if_neg hpop]
    obtain ⟨B', later', hat'⟩ := hadv.goesOn (Bool.eq_false_iff.mpr hpop)
    have hleft : leftOf (⟨.leaf p el, off, c + q, r⟩ :: below) <
        leftOf (⟨.leaf p el, off, c, b⟩ :: below) := by
      rw [leftOf_cons, leftOf_cons, left_leaf, left_leaf, List.length_drop, List.length_drop]
      omega
    by_cases hexit : ret.exit = true
    · rw [if_pos hexit]
      exact ⟨_, moves_leaf a.elm j h ⟨hadv.fixed, B', later', hat'⟩ hadv.reloading rfl rfl rfl
        htaken.symm hel (hrest hgoes) hfault, rfl, le_of_lt hleft, Or.inr (Or.inl hexit)⟩
    · rw [if_neg hexit]
      exact ⟨_, List.cons_ne_nil _ _, moves_leaf a.elm j h ⟨hadv.fixed, B', later', hat'⟩
        hadv.reloading rfl rfl rfl htaken.symm hel (hrest hgoes) hfault, rfl, hleft⟩

theorem next_of_drop (el : El) (off : Int) {B : Block} {later : List Block} {b j : Nat}
    (hj : j < (leafSizes B later b).sum) :
    ∃ e es, (leafRest el off (B :: later) b).drop j = e :: es ∧ e.el = el := by
  obtain ⟨e, es, hes⟩ := List.exists_cons_of_length_pos
    (l := (leafRest el off (B :: later) b).drop j)
    (by rw [List.length_drop, leafRest_length]; omega)
  have hmem : e ∈ (leafRest el off (B :: later) b).drop j := by
    rw [hes]
    exact List.mem_cons_self
  exact ⟨e, es, hes, leafRest_el (List.mem_of_mem_drop hmem)⟩

structure Choice (fns : Pieces σ) (last : Int) (exact : Prop) (root : Dataloop) (m : Local σ) (p : Params) (el : El)
    (off : Int) (c b : Nat) (below : List Cursor) (B : Block) (later : List Block) (piece : Option Piece)
    (n k : Nat) : Prop where
  sim : Sim exact root m.stackelm m.curSp (⟨.leaf p el, off, c, b⟩ :: below)
  place : LeafAt exact p el off c b m.curElmp B later
  more : b < B.blocklength
  choice : choose beyond fns p el m.curElmp = (piece, (n : Int))
  chosen : Chosen exact fns p el off b B later (piece, (n : Int)) n
  limited : Limited fns last el m n k

theorem exists_choice (hroot : root.Shaped) (h : Sim exact root m.stackelm m.curSp (⟨.leaf p el, off, c, b⟩ :: below))
    (hcur : m.curElmp.curblock ≠ 0) (hwithin : Within last m) : ∃ B later piece n k,
      Choice beyond fns last exact root m p el off c b below B later piece n k := by
  have hshaped : p.Consistent := h.shaped hroot
  obtain ⟨hfixed, B, later, hat⟩ := h.at_top
  have hb : b < B.blocklength := by
    have hblock : m.curElmp.curblock = B.blocklength - b := hat.curblock
    have hinside : b < B.blocklength ∨ b = 0 := hat.inside
    omega
  obtain ⟨n, hchosen⟩ := choose_spec beyond fns hshaped hat hfixed hb
  obtain ⟨k, hlimit⟩ := limit_spec fns el hwithin n
  have hchoice : choose beyond fns p el m.curElmp = ((choose beyond fns p el m.curElmp).1, (n : Int)) :=
    Prod.ext rfl hchosen.blocks
  exact ⟨B, later, _, n, k, h, hat, hb, hchoice, hchoice ▸ hchosen, hlimit⟩

section Choice
variable {beyond} {piece : Option Piece} {n k : Nat}
  (h : Choice beyond fns last exact root m p el off c b below B later piece n k)
include h

theorem Choice.offer : offer beyond fns last m = if cuts fns last el m n ∧ (k : Int) = 0 then none
    else piece.map (⟨el, ·, k, decide (cuts fns last el m n)⟩) := by
  have hloop : m.curElmp.loopP = .leaf p el := h.sim.at_top.1.loopP
  rw [Handing.offer, hloop]
  dsimp only
  rw [leafOffer, h.choice]
  dsimp only
  rw [h.limited.eq]

theorem Choice.rest (j : Nat) : restOf (⟨.leaf p el, off, c, b⟩ :: below) =
    (leafRest el off (B :: later) b).take j ++ ((leafRest el off (B :: later) b).drop j ++ restOf below) := by
  rw [← List.append_assoc, List.take_append_drop, restOf_cons, rest_leaf, h.place.blocks]

theorem Choice.pos (hoffered : ¬(cuts fns last el m n ∧ (k : Int) = 0)) : 0 < k := by
  refine Nat.pos_of_ne_zero ?_
  intro hk
  by_cases hcut : cuts fns last el m n
  · exact hoffered ⟨hcut, by exact_mod_cast hk⟩
  · have hwhole := h.limited.whole hcut
    have hfits := h.chosen.fits.1
    have hmore := h.more
    omega

theorem Choice.fits : fitsBlock piece k m.curElmp.curblock := by
  cases piece with
  | none => trivial
  | some pc =>
    cases pc with
    | contig elType relOff =>
      have hn := h.chosen.contig elType relOff rfl
      have hle := h.limited.le
      have hmore := h.more
      have hblock : m.curElmp.curblock = B.blocklength - b := h.place.curblock
      change (k : Int) ≤ m.curElmp.curblock
      omega
    | _ => trivial

theorem Choice.next {j : Nat} (hj : j < n) : ∃ e es, e.el = el ∧
    (leafRest el off (B :: later) b).drop j ++ restOf below = e :: es := by
  obtain ⟨e, es, hes, hel⟩ := next_of_drop el off (Nat.lt_of_lt_of_le hj h.chosen.fits.2)
  exact ⟨e, es ++ restOf below, hel, by rw [hes]; rfl⟩

theorem Choice.cut_lt (hcut : cuts fns last el m n) : k < n := by
  refine Nat.lt_of_le_of_ne h.limited.le ?_
  rintro rfl
  exact absurd hcut.2 (by have := h.limited.within (h.limited.cut hcut).1; omega)

theorem Choice.hands_blocked (log : List Event) (hfault : m.fault = none) (hwithin : Within last m)
    (hblocked : cuts fns last el m n ∧ (k : Int) = 0) :
    Hands beyond fns ptr last exact root m (⟨.leaf p el, off, c, b⟩ :: below) (.leave (m.add log)) := by
  have hoffer := h.offer
  rw [if_pos hblocked] at hoffer
  obtain ⟨hlast, hover⟩ := h.limited.cut hblocked.1
  have hk : k = 0 := by exact_mod_cast hblocked.2
  refine ⟨[], ⟨.leaf p el, off, c, b⟩ :: below,
    ⟨⟨h.sim, rfl, by simp [Local.add], hfault⟩, hwithin, fun _ => ⟨rfl, fun _ => rfl⟩, ?_, ?_⟩,
    le_refl _, Or.inl (Or.inr ?_)⟩
  · intro o ho
    rw [hoffer] at ho
    cases ho
  · intro o ho
    rw [hoffer] at ho
    cases ho
  · obtain ⟨e, es, hel, hes⟩ := h.next (show 0 < n by have := h.cut_lt hblocked.1; omega)
    refine ⟨e, es, ?_, hlast, ?_⟩
    · rw [h.rest 0, hes, List.take_zero, List.nil_append]
    · change last < m.streamOff + streamElSize fns e.el
      rw [hel]
      rw [hk] at hover
      simpa using hover

theorem Choice.returned (hcall : Processes beyond fns ptr last m) (hoffered : ¬(cuts fns last el m n ∧ (k : Int) = 0)) :
    ∃ j : Nat, (callPiece fns ptr piece k m.pieceparams).blocks = j ∧ j ≤ k ∧
      (callPiece fns ptr piece k m.pieceparams).failed = false ∧ (piece = none → j = k) := by
  have hoffer := h.offer
  rw [if_neg hoffered] at hoffer
  cases piece with
  | none => exact ⟨k, rfl, le_refl k, rfl, fun _ => rfl⟩
  | some pc =>
    obtain ⟨j, hj, hjk, hok⟩ := hcall _ hoffer k rfl (h.chosen.proper pc rfl k h.limited.le) (h.pos hoffered)
    exact ⟨j, hj, hjk, hok, by rintro ⟨⟩⟩

section Taken
variable {j : Nat} (hjk : j ≤ k)
include hjk

theorem Choice.taken_length : ((leafRest el off (B :: later) b).take j).length = j := by
  rw [List.length_take, leafRest_length, min_eq_left]
  exact le_trans hjk (le_trans h.limited.le h.chosen.fits.2)

theorem Choice.taken_size : streamSize fns ((leafRest el off (B :: later) b).take j) = j * streamElSize fns el := by
  rw [streamSize_const fun e he => leafRest_el (List.mem_of_mem_take he), h.taken_length hjk]

variable {m' : Local σ} {stack' : List Cursor}
  (hmoves : Moves exact root fns m (⟨.leaf p el, off, c, b⟩ :: below) ((leafRest el off (B :: later) b).take j) m' stack')
include hmoves

theorem Choice.stops (hcut : cuts fns last el m n) (hall : j = k) :
    Stops fns last m' stack' := by
  obtain ⟨hlast, hover⟩ := h.limited.cut hcut
  obtain ⟨e, es, hel, hes⟩ := h.next (show j < n by have := h.cut_lt hcut; omega)
  refine Or.inr ⟨e, es, ?_, hlast, ?_⟩
  · rw [← List.append_cancel_left ((h.rest j).symm.trans hmoves.rest), hes]
  · rw [hel, hmoves.stream, h.taken_size hjk, hall]
    push_cast at hover ⊢
    linarith

theorem Choice.handed (hoffered : ¬(cuts fns last el m n ∧ (k : Int) = 0))
    (hj : (callPiece fns ptr piece k m.pieceparams).blocks = j)
    (hparams : m'.pieceparams = (callPiece fns ptr piece k m.pieceparams).pieceparams) :
    Handed beyond fns ptr last exact root m (⟨.leaf p el, off, c, b⟩ :: below)
      ((leafRest el off (B :: later) b).take j) m' stack' := by
  have hoffer := h.offer
  rw [if_neg hoffered] at hoffer
  refine ⟨hmoves, ?_, ?_, ?_, ?_⟩
  · intro hlast
    have hk := h.limited.within hlast
    have hsize : ((j * streamElSize fns el : Nat) : Int) ≤ k * streamElSize fns el := by
      exact_mod_cast Nat.mul_le_mul_right _ hjk
    rw [hmoves.stream, h.taken_size hjk]
    linarith
  · intro hnone
    rw [hoffer, Option.map_eq_none_iff] at hnone
    rw [hnone] at hparams
    refine ⟨hparams, ?_⟩
    intro hcontig
    rw [h.chosen.absent hnone] at hcontig
    cases hcontig
  · intro o ho
    rw [hoffer, Option.map_eq_some_iff] at ho
    obtain ⟨pc, rfl, rfl⟩ := ho
    refine ⟨hparams, ?_, ?_, k, rfl, h.chosen.proper pc rfl k h.limited.le, h.pos hoffered⟩
    · rw [h.taken_length hjk]
      exact hj
    · intro hexact
      rw [h.taken_length hjk]
      exact (h.chosen.elements pc rfl hexact j (le_trans hjk h.limited.le)).symm
  · intro o ho hcut hall
    rw [hoffer, Option.map_eq_some_iff] at ho
    obtain ⟨pc, _, rfl⟩ := ho
    rw [h.taken_length hjk] at hall
    have hall' : (j : Int) = k := hall
    exact h.stops hjk hmoves (of_decide_eq_true hcut) (by exact_mod_cast hall')

theorem Choice.leaves (hoffered : ¬(cuts fns last el m n ∧ (k : Int) = 0))
    (hj : (callPiece fns ptr piece k m.pieceparams).blocks = j) (hnone : piece = none → j = k)
    (hwhy : stack' = [] ∨ (callPiece fns ptr piece k m.pieceparams).exit = true ∨ j < B.blocklength - b) :
    Stops fns last m' stack' ∨ Asked beyond fns ptr last m := by
  have hoffer := h.offer
  rw [if_neg hoffered] at hoffer
  have hasked : (callPiece fns ptr piece k m.pieceparams).exit = true ∨ j < k → Asked beyond fns ptr last m := by
    intro hwhy
    cases piece with
    | none => exact absurd hwhy (by have := hnone rfl; simp [callPiece]; omega)
    | some pc =>
      refine ⟨_, hoffer, hwhy.imp_right ?_⟩
      intro hlt
      change (fns.apply pc k ptr m.pieceparams).blocks < (k : Int)
      have hret : (fns.apply pc k ptr m.pieceparams).blocks = j := hj
      omega
  rcases hwhy with hnil | hexit | hlt
  · exact Or.inl (Or.inl (by rw [hnil]; rfl))
  · exact Or.inr (hasked (Or.inl hexit))
  · rcases Nat.lt_or_eq_of_le hjk with hless | heq
    · exact Or.inr (hasked (Or.inr hless))
    · -- all that was offered, and less than the block: it was cut
      refine Or.inl (h.stops hjk hmoves ?_ heq)
      by_contra hcut
      have hwhole := h.limited.whole hcut
      have hfits := h.chosen.fits.1
      omega

end Taken

end Choice

theorem leafTurn_spec (hroot : root.Shaped)
    (h : Sim exact root m.stackelm m.curSp (⟨.leaf p el, off, c, b⟩ :: below))
    (hfault : m.fault = none) (hcur : m.curElmp.curblock ≠ 0) (hwithin : Within last m)
    (hcall : Processes beyond fns ptr last m) :
    Hands beyond fns ptr last exact root m (⟨.leaf p el, off, c, b⟩ :: below)
      (leafTurn beyond fns ptr last p el m) := by
  obtain ⟨B, later, piece, n, k, hch⟩ := exists_choice beyond hroot h hcur hwithin
  unfold leafTurn
  rw [hch.choice]
  dsimp only
  rw [hch.limited.eq]
  by_cases hblocked : cuts fns last el m n ∧ (k : Int) = 0
  · rw [if_pos hblocked]
    exact hch.hands_blocked ptr _ hfault hwithin hblocked
  rw [if_neg hblocked, if_pos hch.fits]
  obtain ⟨j, hj, hjk, hok, hnone⟩ := hch.returned ptr hcall hblocked
  have hjn : j ≤ (leafSizes B later b).sum := le_trans hjk (le_trans hch.limited.le hch.chosen.fits.2)
  have hcutj : b = 0 ∨ j ≤ B.blocklength - b := by
    refine hch.chosen.cut.imp_right ?_
    intro hn
    have hle := hch.limited.le
    omega
  refine Turn.Ends.mono (update_spec beyond (m := m.add (chooseLog fns p m.curElmp ++
    limitLog fns last el m n)) hroot h hch.place hch.more hfault hj hok hjn hcutj) ?_ ?_
  · rintro m' ⟨stack', hne, hmoves, hparams, hleft⟩
    exact ⟨_, stack', hne, hch.handed ptr hjk ⟨hmoves.sim, hmoves.rest, hmoves.stream, hmoves.fault⟩ hblocked hj hparams, hleft⟩
  · rintro m' ⟨stack', hmoves, hparams, hleft, hwhy⟩
    have hmoves' : Moves exact root fns m (⟨.leaf p el, off, c, b⟩ :: below)
        ((leafRest el off (B :: later) b).take j) m' stack' :=
      ⟨hmoves.sim, hmoves.rest, hmoves.stream, hmoves.fault⟩
    exact ⟨_, stack', hch.handed ptr hjk hmoves' hblocked hj hparams, hleft,
      hch.leaves ptr hjk hmoves' hblocked hj hnone hwhy⟩

/-- The stack element is not at a leaf without elements. -/
def NotEmpty (m : Local σ) : Prop := m.curElmp.loopP.isLeaf = true → m.curElmp.curblock ≠ 0

theorem hands_of_quiet {stack : List Cursor} {t : Turn (Local σ) (Local σ)}
    (hleaf : m.curElmp.loopP.isLeaf = false) (hwithin : Within last m)
    (h : Quiet exact root fns m stack t) : Hands beyond fns ptr last exact root m stack t := by
  have hoffer : offer beyond fns last m = none := by
    unfold offer
    cases hloop : m.curElmp.loopP with
    | leaf p el =>
      rw [hloop] at hleaf
      cases hleaf
    | node p el dl => rfl
    | struct ms => rfl
  have hhanded : ∀ m' stack', Moves exact root fns m stack [] m' stack' → m'.pieceparams = m.pieceparams →
      Handed beyond fns ptr last exact root m stack [] m' stack' := by
    intro m' stack' hmoves hparams
    refine ⟨hmoves, ?_, fun _ => ⟨hparams, fun _ => rfl⟩, ?_, ?_⟩
    · intro hlast
      rw [hmoves.stream]
      simpa using hwithin hlast
    · intro o ho
      rw [hoffer] at ho
      cases ho
    · intro o ho
      rw [hoffer] at ho
      cases ho
  refine Turn.Ends.mono h ?_ ?_
  · rintro m' ⟨stack', hne, hmoves, hparams, hleft⟩
    exact ⟨[], stack', hne, hhanded m' stack' hmoves hparams, hleft⟩
  · rintro m' ⟨hmoves, hparams⟩
    exact ⟨[], [], hhanded m' [] hmoves hparams, Nat.zero_le _, Or.inl (Or.inl rfl)⟩

variable {cu : Cursor}

theorem turn_spec (hroot : root.Shaped)
    (h : Sim exact root m.stackelm m.curSp (cu :: below)) (hfault : m.fault = none)
    (hempty : NotEmpty m) (hwithin : Within last m) (hcall : Processes beyond fns ptr last m) :
    Hands beyond fns ptr last exact root m (cu :: below) (turn beyond fns ptr last m) := by
  obtain ⟨dl, off, c, b⟩ := cu
  have hfixed : Fixed dl m.curElmp := h.at_top.1
  unfold turn
  simp only [hfixed.loopP]
  cases hleaf : dl.isLeaf with
  | false =>
    have hloop : m.curElmp.loopP.isLeaf = false := by rw [hfixed.loopP, hleaf]
    rw [if_neg (by decide)]
    split
    · rename_i hend
      exact hands_of_quiet beyond ptr hloop hwithin (endOfBlock_spec beyond hroot h hleaf hend hfault)
    · rename_i hmore
      exact hands_of_quiet beyond ptr hloop hwithin (push_spec beyond hroot h hleaf hmore hfault)
  | true =>
    cases dl with
    | node p el dl => cases hleaf
    | struct ms => cases hleaf
    | leaf p el =>
      obtain ⟨_, B, later, hat⟩ := h.at_top
      have hcount : m.curElmp.curcount ≠ 0 := curcount_ne_zero hat (h.shaped hroot)
      rw [if_pos (by rfl), if_neg hcount, pieceTurn]
      simp only [hfixed.loopP]
      exact leafTurn_spec beyond ptr hroot h hfault (hempty (by rw [hfixed.loopP]; rfl)) hwithin
        hcall

theorem notEmpty_of_filled (hroot : root.Filled)
    (h : Sim exact root m.stackelm m.curSp (cu :: below)) : NotEmpty m := by
  intro hleaf
  obtain ⟨dl, off, c, b⟩ := cu
  have hfixed : Fixed dl m.curElmp := h.at_top.1
  have hfilled := filled_top hroot h.holds
  rw [hfixed.loopP] at hleaf
  cases dl with
  | node p el dl => cases hleaf
  | struct ms => cases hleaf
  | leaf p el =>
    obtain ⟨_, B, later, hat⟩ := h.at_top
    rw [Dataloop.Filled] at hfilled
    have hB := hfilled.1 B (List.mem_of_getElem? (getElem?_of_drop hat.blocks))
    have hblock : m.curElmp.curblock = B.blocklength - b := hat.curblock
    have hinside : b < B.blocklength ∨ b = 0 := hat.inside
    omega

variable {o : Offer}

theorem offer_filled (hroot : root.Filled) (h : Sim exact root m.stackelm m.curSp (cu :: below))
    (ho : offer beyond fns last m = some o) : 0 < o.el.size ∧ o.el.type.size = o.el.size := by
  have hloop : m.curElmp.loopP = cu.loop := h.at_top.1.loopP
  have htop := filled_top hroot h.holds
  unfold offer at ho
  rw [hloop] at ho
  cases hcu : cu.loop with
  | node p el dl =>
    rw [hcu] at ho
    cases ho
  | struct ms =>
    rw [hcu] at ho
    cases ho
  | leaf p el =>
    rw [hcu] at ho
    rw [hcu, Dataloop.Filled] at htop
    simp only [leafOffer] at ho
    split at ho
    · cases ho
    · obtain ⟨pc, _, rfl⟩ := Option.map_eq_some_iff.mp ho
      exact htop.2

theorem choose_contig {p : Params} {el : El} {elm : Stackelm} {elType : Builtin} {relOff : Int}
    (h : (choose beyond fns p el elm).1 = some (.contig elType relOff)) :
    (choose beyond fns p el elm).2 = elm.curblock := by
  unfold choose at h ⊢
  cases p with
  | contig count => rfl
  | vector count blocksize stride =>
    dsimp only at h ⊢
    split at h
    · cases h
    · rename_i hplain
      rw [if_neg hplain]
  | blockindexed count blocksize offsetArray =>
    dsimp only at h ⊢
    split at h
    · cases h
    · rename_i hplain
      rw [if_neg hplain]
  | indexed count blocksizeArray offsetArray totalBlocks =>
    dsimp only at h ⊢
    split at h
    · cases h
    · rename_i hplain
      rw [if_neg hplain]

theorem turn_offer (hroot : root.Shaped)
    (h : Sim exact root m.stackelm m.curSp (cu :: below)) (hwithin : Within last m)
    (ho : offer beyond fns last m = some o) :
    ∃ p log, turn beyond fns ptr last m =
      update beyond fns p o.el (m.add log) (call fns ptr m o) := by
  obtain ⟨dl, off, c, b⟩ := cu
  have hfixed : Fixed dl m.curElmp := h.at_top.1
  unfold offer at ho
  rw [hfixed.loopP] at ho
  cases dl with
  | node p el dl => cases ho
  | struct ms => cases ho
  | leaf p el =>
    obtain ⟨_, B, later, hat⟩ := h.at_top
    have hcount : m.curElmp.curcount ≠ 0 := curcount_ne_zero hat (h.shaped hroot)
    have hblock : m.curElmp.curblock = ((B.blocklength - b : Nat) : Int) := by
      have hcur : m.curElmp.curblock = B.blocklength - b := hat.curblock
      have hinside : b < B.blocklength ∨ b = 0 := hat.inside
      omega
    have hplain : ∀ elType relOff,
        (choose beyond fns p el m.curElmp).1 = some (.contig elType relOff) →
          (choose beyond fns p el m.curElmp).2 = m.curElmp.curblock :=
      fun _ _ => choose_contig beyond
    simp only [turn, hfixed.loopP, isLeaf_leaf, if_true, if_neg hcount, pieceTurn, leafTurn]
    simp only [leafOffer] at ho
    generalize choose beyond fns p el m.curElmp = choice at ho hplain ⊢
    obtain ⟨piece, blocks⟩ := choice
    dsimp only at ho hplain ⊢
    split at ho
    · cases ho
    · rename_i hsome
      obtain ⟨pc, rfl, rfl⟩ := Option.map_eq_some_iff.mp ho
      have hfit : fitsBlock (some pc) (limit fns last el m blocks) m.curElmp.curblock := by
        match pc with
        | .contig elType relOff =>
          obtain ⟨k, hk⟩ := limit_spec fns el hwithin (B.blocklength - b)
          have hblocks : blocks = ((B.blocklength - b : Nat) : Int) := by
            rw [hplain elType relOff rfl, hblock]
          change limit fns last el m blocks ≤ m.curElmp.curblock
          have hle := hk.le
          rw [hblocks, hk.eq, hblock]
          exact_mod_cast hle
        | .vector _ _ _ _ _ => trivial
        | .blkidx _ _ _ _ _ => trivial
        | .index _ _ _ _ _ => trivial
      exact ⟨p, _, by rw [if_neg hsome, if_pos hfit]; rfl⟩

theorem offer_empty (hroot : root.Shaped)
    (h : Sim exact root m.stackelm m.curSp (cu :: below)) (hwithin : Within last m)
    (hempty : ¬NotEmpty m) : ∃ p el piece log, offer beyond fns last m = piece.map (⟨el, ·, 0, false⟩) ∧
      turn beyond fns ptr last m =
        update beyond fns p el (m.add log) (callPiece fns ptr piece 0 m.pieceparams) ∧
      ∀ pc, piece = some pc → (∃ relOff, pc = .contig el.type relOff) ∨
        ∃ count blklen stride relOff, pc = .vector count blklen stride el.type relOff := by
  obtain ⟨dl, off, c, b⟩ := cu
  have hfixed : Fixed dl m.curElmp := h.at_top.1
  have hzero : m.curElmp.curblock = 0 := by
    by_contra hne
    exact hempty fun _ => hne
  cases dl with
  | node p el dl =>
    refine absurd ?_ hempty
    intro hleaf
    rw [hfixed.loopP] at hleaf
    cases hleaf
  | struct ms =>
    refine absurd ?_ hempty
    intro hleaf
    rw [hfixed.loopP] at hleaf
    cases hleaf
  | leaf p el =>
    obtain ⟨_, B, later, hat⟩ := h.at_top
    have hshaped : p.Consistent := h.shaped hroot
    have hcount : m.curElmp.curcount ≠ 0 := curcount_ne_zero hat hshaped
    have hB : B.blocklength = 0 := by
      have hcur : m.curElmp.curblock = B.blocklength - b := hat.curblock
      have hinside : b < B.blocklength ∨ b = 0 := hat.inside
      omega
    have hmem : B ∈ p.blocks := List.mem_of_getElem? (getElem?_of_drop hat.blocks)
    have hchoice : (choose beyond fns p el m.curElmp).2 = 0 ∧
        ∀ pc, (choose beyond fns p el m.curElmp).1 = some pc →
          (∃ relOff, pc = .contig el.type relOff) ∨
            ∃ count blklen stride relOff, pc = .vector count blklen stride el.type relOff := by
      cases p with
      | contig count =>
        refine ⟨hzero, ?_⟩
        intro pc hpc
        simp only [choose] at hpc
        split at hpc
        · exact Or.inl ⟨_, (Option.some.inj hpc).symm⟩
        · cases hpc
      | vector count blocksize stride =>
        simp only [choose]
        split
        · refine ⟨by rw [hzero, Int.zero_mul], ?_⟩
          intro pc hpc
          exact Or.inr ⟨_, _, _, _, (Option.some.inj hpc).symm⟩
        · refine ⟨hzero, ?_⟩
          intro pc hpc
          split at hpc
          · exact Or.inl ⟨_, (Option.some.inj hpc).symm⟩
          · cases hpc
      | blockindexed count blocksize offsetArray =>
        have hsize := blocksize_of_block rfl hmem
        have hpos := hshaped.2.1
        omega
      | indexed count blocksizeArray offsetArray totalBlocks =>
        obtain ⟨v, hv, rfl⟩ := List.mem_map.mp hmem
        have hpos := hshaped.2.2.2.1 v.1 (List.of_mem_zip hv).1
        dsimp only at hB
        omega
    have hnocut : ¬cuts fns last el m 0 := by
      rintro ⟨hlast, hover⟩
      have hin := hwithin hlast
      omega
    have hlimit : limit fns last el m 0 = 0 := if_neg hnocut
    refine ⟨p, el, (choose beyond fns p el m.curElmp).1,
      chooseLog fns p m.curElmp ++ limitLog fns last el m 0, ?_, ?_, hchoice.2⟩
    · simp only [offer, hfixed.loopP, leafOffer, hchoice.1, hlimit]
      rw [if_neg fun h => hnocut h.1]
      simp only [hnocut, decide_false]
    · simp only [turn, hfixed.loopP, isLeaf_leaf, if_true, if_neg hcount, pieceTurn, leafTurn]
      generalize choose beyond fns p el m.curElmp = choice at hchoice ⊢
      obtain ⟨piece, blocks⟩ := choice
      obtain rfl : blocks = 0 := hchoice.1
      have hfit : fitsBlock piece 0 m.curElmp.curblock := by
        match piece with
        | none => trivial
        | some (.contig _ _) => exact le_of_eq hzero.symm
        | some (.vector _ _ _ _ _) => trivial
        | some (.blkidx _ _ _ _ _) => trivial
        | some (.index _ _ _ _ _) => trivial
      simp only [hlimit]
      rw [if_neg fun h => hnocut h.1, if_pos hfit]

theorem update_nothing {p : Params} (hblocks : ret.blocks = 0) (hok : ret.failed = false) :
    update beyond fns p el m ret = .leave { m with pieceparams := ret.pieceparams } := by
  unfold update
  simp [hblocks, hok]

theorem pop_exit (m : Local σ) : m.pop true = .leave { m with curSp := m.curSp - 1 } :=
  if_pos (Or.inr rfl)

theorem update_exit (p : Params) (el : El) (m : Local σ) (hexit : ret.exit = true) :
    ∃ m', update beyond fns p el m ret = .leave m' ∧
      m'.streamOff = m.streamOff + ret.blocks * streamElSize fns el ∧
      m'.pieceparams = ret.pieceparams ∧ (ret.failed = true → m'.fault = some .assertion) := by
  unfold update
  dsimp only
  split
  · exact ⟨_, rfl, rfl, rfl, fun _ => rfl⟩
  · rename_i hgood
    have hok : ¬ret.failed = true := fun h => hgood (Or.inl h)
    split
    · exact ⟨_, rfl, rfl, rfl, fun h => absurd h hok⟩
    split
    · exact ⟨_, rfl, rfl, rfl, fun h => absurd h hok⟩
    split
    · exact ⟨_, rfl, rfl, rfl, fun h => absurd h hok⟩
    · rw [hexit]
      split
      · rw [pop_exit]
        exact ⟨_, rfl, rfl, rfl, fun h => absurd h hok⟩
      · exact ⟨_, rfl, rfl, rfl, fun h => absurd h hok⟩

structure Offered (exact : Prop) (fns : Pieces σ) (stack : List Cursor) (o : Offer) (k : Nat) : Prop where
  blocks : o.blocks = k
  pos : 0 < k
  proper : Proper fns o.el k o.piece
  elements : exact → ∀ j ≤ k, pieceElements o.el j o.piece = (restOf stack).take j
  enough : k ≤ (restOf stack).length
  el : ∀ e ∈ (restOf stack).take k, e.el = o.el

theorem offer_spec (hroot : root.Shaped)
    (h : Sim exact root m.stackelm m.curSp (cu :: below)) (hwithin : Within last m)
    (hempty : NotEmpty m) (ho : offer beyond fns last m = some o) :
    ∃ k, Offered exact fns (cu :: below) o k := by
  obtain ⟨dl, off, c, b⟩ := cu
  have hfixed : Fixed dl m.curElmp := h.at_top.1
  cases dl with
  | node p el dl =>
    unfold offer at ho
    rw [hfixed.loopP] at ho
    cases ho
  | struct ms =>
    unfold offer at ho
    rw [hfixed.loopP] at ho
    cases ho
  | leaf p el =>
    obtain ⟨B, later, piece, n, k, hch⟩ :=
      exists_choice beyond hroot h (hempty (by rw [hfixed.loopP]; rfl)) hwithin
    rw [hch.offer] at ho
    split at ho
    · cases ho
    · rename_i hoffered
      obtain ⟨pc, rfl, rfl⟩ := Option.map_eq_some_iff.mp ho
      have hlen := hch.taken_length (le_refl k)
      have hrest : ∀ j ≤ k, (restOf (⟨.leaf p el, off, c, b⟩ :: below)).take j =
          (leafRest el off (B :: later) b).take j := by
        intro j hj
        rw [hch.rest j, List.take_append_of_le_length (by rw [hch.taken_length hj]), List.take_take, min_self]
      refine ⟨k, rfl, hch.pos hoffered, hch.chosen.proper pc rfl k hch.limited.le, ?_, ?_, ?_⟩
      · intro hexact j hj
        rw [hrest j hj]
        exact hch.chosen.elements pc rfl hexact j (le_trans hj hch.limited.le)
      · rw [hch.rest k, List.length_append, hlen]
        exact Nat.le_add_right _ _
      · intro e he
        rw [hrest k (le_refl k)] at he
        exact leafRest_el (List.mem_of_mem_take he)

theorem offer_sized (hroot : root.Shaped) (hsized : root.Sized)
    (h : Sim exact root m.stackelm m.curSp (cu :: below)) (hempty : NotEmpty m)
    (ho : offer beyond fns last m = some o) : o.el.type.size = o.el.size := by
  obtain ⟨dl, off, c, b⟩ := cu
  have hfixed : Fixed dl m.curElmp := h.at_top.1
  have htop := sized_top hsized h.holds
  unfold offer at ho
  rw [hfixed.loopP] at ho
  cases dl with
  | node p el dl => cases ho
  | struct ms => cases ho
  | leaf p el =>
    obtain ⟨_, B, later, hat⟩ := h.at_top
    have hb : b < B.blocklength := by
      have hcur : m.curElmp.curblock = B.blocklength - b := hat.curblock
      have hne := hempty (by rw [hfixed.loopP]; rfl)
      have hinside : b < B.blocklength ∨ b = 0 := hat.inside
      omega
    have hfull : p.Full := blocklength_pos_of (h.shaped hroot)
      (List.mem_of_getElem? (getElem?_of_drop hat.blocks)) (by omega)
    simp only [leafOffer] at ho
    split at ho
    · cases ho
    · obtain ⟨pc, _, rfl⟩ := Option.map_eq_some_iff.mp ho
      exact htop hfull

end Handing

end FgMpi.Traversal.Handing
