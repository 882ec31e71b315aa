import FgMpi.Traversal.Cursors

namespace FgMpi.Traversal.Turning
open Types.Constructors (Builtin Block)
open Machine.Turns Traversal.Dataloops Traversal.Manipulate
open Traversal.Cursors

section Arrays
variable (beyond : Int → Int)

variable {c n count : Nat}

theorem getElem?_of_drop {α : Type} {xs later : List α} {x : α}
    (h : xs.drop c = x :: later) : xs[c]? = some x := by
  have h0 : (xs.drop c)[0]? = some x := by rw [h]; rfl
  rwa [List.getElem?_drop, Nat.add_zero] at h0

theorem drop_succ_of_drop {α : Type} {xs later : List α} {x : α}
    (h : xs.drop c = x :: later) : xs.drop (c + 1) = later := by
  have htail : (xs.drop c).tail = later := by rw [h]; rfl
  rwa [List.tail_drop] at htail

theorem length_of_drop {α : Type} {xs later : List α} {x : α}
    (h : xs.drop c = x :: later) : xs.length = c + 1 + later.length := by
  have hlen := congrArg List.length h
  rw [List.length_drop, List.length_cons] at hlen
  omega

theorem readArray_nat {xs : List Int} {x : Int} (h : xs[c]? = some x) : readArray beyond xs c = x := by
  change xs.getD c (beyond c) = x
  rw [List.getD_eq_getElem?_getD, h, Option.getD_some]

theorem readBlocksizes_nat {xs : List Nat} {x : Nat} (h : xs[c]? = some x) :
    readBlocksizes beyond xs c = x := by
  refine readArray_nat beyond ?_
  rw [List.getElem?_map, h]
  rfl

variable {p : Params}

theorem blocks_length (h : p.Consistent) : p.blocks.length = paramsOrigCount p := by
  cases p with
  | contig count => rfl
  | vector count blocksize stride => simp [Params.blocks, paramsOrigCount, Params.count]
  | blockindexed count blocksize offsetArray =>
    simpa [Params.blocks, paramsOrigCount, Params.count] using h.2.2
  | indexed count blocksizeArray offsetArray totalBlocks =>
    obtain ⟨_, hsizes, hoffsets, _⟩ := h
    simp [Params.blocks, paramsOrigCount, Params.count, hsizes, hoffsets]

theorem curcount_ne_zero {exact : Prop} {el : El} {off : Int} {b : Nat} {elm : Stackelm} {B : Block}
    {later : List Block} (hat : LeafAt exact p el off c b elm B later) (h : p.Consistent) : elm.curcount ≠ 0 := by
  have hcur := hat.curcount
  have hlen := length_of_drop hat.blocks
  rw [blocks_length h] at hlen
  omega

variable {dl : Dataloop}

theorem children_length (h : dl.Shaped) (hleaf : dl.isLeaf = false) :
    dl.children.length = loopOrigCount dl := by
  cases dl with
  | leaf p el => cases hleaf
  | node p el dl =>
    rw [Dataloop.Shaped] at h
    rw [Dataloop.children, List.length_map, blocks_length h.1]
    rfl
  | struct ms => rfl

variable {B : Block}

theorem blocksize_of_block (h : paramsBlocksize? p = some n) (hB : B ∈ p.blocks) : B.blocklength = n := by
  cases p with
  | contig count =>
    rw [paramsBlocksize?, Option.some.injEq] at h
    rw [Params.blocks, List.mem_singleton] at hB
    rw [hB]
    exact h
  | vector count blocksize stride =>
    rw [paramsBlocksize?, Option.some.injEq] at h
    obtain ⟨i, _, rfl⟩ := List.mem_map.mp hB
    exact h
  | blockindexed count blocksize offsetArray =>
    rw [paramsBlocksize?, Option.some.injEq] at h
    obtain ⟨o, _, rfl⟩ := List.mem_map.mp hB
    exact h
  | indexed count blocksizeArray offsetArray totalBlocks => cases h

theorem blocksize_of_child (h : blocksize? dl = some n) {ch : Child}
    (hch : ch ∈ dl.children) : ch.blocksize = n := by
  cases dl with
  | leaf p el => cases hch
  | node p el dl =>
    obtain ⟨B, hB, rfl⟩ := List.mem_map.mp hch
    exact blocksize_of_block h hB
  | struct ms => cases h

theorem indexed_block {blocksizeArray : List Nat} {offsetArray : List Int} {totalBlocks : Nat}
    (h : (Params.indexed count blocksizeArray offsetArray totalBlocks).blocks[c]? = some B) :
    blocksizeArray[c]? = some B.blocklength ∧ offsetArray[c]? = some B.disp := by
  rw [Params.blocks, List.getElem?_map, Option.map_eq_some_iff] at h
  obtain ⟨b, hb, rfl⟩ := h
  exact List.getElem?_zip_eq_some.mp hb

theorem vector_block {blocksize : Nat} {stride : Int}
    (h : (Params.vector count blocksize stride).blocks[c]? = some B) :
    B = ⟨blocksize, c * stride⟩ := by
  rw [Params.blocks, List.getElem?_map, Option.map_eq_some_iff] at h
  obtain ⟨i, hi, rfl⟩ := h
  obtain ⟨_, rfl⟩ := List.getElem?_eq_some_iff.mp hi
  simp

theorem contig_block (h : (Params.contig count).blocks[c]? = some B) : B = ⟨count, 0⟩ ∧ c = 0 := by
  cases c with
  | zero => exact ⟨(Option.some.inj h).symm, rfl⟩
  | succ c => cases h

theorem blockindexed_block {blocksize : Nat} {offsetArray : List Int}
    (h : (Params.blockindexed count blocksize offsetArray).blocks[c]? = some B) :
    B.blocklength = blocksize ∧ offsetArray[c]? = some B.disp := by
  rw [Params.blocks, List.getElem?_map, Option.map_eq_some_iff] at h
  obtain ⟨o, ho, rfl⟩ := h
  exact ⟨rfl, ho⟩

theorem paramsBlocksize_at (h : p.blocks[c]? = some B) : paramsBlocksize beyond c p = B.blocklength := by
  cases p with
  | contig count => rw [(contig_block h).1]; rfl
  | vector count blocksize stride => rw [vector_block h]; rfl
  | blockindexed count blocksize offsetArray => rw [(blockindexed_block h).1]; rfl
  | indexed count blocksizeArray offsetArray totalBlocks =>
    exact readBlocksizes_nat beyond (indexed_block h).1

theorem paramsOffset_zero (h : p.blocks[0]? = some B) : paramsOffset beyond 0 p = B.disp := by
  cases p with
  | contig count => rw [(contig_block h).1]; rfl
  | vector count blocksize stride =>
    rw [vector_block h]
    simp [paramsOffset]
  | blockindexed count blocksize offsetArray =>
    exact readArray_nat beyond (c := 0) (blockindexed_block h).2
  | indexed count blocksizeArray offsetArray totalBlocks =>
    exact readArray_nat beyond (c := 0) (indexed_block h).2

theorem paramsBlocksize_same (h : paramsBlocksize? p = some n) (i : Int) :
    paramsBlocksize beyond i p = n := by
  cases p with
  | contig count => exact congrArg Nat.cast (Option.some.inj h)
  | vector count blocksize stride => exact congrArg Nat.cast (Option.some.inj h)
  | blockindexed count blocksize offsetArray => exact congrArg Nat.cast (Option.some.inj h)
  | indexed count blocksizeArray offsetArray totalBlocks => cases h

theorem blocksizeAt_same (h : blocksize? dl = some n) (i : Int) : blocksizeAt beyond i dl = n := by
  cases dl with
  | leaf p el => exact paramsBlocksize_same beyond h i
  | node p el dl => exact paramsBlocksize_same beyond h i
  | struct ms => cases h

theorem blocksizeAt_child {ch : Child} (h : dl.children[c]? = some ch) :
    blocksizeAt beyond c dl = ch.blocksize := by
  cases dl with
  | leaf p el => cases h
  | node p el dl =>
    rw [Dataloop.children, List.getElem?_map, Option.map_eq_some_iff] at h
    obtain ⟨B, hB, rfl⟩ := h
    exact paramsBlocksize_at beyond hB
  | struct ms =>
    refine readBlocksizes_nat beyond ?_
    rw [List.getElem?_map]
    exact congrArg (Option.map (·.blocksize)) h

end Arrays

section Inner
variable {σ : Type} (beyond : Int → Int) {exact : Prop} {root : Dataloop} {fns : Pieces σ}

def streamSize (fns : Pieces σ) (es : List Element) : Nat :=
  (es.map fun e => streamElSize fns e.el).sum

@[simp] theorem streamSize_nil : streamSize fns [] = 0 := rfl

theorem streamSize_append (es es' : List Element) :
    streamSize fns (es ++ es') = streamSize fns es + streamSize fns es' := by
  simp [streamSize]

/-- From the places `stack` the elements `taken` have been gone through. -/
structure Moves (exact : Prop) (root : Dataloop) (fns : Pieces σ) (m : Local σ)
    (stack : List Cursor) (taken : List Element) (m' : Local σ) (stack' : List Cursor) : Prop where
  sim : Sim exact root m'.stackelm m'.curSp stack'
  rest : restOf stack = taken ++ restOf stack'
  stream : m'.streamOff = m.streamOff + streamSize fns taken
  fault : m'.fault = none

def Quiet (exact : Prop) (root : Dataloop) (fns : Pieces σ) (m : Local σ) (stack : List Cursor)
    (t : Turn (Local σ) (Local σ)) : Prop :=
  t.Ends
    (fun m' => ∃ stack', stack' ≠ [] ∧ Moves exact root fns m stack [] m' stack' ∧
      m'.pieceparams = m.pieceparams ∧ leftOf stack' < leftOf stack)
    (fun m' => Moves exact root fns m stack [] m' [] ∧ m'.pieceparams = m.pieceparams)

variable {dl : Dataloop} {elm : Stackelm}

theorem ownBlocksize (hfixed : Fixed dl elm) (i : Int) :
    (if ownBlocksizes dl then blocksizeAt beyond i dl else elm.origBlock) =
      blocksizeAt beyond i dl := by
  cases dl with
  | leaf p el =>
    cases p with
    | contig count => exact hfixed.origBlock _ rfl
    | vector count blocksize stride => exact hfixed.origBlock _ rfl
    | blockindexed count blocksize offsetArray => exact hfixed.origBlock _ rfl
    | indexed count blocksizeArray offsetArray totalBlocks => rfl
  | node p el dl =>
    cases p with
    | contig count => exact hfixed.origBlock _ rfl
    | vector count blocksize stride => exact hfixed.origBlock _ rfl
    | blockindexed count blocksize offsetArray => exact hfixed.origBlock _ rfl
    | indexed count blocksizeArray offsetArray totalBlocks => rfl
  | struct ms => rfl

variable {m : Local σ} {cu : Cursor} {below : List Cursor}

structure Popped (m m' : Local σ) : Prop where
  stackelm : m'.stackelm = m.stackelm
  curSp : m'.curSp = m.curSp - 1
  streamOff : m'.streamOff = m.streamOff
  pieceparams : m'.pieceparams = m.pieceparams
  fault : m'.fault = m.fault

theorem pop_spec (hsp : m.curSp = below.length) (exit : Bool) : (m.pop exit).Ends
    (fun m' => Popped m m' ∧ below ≠ [] ∧ exit = false)
    (fun m' => Popped m m' ∧ (below = [] ∨ exit = true)) := by
  unfold Local.pop
  split
  · rename_i hexit
    refine ⟨⟨rfl, rfl, rfl, rfl, rfl⟩, ?_⟩
    refine hexit.imp_left ?_
    intro hneg
    exact List.length_eq_zero_iff.mp (by omega)
  · rename_i hstay
    have hne : below ≠ [] := by
      rintro rfl
      refine hstay (Or.inl ?_)
      rw [hsp]
      decide
    refine ⟨⟨rfl, rfl, rfl, rfl, rfl⟩, hne, ?_⟩
    exact Bool.eq_false_iff.mpr fun hexit => hstay (Or.inr hexit)

variable (fns m) in
theorem pop_moves {m' : Local σ} {stack : List Cursor} {taken : List Element} {exit : Bool}
    (hpop : Sim exact root m'.stackelm (m'.curSp - 1) below) (hrest : restOf stack = taken ++ restOf below)
    (hstream : m'.streamOff = m.streamOff + streamSize fns taken) (hfault : m'.fault = none)
    (hsp : m'.curSp = below.length) : (m'.pop exit).Ends
      (fun m'' => below ≠ [] ∧ Moves exact root fns m stack taken m'' below ∧
        m''.pieceparams = m'.pieceparams)
      (fun m'' => Moves exact root fns m stack taken m'' below ∧
        m''.pieceparams = m'.pieceparams ∧ (below = [] ∨ exit = true)) := by
  have hmoves : ∀ m'', Popped m' m'' → Moves exact root fns m stack taken m'' below := by
    intro m'' hm
    refine ⟨?_, hrest, ?_, ?_⟩
    · rw [hm.stackelm, hm.curSp]
      exact hpop
    · rw [hm.streamOff, hstream]
    · rw [hm.fault, hfault]
  refine (pop_spec hsp exit).mono ?_ ?_
  · intro m'' hm
    exact ⟨hm.2.1, hmoves m'' hm.1, hm.1.pieceparams⟩
  · intro m'' hm
    exact ⟨hmoves m'' hm.1, hm.1.pieceparams, hm.2⟩

theorem quiet_pop {m' : Local σ} {stack : List Cursor}
    (hpop : Sim exact root m'.stackelm (m'.curSp - 1) below) (hstream : m'.streamOff = m.streamOff)
    (hparams : m'.pieceparams = m.pieceparams) (hfault : m'.fault = none)
    (hrest : restOf stack = restOf below) (hleft : leftOf below < leftOf stack)
    (hsp : m'.curSp = below.length) : Quiet exact root fns m stack (m'.pop false) := by
  have hstream' : m'.streamOff = m.streamOff + streamSize fns [] := by
    rw [hstream]
    simp
  refine (pop_moves fns m hpop hrest hstream' hfault hsp).mono ?_ ?_
  · intro m'' hm
    exact ⟨below, hm.1, hm.2.1, hm.2.2.trans hparams, hleft⟩
  · intro m'' hm
    have hnil : below = [] := hm.2.2.resolve_right (by decide)
    subst hnil
    exact ⟨hm.1, hm.2.1.trans hparams⟩

theorem endElm_fixed {ch : Child} {index : Nat}
    (hfixed : Fixed dl elm) (hch : dl.children[index]? = some ch) (curcount : Int) :
    Fixed dl { elm with curcount := curcount, origBlock := ch.blocksize, curblock := ch.blocksize } where
  loopP := hfixed.loopP
  origCount := hfixed.origCount
  reloading := hfixed.reloading
  origBlock := by
    intro n hn
    exact congrArg Nat.cast (blocksize_of_child hn (List.mem_of_getElem? hch))

theorem endOfBlock_spec (hroot : root.Shaped)
    (h : Sim exact root m.stackelm m.curSp (cu :: below)) (hleaf : cu.loop.isLeaf = false)
    (hend : m.curElmp.curblock = 0) (hfault : m.fault = none) :
    Quiet exact root fns m (cu :: below) (endOfBlock beyond m) := by
  obtain ⟨dl, off, c, b⟩ := cu
  have hat := h.at_top
  obtain ⟨ch, later, hinner⟩ := hat.inner hleaf
  have hfixed : Fixed dl m.curElmp := hat.1
  have hshaped := h.shaped hroot
  have hlen := children_length hshaped hleaf
  have hdrop := hinner.blocks
  have hcount := length_of_drop hdrop
  have hb : b = ch.blocksize := by
    have h1 := hinner.curblock
    have h2 : (m.stackelm m.curSp.toNat).curblock = 0 := hend
    omega
  have hcur : m.curElmp.curcount - 1 = (later.length : Int) := by
    have h1 : m.curElmp.curcount = loopOrigCount dl - c := hinner.curcount
    rw [h1, ← hlen, hcount]
    push_cast
    omega
  unfold endOfBlock
  simp only [hfixed.loopP, ownBlocksize beyond hfixed, hcur]
  cases hlater : later with
  | nil =>
    -- the count is exhausted, and the sizes are those of the first block again
    obtain ⟨first, rest, hfirst⟩ := List.exists_cons_of_ne_nil (children_ne_nil hshaped hleaf)
    have hzero : dl.children[0]? = some first := by rw [hfirst]; rfl
    have hsize := blocksizeAt_child beyond hzero
    rw [show ((0 : Nat) : Int) = 0 from rfl] at hsize
    simp only [List.length_nil, Nat.cast_zero, ne_eq, not_true_eq_false, if_false, if_true, hsize]
    have hpop := h.popped (endElm_fixed hfixed hzero 0)
      (fun _ ch' later' heq => by rw [hfirst] at heq; cases heq; rfl) rfl
    have hrest : restOf (⟨dl, off, c, b⟩ :: below) = restOf below := by
      rw [restOf_cons, rest_inner hleaf, hdrop, hb, childRest_end, hlater]
      rfl
    have hleft : leftOf below < leftOf (⟨dl, off, c, b⟩ :: below) := by
      rw [leftOf_cons, left_inner hleaf, hdrop, hb, childLeft_end]
      omega
    rw [hfixed.loopP] at hpop
    exact quiet_pop hpop rfl rfl hfault hrest hleft h.nonneg
  | cons next more =>
    have hdrop' : dl.children.drop (c + 1) = next :: more := by rw [drop_succ_of_drop hdrop, hlater]
    have hnext := getElem?_of_drop hdrop'
    have hsize := blocksizeAt_child beyond hnext
    have hindex : m.curElmp.origCount - (later.length : Int) = ((c + 1 : Nat) : Int) := by
      rw [hfixed.origCount, ← hlen, hcount]
      omega
    have hne : ((next :: more).length : Int) ≠ 0 := by
      rw [List.length_cons]
      omega
    rw [hlater] at hindex
    simp only [hne, ne_eq, not_false_eq_true, if_true, if_false, hindex, hsize]
    have hinner' : InnerAt exact dl off (c + 1) 0
        { m.curElmp with
          curcount := ((next :: more).length : Int), origBlock := next.blocksize,
          curblock := next.blocksize } next more := by
      refine ⟨hdrop', ?_, by simp, Nat.zero_le _, hinner.origOffset, fun _ => rfl, hinner.curoffset⟩
      have h1 : m.curElmp.curcount = loopOrigCount dl - c := hinner.curcount
      rw [← hlater, ← hcur, h1]
      push_cast
      omega
    have hmoved := h.moved (at_inner (endElm_fixed hfixed hnext _) hleaf hinner') rfl
    rw [hfixed.loopP] at hmoved
    refine ⟨_, List.cons_ne_nil _ _, ⟨hmoved, ?_, ?_, hfault⟩, rfl, ?_⟩
    · rw [restOf_cons, restOf_cons, rest_inner hleaf, rest_inner hleaf, hdrop, hb, childRest_end,
        drop_succ_of_drop hdrop]
      rfl
    · simp [Local.add, Local.set]
    · rw [leftOf_cons, leftOf_cons, left_inner hleaf, left_inner hleaf, hdrop, hb, childLeft_end,
        drop_succ_of_drop hdrop]
      omega

theorem load_fixed (elm : Stackelm) (dlp : Dataloop) (branchFlag : Bool) :
    Fixed dlp (stackelmLoad beyond elm dlp branchFlag) where
  loopP := rfl
  origCount := rfl
  reloading := by
    intro hstruct
    simp [stackelmLoad, hstruct]
  origBlock := by
    intro n hn
    exact blocksizeAt_same beyond hn _

theorem load_first (elm : Stackelm) (dlp : Dataloop) (branchFlag : Bool) :
    First dlp (stackelmLoad beyond elm dlp branchFlag) := by
  intro ch later hch
  have hzero : dlp.children[0]? = some ch := by rw [hch]; rfl
  change blocksizeAt beyond ((loopOrigCount dlp : Int) - loopOrigCount dlp) dlp = ch.blocksize
  rw [Int.sub_self]
  exact blocksizeAt_child beyond hzero

theorem startElm_at {off : Int} (hshaped : dl.Shaped)
    (hfixed : Fixed dl elm) (hfirst : exact → First dl elm) (hoff : exact → elm.origOffset = off) :
    At exact ⟨dl, off, 0, 0⟩ (startElm beyond elm) := by
  have hown := ownBlocksize beyond hfixed 0
  have hfixed' : Fixed dl (startElm beyond elm) :=
    ⟨hfixed.loopP, hfixed.origCount, hfixed.reloading, hfixed.origBlock⟩
  cases hleaf : dl.isLeaf with
  | true =>
    cases dl with
    | node p el dl => cases hleaf
    | struct ms => cases hleaf
    | leaf p el =>
      rw [Dataloop.Shaped] at hshaped
      obtain ⟨B, later, hblocks⟩ := List.exists_cons_of_ne_nil (blocks_ne_nil hshaped)
      have hzero : p.blocks[0]? = some B := by rw [hblocks]; rfl
      refine ⟨hfixed', B, later, hblocks, ?_, ?_, Or.inr rfl, hoff, ?_⟩
      · change elm.origCount = _
        rw [hfixed.origCount]
        simp [loopOrigCount]
      · change (if ownBlocksizes elm.loopP then blocksizeAt beyond 0 elm.loopP else elm.origBlock) = _
        rw [hfixed.loopP, hown]
        have hsize := paramsBlocksize_at beyond hzero
        rw [show ((0 : Nat) : Int) = 0 from rfl] at hsize
        rw [Nat.cast_zero, Int.sub_zero]
        exact hsize
      · intro hexact
        change elm.origOffset + offsetAt beyond 0 elm.loopP = _
        rw [hfixed.loopP, hoff hexact, Nat.cast_zero, Int.zero_mul, Int.add_zero]
        exact congrArg (off + ·) (paramsOffset_zero beyond hzero)
  | false =>
    obtain ⟨ch, later, hch⟩ := List.exists_cons_of_ne_nil (children_ne_nil hshaped hleaf)
    have hzero : dl.children[0]? = some ch := by rw [hch]; rfl
    refine at_inner hfixed' hleaf ⟨hch, ?_, ?_, Nat.zero_le _, hoff, ?_, ?_⟩
    · change elm.origCount = _
      rw [hfixed.origCount]
      simp
    · change (if ownBlocksizes elm.loopP then blocksizeAt beyond 0 elm.loopP else elm.origBlock) = _
      have hsize := blocksizeAt_child beyond hzero
      rw [show ((0 : Nat) : Int) = 0 from rfl] at hsize
      rw [hfixed.loopP, hown, hsize, Nat.cast_zero, Int.sub_zero]
    · intro hexact
      exact hfirst hexact ch later hch
    · intro hexact count el dl' hcontig
      change elm.origOffset + offsetAt beyond 0 elm.loopP = _
      rw [hfixed.loopP, hoff hexact, hcontig]
      exact Int.add_zero off

theorem nextOffset_at {off : Int} {c b : Nat} {ch : Child}
    {later : List Child} (hfixed : Fixed dl elm) (h : InnerAt exact dl off c b elm ch later)
    (hexact : exact) : nextOffset beyond elm = off + ch.offset + b * ch.elExtent := by
  have hcount : elm.origCount - elm.curcount = (c : Int) := by
    rw [hfixed.origCount, h.curcount]
    omega
  have hblock : elm.origBlock - elm.curblock = (b : Int) := by
    rw [h.origBlock hexact, h.curblock]
    omega
  have hget := getElem?_of_drop h.blocks
  have horig := h.origOffset hexact
  unfold nextOffset
  simp only [hfixed.loopP, hcount, hblock]
  cases dl with
  | leaf p el => cases hget
  | node p el dl =>
    rw [Dataloop.children, List.getElem?_map, Option.map_eq_some_iff] at hget
    obtain ⟨B, hB, rfl⟩ := hget
    cases p with
    | contig count =>
      simp only [h.curoffset hexact count el dl rfl, (contig_block hB).1]
      omega
    | vector count blocksize stride =>
      simp only [horig, vector_block hB]
    | blockindexed count blocksize offsetArray =>
      simp only [horig, readArray_nat beyond (blockindexed_block hB).2]
      omega
    | indexed count blocksizeArray offsetArray totalBlocks =>
      simp only [horig, readArray_nat beyond (indexed_block hB).2]
      omega
  | struct ms =>
    have hextent : (ms.list.map (·.elExtent))[c]? = some ch.elExtent := by
      rw [List.getElem?_map]
      exact congrArg (Option.map (·.elExtent)) hget
    have hoffset : (ms.list.map (·.offset))[c]? = some ch.offset := by
      rw [List.getElem?_map]
      exact congrArg (Option.map (·.offset)) hget
    simp only [horig, readArray_nat beyond hextent, readArray_nat beyond hoffset]
    omega

theorem loadDlp_at {c : Nat} {ch : Child} (h : dl.children[c]? = some ch) :
    loadDlp c dl = some ch.dataloop := by
  cases dl with
  | leaf p el => cases h
  | node p el dl =>
    rw [Dataloop.children, List.getElem?_map, Option.map_eq_some_iff] at h
    obtain ⟨B, _, rfl⟩ := h
    rfl
  | struct ms =>
    change ms.list[c]?.map (·.dataloop) = _
    have hget : ms.list[c]? = some ch := h
    rw [hget]
    rfl

theorem push_spec (hroot : root.Shaped) (h : Sim exact root m.stackelm m.curSp (cu :: below))
    (hleaf : cu.loop.isLeaf = false) (hmore : m.curElmp.curblock ≠ 0) (hfault : m.fault = none) :
    Quiet exact root fns m (cu :: below) (push beyond m) := by
  obtain ⟨dl, off, c, b⟩ := cu
  have hat := h.at_top
  obtain ⟨ch, later, hinner⟩ := hat.inner hleaf
  have hfixed : Fixed dl m.curElmp := hat.1
  have hdrop := hinner.blocks
  have hget := getElem?_of_drop hdrop
  have hmem : ch ∈ dl.children := List.mem_of_getElem? hget
  have hchild := (shaped_child (h.shaped hroot) hmem).2
  have hb : b < ch.blocksize := by
    have h1 : m.curElmp.curblock = ch.blocksize - b := hinner.curblock
    have h2 := hinner.inside
    omega
  have hsp : (m.curSp + 1).toNat = below.length + 1 := by
    have := h.nonneg
    omega
  have hcount : m.curElmp.origCount - m.curElmp.curcount = (c : Int) := by
    have h1 : m.curElmp.curcount = loopOrigCount dl - c := hinner.curcount
    rw [hfixed.origCount, h1]
    omega
  -- what the next stack element is before its current values are set
  obtain ⟨next, hnext, hnfixed, hnfirst, hnabove⟩ : ∃ next,
      (if m.curElmp.mayRequireReloading then
        (loadDlp (c : Int) m.curElmp.loopP).map fun dlp =>
          stackelmLoad beyond (m.stackelm (below.length + 1)) dlp true
        else some (m.stackelm (below.length + 1))) = some next ∧ Fixed ch.dataloop next ∧
      (exact → First ch.dataloop next) ∧ (next.mayRequireReloading = false →
        Above exact m.stackelm ch.dataloop (below.length + 1) ∧
          (m.stackelm (below.length + 1)).mayRequireReloading = false) := by
    cases hmay : m.curElmp.mayRequireReloading with
    | true =>
      refine ⟨stackelmLoad beyond (m.stackelm (below.length + 1)) ch.dataloop true, ?_,
        load_fixed beyond _ _ _, fun _ => load_first beyond _ _ _, ?_⟩
      · rw [hfixed.loopP, loadDlp_at hget]
        rfl
      · intro hfalse
        cases hfalse
    | false =>
      have htop : Above exact m.stackelm dl below.length := h.top
      cases dl with
      | leaf p el => cases hleaf
      | struct ms =>
        rw [hfixed.reloading rfl] at hmay
        cases hmay
      | node p el dl =>
        obtain ⟨B, _, rfl⟩ := List.mem_map.mp hmem
        have hmay' : (m.stackelm below.length).mayRequireReloading = false := by
          rw [← h.toNat]
          exact hmay
        have hloaded := htop hmay'
        exact ⟨_, rfl, hloaded.fixed, hloaded.first, fun hfalse => ⟨hloaded.above, hfalse⟩⟩
  unfold push
  simp only [hcount, hsp, hnext]
  have hinner' : InnerAt exact dl off c (b + 1)
      { m.curElmp with curblock := m.curElmp.curblock - 1 } ch later := by
    refine ⟨hdrop, hinner.curcount, ?_, hb, hinner.origOffset, hinner.origBlock, hinner.curoffset⟩
    have h1 : m.curElmp.curblock = ch.blocksize - b := hinner.curblock
    dsimp only
    push_cast
    omega
  have hat' : At exact ⟨dl, off, c, b + 1⟩
      { m.curElmp with curblock := m.curElmp.curblock - 1 } :=
    at_inner ⟨hfixed.loopP, hfixed.origCount, hfixed.reloading, hfixed.origBlock⟩ hleaf hinner'
  have hmoved := h.moved hat' rfl
  have hstart : At exact ⟨ch.dataloop, off + ch.offset + b * ch.elExtent, 0, 0⟩
      (startElm beyond { next with origOffset := nextOffset beyond m.curElmp }) :=
    startElm_at beyond hchild ⟨hnfixed.loopP, hnfixed.origCount, hnfixed.reloading,
      hnfixed.origBlock⟩ hnfirst fun hexact => nextOffset_at beyond hfixed hinner hexact
  have hpushed := hmoved.pushed hmem hstart (by
    intro hfalse
    obtain ⟨hup, hsame⟩ := hnabove hfalse
    have hother : ∀ j, below.length + 1 ≤ j →
        Function.update m.stackelm m.curSp.toNat
          { m.curElmp with curblock := m.curElmp.curblock - 1 } j = m.stackelm j := by
      intro j hj
      rw [h.toNat]
      exact Function.update_of_ne (by omega) _ _
    rw [hother _ (le_refl _)]
    exact ⟨hup.congr (by rw [hother _ (le_refl _)]) fun j hj => hother j (by omega), hsame⟩)
  rw [hsp] at hpushed
  refine ⟨_, List.cons_ne_nil _ _, ⟨hpushed, ?_, ?_, hfault⟩, rfl, ?_⟩
  · rw [restOf_cons, restOf_cons, restOf_cons, rest_inner hleaf, rest_inner hleaf, hdrop,
      childRest_down off ch later hb, rest_start, List.append_assoc]
    rfl
  · simp [Local.add, Local.set]
  · rw [leftOf_cons, leftOf_cons, leftOf_cons, left_inner hleaf, left_inner hleaf, hdrop,
      childLeft_down ch later hb, left_start]
    omega

end Inner

end FgMpi.Traversal.Turning
