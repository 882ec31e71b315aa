import FgMpi.Traversal.Handing

namespace FgMpi.Traversal.Calls
open Machine.Turns Traversal.Dataloops Traversal.Manipulate
open Traversal.Cursors Traversal.Turning Traversal.Handing

section Loop
variable {σ : Type} (beyond : Int → Int) {fns : Pieces σ} (ptr : Int) {last : Int} {exact : Prop}
  {root : Dataloop}

theorem moves_trans {m m' m'' : Local σ} {stack stack' stack'' : List Cursor}
    {taken taken' : List Element} (h : Moves exact root fns m stack taken m' stack')
    (h' : Moves exact root fns m' stack' taken' m'' stack'') :
    Moves exact root fns m stack (taken ++ taken') m'' stack'' where
  sim := h'.sim
  rest := by rw [h.rest, h'.rest, List.append_assoc]
  stream := by
    rw [h'.stream, h.stream, streamSize_append]
    push_cast
    omega
  fault := h'.fault

structure Along (fns : Pieces σ) (last : Int) (exact : Prop) (root : Dataloop)
    (I : σ → List Element → Prop) (m₀ : Local σ) (stack₀ : List Cursor) (m : Local σ)
    (stack : List Cursor) (taken : List Element) : Prop where
  reached : Reached (turn beyond fns ptr last) m₀ m
  ne : stack ≠ []
  moves : Moves exact root fns m₀ stack₀ taken m stack
  within : Within last m
  left : leftOf stack ≤ leftOf stack₀
  inv : I m.pieceparams taken

structure Ended (fns : Pieces σ) (last : Int) (exact : Prop) (root : Dataloop)
    (I : σ → List Element → Prop) (m₀ : Local σ) (stack₀ : List Cursor) (m' : Local σ)
    (stack' : List Cursor) (taken : List Element) : Prop where
  moves : Moves exact root fns m₀ stack₀ taken m' stack'
  within : Within last m'
  left : leftOf stack' ≤ leftOf stack₀
  inv : I m'.pieceparams taken
  stops : Stops fns last m' stack' ∨ ∃ m stack before taken₁,
    Along beyond ptr fns last exact root I m₀ stack₀ m stack before ∧ taken = before ++ taken₁ ∧
      Handed beyond fns ptr last exact root m stack taken₁ m' stack' ∧ Asked beyond fns ptr last m

def Sound (fns : Pieces σ) (last : Int) (exact : Prop) (root : Dataloop)
    (I : σ → List Element → Prop) (m₀ : Local σ) (stack₀ : List Cursor) (C : Local σ → Prop) : Prop :=
  ∀ m stack taken, Along beyond ptr fns last exact root I m₀ stack₀ m stack taken → C m →
    NotEmpty m ∧ Processes beyond fns ptr last m ∧
      ∀ taken₁ m' stack', Handed beyond fns ptr last exact root m stack taken₁ m' stack' →
        I m'.pieceparams (taken ++ taken₁)

variable {I : σ → List Element → Prop} {m₀ : Local σ} {stack₀ : List Cursor} {C : Local σ → Prop}

theorem along_turn (hroot : root.Shaped)
    (hsound : Sound beyond ptr fns last exact root I m₀ stack₀ C) {m : Local σ}
    {stack : List Cursor} {taken : List Element} (hC : C m)
    (h : Along beyond ptr fns last exact root I m₀ stack₀ m stack taken) :
    (turn beyond fns ptr last m).Ends
      (fun m' => ∃ stack' taken', leftOf stack' < leftOf stack ∧
        Along beyond ptr fns last exact root I m₀ stack₀ m' stack' taken')
      (fun m' => ∃ stack' taken', Ended beyond ptr fns last exact root I m₀ stack₀ m' stack' taken') := by
  obtain ⟨hempty, hcall, hkeeps⟩ := hsound m stack taken h hC
  obtain ⟨cu, below, rfl⟩ := List.exists_cons_of_ne_nil h.ne
  have hone := turn_spec beyond ptr hroot h.moves.sim h.moves.fault hempty h.within hcall
  cases ht : turn beyond fns ptr last m with
  | again m' =>
    rw [ht] at hone
    obtain ⟨taken₁, stack', hne, hhanded, hless⟩ := hone
    exact ⟨stack', taken ++ taken₁, hless, h.reached.next ht, hne, moves_trans h.moves hhanded.moves,
      hhanded.within, le_trans (le_of_lt hless) h.left, hkeeps _ _ _ hhanded⟩
  | leave m' =>
    rw [ht] at hone
    obtain ⟨taken₁, stack', hhanded, hless, hwhy⟩ := hone
    refine ⟨stack', taken ++ taken₁, moves_trans h.moves hhanded.moves, hhanded.within,
      le_trans hless h.left, hkeeps _ _ _ hhanded, ?_⟩
    exact hwhy.imp_right fun hasked => ⟨m, _, taken, taken₁, h, rfl, hhanded, hasked⟩

theorem run_first (hroot : root.Shaped)
    (hsound : Sound beyond ptr fns last exact root I m₀ stack₀ C) (hne : stack₀ ≠ [])
    (hsim : Sim exact root m₀.stackelm m₀.curSp stack₀) (hfault : m₀.fault = none)
    (hwithin : Within last m₀) (hI : I m₀.pieceparams []) {n : Nat} (hn : leftOf stack₀ < n) :
    ((∀ m, Reached (turn beyond fns ptr last) m₀ m → C m) ∧
        ∃ m', rounds (turn beyond fns ptr last) n m₀ = some m' ∧ ∃ stack' taken,
          Ended beyond ptr fns last exact root I m₀ stack₀ m' stack' taken) ∨
      ∃ m stack taken k, Along beyond ptr fns last exact root I m₀ stack₀ m stack taken ∧ ¬C m ∧
        (∀ m', Reached (turn beyond fns ptr last) m₀ m' →
          C m' ∨ Reached (turn beyond fns ptr last) m m') ∧
        rounds (turn beyond fns ptr last) n m₀ = rounds (turn beyond fns ptr last) (k + 1) m := by
  have hstart : Along beyond ptr fns last exact root I m₀ stack₀ m₀ stack₀ [] :=
    ⟨.start, hne, ⟨hsim, rfl, by simp, hfault⟩, hwithin, le_refl _, hI⟩
  have hturn : ∀ v m, (∃ stack taken, leftOf stack = v ∧
      Along beyond ptr fns last exact root I m₀ stack₀ m stack taken) → C m →
      (turn beyond fns ptr last m).Ends
        (fun m' => ∃ v' < v, ∃ stack taken, leftOf stack = v' ∧
          Along beyond ptr fns last exact root I m₀ stack₀ m' stack taken)
        (fun m' => ∃ stack' taken,
          Ended beyond ptr fns last exact root I m₀ stack₀ m' stack' taken) := by
    rintro v m ⟨stack, taken, rfl, halong⟩ hC
    refine (along_turn beyond ptr hroot hsound hC halong).mono ?_ fun _ h => h
    rintro m' ⟨stack', taken', hless, halong'⟩
    exact ⟨_, hless, stack', taken', rfl, halong'⟩
  rcases rounds_first hturn ⟨stack₀, [], rfl, hstart⟩ hn with hall | hfirst
  · exact Or.inl hall
  · obtain ⟨m, v, k, _, ⟨stack, taken, _, halong⟩, hnot, hbefore, heq⟩ := hfirst
    exact Or.inr ⟨m, stack, taken, k, halong, hnot, hbefore, heq⟩

end Loop

section Keeps
variable {σ : Type} (beyond : Int → Int) {fns : Pieces σ} (ptr : Int) (last : Int)
  {K : σ → Prop}

def Keeps (K : σ → Prop) (t : Turn (Local σ) (Local σ)) : Prop :=
  t.Ends (fun m => K m.pieceparams) (fun m => K m.pieceparams)

theorem pop_keeps (m : Local σ) (exit : Bool) (h : K m.pieceparams) : Keeps K (m.pop exit) := by
  unfold Local.pop
  split
  · exact h
  · exact h

theorem update_keeps (p : Params) (el : El) (m : Local σ) (ret : Ret σ) (h : K ret.pieceparams) :
    Keeps K (update beyond fns p el m ret) := by
  unfold update
  dsimp only
  split
  · exact h
  split
  · exact h
  split
  · exact h
  split
  · exact h
  · split
    · exact pop_keeps _ _ h
    split
    · exact h
    · exact h

theorem pieceTurn_keeps (hkeep : ∀ pc blocks params, K params →
    K (fns.apply pc blocks ptr params).pieceparams) (m : Local σ) (h : K m.pieceparams) :
    Keeps K (pieceTurn beyond fns ptr last m) := by
  have hleaf : ∀ p el, Keeps K (leafTurn beyond fns ptr last p el m) := by
    intro p el
    unfold leafTurn
    dsimp only
    split
    · exact h
    split
    · refine update_keeps beyond p el _ _ ?_
      cases (choose beyond fns p el m.curElmp).1 with
      | none => exact h
      | some pc => exact hkeep pc _ _ h
    · exact h
  unfold pieceTurn
  cases m.curElmp.loopP with
  | leaf p el => exact hleaf p el
  | node p el dl => exact hleaf p el
  | struct ms => exact h

theorem turn_keeps (hkeep : ∀ pc blocks params, K params →
    K (fns.apply pc blocks ptr params).pieceparams) (m : Local σ) (h : K m.pieceparams) :
    Keeps K (turn beyond fns ptr last m) := by
  unfold turn
  dsimp only
  split
  · split
    · have hpop := pop_keeps m false h
      cases hm : m.pop false with
      | again m' =>
        rw [hm] at hpop
        exact pieceTurn_keeps beyond ptr last hkeep m' hpop
      | leave m' =>
        rw [hm] at hpop
        exact hpop
    · exact pieceTurn_keeps beyond ptr last hkeep m h
  split
  · unfold endOfBlock
    dsimp only
    split
    · exact pop_keeps _ false h
    · exact h
  · unfold push
    dsimp only
    split
    · exact h
    · exact h

end Keeps

section Segments
variable {σ : Type} (beyond : Int → Int) {fns : Pieces σ} {exact : Prop} {root : Dataloop}

/-- A segment of `root` whose calls have gone through `consumed`. -/
structure Positioned (exact : Prop) (root : Dataloop) (fns : Pieces σ) (segp : Segment)
    (consumed : List Element) (stack : List Cursor) : Prop where
  sim : Sim exact root segp.stackelm segp.curSp stack
  left : leftOf stack ≤ root.steps
  rest : root.elements 0 = consumed ++ restOf stack
  stream : segp.streamOff = streamSize fns consumed

variable {st : Nat → Stackelm}

theorem loaded_of_sim {sp : Int} {stack : List Cursor}
    (h : Sim exact root st sp stack) : Loaded False st root 0 := by
  have hdown : ∀ stack : List Cursor, ∀ cu below, stack = cu :: below →
      Holds exact root st stack → Above False st cu.loop below.length → Loaded False st root 0 := by
    intro stack
    induction stack with
    | nil =>
      intro cu below h
      cases h
    | cons cu below ih =>
      rintro _ _ ⟨rfl, rfl⟩ hholds habove
      have hloaded : Loaded False st cu.loop below.length :=
        loaded_of hholds.1.1 (fun h => h.elim) habove
      cases below with
      | nil =>
        rw [hholds.2.1.1] at hloaded
        exact hloaded
      | cons lo more =>
        refine ih lo more rfl hholds.2.2 ?_
        obtain ⟨ch, hch, heq⟩ := hholds.2.1
        rw [← heq] at hloaded
        cases hlo : lo.loop with
        | leaf p el => trivial
        | node p el dl =>
          rw [hlo] at hch
          obtain ⟨B, _, rfl⟩ := List.mem_map.mp hch
          intro _
          exact hloaded
        | struct ms => trivial
  have hweak : ∀ dl i, Loaded exact st dl i → Loaded False st dl i := by
    intro dl
    induction dl with
    | leaf p el => exact fun i h => h
    | node p el dl ih => exact fun i h => ⟨h.1, fun h => h.elim, fun hmay => ih _ (h.2.2 hmay)⟩
    | struct ms _ => exact fun i h => ⟨h.1, fun h => h.elim⟩
  cases stack with
  | nil => exact hweak root 0 h.top
  | cons cu below =>
    refine hdown _ cu below rfl h.holds ?_
    have htop : Above exact st cu.loop below.length := h.top
    cases hcu : cu.loop with
    | leaf p el => trivial
    | node p el dl =>
      rw [hcu] at htop
      exact fun hmay => hweak _ _ (htop hmay)
    | struct ms => trivial

theorem sim_start (hat : At exact ⟨root, 0, 0, 0⟩ (st 0))
    (habove : Above exact st root 0) : Sim exact root st 0 [⟨root, 0, 0, 0⟩] :=
  ⟨rfl, ⟨hat, ⟨rfl, rfl⟩, trivial⟩, habove⟩

theorem positioned_start {segp : Segment} (hat : At exact ⟨root, 0, 0, 0⟩ (segp.stackelm 0))
    (habove : Above exact segp.stackelm root 0) (hsp : segp.curSp = 0)
    (hstream : segp.streamOff = 0) : Positioned exact root fns segp [] [⟨root, 0, 0, 0⟩] where
  sim := by
    rw [hsp]
    exact sim_start hat habove
  left := by
    rw [leftOf_cons, left_start]
    exact le_refl _
  rest := by
    rw [restOf_cons, rest_start, restOf_nil, List.append_nil]
    rfl
  stream := hstream

variable {dl : Dataloop} {elm : Stackelm}

theorem startElm_of (hfixed : Fixed dl elm) :
    startElm beyond { elm with origBlock := blocksizeAt beyond 0 dl } =
      { elm with
        curcount := elm.origCount
        origBlock := blocksizeAt beyond 0 dl
        curblock := blocksizeAt beyond 0 dl
        curoffset := elm.origOffset + offsetAt beyond 0 dl } := by
  unfold startElm
  simp only [hfixed.loopP, ite_self]

theorem fixed_first (hfixed : Fixed dl elm) : Fixed dl { elm with origBlock := blocksizeAt beyond 0 dl } :=
  ⟨hfixed.loopP, hfixed.origCount, hfixed.reloading, fun _ hn => blocksizeAt_same beyond hn 0⟩

theorem first_first (dl : Dataloop) (elm : Stackelm) :
    First dl { elm with origBlock := blocksizeAt beyond 0 dl } := by
  intro ch later hch
  have hzero : dl.children[0]? = some ch := by rw [hch]; rfl
  exact blocksizeAt_child beyond hzero

theorem at_start (hroot : root.Shaped) (hfixed : Fixed root elm) (hoff : exact → elm.origOffset = 0) :
    At exact ⟨root, 0, 0, 0⟩
      { elm with
        curcount := elm.origCount
        origBlock := blocksizeAt beyond 0 root
        curblock := blocksizeAt beyond 0 root
        curoffset := elm.origOffset + offsetAt beyond 0 root } := by
  rw [← startElm_of beyond hfixed]
  exact startElm_at beyond hroot (fixed_first beyond hfixed) (fun _ => first_first beyond root elm)
    hoff

def Under (st : Nat → Stackelm) : Dataloop → Nat → Prop
  | .node _ _ dl, i => Loaded True st dl i
  | _, _ => True

theorem loadRest_spec (hshaped : dl.Shaped) (branchFlag : Bool) (i : Nat)
    (st : Nat → Stackelm) (hroom : i + dl.height ≤ maxDatatypeDepth + 1) :
    ∃ st', loadRest beyond dl branchFlag i st = .ok st' ∧ (∀ j < i, st' j = st j) ∧
      Under st' dl i := by
  induction dl generalizing branchFlag i st with
  | leaf p el => exact ⟨st, rfl, fun _ _ => rfl, trivial⟩
  | node p el dl ih =>
    rw [Dataloop.Shaped] at hshaped
    rw [Dataloop.height] at hroom
    have hpos := height_pos dl
    obtain ⟨st', hload, hsame, hunder⟩ := ih hshaped.2.2
      (stackelmLoad beyond (st i) dl branchFlag).mayRequireReloading (i + 1)
      (Function.update st i (stackelmLoad beyond (st i) dl branchFlag)) (by omega)
    have hi : st' i = stackelmLoad beyond (st i) dl branchFlag := by
      rw [hsame i (by omega), Function.update_self]
    refine ⟨st', ?_, ?_, ?_⟩
    · rw [loadRest, if_pos (by omega)]
      exact hload
    · intro j hj
      rw [hsame j (by omega)]
      exact Function.update_of_ne (by omega) _ _
    · refine loaded_of ?_ ?_ ?_
      · rw [hi]
        exact load_fixed beyond _ _ _
      · rw [hi]
        exact fun _ => load_first beyond _ _ _
      · cases dl with
        | leaf p el => trivial
        | node p el dl => exact fun _ => hunder
        | struct ms => trivial
  | struct ms ih =>
    rw [Dataloop.Shaped] at hshaped
    obtain ⟨hne, hmembers⟩ := hshaped
    rw [Dataloop.height] at hroom
    cases ms with
    | nil => exact absurd rfl hne
    | cons blocksize offset elExtent dl rest =>
      have hmem : (⟨blocksize, offset, elExtent, dl⟩ : Child) ∈
          (Members.cons blocksize offset elExtent dl rest).list := List.mem_cons_self
      have hpos := height_pos dl
      have hheight := members_height hmem
      dsimp only at hheight
      obtain ⟨st', hload, hsame, -⟩ := ih _ hmem (members_shaped hmembers hmem).2
        (stackelmLoad beyond (st i) dl branchFlag).mayRequireReloading (i + 1)
        (Function.update st i (stackelmLoad beyond (st i) dl branchFlag)) (by dsimp only; omega)
      refine ⟨st', ?_, ?_, trivial⟩
      · rw [loadRest, loadFirst, if_pos (by omega)]
        exact hload
      · intro j hj
        rw [hsame j (by omega)]
        exact Function.update_of_ne (by omega) _ _

theorem segmentInit_spec (fns : Pieces σ) (hroot : root.Shaped) {buf : Int} {depth : Nat}
    (hheight : root.height ≤ depth) (hdepth : depth < maxDatatypeDepth) :
    ∃ segp, segmentInit beyond buf st root depth = .ok segp ∧ segp.ptr = buf ∧
      Positioned True root fns segp [] [⟨root, 0, 0, 0⟩] := by
  have hload := load_fixed beyond (st 0) root false
  generalize helm : ({ stackelmLoad beyond (st 0) root false with origOffset := 0 } : Stackelm) = elm
  have hfixed : Fixed root elm := by
    rw [← helm]
    exact ⟨hload.loopP, hload.origCount, hload.reloading, hload.origBlock⟩
  have horig : elm.origOffset = 0 := by rw [← helm]
  have hat : At True ⟨root, 0, 0, 0⟩ _ := at_start beyond hroot hfixed fun _ => horig
  obtain ⟨st', hrest, hsame, hunder⟩ := loadRest_spec beyond hroot elm.mayRequireReloading 1
    (Function.update st 0
      { elm with
        curcount := elm.origCount
        origBlock := blocksizeAt beyond 0 root
        curblock := blocksizeAt beyond 0 root
        curoffset := elm.origOffset + offsetAt beyond 0 root }) (by omega)
  have hzero : ({ elm with
      curcount := elm.origCount
      origBlock := blocksizeAt beyond 0 root
      curblock := blocksizeAt beyond 0 root
      curoffset := elm.origOffset + offsetAt beyond 0 root } : Stackelm) = st' 0 := by
    rw [hsame 0 (by omega), Function.update_self]
  refine ⟨⟨buf, 0, st', 0⟩, ?_, rfl, positioned_start ?_ ?_ rfl rfl⟩
  · simp only [← helm, stackelmLoad, stackelmBlocksize, Int.sub_self, Int.zero_add] at hrest
    simp only [segmentInit, if_pos hdepth, stackelmLoad, stackelmBlocksize, stackelmOffset,
      Int.sub_self, hrest]
  · rw [hzero] at hat
    exact hat
  · cases root with
    | leaf p el => trivial
    | node p el dl => exact fun _ => hunder
    | struct ms => trivial

variable {segp : Segment} {consumed : List Element} {stack : List Cursor} {last : Int}
  {I : σ → List Element → Prop} {C : Local σ → Prop} {params : σ} {log : List Event}

variable {taken : List Element}

theorem positioned_ended (h : Positioned exact root fns segp consumed stack) {m' : Local σ}
    {stack' : List Cursor}
    (hended : Ended beyond segp.ptr fns last exact root I (loadLocal segp params log) stack m' stack'
      taken) :
    Positioned exact root fns (saveLocal segp.ptr m').segment (consumed ++ taken) stack' where
  sim := hended.moves.sim
  left := le_trans hended.left h.left
  rest := by rw [h.rest, hended.moves.rest, List.append_assoc]
  stream := by
    have hstream : m'.streamOff = segp.streamOff + streamSize fns taken := hended.moves.stream
    change m'.streamOff = _
    rw [hstream, h.stream, streamSize_append]
    push_cast
    rfl

theorem process_first (log : List Event) (hroot : root.Shaped) (h : Positioned exact root fns segp consumed stack)
    (hne : stack ≠ []) (hlast : last ≠ ignoreLast → segp.streamOff ≤ last) (hI : I params [])
    (hsound : Sound beyond segp.ptr fns last exact root I (loadLocal segp params log) stack C) :
    ((∀ m, Reached (turn beyond fns segp.ptr last) (loadLocal segp params log) m → C m) ∧
        ∃ m' stack' taken, process beyond fns segp last params log = saveLocal segp.ptr m' ∧
          Ended beyond segp.ptr fns last exact root I (loadLocal segp params log) stack m' stack'
            taken) ∨
      ∃ m stack' taken k, Along beyond segp.ptr fns last exact root I (loadLocal segp params log)
          stack m stack' taken ∧ ¬C m ∧
        (∀ m', Reached (turn beyond fns segp.ptr last) (loadLocal segp params log) m' →
          C m' ∨ Reached (turn beyond fns segp.ptr last) m m') ∧
        process beyond fns segp last params log =
          saveLocal segp.ptr ((rounds (turn beyond fns segp.ptr last) (k + 1) m).getD
            { loadLocal segp params log with fault := some .rounds }) := by
  have hloop : (segp.stackelm 0).loopP = root := (loaded_of_sim h.sim).fixed.loopP
  have hsp : ¬segp.curSp < 0 := by
    have hlen := h.sim.length
    have hpos := List.length_pos_iff.mpr hne
    omega
  have hfuel : leftOf stack < fuel segp := by
    rw [fuel, hloop]
    exact Nat.lt_succ_of_le h.left
  have hrun := run_first beyond segp.ptr hroot hsound hne h.sim rfl hlast hI hfuel
  unfold process
  simp only [if_neg hsp]
  rcases hrun with ⟨hall, m', hm', stack', taken, hended⟩ |
    ⟨m, stack', taken, k, halong, hnot, hbefore, heq⟩
  · refine Or.inl ⟨hall, m', stack', taken, ?_, hended⟩
    rw [hm', Option.getD_some]
  · refine Or.inr ⟨m, stack', taken, k, halong, hnot, hbefore, ?_⟩
    rw [heq]

theorem process_spec (log : List Event) (hroot : root.Shaped) (h : Positioned exact root fns segp consumed stack)
    (hne : stack ≠ []) (hlast : last ≠ ignoreLast → segp.streamOff ≤ last) (hI : I params [])
    (hsound : Sound beyond segp.ptr fns last exact root I (loadLocal segp params log) stack C)
    (hC : ∀ m, Reached (turn beyond fns segp.ptr last) (loadLocal segp params log) m → C m) :
    ∃ m' stack' taken, process beyond fns segp last params log = saveLocal segp.ptr m' ∧
      Ended beyond segp.ptr fns last exact root I (loadLocal segp params log) stack m' stack'
        taken := by
  rcases process_first beyond log hroot h hne hlast hI hsound with
    ⟨_, hend⟩ | ⟨m, _, _, _, halong, hnot, _⟩
  · exact hend
  · exact absurd (hC m halong.reached) hnot

theorem offer_null (sizefn : Option (FgMpi.Types.Constructors.Builtin → Nat)) (m : Local Unit) :
    offer beyond (nullPieces sizefn) last m = none := by
  unfold offer
  cases m.curElmp.loopP with
  | node p el dl => rfl
  | struct ms => rfl
  | leaf p el =>
    have hnone : (choose beyond (nullPieces sizefn) p el m.curElmp).1 = none := by
      cases p <;> simp [choose, nullPieces]
    simp only [leafOffer, hnone, Option.map_none, ite_self]

theorem positioned_null (h : Positioned exact root fns segp consumed stack) :
    Positioned exact root (nullPieces fns.sizefn) segp consumed stack :=
  ⟨h.sim, h.left, h.rest, h.stream⟩

theorem streamSize_cons (e : Element) (es : List Element) :
    streamSize fns (e :: es) = streamElSize fns e.el + streamSize fns es := rfl

theorem prefix_unique {es P Q P' Q' : List Element} (h : es = P ++ Q) (h' : es = P' ++ Q')
    (hpos : ∀ e ∈ es, 0 < streamElSize fns e.el) (hsize : streamSize fns P = streamSize fns P') :
    P = P' := by
  induction P generalizing es P' with
  | nil =>
    cases P' with
    | nil => rfl
    | cons e P' =>
      have he := hpos e (by rw [h']; exact List.mem_cons_self)
      rw [streamSize_nil, streamSize_cons] at hsize
      omega
  | cons e P ih =>
    subst h
    cases P' with
    | nil =>
      have he := hpos e List.mem_cons_self
      rw [streamSize_nil, streamSize_cons] at hsize
      omega
    | cons e' P' =>
      rw [List.cons_append, List.cons_append, List.cons.injEq] at h'
      obtain ⟨rfl, h'⟩ := h'
      rw [streamSize_cons, streamSize_cons] at hsize
      rw [ih rfl h' (fun x hx => hpos x (List.mem_cons_of_mem _ hx)) (by omega)]

theorem prefix_next {es P P' Q' Q : List Element} {e : Element} (h : es = P ++ e :: Q)
    (h' : es = P' ++ Q') (hsize : streamSize fns P < streamSize fns P') :
    streamSize fns P + streamElSize fns e.el ≤ streamSize fns P' := by
  rw [h, List.append_eq_append_iff] at h'
  rcases h' with ⟨as, rfl, has⟩ | ⟨bs, rfl, _⟩
  · cases as with
    | nil =>
      rw [List.append_nil] at hsize
      omega
    | cons a as =>
      rw [List.cons_append, List.cons.injEq] at has
      obtain ⟨rfl, _⟩ := has
      rw [streamSize_append, streamSize_cons]
      omega
  · rw [streamSize_append] at hsize
    omega

theorem along_notEmpty (hfilled : root.Filled) {ptr : Int} {m₀ m : Local σ} {stack₀ stack : List Cursor}
    (h : Along beyond ptr fns last exact root I m₀ stack₀ m stack taken) : NotEmpty m := by
  obtain ⟨cu, below, rfl⟩ := List.exists_cons_of_ne_nil h.ne
  exact notEmpty_of_filled hfilled h.moves.sim

theorem elements_pos (hfilled : dl.Filled) {off : Int} {e : Element}
    (he : e ∈ dl.elements off) : 0 < e.el.size ∧ e.el.type.size = e.el.size := by
  induction dl generalizing off with
  | leaf p el =>
    obtain ⟨B, _, hB⟩ := List.mem_flatMap.mp (by rwa [Dataloop.elements] at he)
    obtain ⟨i, _, rfl⟩ := List.mem_map.mp hB
    rw [Dataloop.Filled] at hfilled
    exact hfilled.2
  | node p el dl ih =>
    rw [Dataloop.elements] at he
    obtain ⟨B, _, hB⟩ := List.mem_flatMap.mp he
    obtain ⟨i, _, hi⟩ := List.mem_flatMap.mp hB
    rw [Dataloop.Filled] at hfilled
    exact ih hfilled hi
  | struct ms ih =>
    rw [Dataloop.elements, members_elements] at he
    obtain ⟨ch, hch, hmem⟩ := List.mem_flatMap.mp he
    obtain ⟨i, _, hi⟩ := List.mem_flatMap.mp hmem
    rw [Dataloop.Filled] at hfilled
    exact ih ch hch (members_filled hfilled hch) hi

theorem null_sound {m₀ : Local Unit} {stack₀ : List Cursor} {ptr : Int}
    {sizefn : Option (FgMpi.Types.Constructors.Builtin → Nat)} :
    Sound beyond ptr (nullPieces sizefn) last exact root (fun _ _ => True) m₀ stack₀ NotEmpty := by
  intro m stack taken _ hm
  refine ⟨hm, ?_, fun _ _ _ _ => trivial⟩
  intro o ho
  rw [offer_null] at ho
  cases ho

theorem positioned_along (h : Positioned exact root fns segp consumed stack) {m : Local σ}
    {stack' : List Cursor}
    (halong : Along beyond segp.ptr fns last exact root I (loadLocal segp params log) stack m stack'
      taken) :
    Positioned exact root fns (saveLocal segp.ptr m).segment (consumed ++ taken) stack' where
  sim := halong.moves.sim
  left := le_trans halong.left h.left
  rest := by rw [h.rest, halong.moves.rest, List.append_assoc]
  stream := by
    have hstream : m.streamOff = segp.streamOff + streamSize fns taken := halong.moves.stream
    change m.streamOff = _
    rw [hstream, h.stream, streamSize_append]
    push_cast
    rfl

/-- A call that only advances gets to `first` unless a leaf without elements is before it. -/
def Gets (fns : Pieces σ) (segp : Segment) (first : Int) : Prop :=
  first = segp.streamOff ∨ ∀ m, Reached (turn beyond (nullPieces fns.sizefn) segp.ptr first)
    (loadLocal segp () []) m → NotEmpty m ∨ m.streamOff = first

def advanced (fns : Pieces σ) (segp : Segment) (first : Int) : Outcome Unit :=
  if first = segp.streamOff then ⟨segp, first, (), [], none⟩
  else process beyond (nullPieces fns.sizefn) segp first () []

variable {first : Int} {P Q : List Element}

theorem null_cases (hroot : root.Shaped) (h : Positioned exact root fns segp consumed stack)
    (hne : stack ≠ []) (hPQ : root.elements 0 = P ++ Q) (hfirst : first = streamSize fns P)
    (hbehind : segp.streamOff ≤ first) :
    ∃ m', process beyond (nullPieces fns.sizefn) segp first () [] = saveLocal segp.ptr m' ∧
      m'.fault = none ∧
      (((∀ m, Reached (turn beyond (nullPieces fns.sizefn) segp.ptr first) (loadLocal segp () []) m →
          NotEmpty m ∨ m.streamOff = first) ∧ m'.streamOff = first ∧
        ∃ consumed' stack', Positioned exact root fns (saveLocal segp.ptr m').segment consumed'
          stack') ∨
      ((∃ m, Reached (turn beyond (nullPieces fns.sizefn) segp.ptr first) (loadLocal segp () []) m ∧
          ¬NotEmpty m ∧ m.streamOff ≠ first) ∧ m'.streamOff ≠ first)) := by
  have hign : first ≠ ignoreLast := by
    have hneg : ignoreLast = -1 := rfl
    omega
  have hback : ∀ {seg : Segment} {c : List Element} {st : List Cursor},
      Positioned exact root (nullPieces fns.sizefn) seg c st → Positioned exact root fns seg c st :=
    fun hp => ⟨hp.sim, hp.left, hp.rest, hp.stream⟩
  rcases process_first beyond [] hroot (positioned_null h) hne (fun _ => hbehind) trivial
    (null_sound beyond) with ⟨hall, m', stack', taken, heq, hended⟩ |
      ⟨m, stack', taken, k, halong, hempty, hbefore, heq⟩
  · have hpos := hback (positioned_ended beyond (positioned_null h) hended)
    have hstream : m'.streamOff = streamSize fns (consumed ++ taken) := hpos.stream
    refine ⟨m', heq, hended.moves.fault, Or.inl ⟨fun m hm => Or.inl (hall m hm), ?_, _, stack', hpos⟩⟩
    have hfits : m'.streamOff ≤ first := hended.within hign
    rw [hfirst, hstream] at hfits
    rw [hstream, hfirst]
    have hle : ¬streamSize fns (consumed ++ taken) < streamSize fns P := by
      intro hlt
      have hrest := hpos.rest
      rcases hended.stops with hstops | ⟨_, _, _, _, _, _, _, o, ho, _⟩
      · rcases hstops with hnil | ⟨e, es, hes, _, hover⟩
        · rw [hnil, List.append_nil, hPQ] at hrest
          rw [← hrest, streamSize_append] at hlt
          omega
        · rw [hes] at hrest
          have hnext := prefix_next hrest hPQ hlt
          have hsame : streamElSize (nullPieces fns.sizefn) e.el = streamElSize fns e.el := rfl
          rw [hstream, hfirst, hsame] at hover
          omega
      · rw [offer_null] at ho
        cases ho
    omega
  · -- a leaf without elements ends the call
    obtain ⟨cu, below, rfl⟩ := List.exists_cons_of_ne_nil halong.ne
    obtain ⟨p, el, piece, more, hoffer, hturn, _⟩ :=
      offer_empty beyond segp.ptr hroot halong.moves.sim halong.within hempty
    have hpiece : piece = none := by
      rw [offer_null] at hoffer
      exact Option.map_eq_none_iff.mp hoffer.symm
    rw [hpiece, update_nothing beyond rfl rfl] at hturn
    rw [rounds_leave hturn, Option.getD_some] at heq
    have hpos := hback (positioned_along beyond (positioned_null h) halong)
    refine ⟨_, heq, halong.moves.fault, ?_⟩
    by_cases hthere : m.streamOff = first
    · refine Or.inl ⟨?_, hthere, _, _, ⟨hpos.sim, hpos.left, hpos.rest, hpos.stream⟩⟩
      intro m₁ hm₁
      refine (hbefore m₁ hm₁).imp_right ?_
      intro hm
      rcases hm.split with rfl | ⟨a', ha', _⟩
      · exact hthere
      · rw [hturn] at ha'
        cases ha'
    · exact Or.inr ⟨⟨m, halong.reached, hempty, hthere⟩, hthere⟩

theorem goto_cases (fns : Pieces σ) (params : σ) (hroot : root.Shaped)
    (h : Positioned exact root fns segp consumed stack) (hPQ : root.elements 0 = P ++ Q)
    (hQ : 0 < streamSize fns Q) (hfirst : first = streamSize fns P)
    (hbehind : segp.streamOff ≤ first) (hlast : first ≠ last) :
    (Gets beyond fns segp first ∧ ∃ consumed' stack',
        Positioned exact root fns (advanced beyond fns segp first).segment consumed' stack' ∧
        (streamSize fns consumed' : Int) = first ∧ stack' ≠ [] ∧
        (advanced beyond fns segp first).segment.ptr = segp.ptr ∧
        manipulate beyond fns segp first last params =
          process beyond fns (advanced beyond fns segp first).segment last params
            (advanced beyond fns segp first).log) ∨
      (¬Gets beyond fns segp first ∧
        (manipulate beyond fns segp first last params).fault = some .assertion) := by
  have hstay : ∀ {segp' : Segment} {consumed' : List Element} {stack' : List Cursor},
      Positioned exact root fns segp' consumed' stack' → segp'.streamOff = first →
      (streamSize fns consumed' : Int) = first ∧ stack' ≠ [] := by
    intro segp' consumed' stack' hpos hoff
    have hstream := hpos.stream
    refine ⟨by omega, ?_⟩
    rintro rfl
    have hrest := hpos.rest
    rw [hPQ, restOf_nil, List.append_nil] at hrest
    have hsize := congrArg (streamSize fns) hrest
    rw [streamSize_append] at hsize
    omega
  by_cases hhere : first = segp.streamOff
  · obtain ⟨hsize, hne⟩ := hstay h hhere.symm
    refine Or.inl ⟨Or.inl hhere, consumed, stack, ?_, hsize, hne, ?_, ?_⟩
    · rw [advanced, if_pos hhere]
      exact h
    · rw [advanced, if_pos hhere]
    · rw [manipulate, if_neg hlast, if_pos hhere, advanced, if_pos hhere]
  · have hne : stack ≠ [] := by
      rintro rfl
      have hrest := h.rest
      have hstream := h.stream
      rw [restOf_nil, List.append_nil, hPQ] at hrest
      rw [← hrest, streamSize_append] at hstream
      push_cast at hstream
      omega
    have hnot : ¬first < segp.streamOff := by omega
    obtain ⟨m', heq, hfault, hcases⟩ := null_cases beyond hroot h hne hPQ hfirst hbehind
    have hsaved : (saveLocal segp.ptr m').fault.isSome = false := by
      change m'.fault.isSome = false
      rw [hfault]
      rfl
    have hadvanced : advanced beyond fns segp first = saveLocal segp.ptr m' := by
      rw [advanced, if_neg hhere, heq]
    rcases hcases with ⟨hall, hthere, consumed', stack', hpos⟩ | ⟨⟨m, hm, hempty, hoff⟩, hnot'⟩
    · obtain ⟨hsize, hne'⟩ := hstay hpos hthere
      rw [hadvanced]
      refine Or.inl ⟨Or.inr hall, consumed', stack', hpos, hsize, hne', rfl, ?_⟩
      simp only [manipulate, if_neg hlast, if_neg hhere, if_neg hnot, heq, hsaved,
        Bool.false_eq_true, if_false]
      exact if_pos hthere
    · refine Or.inr ⟨?_, ?_⟩
      · rintro (hsame | hall)
        · exact hhere hsame
        · exact (hall m hm).elim hempty hoff
      · simp only [manipulate, if_neg hlast, if_neg hhere, if_neg hnot, heq, hsaved,
          Bool.false_eq_true, if_false]
        rw [if_neg (show ¬(saveLocal segp.ptr m').lastp = first from hnot')]

theorem gets_of_filled (hroot : root.Shaped) (hfilled : root.Filled)
    (h : Positioned exact root fns segp consumed stack) (hne : stack ≠ [])
    (hbehind : segp.streamOff ≤ first) : Gets beyond fns segp first := by
  refine Or.inr ?_
  intro m hm
  rcases process_first beyond [] hroot (positioned_null h) hne (fun _ => hbehind) trivial
    (null_sound beyond) with ⟨hall, _⟩ | ⟨m₁, _, _, _, halong, hempty, _, _⟩
  · exact Or.inl (hall m hm)
  · exact absurd (along_notEmpty beyond hfilled halong) hempty

theorem goto_spec (fns : Pieces σ) (params : σ) (hroot : root.Shaped) (hfilled : root.Filled)
    (hsize : ∀ e ∈ root.elements 0, 0 < streamElSize fns e.el)
    (h : Positioned exact root fns segp consumed stack)
    (hPQ : root.elements 0 = P ++ Q) (hQ : Q ≠ []) (hfirst : first = streamSize fns P)
    (hbehind : segp.streamOff ≤ first) (hlast : first ≠ last) :
    ∃ segp' stack' log', Positioned exact root fns segp' P stack' ∧ stack' ≠ [] ∧
      segp'.ptr = segp.ptr ∧ segp'.streamOff = first ∧
      manipulate beyond fns segp first last params = process beyond fns segp' last params log' := by
  have hQsize : 0 < streamSize fns Q := by
    obtain ⟨e, es, rfl⟩ := List.exists_cons_of_ne_nil hQ
    have he := hsize e (by rw [hPQ]; simp)
    rw [streamSize_cons]
    omega
  have hgets : Gets beyond fns segp first := by
    by_cases hhere : first = segp.streamOff
    · exact Or.inl hhere
    · refine gets_of_filled beyond hroot hfilled h ?_ hbehind
      rintro rfl
      have hrest := h.rest
      have hstream := h.stream
      rw [restOf_nil, List.append_nil, hPQ] at hrest
      rw [← hrest, streamSize_append] at hstream
      push_cast at hstream
      omega
  rcases goto_cases beyond fns params hroot h hPQ hQsize hfirst hbehind hlast with
    ⟨_, consumed', stack', hpos, hsame, hne, hptr, heq⟩ | ⟨hnot, _⟩
  · obtain rfl : consumed' = P := prefix_unique hpos.rest hPQ hsize (by omega)
    refine ⟨_, stack', _, hpos, hne, hptr, ?_, heq⟩
    rw [hpos.stream, hsame]
  · exact absurd hgets hnot

end Segments

def int32 : El := ⟨4, 4, .basic ⟨4, .other, by decide⟩⟩

def blank : Nat → Stackelm := fun _ => ⟨false, 0, 0, 0, 0, 0, 0, .leaf (.contig 0) int32⟩

end FgMpi.Traversal.Calls
