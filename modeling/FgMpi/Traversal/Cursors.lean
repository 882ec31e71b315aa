import FgMpi.Traversal.Manipulate

/-! A cursor is a place in a loop: a block of it, and an element of that block. -/

namespace FgMpi.Traversal.Cursors
open Types.Constructors (Block)
open Traversal.Dataloops Traversal.Manipulate

structure Cursor where
  loop : Dataloop
  off : Int
  index : Nat
  block : Nat

def leafRest (el : El) (off : Int) : List Block → Nat → List Element
  | [], _ => []
  | B :: later, b => (blockElements el off B).drop b ++ later.flatMap (blockElements el off)

def childRest (off : Int) : List Child → Nat → List Element
  | [], _ => []
  | ch :: later, b =>
    (((List.range ch.blocksize).drop b).flatMap fun i : Nat =>
      ch.dataloop.elements (off + ch.offset + i * ch.elExtent)) ++ later.flatMap (childElements off)

def Cursor.rest (cu : Cursor) : List Element :=
  match cu.loop with
  | .leaf p el => leafRest el cu.off (p.blocks.drop cu.index) cu.block
  | dl => childRest cu.off (dl.children.drop cu.index) cu.block

def restOf (stack : List Cursor) : List Element := stack.flatMap Cursor.rest

@[simp] theorem restOf_nil : restOf [] = [] := rfl

theorem restOf_cons (cu : Cursor) (below : List Cursor) :
    restOf (cu :: below) = cu.rest ++ restOf below := rfl

theorem rest_leaf (p : Params) (el : El) (off : Int) (c b : Nat) :
    Cursor.rest ⟨.leaf p el, off, c, b⟩ = leafRest el off (p.blocks.drop c) b := rfl

variable {dl : Dataloop}

theorem rest_inner (h : dl.isLeaf = false) (off : Int) (c b : Nat) :
    Cursor.rest ⟨dl, off, c, b⟩ = childRest off (dl.children.drop c) b := by
  cases dl with
  | leaf p el => cases h
  | node p el dl => rfl
  | struct ms => rfl

theorem leafRest_zero (el : El) (off : Int) (bs : List Block) :
    leafRest el off bs 0 = bs.flatMap (blockElements el off) := by
  cases bs with
  | nil => rfl
  | cons B later => rfl

theorem childRest_zero (off : Int) (chs : List Child) :
    childRest off chs 0 = chs.flatMap (childElements off) := by
  cases chs with
  | nil => rfl
  | cons ch later => rfl

theorem rest_start (dl : Dataloop) (off : Int) : Cursor.rest ⟨dl, off, 0, 0⟩ = dl.elements off := by
  cases hleaf : dl.isLeaf with
  | false => rw [rest_inner hleaf, List.drop_zero, childRest_zero, elements_children hleaf]
  | true =>
    cases dl with
    | leaf p el => rw [rest_leaf, List.drop_zero, leafRest_zero, Dataloop.elements]
    | node p el dl => cases hleaf
    | struct ms => cases hleaf

theorem childRest_end (off : Int) (ch : Child) (later : List Child) :
    childRest off (ch :: later) ch.blocksize = childRest off later 0 := by
  have hdrop : (List.range ch.blocksize).drop ch.blocksize = [] :=
    List.drop_eq_nil_of_le (by simp)
  rw [childRest_zero, childRest, hdrop]
  rfl

variable {b i : Nat}

theorem childRest_down (off : Int) (ch : Child) (later : List Child)
    (hb : b < ch.blocksize) : childRest off (ch :: later) b =
      ch.dataloop.elements (off + ch.offset + b * ch.elExtent) ++
        childRest off (ch :: later) (b + 1) := by
  have hdrop : (List.range ch.blocksize).drop b = b :: (List.range ch.blocksize).drop (b + 1) := by
    rw [List.drop_eq_getElem_cons (by simpa using hb)]
    simp
  rw [childRest, hdrop, List.flatMap_cons, List.append_assoc]
  rfl

def childLeft : List Child → Nat → Nat
  | [], _ => 0
  | ch :: later, b =>
    1 + (ch.blocksize - b) * (1 + ch.dataloop.steps) + (later.map childSteps).sum

def Cursor.left (cu : Cursor) : Nat :=
  match cu.loop with
  | .leaf p _ => (p.blocks.drop cu.index).length
  | dl => childLeft (dl.children.drop cu.index) cu.block

def leftOf (stack : List Cursor) : Nat := (stack.map Cursor.left).sum

theorem leftOf_cons (cu : Cursor) (below : List Cursor) : leftOf (cu :: below) = cu.left + leftOf below := rfl

theorem left_leaf (p : Params) (el : El) (off : Int) (c b : Nat) :
    Cursor.left ⟨.leaf p el, off, c, b⟩ = (p.blocks.drop c).length := rfl

theorem left_inner (h : dl.isLeaf = false) (off : Int) (c b : Nat) :
    Cursor.left ⟨dl, off, c, b⟩ = childLeft (dl.children.drop c) b := by
  cases dl with
  | leaf p el => cases h
  | node p el dl => rfl
  | struct ms => rfl

theorem childLeft_zero (chs : List Child) : childLeft chs 0 = (chs.map childSteps).sum := by
  cases chs with
  | nil => rfl
  | cons ch later => rfl

theorem left_start (dl : Dataloop) (off : Int) : Cursor.left ⟨dl, off, 0, 0⟩ = dl.steps := by
  cases hleaf : dl.isLeaf with
  | false => rw [left_inner hleaf, List.drop_zero, childLeft_zero, steps_children hleaf]
  | true =>
    cases dl with
    | leaf p el => rfl
    | node p el dl => cases hleaf
    | struct ms => cases hleaf

theorem childLeft_end (ch : Child) (later : List Child) :
    childLeft (ch :: later) ch.blocksize = childLeft later 0 + 1 := by
  rw [childLeft_zero, childLeft, Nat.sub_self, Nat.zero_mul]
  omega

theorem childLeft_down (ch : Child) (later : List Child) (hb : b < ch.blocksize) :
    childLeft (ch :: later) b =
      ch.dataloop.steps + childLeft (ch :: later) (b + 1) + 1 := by
  have hsub : ch.blocksize - b = ch.blocksize - (b + 1) + 1 := by omega
  rw [childLeft, childLeft, hsub, Nat.succ_mul]
  omega

def paramsBlocksize? : Params → Option Nat
  | .contig count => some count
  | .vector _ blocksize _ => some blocksize
  | .blockindexed _ blocksize _ => some blocksize
  | .indexed _ _ _ _ => none

def blocksize? : Dataloop → Option Nat
  | .leaf p _ => paramsBlocksize? p
  | .node p _ _ => paramsBlocksize? p
  | .struct _ => none

structure Fixed (dl : Dataloop) (elm : Stackelm) : Prop where
  loopP : elm.loopP = dl
  origCount : elm.origCount = loopOrigCount dl
  reloading : isStruct dl = true → elm.mayRequireReloading = true
  origBlock : ∀ n, blocksize? dl = some n → elm.origBlock = n

def First (dl : Dataloop) (elm : Stackelm) : Prop :=
  ∀ ch later, dl.children = ch :: later → elm.origBlock = ch.blocksize

structure LeafAt (exact : Prop) (p : Params) (el : El) (off : Int) (c b : Nat) (elm : Stackelm)
    (B : Block) (later : List Block) : Prop where
  blocks : p.blocks.drop c = B :: later
  curcount : elm.curcount = paramsOrigCount p - c
  curblock : elm.curblock = B.blocklength - b
  inside : b < B.blocklength ∨ b = 0
  origOffset : exact → elm.origOffset = off
  curoffset : exact → elm.curoffset = off + B.disp + b * el.size

structure InnerAt (exact : Prop) (dl : Dataloop) (off : Int) (c b : Nat) (elm : Stackelm)
    (ch : Child) (later : List Child) : Prop where
  blocks : dl.children.drop c = ch :: later
  curcount : elm.curcount = loopOrigCount dl - c
  curblock : elm.curblock = ch.blocksize - b
  inside : b ≤ ch.blocksize
  origOffset : exact → elm.origOffset = off
  origBlock : exact → elm.origBlock = ch.blocksize
  curoffset : exact → ∀ count el dl', dl = .node (.contig count) el dl' → elm.curoffset = off

def At (exact : Prop) (cu : Cursor) (elm : Stackelm) : Prop :=
  Fixed cu.loop elm ∧
    match cu.loop with
    | .leaf p el => ∃ B later, LeafAt exact p el cu.off cu.index cu.block elm B later
    | dl => ∃ ch later, InnerAt exact dl cu.off cu.index cu.block elm ch later

theorem At.inner {exact : Prop} {off : Int} {c : Nat} {elm : Stackelm}
    (h : At exact ⟨dl, off, c, b⟩ elm) (hleaf : dl.isLeaf = false) :
    ∃ ch later, InnerAt exact dl off c b elm ch later := by
  cases dl with
  | leaf p el => cases hleaf
  | node p el dl => exact h.2
  | struct ms => exact h.2

theorem at_inner {exact : Prop} {off : Int} {c : Nat} {elm : Stackelm}
    {ch : Child} {later : List Child} (hfixed : Fixed dl elm) (hleaf : dl.isLeaf = false)
    (h : InnerAt exact dl off c b elm ch later) : At exact ⟨dl, off, c, b⟩ elm := by
  cases dl with
  | leaf p el => cases hleaf
  | node p el dl => exact ⟨hfixed, ch, later, h⟩
  | struct ms => exact ⟨hfixed, ch, later, h⟩

/-- The stack elements from index `i` on are loaded for a traversal of `dl`. -/
def Loaded (exact : Prop) (st : Nat → Stackelm) : Dataloop → Nat → Prop
  | .leaf p el, i => Fixed (.leaf p el) (st i)
  | .node p el dl, i =>
    Fixed (.node p el dl) (st i) ∧ (exact → First (.node p el dl) (st i)) ∧
      ((st i).mayRequireReloading = false → Loaded exact st dl (i + 1))
  | .struct ms, i => Fixed (.struct ms) (st i) ∧ (exact → First (.struct ms) (st i))

def Above (exact : Prop) (st : Nat → Stackelm) : Dataloop → Nat → Prop
  | .node _ _ dl, i => (st i).mayRequireReloading = false → Loaded exact st dl (i + 1)
  | _, _ => True

def From (root : Dataloop) (cu : Cursor) : List Cursor → Prop
  | [] => cu.loop = root ∧ cu.off = 0
  | lo :: _ => ∃ ch ∈ lo.loop.children, ch.dataloop = cu.loop

def Holds (exact : Prop) (root : Dataloop) (st : Nat → Stackelm) : List Cursor → Prop
  | [] => True
  | cu :: below =>
    At exact cu (st below.length) ∧ From root cu below ∧ Holds exact root st below

def Top (exact : Prop) (root : Dataloop) (st : Nat → Stackelm) : List Cursor → Prop
  | [] => Loaded exact st root 0
  | cu :: below => Above exact st cu.loop below.length

/-- The stack elements up to `sp` hold the places of `stack`, the top one first. -/
structure Sim (exact : Prop) (root : Dataloop) (st : Nat → Stackelm) (sp : Int)
    (stack : List Cursor) : Prop where
  length : (stack.length : Int) = sp + 1
  holds : Holds exact root st stack
  top : Top exact root st stack

variable {exact : Prop} {root : Dataloop} {st st' : Nat → Stackelm}

theorem Loaded.congr (h : Loaded exact st dl i)
    (heq : ∀ j, i ≤ j → st' j = st j) : Loaded exact st' dl i := by
  induction dl generalizing i with
  | leaf p el =>
    rw [Loaded] at h ⊢
    rw [heq i (le_refl i)]
    exact h
  | node p el dl ih =>
    rw [Loaded] at h ⊢
    rw [heq i (le_refl i)]
    refine ⟨h.1, h.2.1, ?_⟩
    intro hmay
    exact ih (h.2.2 hmay) fun j hj => heq j (by omega)
  | struct ms _ =>
    rw [Loaded] at h ⊢
    rw [heq i (le_refl i)]
    exact h

theorem Above.congr (h : Above exact st dl i)
    (hmay : (st' i).mayRequireReloading = (st i).mayRequireReloading)
    (heq : ∀ j, i < j → st' j = st j) : Above exact st' dl i := by
  cases dl with
  | leaf p el => trivial
  | node p el dl =>
    intro hfalse
    rw [hmay] at hfalse
    exact (h hfalse).congr fun j hj => heq j (by omega)
  | struct ms => trivial

theorem Holds.congr {stack : List Cursor} (h : Holds exact root st stack)
    (heq : ∀ j, j < stack.length → st' j = st j) : Holds exact root st' stack := by
  induction stack with
  | nil => trivial
  | cons cu below ih =>
    rw [Holds] at h ⊢
    rw [heq below.length (by simp)]
    exact ⟨h.1, h.2.1, ih h.2.2 fun j hj => heq j (by simp only [List.length_cons]; omega)⟩

section
variable (h : Loaded exact st dl i)
include h

theorem Loaded.fixed : Fixed dl (st i) := by
  cases dl with
  | leaf p el => exact h
  | node p el dl => exact h.1
  | struct ms => exact h.1

theorem Loaded.first (hexact : exact) : First dl (st i) := by
  cases dl with
  | leaf p el =>
    intro ch later hnil
    cases hnil
  | node p el dl => exact h.2.1 hexact
  | struct ms => exact h.2 hexact

theorem Loaded.above : Above exact st dl i := by
  cases dl with
  | leaf p el => trivial
  | node p el dl => exact h.2.2
  | struct ms => trivial

end

theorem loaded_of (hfixed : Fixed dl (st i))
    (hfirst : exact → First dl (st i)) (habove : Above exact st dl i) : Loaded exact st dl i := by
  cases dl with
  | leaf p el => exact hfixed
  | node p el dl => exact ⟨hfixed, hfirst, habove⟩
  | struct ms => exact ⟨hfixed, hfirst⟩

variable {cu : Cursor} {below : List Cursor}

theorem shaped_top (hroot : root.Shaped) (h : Holds exact root st (cu :: below)) : cu.loop.Shaped := by
  induction below generalizing cu with
  | nil =>
    rw [h.2.1.1]
    exact hroot
  | cons lo below ih =>
    obtain ⟨ch, hch, heq⟩ := h.2.1
    rw [← heq]
    exact (shaped_child (ih h.2.2) hch).2

theorem filled_top (hroot : root.Filled) (h : Holds exact root st (cu :: below)) : cu.loop.Filled := by
  induction below generalizing cu with
  | nil =>
    rw [h.2.1.1]
    exact hroot
  | cons lo below ih =>
    obtain ⟨ch, hch, heq⟩ := h.2.1
    rw [← heq]
    exact filled_child (ih h.2.2) hch

theorem sized_top (hroot : root.Sized) (h : Holds exact root st (cu :: below)) : cu.loop.Sized := by
  induction below generalizing cu with
  | nil =>
    rw [h.2.1.1]
    exact hroot
  | cons lo below ih =>
    obtain ⟨ch, hch, heq⟩ := h.2.1
    rw [← heq]
    exact sized_child (ih h.2.2) hch

section Moving
variable {sp : Int} {cu : Cursor} {below : List Cursor} {elm : Stackelm}

section
variable (h : Sim exact root st sp (cu :: below))
include h

theorem Sim.toNat : sp.toNat = below.length := by
  have hlen := h.length
  rw [List.length_cons] at hlen
  omega

theorem Sim.nonneg : sp = below.length := by
  have hlen := h.length
  rw [List.length_cons] at hlen
  omega

theorem Sim.at_top : At exact cu (st sp.toNat) := by
  rw [h.toNat]
  exact h.holds.1

theorem Sim.shaped (hroot : root.Shaped) : cu.loop.Shaped := shaped_top hroot h.holds

theorem Sim.moved {c b : Nat} (hat : At exact ⟨cu.loop, cu.off, c, b⟩ elm)
    (hmay : elm.mayRequireReloading = (st sp.toNat).mayRequireReloading) :
    Sim exact root (Function.update st sp.toNat elm) sp (⟨cu.loop, cu.off, c, b⟩ :: below) := by
  obtain ⟨hcu, hfrom, hbelow⟩ := h.holds
  rw [h.toNat] at hmay ⊢
  refine ⟨h.length, ⟨?_, ?_, ?_⟩, ?_⟩
  · rw [Function.update_self]
    exact hat
  · cases below with
    | nil => exact hfrom
    | cons lo more => exact hfrom
  · refine hbelow.congr ?_
    intro j hj
    exact Function.update_of_ne (by omega) _ _
  · refine Above.congr (i := below.length) h.top ?_ ?_
    · rw [Function.update_self, hmay]
    · intro j hj
      exact Function.update_of_ne (by omega) _ _

theorem Sim.popped (hfixed : Fixed cu.loop elm) (hfirst : exact → First cu.loop elm)
    (hmay : elm.mayRequireReloading = (st sp.toNat).mayRequireReloading) :
    Sim exact root (Function.update st sp.toNat elm) (sp - 1) below := by
  obtain ⟨hcu, hfrom, hbelow⟩ := h.holds
  have hlen := h.length
  rw [List.length_cons] at hlen
  rw [h.toNat] at hmay ⊢
  have hloaded : Loaded exact (Function.update st below.length elm) cu.loop below.length := by
    refine loaded_of ?_ ?_ ?_
    · rw [Function.update_self]
      exact hfixed
    · rw [Function.update_self]
      exact hfirst
    · refine Above.congr (i := below.length) h.top ?_ ?_
      · rw [Function.update_self, hmay]
      · intro j hj
        exact Function.update_of_ne (by omega) _ _
  refine ⟨by omega, ?_, ?_⟩
  · refine hbelow.congr ?_
    intro j hj
    exact Function.update_of_ne (by omega) _ _
  · cases below with
    | nil =>
      rw [hfrom.1] at hloaded
      exact hloaded
    | cons lo more =>
      obtain ⟨ch, hch, heq⟩ := hfrom
      rw [← heq] at hloaded
      change Above exact _ lo.loop more.length
      cases hlo : lo.loop with
      | leaf p el => trivial
      | node p el dl =>
        rw [hlo] at hch
        obtain ⟨B, _, rfl⟩ := List.mem_map.mp hch
        intro _
        exact hloaded
      | struct ms => trivial

theorem Sim.pushed {next : Stackelm} {ch : Child}
    {off : Int} (hch : ch ∈ cu.loop.children) (hat : At exact ⟨ch.dataloop, off, 0, 0⟩ next)
    (habove : next.mayRequireReloading = false →
      Above exact st ch.dataloop (below.length + 1) ∧
        (st (below.length + 1)).mayRequireReloading = false) :
    Sim exact root (Function.update st (sp + 1).toNat next) (sp + 1)
      (⟨ch.dataloop, off, 0, 0⟩ :: cu :: below) := by
  have hlen := h.length
  rw [List.length_cons] at hlen
  have hsp : (sp + 1).toNat = below.length + 1 := by omega
  rw [hsp]
  refine ⟨by simp only [List.length_cons]; omega, ⟨?_, ⟨ch, hch, rfl⟩, ?_⟩, ?_⟩
  · rw [List.length_cons, Function.update_self]
    exact hat
  · refine h.holds.congr ?_
    intro j hj
    rw [List.length_cons] at hj
    exact Function.update_of_ne (by omega) _ _
  · change Above exact _ ch.dataloop (below.length + 1)
    cases hdl : ch.dataloop with
    | leaf p el => trivial
    | node p el dl =>
      rw [hdl] at habove
      intro hmay
      rw [Function.update_self] at hmay
      obtain ⟨hup, hsame⟩ := habove hmay
      refine (hup hsame).congr ?_
      intro j hj
      exact Function.update_of_ne (by omega) _ _
    | struct ms => trivial

end

end Moving

end FgMpi.Traversal.Cursors
