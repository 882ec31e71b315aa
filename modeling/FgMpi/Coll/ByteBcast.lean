import FgMpi.Coll.FlatBarrier
import FgMpi.Coll.Tree

/-! The broadcast that ends `barrier_smp_intra` (`mpi/coll/barrier.c:70`). -/

namespace FgMpi.Coll.ByteBcast
open FlatBarrier Coll.Tree
open Function (update update_of_ne update_self)

def forward (size rank : Nat) (g : Group) : Group :=
  { g with
    sent := (children size rank).foldl (fun sent dst => bump sent rank dst) g.sent
    mask := update g.mask rank none
    left := update g.left rank (g.left rank + 1) }

def enter (size rank : Nat) (g : Group) : Group :=
  let g := { g with entered := update g.entered rank (g.entered rank + 1) }
  if myMask size rank < size then
    { g with mask := update g.mask rank (some (myMask size rank)) }
  else forward size rank g

def receive (size rank : Nat) (g : Group) : Group :=
  match g.mask rank with
  | none => g
  | some mask =>
    let src := rank - mask
    if g.recvd src rank < g.sent src rank then
      forward size rank { g with recvd := bump g.recvd src rank }
    else g

structure Inv (size : Nat) (g : Group) : Prop where
  sent : ∀ r < size, ∀ c, g.sent r c ≤ g.left r
  recvd : ∀ r < size, myMask size r < size → g.recvd (r - myMask size r) r = g.left r
  done : ∀ r < size, g.left r ≤ g.entered 0
  waits : ∀ r < size, ∀ m, g.mask r = some m → m = myMask size r ∧ m < size
  entered : ∀ r < size, g.entered r = g.left r + waiting (g.mask r)

theorem init_inv (size : Nat) : Inv size {} :=
  ⟨fun _ _ _ => Nat.zero_le _, fun _ _ _ => rfl, fun _ _ => Nat.zero_le _,
    fun _ _ _ h => (nomatch h), fun _ _ => rfl⟩

theorem foldl_bump (f : Nat → Nat → Nat) (r : Nat) (cs : List Nat) (x c : Nat) :
    cs.foldl (fun f dst => bump f r dst) f x c = f x c + if x = r then cs.count c else 0 := by
  induction cs generalizing f with
  | nil => simp
  | cons d cs ih =>
    rw [List.foldl_cons, ih, List.count_cons]
    by_cases hx : x = r
    · subst hx
      rw [if_pos rfl, if_pos rfl]
      by_cases hd : c = d
      · subst hd
        rw [bump_same]
        simp
        omega
      · rw [bump_other _ (fun hand => hd hand.2)]
        simp [Ne.symm hd]
    · rw [if_neg hx, if_neg hx, bump_other _ (fun hand => hx hand.1)]

section Steps
variable {size r : Nat} {g : Group}

theorem forward_inv (hsent : ∀ q < size, ∀ c, g.sent q c ≤ g.left q)
    (hrecvd : ∀ q < size, myMask size q < size →
      g.recvd (q - myMask size q) q = g.left q + if q = r then 1 else 0)
    (hdone : ∀ q < size, (g.left q + if q = r then 1 else 0) ≤ g.entered 0)
    (hwaits : ∀ q < size, q ≠ r → ∀ m, g.mask q = some m → m = myMask size q ∧ m < size)
    (hentered : ∀ q < size, g.entered q = g.left q +
      if q = r then 1 else waiting (g.mask q)) (hr : r < size) :
    Inv size (forward size r g) := by
  refine ⟨?_, ?_, ?_, ?_, ?_⟩
  · intro q hq c
    dsimp only [forward]
    rw [foldl_bump]
    have hle := hsent q hq c
    by_cases hqr : q = r
    · subst hqr
      have hcount := List.nodup_iff_count_le_one.mp (children_nodup hr) c
      rw [if_pos rfl, update_self]
      omega
    · rw [if_neg hqr, update_of_ne hqr]
      exact hle
  · intro q hq hlt
    dsimp only [forward]
    rw [hrecvd q hq hlt]
    by_cases hqr : q = r
    · rw [if_pos hqr, hqr, update_self]
    · rw [if_neg hqr, update_of_ne hqr, Nat.add_zero]
  · intro q hq
    dsimp only [forward]
    have hle := hdone q hq
    by_cases hqr : q = r
    · rw [if_pos hqr, hqr] at hle
      rw [hqr, update_self]
      exact hle
    · rw [if_neg hqr] at hle
      rw [update_of_ne hqr]
      exact hle
  · intro q hq m hm
    dsimp only [forward] at hm
    by_cases hqr : q = r
    · rw [hqr, update_self] at hm
      cases hm
    · rw [update_of_ne hqr] at hm
      exact hwaits q hq hqr m hm
  · intro q hq
    dsimp only [forward]
    rw [hentered q hq]
    by_cases hqr : q = r
    · rw [if_pos hqr, hqr, update_self, update_self, waiting_none, Nat.add_zero]
    · rw [if_neg hqr, update_of_ne hqr, update_of_ne hqr]

theorem enter_inv (h : Inv size g) (hr : r < size) (hout : g.mask r = none) : Inv size (enter size r g) := by
  have hrent := h.entered r hr
  rw [hout, waiting_none, Nat.add_zero] at hrent
  have hup : ∀ q, g.entered q ≤ update g.entered r (g.entered r + 1) q := by
    intro q
    by_cases hqr : q = r
    · rw [hqr, update_self]
      exact Nat.le_succ _
    · rw [update_of_ne hqr]
  unfold enter
  dsimp only
  split
  · rename_i hlt
    refine ⟨h.sent, h.recvd, fun q hq => (h.done q hq).trans (hup 0), ?_, ?_⟩
    · intro q hq m hm
      dsimp only at hm
      by_cases hqr : q = r
      · rw [hqr, update_self] at hm
        cases hm
        rw [hqr]
        exact ⟨rfl, hlt⟩
      · rw [update_of_ne hqr] at hm
        exact h.waits q hq m hm
    · intro q hq
      dsimp only
      by_cases hqr : q = r
      · rw [hqr, update_self, update_self, waiting_some, hrent]
      · rw [update_of_ne hqr, update_of_ne hqr]
        exact h.entered q hq
  · rename_i hge
    -- only the root has no parent
    have hzero : r = 0 := by
      obtain ⟨j, hmask, -, ⟨hlt, -⟩ | ⟨-, hz⟩⟩ := myMask_spec hr
      · rw [hmask] at hge
        exact absurd hlt hge
      · exact hz
    refine forward_inv h.sent ?_ ?_ (fun q hq _ => h.waits q hq) ?_ hr
    · intro q hq hlt
      have hqr : q ≠ r := by
        rintro rfl
        exact hge hlt
      rw [if_neg hqr]
      exact h.recvd q hq hlt
    · intro q hq
      dsimp only
      have hle := h.done q hq
      rw [hzero, update_self]
      split <;> omega
    · intro q hq
      dsimp only
      by_cases hqr : q = r
      · rw [if_pos hqr, hqr, update_self, hrent]
      · rw [if_neg hqr, update_of_ne hqr]
        exact h.entered q hq

theorem receive_inv (h : Inv size g) (hr : r < size) : Inv size (receive size r g) := by
  unfold receive
  cases hmask : g.mask r with
  | none => exact h
  | some mask =>
    dsimp only
    split
    · rename_i hmsg
      obtain ⟨rfl, hlt⟩ := h.waits r hr mask hmask
      have hown := h.recvd r hr hlt
      have hrent := h.entered r hr
      rw [hmask, waiting_some] at hrent
      have hsrc : r - myMask size r < size := by omega
      refine forward_inv h.sent ?_ ?_ (fun q hq _ => h.waits q hq) ?_ hr
      · intro q hq hq'
        dsimp only
        by_cases hqr : q = r
        · subst hqr
          rw [bump_same, hown, if_pos rfl]
        · rw [bump_other _ (fun hand => hqr hand.2), if_neg hqr]
          exact h.recvd q hq hq'
      · intro q hq
        dsimp only
        split
        · rename_i hqr
          -- the parent has received as many bytes as it has sent
          have hsent := h.sent _ hsrc r
          have hparent := h.done _ hsrc
          rw [hqr]
          omega
        · exact h.done q hq
      · intro q hq
        dsimp only
        by_cases hqr : q = r
        · rw [if_pos hqr, hqr, hrent]
        · rw [if_neg hqr]
          exact h.entered q hq
    · exact h

end Steps

theorem forward_moved (size r : Nat) (g : Group) : Moved r g (forward size r g) :=
  ⟨fun _ hq => update_of_ne hq .., fun _ hq => update_of_ne hq ..,
    .inl ⟨update_self .., update_self ..⟩⟩

theorem enter_moved (size r : Nat) (g : Group) : Moved r g (enter size r g) := by
  unfold enter
  dsimp only
  split
  · refine ⟨fun q hq => update_of_ne hq .., fun _ _ => rfl, .inr ⟨?_, rfl⟩⟩
    dsimp only
    rw [update_self]
    exact Option.some_ne_none _
  · have h := forward_moved size r
      { g with entered := update g.entered r (g.entered r + 1) }
    exact ⟨h.mask, h.left, h.own⟩

theorem enter_entered (size r : Nat) (g : Group) :
    (enter size r g).entered = update g.entered r (g.entered r + 1) := by
  unfold enter
  dsimp only
  split <;> rfl

theorem receive_moved {size r : Nat} {g : Group} (hwaits : g.mask r ≠ none) :
    Moved r g (receive size r g) := by
  unfold receive
  cases hmask : g.mask r with
  | none => exact absurd hmask hwaits
  | some mask =>
    dsimp only
    split
    · have h := forward_moved size r { g with recvd := bump g.recvd (r - mask) r }
      exact ⟨h.mask, h.left, h.own⟩
    · exact ⟨fun _ _ => rfl, fun _ _ => rfl, .inr ⟨hwaits, rfl⟩⟩

theorem receive_entered (size r : Nat) (g : Group) : (receive size r g).entered = g.entered := by
  unfold receive
  split
  · rfl
  · dsimp only
    split <;> rfl

end FgMpi.Coll.ByteBcast
