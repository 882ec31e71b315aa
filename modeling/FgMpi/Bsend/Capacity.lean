import FgMpi.Bsend.Arena

namespace FgMpi.Bsend.Capacity
open Machine.DoublyLinked Machine.Ints Machine.Runs Bsend.Buffer Bsend.Segments
open Bsend.Taking Bsend.Arena

variable {L : Layout} {fuel : Nat} {s t : Arena} {base : Nat} {avail active : List Nat}

structure Extent where
  buffer : Option Nat
  bufferSize : Nat
  origbuffer : Option Nat
  origbufferSize : Nat

def extent (s : Arena) : Extent := ⟨s.buffer, s.bufferSize, s.origbuffer, s.origbufferSize⟩

section Stores
variable (s : Arena)

@[simp] theorem extent_setNext (p : Nat) (v : Option Nat) : extent (setNext s p v) = extent s := rfl

@[simp] theorem extent_setAvail (u v : Option Nat) : extent (setAvail s u v) = extent s := by
  cases u <;> rfl

@[simp] theorem extent_setActive (u v : Option Nat) : extent (setActive s u v) = extent s := by
  cases u <;> rfl

@[simp] theorem extent_setPrev (q v : Option Nat) : extent (setPrev s q v) = extent s := by
  cases q <;> rfl

@[simp] theorem extent_setTotal (p n : Nat) : extent (setTotal L s p n) = extent s := rfl

theorem extent_removeActive (p : Nat) : extent (removeActive s p) = extent s := by
  simp only [removeActive, extent_setPrev, extent_setActive]

theorem extent_mergeNext (p : Nat) (u : Option Nat) : extent (mergeNext L s p u) = extent s := by
  unfold mergeNext
  split
  · split <;> simp only [extent_setPrev, extent_setNext, extent_setTotal]
  · rfl

theorem extent_mergePrev (p : Nat) (u : Option Nat) : extent (mergePrev L s p u) = extent s := by
  unfold mergePrev
  split
  · split <;> simp only [extent_setPrev, extent_setNext, extent_setTotal]
  · exact extent_setPrev _ _ _

theorem extent_moveToActive (p : Nat) : extent (moveToActive s p) = extent s := by
  let u := setAvail s (s.prev p) (s.next p)
  let v := setPrev u (u.next p) (u.prev p)
  have h : extent (moveToActive s p) =
      extent (setPrev (setNext (setPrev v v.active (some p)) p
        (setPrev v v.active (some p)).active) (some p) none) := rfl
  rw [h]
  simp only [v, u, extent_setPrev, extent_setNext, extent_setAvail]

theorem extent_splitBlock (bytes : Headers) (p alloc : Nat) :
    extent (splitBlock L bytes s p alloc) = extent s := by
  simp only [splitBlock, extent_setPrev, extent_setNext, extent_setTotal]
  rfl

theorem extent_takeBuffer (bytes : Headers) (p : Nat) (size : Int) :
    extent (takeBuffer L bytes s p size) = extent s := by
  unfold takeBuffer
  dsimp only
  split
  · rw [extent_moveToActive, extent_splitBlock]
  · rw [extent_moveToActive]

theorem extent_sendFrom (e : Send) (p packsize : Nat) (kind : Kind) :
    extent (sendFrom L e s p packsize kind).1 = extent s := by
  unfold sendFrom
  dsimp only
  split
  · rfl
  · split
    · rfl
    · split
      · rfl
      · exact extent_takeBuffer _ _ _ _

end Stores

theorem extent_freeSegment {p : Nat} (h : freeSegment L fuel s p = some t) : extent t = extent s := by
  unfold freeSegment at h
  dsimp only at h
  split at h
  · cases h
  · cases h
    exact (extent_mergePrev _ _ _).trans ((extent_mergeNext _ _ _).trans (extent_removeActive _ _))

variable {n packsize : Nat} {errno : Errno}

theorem extent_checkLoop {e : Progress} {p : Option Nat}
    (h : checkLoop L fuel e n s p = some (t, errno)) : extent t = extent s := by
  induction n generalizing s p with
  | zero =>
    cases p with
    | none => cases h; rfl
    | some p => cases h
  | succ n ih =>
    cases p with
    | none => cases h; rfl
    | some p =>
      rw [checkLoop] at h
      cases htest : testActive e s p with
      | none =>
        rw [htest] at h
        cases h
        rfl
      | some flag =>
        rw [htest] at h
        cases flag with
        | false => exact ih h
        | true =>
          cases hfree : freeSegment L fuel s p with
          | none => simp [hfree] at h
          | some r =>
            simp only [hfree] at h
            exact (ih h).trans (extent_freeSegment hfree)

theorem extent_freeReqLoop {req : Nat} {p : Option Nat} {errno' : Errno}
    (h : freeReqLoop L fuel req n s p errno = some (t, errno')) : extent t = extent s := by
  induction n generalizing s p errno with
  | zero =>
    cases p with
    | none => cases h; rfl
    | some p => cases h
  | succ n ih =>
    cases p with
    | none => cases h; rfl
    | some p =>
      rw [freeReqLoop] at h
      split at h
      · cases hfree : freeSegment L fuel s p with
        | none => simp [hfree] at h
        | some r =>
          simp only [hfree] at h
          exact (ih h).trans (extent_freeSegment hfree)
      · exact ih h

def target (L : Layout) (fuel : Nat) (e : Send) (s : Arena) (packsize : Nat) :
    Option (Arena × Option Nat) :=
  match checkActive L fuel e.first s with
  | none => none
  | some (s, errno) =>
    if errno ≠ .success then some (s, none)
    else
      match findBuffer fuel s (toInt packsize) with
      | none => none
      | some (some p) => some (s, some p)
      | some none =>
        match checkActive L fuel e.second s with
        | none => none
        | some (s, _) =>
          match findBuffer fuel s (toInt packsize) with
          | none => none
          | some found => some (s, found)

theorem isend_cases (e : Send) (s : Arena) (packsize : Nat) (kind : Kind) :
    (∃ t p, target L fuel e s packsize = some (t, some p) ∧
      isend L fuel e s packsize kind = some (sendFrom L e t p packsize kind)) ∨
    (∃ t errno, target L fuel e s packsize = some (t, none) ∧
      isend L fuel e s packsize kind = some (t, errno)) ∨
    target L fuel e s packsize = none ∧ isend L fuel e s packsize kind = none := by
  unfold target isend
  cases checkActive L fuel e.first s with
  | none => exact Or.inr (Or.inr ⟨rfl, rfl⟩)
  | some checked =>
    obtain ⟨s₁, errno⟩ := checked
    dsimp only
    split
    · exact Or.inr (Or.inl ⟨s₁, errno, rfl, rfl⟩)
    · cases findBuffer fuel s₁ (toInt packsize) with
      | none => exact Or.inr (Or.inr ⟨rfl, rfl⟩)
      | some found =>
        cases found with
        | some p => exact Or.inl ⟨s₁, p, rfl, rfl⟩
        | none =>
          dsimp only
          cases checkActive L fuel e.second s₁ with
          | none => exact Or.inr (Or.inr ⟨rfl, rfl⟩)
          | some checked₂ =>
            obtain ⟨s₂, errno₂⟩ := checked₂
            dsimp only
            cases findBuffer fuel s₂ (toInt packsize) with
            | none => exact Or.inr (Or.inr ⟨rfl, rfl⟩)
            | some found₂ =>
              cases found₂ with
              | some p => exact Or.inl ⟨s₂, p, rfl, rfl⟩
              | none => exact Or.inr (Or.inl ⟨s₂, .bufbsend, rfl, rfl⟩)

variable {e : Send}

theorem extent_target {found : Option Nat}
    (h : target L fuel e s packsize = some (t, found)) : extent t = extent s := by
  unfold target at h
  cases hfirst : checkActive L fuel e.first s with
  | none => simp [hfirst] at h
  | some checked =>
    obtain ⟨s₁, errno⟩ := checked
    have hkept : extent s₁ = extent s := extent_checkLoop hfirst
    simp only [hfirst] at h
    split at h
    · cases h
      exact hkept
    · cases hfind : findBuffer fuel s₁ (toInt packsize) with
      | none => simp [hfind] at h
      | some found =>
        simp only [hfind] at h
        cases found with
        | some p =>
          cases h
          exact hkept
        | none =>
          cases hsecond : checkActive L fuel e.second s₁ with
          | none => simp [hsecond] at h
          | some checked₂ =>
            obtain ⟨s₂, errno₂⟩ := checked₂
            have hkept₂ : extent s₂ = extent s₁ := extent_checkLoop hsecond
            simp only [hsecond] at h
            cases hfind₂ : findBuffer fuel s₂ (toInt packsize) with
            | none => simp [hfind₂] at h
            | some found₂ =>
              simp only [hfind₂] at h
              cases h
              exact hkept₂.trans hkept

theorem extent_isend {kind : Kind}
    (h : isend L fuel e s packsize kind = some (t, errno)) : extent t = extent s := by
  rcases isend_cases e s packsize kind with ⟨r, p, htarget, hsend⟩ | ⟨r, errno', htarget, hsend⟩ |
    ⟨_, hsend⟩
  · rw [hsend] at h
    have ht : t = (sendFrom L e r p packsize kind).1 := (congrArg Prod.fst (Option.some.inj h)).symm
    rw [ht, extent_sendFrom]
    exact extent_target htarget
  · rw [hsend] at h
    cases h
    exact extent_target htarget
  · rw [hsend] at h
    cases h

theorem target_attached (h : Attached L fuel s base avail active) (hfits : Fits L s packsize) :
    ∃ t found avail' active', target L fuel e s packsize = some (t, found) ∧
      Continues L fuel base s active t avail' active' ∧
      ∀ p ∈ found, p ∈ avail' ∧ toInt packsize = packsize ∧ packsize ≤ t.size p := by
  have hspec : ∀ {t : Arena} {avail' active' : List Nat} {p : Nat},
      Continues L fuel base s active t avail' active' →
      p ∈ avail' ∧ toSize (toInt packsize) ≤ t.size p →
      p ∈ avail' ∧ toInt packsize = packsize ∧ packsize ≤ t.size p := by
    intro t avail' active' p hcont hp
    have hfits' : Fits L t packsize := by
      rw [Fits, hcont.bufferSize]
      exact hfits
    exact ⟨hp.1, packsize_le hcont.attached hp.1 hfits' hp.2⟩
  obtain ⟨s₁, errno₁, avail₁, active₁, hcheck, hcont⟩ := checkActive_continues e.first h
  rw [target, hcheck]
  dsimp only
  split
  · exact ⟨s₁, none, avail₁, active₁, rfl, hcont, fun p hp => by cases hp⟩
  · obtain ⟨found, hfind, hfound⟩ := findBuffer_spec (toInt packsize) hcont.attached
    rw [hfind]
    cases found with
    | some p => exact ⟨s₁, some p, avail₁, active₁, rfl, hcont, fun q hq => hspec hcont (hfound q hq)⟩
    | none =>
      obtain ⟨s₂, errno₂, avail₂, active₂, hcheck₂, hcont₂⟩ :=
        checkActive_continues e.second hcont.attached
      obtain ⟨found₂, hfind₂, hfound₂⟩ := findBuffer_spec (toInt packsize) hcont₂.attached
      simp only [hcheck₂, hfind₂]
      have hboth := hcont.trans hcont₂
      exact ⟨s₂, found₂, avail₂, active₂, rfl, hboth, fun q hq => hspec hboth (hfound₂ q hq)⟩

structure Whole (s : Arena) : Prop where
  buffer : s.buffer = s.origbuffer
  bufferSize : s.bufferSize = s.origbufferSize

theorem Whole.congr (h : Whole s) (ht : extent t = extent s) : Whole t := by
  simp only [extent, Extent.mk.injEq] at ht
  obtain ⟨h₁, h₂, h₃, h₄⟩ := ht
  exact ⟨by rw [h₁, h₃, h.buffer], by rw [h₂, h₄, h.bufferSize]⟩

def Sited (L : Layout) (fuel : Nat) (s : Arena) : Op → Prop
  | .attach buffer bufferSize => s.buffer = none → (L.overhead : Int) ≤ bufferSize →
      buffer % 8 = 0 ∧ bufferSize < 2 ^ 31 ∧ bufferSize < fuel
  | .isend packsize _ _ => Fits L s packsize
  | _ => True

instance (s : Arena) (op : Op) : Decidable (Sited L fuel s op) :=
  match op with
  | .attach buffer bufferSize =>
    inferInstanceAs (Decidable (s.buffer = none → (L.overhead : Int) ≤ bufferSize →
      buffer % 8 = 0 ∧ bufferSize < 2 ^ 31 ∧ bufferSize < fuel))
  | .isend packsize _ _ => inferInstanceAs (Decidable (Fits L s packsize))
  | .detach | .checkActive _ | .freeReqSeg _ => inferInstanceAs (Decidable True)

theorem sited_packable {op : Op} (h : Sited L fuel s op) :
    Packable L fuel s op ∨ step L fuel s op = .ok s := by
  cases op with
  | attach buffer bufferSize =>
    by_cases hbuffer : s.buffer = none
    · by_cases hsmall : bufferSize < L.overhead
      · right
        simp [step, call, attach, hbuffer, hsmall]
      · exact Or.inl (h hbuffer (Int.not_lt.1 hsmall))
    · right
      simp [step, call, attach, hbuffer]
  | isend packsize kind e => exact Or.inl h
  | detach => exact Or.inl trivial
  | checkActive e => exact Or.inl trivial
  | freeReqSeg req => exact Or.inl trivial

theorem attach_whole {buffer : Nat} {bufferSize : Int} (h : Whole s)
    (hsited : Sited L fuel s (.attach buffer bufferSize)) :
    Whole (attach L s buffer bufferSize).1 := by
  unfold attach
  split
  · exact h
  · rename_i hnone
    split
    · exact h
    · rename_i hroom
      obtain ⟨halign, _, _⟩ := hsited (not_not.1 hnone) (Int.not_lt.1 hroom)
      simp only [halign, ne_eq, not_true, if_false, Nat.add_zero, Nat.sub_zero]
      exact ⟨rfl, rfl⟩

theorem step_whole {op : Op} (h : Whole s) (hsited : Sited L fuel s op)
    (hstep : step L fuel s op = .ok t) : Whole t := by
  unfold step at hstep
  cases hcall : call L fuel s op with
  | none => simp [hcall] at hstep
  | some result =>
    obtain ⟨r, errno⟩ := result
    simp only [hcall, Except.ok.injEq] at hstep
    subst hstep
    cases op with
    | attach buffer bufferSize =>
      have hr : r = (attach L s buffer bufferSize).1 := (congrArg Prod.fst (Option.some.inj hcall)).symm
      rw [hr]
      exact attach_whole h hsited
    | detach =>
      simp only [call, detach] at hcall
      split at hcall
      · cases hcall
        exact h
      · split at hcall
        · cases hcall
        · cases hcall
          exact ⟨rfl, rfl⟩
    | isend packsize kind e => exact h.congr (extent_isend hcall)
    | checkActive e => exact h.congr (extent_checkLoop hcall)
    | freeReqSeg req => exact h.congr (extent_freeReqLoop hcall)

theorem step_sited {op : Op} (h : Known L fuel s active) (hwhole : Whole s) (hfuel : 0 < fuel)
    (hsited : Sited L fuel s op) :
    ∃ t active', step L fuel s op = .ok t ∧ Known L fuel t active' ∧ Whole t := by
  rcases sited_packable hsited with hpack | hsame
  · obtain ⟨t, active', hstep, hknown, _⟩ := step_known h hfuel hpack
    exact ⟨t, active', hstep, hknown, step_whole hwhole hsited hstep⟩
  · exact ⟨s, active, hsame, h, hwhole⟩

theorem run_sited {ops : List Op} (h : Known L fuel s active) (hwhole : Whole s) (hfuel : 0 < fuel)
    (hops : Along (step L fuel) (Sited L fuel) s ops) :
    ∃ t active', run (step L fuel) s ops = .ok t ∧ Known L fuel t active' ∧ Whole t := by
  induction ops generalizing s active with
  | nil => exact ⟨s, active, rfl, h, hwhole⟩
  | cons op ops ih =>
    obtain ⟨t, active₁, hstep, hknown, hwhole₁⟩ := step_sited h hwhole hfuel hops.1
    obtain ⟨t', active', hrun, hknown', hwhole'⟩ := ih hknown hwhole₁ (hops.2 t hstep)
    exact ⟨t', active', (run_cons_ok hstep ops).trans hrun, hknown', hwhole'⟩

def Inside (s : Arena) (lo n : Nat) : Prop := ∃ b ∈ s.origbuffer, b ≤ lo ∧ lo + n ≤ b + s.origbufferSize

def Bounded (s : Arena) : Prop :=
  ∃ avail active, Segment (place s.avail s.next) s.prev none avail none ∧
    Segment (place s.active s.next) s.prev none active none ∧
    ∀ a ∈ avail ++ active, Inside s a (s.totalSize a)

def Stores (L : Layout) (fuel : Nat) (s : Arena) : Prop :=
  ∀ (e : Send) (packsize p : Nat) (t : Arena), Fits L s packsize →
    target L fuel e s packsize = some (t, some p) → Inside s (t.msgbuf p) packsize

theorem Attached.inside {a : Nat} (h : Attached L fuel s base avail active) (hwhole : Whole s)
    (ha : a ∈ avail ++ active) : Inside s a (s.totalSize a) := by
  have hw := h.lists.tiling.within a ha
  refine ⟨base, hwhole.buffer ▸ h.buffer, hw.1, ?_⟩
  rw [← hwhole.bufferSize]
  exact hw.2

theorem Inside.congr {lo : Nat} (h : Inside t lo n) (ht : extent t = extent s) : Inside s lo n := by
  simp only [extent, Extent.mk.injEq] at ht
  obtain ⟨b, hb, hlo, hhi⟩ := h
  exact ⟨b, ht.2.2.1 ▸ hb, hlo, ht.2.2.2 ▸ hhi⟩

theorem known_bounded (h : Known L fuel s active) (hwhole : Whole s) : Bounded s := by
  rcases h with ⟨hd, _⟩ | ⟨base, avail, ha⟩
  · refine ⟨[], [], hd.avail, hd.active, ?_⟩
    simp
  · exact ⟨avail, active, ha.lists.availLinks, ha.lists.activeLinks,
      fun a hmem => Attached.inside ha hwhole hmem⟩

theorem target_detached (h : Detached s) (hfuel : 0 < fuel) :
    target L fuel e s packsize = some (s, none) := by
  obtain ⟨n, rfl⟩ : ∃ n, fuel = n + 1 := ⟨fuel - 1, by omega⟩
  have hcheck : ∀ e', checkActive L (n + 1) e' s = some (s, .success) := by
    intro e'
    rw [checkActive, h.active]
    rfl
  have hfind : findBuffer (n + 1) s (toInt packsize) = some none := by
    rw [findBuffer, h.avail]
    rfl
  simp [target, hcheck, hfind]

theorem known_stores (h : Known L fuel s active) (hwhole : Whole s) (hfuel : 0 < fuel) : Stores L fuel s := by
  intro e packsize p t hfits htarget
  rcases h with ⟨hd, _⟩ | ⟨base, avail, ha⟩
  · rw [target_detached hd hfuel] at htarget
    cases htarget
  · obtain ⟨t', found, avail', active', htarget', hcont, hfound⟩ := target_attached (e := e) ha hfits
    rw [htarget] at htarget'
    cases htarget'
    obtain ⟨hp, _, hle⟩ := hfound p rfl
    have hext := extent_target htarget
    have hmem : p ∈ avail' ++ active' := List.mem_append_left _ hp
    have hinside := Attached.inside hcont.attached (hwhole.congr hext) hmem
    have hsize := hcont.attached.lists.tiling.sizes p hmem
    obtain ⟨b, hb, hlo, hhi⟩ := hinside
    refine Inside.congr ⟨b, hb, ?_, ?_⟩ hext
    · rw [hcont.attached.lists.tiling.msgbuf p hmem]
      omega
    · rw [hcont.attached.lists.tiling.msgbuf p hmem]
      omega

structure Message where
  packsize : Nat
  kind : Kind
  send : Send

def Message.op (m : Message) : Op := .isend m.packsize m.kind m.send

def demand (overhead : Nat) (msgs : List Message) : Nat :=
  (msgs.map fun m => m.packsize + overhead).sum

def Waiting (fuel : Nat) (s : Arena) : Op → Prop
  | .isend _ _ e => ∀ a ∈ listed fuel s s.active, testActive e.first s a = some false
  | _ => True

def Tight (L : Layout) (overhead size : Nat) (msgs : List Message) : Prop :=
  overhead = L.header + 7 ∧ size = demand overhead msgs ∧
    ∃ front last, front ≠ [] ∧ msgs = front ++ [last] ∧ last.packsize = 0 ∧
      ∀ m ∈ front, m.packsize % 8 = 1

def Roomy (L : Layout) (fuel : Nat) (s : Arena) : Prop :=
  s.buffer ≠ none → s.active = none → ∀ (overhead : Nat) (before : List Message) (m : Message) (after : List Message),
    L.header + 7 ≤ overhead →
    demand overhead (before ++ m :: after) ≤ s.origbufferSize →
    ¬ Tight L overhead s.origbufferSize (before ++ m :: after) →
    Along (step L fuel) (Waiting fuel) s ((before ++ [m]).map Message.op) →
    ∃ t p, run (step L fuel) s (before.map Message.op) = .ok t ∧
      target L fuel m.send t m.packsize = some (t, some p)

theorem Attached.one_free (h : Attached L fuel s base avail []) (hpos : 0 < s.bufferSize) :
    ∃ q, avail = [q] ∧ s.totalSize q = s.bufferSize := by
  have htiling := h.lists.tiling
  rw [List.append_nil] at htiling
  cases havail : avail with
  | nil =>
    have htotal := htiling.total
    rw [havail] at htotal
    simp at htotal
    omega
  | cons a rest =>
    subst havail
    cases rest with
    | nil =>
      refine ⟨a, rfl, ?_⟩
      simpa using htiling.total
    | cons b rest =>
      exfalso
      have ha : a ∈ a :: b :: rest := List.mem_cons_self
      have hb : b ∈ a :: b :: rest := List.mem_cons_of_mem a List.mem_cons_self
      obtain ⟨hfirst, _⟩ := List.pairwise_cons.1 h.lists.sorted
      have hgap := htiling.disjoint a ha b hb (hfirst b List.mem_cons_self)
      have hwa := htiling.within a ha
      have hwb := htiling.within b hb
      have hone := htiling.header_le hb
      have hpos := L.pos
      obtain ⟨c, hc, hlo, hhi⟩ := Tiling.covers htiling (x := a + s.totalSize a) (by omega) (by omega)
      rcases List.mem_cons.1 hc with rfl | hc'
      · omega
      · -- a segment that begins where the first one ends would have been merged
        have hac := htiling.disjoint a ha c hc (hfirst c hc')
        exact h.lists.coalesced a ha c hc (by omega)

theorem checkLoop_waiting (e : Progress) {seen rest : List Nat}
    (h : Lists L s base avail (seen ++ rest)) (hn : rest.length ≤ n)
    (htest : ∀ a ∈ rest, testActive e s a = some false) :
    checkLoop L fuel e n s rest.head? = some (s, .success) := by
  induction rest generalizing seen n with
  | nil => cases n <;> rfl
  | cons p rest ih =>
    rw [List.length_cons] at hn
    obtain ⟨m, rfl⟩ : ∃ m, n = m + 1 := ⟨n - 1, by omega⟩
    have heq : seen ++ p :: rest = seen ++ [p] ++ rest := by simp
    rw [List.head?_cons, checkLoop, next_of_active h, htest p List.mem_cons_self]
    rw [heq] at h
    exact ih h (by omega) fun a ha => htest a (List.mem_cons_of_mem p ha)

theorem checkActive_waiting {e : Progress} (h : Attached L fuel s base avail active)
    (htest : ∀ a ∈ active, testActive e s a = some false) :
    checkActive L fuel e s = some (s, .success) := by
  have hfirst : s.active = active.head? := by simpa using h.lists.activeLinks.after_first
  have hshort := h.short
  have hall : Lists L s base avail ([] ++ active) := h.lists
  rw [checkActive, hfirst]
  exact checkLoop_waiting e hall (by omega) htest

theorem target_first {q : Nat} (h : Attached L fuel s base [q] active)
    (htest : ∀ a ∈ active, testActive e.first s a = some false) (hsize : packsize ≤ s.size q) :
    target L fuel e s packsize = some (s, some q) := by
  have hw := h.lists.tiling.within q (by simp)
  have htotal := h.lists.tiling.sizes q (by simp)
  have hbound := h.bound
  have hfuel := h.fuel
  have hint := toInt_eq (x := packsize) (by omega) (by omega)
  have hnat := toSize_of_nonneg (n := packsize) (by omega) (by omega)
  have hle : toSize (packsize : Int) ≤ s.size q := by omega
  have havail : s.avail = some q := by simpa using h.lists.availLinks.after_first
  obtain ⟨n, rfl⟩ : ∃ n, fuel = n + 1 := ⟨fuel - 1, by omega⟩
  have hfind : findBuffer (n + 1) s (toInt packsize) = some (some q) := by
    rw [findBuffer, havail, hint, seek]
    simp [hle]
  simp [target, checkActive_waiting h htest, hfind]

theorem sendFrom_remaining {q : Nat} (e : Send) (kind : Kind)
    (h : Attached L fuel s base [q] active) (hle : packsize ≤ s.size q)
    (hroom : packsize + 2 * L.header + 14 ≤ s.totalSize q) :
    (packsize + 2 * L.header + 14 = s.totalSize q ∧ packsize % 8 = 1) ∨
    ∃ q' active' used, Attached L fuel (sendFrom L e s q packsize kind).1 base [q'] active' ∧
      (sendFrom L e s q packsize kind).1.totalSize q' + used = s.totalSize q ∧
      (used < packsize + L.header + 7 ∨ used = packsize + L.header + 7 ∧ packsize % 8 = 1) := by
  have hw := h.lists.tiling.within q (by simp)
  have htotal := h.lists.tiling.sizes q (by simp)
  have hbound := h.bound
  have hpos := L.pos
  have hint := toInt_eq (x := packsize) (by omega) (by omega)
  obtain ⟨t, hatt, hsize, hn, _, hsent | ⟨hcount, hsent⟩⟩ :=
    sendFrom_cases e kind h List.mem_cons_self hint hle
  · have htotal' := hatt.lists.tiling.sizes q (by simp)
    right
    rw [hsent]
    exact ⟨q, active, 0, hatt, by omega, by omega⟩
  · have htotal' := hatt.lists.tiling.sizes q (by simp)
    have hcounts : 0 ≤ t.count q ∧ t.count q ≤ t.size q := by omega
    obtain ⟨n, halloc, hodd⟩ : ∃ n : Nat, allocSize (t.count q) = n ∧
        (packsize ≤ n ∧ n ≤ packsize + 7 ∧ (n = packsize + 7 → packsize % 8 = 1)) := by
      rw [hcount]
      unfold allocSize
      split
      · rw [toInt_eq (by omega) (by omega)]
        exact ⟨packsize + (8 - packsize % 8), by omega, by omega⟩
      · exact ⟨packsize, rfl, by omega⟩
    by_cases hcut : n + L.header + 8 ≤ t.size q
    · right
      obtain ⟨htaken, hrest⟩ := @takeBuffer_split L t base q [] [] active e.bytes hatt.lists
        hatt.bound hcounts n halloc hcut
      rw [hsent]
      refine ⟨q + L.header + n, q :: active, n + L.header, taken_attached kind hatt htaken, ?_, ?_⟩
      · have hnew : t.totalSize q - n - L.header + (n + L.header) = s.totalSize q := by omega
        rw [← hnew, ← hrest]
      · omega
    · left
      omega

theorem demand_cons (overhead : Nat) (m : Message) (msgs : List Message) :
    demand overhead (m :: msgs) = m.packsize + overhead + demand overhead msgs := by
  simp [demand]

theorem demand_pos (overhead : Nat) {msgs : List Message} (h : msgs ≠ []) :
    overhead ≤ demand overhead msgs := by
  cases msgs with
  | nil => exact absurd rfl h
  | cons m msgs =>
    rw [demand_cons]
    omega

theorem demand_least {overhead : Nat} {msgs : List Message} (hpos : 0 < overhead) (h : msgs ≠ [])
    (hleast : demand overhead msgs ≤ overhead) : ∃ m, msgs = [m] ∧ m.packsize = 0 := by
  cases msgs with
  | nil => exact absurd rfl h
  | cons m msgs =>
    rw [demand_cons] at hleast
    cases msgs with
    | nil => exact ⟨m, rfl, by omega⟩
    | cons m' msgs =>
      have := demand_pos overhead (List.cons_ne_nil m' msgs)
      omega

theorem all_find {overhead q : Nat} {before after : List Message} {m : Message}
    (h : Attached L fuel s base [q] active) (hover : L.header + 7 ≤ overhead)
    (hsum : demand overhead (before ++ m :: after) ≤ s.totalSize q)
    (hnot : ¬ Tight L overhead (s.totalSize q) (before ++ m :: after))
    (hwait : Along (step L fuel) (Waiting fuel) s ((before ++ [m]).map Message.op)) :
    ∃ t p, run (step L fuel) s (before.map Message.op) = .ok t ∧
      target L fuel m.send t m.packsize = some (t, some p) := by
  have htotal := h.lists.tiling.sizes q (by simp)
  induction before generalizing s active q with
  | nil =>
    have htest := hwait.1
    rw [List.nil_append, demand_cons] at hsum
    simp only [Message.op, Waiting, h.listed.2] at htest
    exact ⟨s, q, rfl, target_first h htest (by omega)⟩
  | cons m₀ before ih =>
    have htest := hwait.1
    simp only [Message.op, Waiting, h.listed.2] at htest
    have hne : before ++ m :: after ≠ [] := by simp
    have hrest := demand_pos overhead hne
    rw [List.cons_append, demand_cons] at hsum
    have hle : m₀.packsize ≤ s.size q := by omega
    have hfirst := target_first h htest hle
    have hstep : step L fuel s m₀.op = .ok (sendFrom L m₀.send s q m₀.packsize m₀.kind).1 := by
      rcases isend_cases m₀.send s m₀.packsize m₀.kind with ⟨r, p, htarget, hsend⟩ |
        ⟨r, errno, htarget, _⟩ | ⟨htarget, _⟩
      · rw [hfirst] at htarget
        cases htarget
        simp only [step, call, Message.op, hsend]
      · rw [hfirst] at htarget
        cases htarget
      · rw [hfirst] at htarget
        cases htarget
    rcases sendFrom_remaining m₀.send m₀.kind h hle (by omega) with ⟨hexact, hodd⟩ |
      ⟨q', active', used, hatt, hleft, hused⟩
    · exfalso
      obtain ⟨last, hlast, hempty⟩ := demand_least (by omega : 0 < overhead) hne (by omega)
      refine hnot ⟨by omega, ?_, [m₀], last, by simp, ?_, hempty, ?_⟩
      · rw [List.cons_append, demand_cons]
        omega
      · rw [List.cons_append, hlast]
        rfl
      · intro m' hm'
        cases List.mem_singleton.1 hm'
        exact hodd
    · have hnot' : ¬ Tight L overhead
          ((sendFrom L m₀.send s q m₀.packsize m₀.kind).1.totalSize q') (before ++ m :: after) := by
        rintro ⟨hover', hexact, front, last, _, hfront, hempty, hodd⟩
        refine hnot ⟨hover', ?_, m₀ :: front, last, by simp, ?_, hempty, ?_⟩
        · rw [List.cons_append, demand_cons]
          omega
        · rw [List.cons_append, hfront, List.cons_append]
        · intro m' hm'
          rcases List.mem_cons.1 hm' with rfl | hm'
          · omega
          · exact hodd m' hm'
      obtain ⟨t, p, hrun, htarget⟩ := ih hatt (by omega) hnot' (hwait.2 _ hstep)
        (hatt.lists.tiling.sizes q' (by simp))
      rw [List.map_cons, run_cons_ok hstep]
      exact ⟨t, p, hrun, htarget⟩

theorem known_roomy (h : Known L fuel s active) (hwhole : Whole s) : Roomy L fuel s := by
  intro hbuffer hactive overhead before m after hover hsum hnot hwait
  rcases h with ⟨hd, _⟩ | ⟨base, avail, ha⟩
  · exact absurd hd.buffer hbuffer
  · have hnone : active = [] := by
      have hfirst : s.active = active.head? := by simpa using ha.lists.activeLinks.after_first
      rw [hactive] at hfirst
      exact List.head?_eq_none_iff.1 hfirst.symm
    subst hnone
    rw [← hwhole.bufferSize] at hsum hnot
    have hpos := demand_pos overhead (by simp : before ++ m :: after ≠ [])
    obtain ⟨q, rfl, htotal⟩ := Attached.one_free ha (by omega)
    rw [← htotal] at hsum hnot
    exact all_find ha hover hsum hnot hwait

theorem initial_whole (bytes : Headers) : Whole (initial bytes) := ⟨rfl, rfl⟩

/-- In every run with aligned buffers the segments and the messages are within the buffer, and what fits
finds a segment. -/
theorem bounded_roomy (bytes : Headers) {ops : List Op} (hfuel : 0 < fuel)
    (hops : Along (step L fuel) (Sited L fuel) (initial bytes) ops) :
    ∃ s, run (step L fuel) (initial bytes) ops = .ok s ∧ Bounded s ∧ Stores L fuel s ∧
      Roomy L fuel s := by
  obtain ⟨s, active, hrun, hknown, hwhole⟩ :=
    run_sited (initial_known bytes) (initial_whole bytes) hfuel hops
  exact ⟨s, hrun, known_bounded hknown hwhole, known_stores hknown hwhole hfuel,
    known_roomy hknown hwhole⟩

def attachTwice : List Op :=
  [.attach 1024 1000, .attach 1025 1000, .isend 8 .ibsend (sends [] 1), .attach 3 5,
    .isend 100 .bsend (sends [] 2), .checkActive (completes [1120]), .freeReqSeg 1]

theorem bounded_attachTwice :
    ∃ s, run (step lp64 2000) (initial blank) attachTwice = .ok s ∧ Bounded s ∧ Stores lp64 2000 s ∧
      Roomy lp64 2000 s :=
  bounded_roomy blank (by decide) (by decide +kernel)

theorem capacity_differs :
    (∃ s, run (step lp64 2000) (initial blank) [.attach 1025 1000] = .ok s ∧ ¬ Bounded s) ∧
    (∃ s t, run (step lp64 2000) (initial blank)
        [.attach 1024 (1 + (lp64.header + 7) + (0 + (lp64.header + 7)) : Nat),
          .isend 1 .bsend (sends [] 1)] = .ok s ∧
      target lp64 2000 (sends [] 2) s 0 = some (t, none)) := by
  constructor
  · have hrun : (run (step lp64 2000) (initial blank) [.attach 1025 1000]).toOption.map
        (fun s => (s.avail, s.totalSize 1032, s.origbuffer, s.origbufferSize)) =
        some (some 1032, 1000, some 1025, 1000) := by decide +kernel
    obtain ⟨s, hs, hobserved⟩ := exists_of_observed hrun
    simp only [Prod.mk.injEq] at hobserved
    obtain ⟨havail, htotal, hbuffer, hsize⟩ := hobserved
    refine ⟨s, hs, ?_⟩
    rintro ⟨avail, active, hlinks, _, hinside⟩
    have hfirst : avail.head? = some 1032 := by
      have := hlinks.after_first
      rw [place_none, havail, Option.or_none] at this
      exact this.symm
    obtain ⟨b, hb, _, hhi⟩ := hinside 1032 (List.mem_append_left _ (List.mem_of_mem_head? hfirst))
    rw [hbuffer] at hb
    cases hb
    rw [htotal, hsize] at hhi
    omega
  · have hrun : (run (step lp64 2000) (initial blank)
        [.attach 1024 (1 + (lp64.header + 7) + (0 + (lp64.header + 7)) : Nat),
          .isend 1 .bsend (sends [] 1)]).toOption.map
        (fun s => (target lp64 2000 (sends [] 2) s 0).map Prod.snd) = some (some none) := by
      decide +kernel
    obtain ⟨s, hs, hobserved⟩ := exists_of_observed hrun
    cases htarget : target lp64 2000 (sends [] 2) s 0 with
    | none =>
      rw [htarget] at hobserved
      cases hobserved
    | some found =>
      obtain ⟨t, q⟩ := found
      rw [htarget] at hobserved
      cases hobserved
      exact ⟨s, t, hs, htarget⟩

end FgMpi.Bsend.Capacity
