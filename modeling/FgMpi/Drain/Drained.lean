import FgMpi.Drain.Chunks

/-! What holds of every request of a run, and the loads that break it. -/

namespace FgMpi.Drain.Drained
open Machine.Runs
open Drain.LoadIov Drain.Placing Drain.Chunks

variable {δ σ β : Type} {S : Segments δ σ} {L : Layout δ σ}

def loaded (r : Request δ σ β) : Nat :=
  match r.stage with
  | .arrive _ => (r.iov.map Iov.len).sum
  | _ => 0

def Receive.room (r : Receive δ β) : Int := min r.message.dataSz (r.segmentSize - r.segmentFirst)

/-- No more is read from the connection than the message; the handler that completes is there exactly when the
last byte is loaded; the staging buffer is long enough; the user buffer has bytes of the message, in order and in
their places, and no others; and when the request is done it has them all. -/
structure Good (L : Layout δ σ) (r : Request δ σ β) : Prop where
  taken : (r.consumed + loaded r : Int) ≤ r.recvDataSz
  completes : ∀ h, r.stage = .arrive h →
    ((h = .final ∨ h = .unpackSrbufComplete) ↔ (r.consumed + loaded r : Int) = r.recvDataSz)
  staged : ∀ h off (len : Nat), r.stage = .arrive h → .tmpbuf off len ∈ r.iov → 0 ≤ off ∧ off + len ≤ r.tmpbufSz
  placed : ∃ n, 0 ≤ n ∧ n ≤ Receive.room r.receive ∧ r.written = placed L r.receive n
  done : r.stage = .done →
    (r.consumed : Int) = r.recvDataSz ∧ r.written = Placing.placed L r.receive (Receive.room r.receive)

section Goodness
variable {r : Request δ σ β} {h : Handler} {len : Int}

theorem room_eq {r : Receive δ β} (hsizes : Sizes L r) : Receive.room r = r.segmentSize - r.segmentFirst := by
  have hle := hsizes.size_le
  unfold Receive.room
  omega

theorem sum_len (pieces : List (Int × Nat)) :
    ((pieces.map fun piece => Iov.user piece.1 piece.2).map Iov.len).sum = (addresses pieces).length := by
  induction pieces with
  | nil => rfl
  | cons piece pieces ih =>
    rw [List.map_cons, List.map_cons, List.sum_cons, ih]
    simp [addresses, Iov.len]

theorem DirectIov.loaded (hiov : DirectIov L r h len) (hstage : r.stage = .arrive h) : (loaded r : Int) = len := by
  obtain ⟨pieces, hpieces, haddresses⟩ := hiov.iov
  have hnonneg := hiov.nonneg
  unfold Drained.loaded
  rw [hstage]
  simp only [hpieces, sum_len, haddresses, Layout.places, List.length_map, List.length_range]
  omega

theorem StagedIov.loaded (hiov : StagedIov L r h len) (hstage : r.stage = .arrive h) : (loaded r : Int) = len := by
  have hpos := hiov.pos
  unfold Drained.loaded
  rw [hstage]
  simp only [hiov.iov, List.map_cons, List.map_nil, Iov.len, List.sum_cons, List.sum_nil]
  omega

theorem DiscardIov.loaded (hiov : DiscardIov L r h len) (hstage : r.stage = .arrive h) : (loaded r : Int) = len := by
  have hnonneg := hiov.nonneg
  unfold Drained.loaded
  rw [hstage]
  simp only [hiov.iov, List.map_cons, List.map_nil, Iov.len, List.sum_cons, List.sum_nil]
  omega

theorem good_of_arrive (hsizes : Sizes L r.receive) (hstage : r.stage = .arrive h) (hloaded : (loaded r : Int) = len)
    (htaken : ((h = .final ∨ h = .unpackSrbufComplete) ∧ r.consumed + len = r.recvDataSz) ∨
      (¬ (h = .final ∨ h = .unpackSrbufComplete) ∧ r.consumed + len < r.recvDataSz))
    (hbuffer : ∀ off (n : Nat), .tmpbuf off n ∈ r.iov → 0 ≤ off ∧ off + n ≤ r.tmpbufSz) {n : Int}
    (hn : 0 ≤ n ∧ n ≤ r.receive.segmentSize - r.receive.segmentFirst) (hwritten : r.written = placed L r.receive n) :
    Good L r := by
  constructor
  · rw [hloaded]
    omega
  · intro h' hstage'
    obtain rfl : h = h' := Stage.arrive.inj (hstage.symm.trans hstage')
    rw [hloaded]
    rcases htaken with ⟨hcompletes, hend⟩ | ⟨hcompletes, hmore⟩
    · exact iff_of_true hcompletes hend
    · exact iff_of_false hcompletes (Int.ne_of_lt hmore)
  · exact fun _ off n _ hmem => hbuffer off n hmem
  · refine ⟨n, hn.1, ?_, hwritten⟩
    rw [room_eq hsizes]
    exact hn.2
  · intro hdone
    rw [hstage] at hdone
    exact nomatch hdone

theorem Inv.good (hinv : Inv L r) : Good L r := by
  obtain ⟨hsizes, -, -, hkept⟩ := hinv
  have hroom := room_eq hsizes
  have hbase := hsizes.first_le
  cases hstage : r.stage with
  | load =>
    rw [hstage] at hkept
    have hloaded : (loaded r : Int) = 0 := by
      unfold loaded
      rw [hstage]
      rfl
    have hnot : ∀ {P : Prop} h', r.stage = .arrive h' → P := by
      intro P h' heq
      rw [hstage] at heq
      exact nomatch heq
    obtain ⟨hmore, n, hn, hwritten⟩ : (r.consumed : Int) < r.recvDataSz ∧
        ∃ n, (0 ≤ n ∧ n ≤ r.receive.segmentSize - r.receive.segmentFirst) ∧ r.written = placed L r.receive n := by
      rcases hkept with hdirect | hstaged | hdiscarding
      · have hfirst := hdirect.first
        have hle := hdirect.le
        exact ⟨hdirect.more, _, by omega, hdirect.written⟩
      · have hfirst := hstaged.first
        have hle := hstaged.more
        have hoff := hstaged.off_nonneg
        have hoffle := hstaged.off_le
        have hsizele := hsizes.size_le
        have htotal : r.recvDataSz = r.receive.message.dataSz := rfl
        exact ⟨by omega, _, by omega, hstaged.written⟩
      · have hzero := hdiscarding.base
        exact ⟨hdiscarding.more, _, by omega, hdiscarding.written⟩
    refine ⟨by omega, fun h' => hnot h', fun h' off n => hnot h', ⟨n, hn.1, by omega, hwritten⟩, ?_⟩
    intro hdone
    rw [hstage] at hdone
    exact nomatch hdone
  | arrive h =>
    rw [hstage] at hkept
    obtain ⟨len, hdirect | hstaged | hdiscard⟩ := hkept
    · obtain ⟨pieces, hpieces, -⟩ := hdirect.iov
      have hnonneg := hdirect.nonneg
      have hle := hdirect.le
      apply good_of_arrive hsizes hstage (DirectIov.loaded hdirect hstage) _ _ (by omega) hdirect.written
      · rcases hdirect.goesOn with ⟨rfl, hend⟩ | ⟨rfl, hmore, -⟩
        · exact .inl ⟨.inl rfl, hend⟩
        · exact .inr ⟨by decide, hmore⟩
      · intro off n hmem
        rw [hpieces] at hmem
        obtain ⟨piece, -, heq⟩ := List.mem_map.mp hmem
        exact nomatch heq
    · have hfirst := hstaged.staged.first
      have hoff := hstaged.staged.off_nonneg
      have hoffle := hstaged.staged.off_le
      have hmore := hstaged.staged.more
      have hlast := hstaged.last
      have hpos := hstaged.pos
      apply good_of_arrive hsizes hstage (StagedIov.loaded hstaged hstage) _ _ (by omega) hstaged.staged.written
      · rcases hstaged.goesOn with ⟨rfl, hend, -⟩ | ⟨rfl, hrest, -⟩
        · exact .inl ⟨.inr rfl, hend⟩
        · exact .inr ⟨by decide, hrest⟩
      · intro off n hmem
        rw [hstaged.iov] at hmem
        obtain ⟨rfl, rfl⟩ := Iov.tmpbuf.inj (List.mem_singleton.mp hmem)
        rw [hstaged.staged.tmpbufSz]
        omega
    · have hle := hdiscard.le
      have hzero := hdiscard.base
      have hnonneg := hdiscard.nonneg
      apply good_of_arrive hsizes hstage (DiscardIov.loaded hdiscard hstage) _ _ (by omega) hdiscard.written
      · rcases hdiscard.goesOn with ⟨rfl, hend⟩ | ⟨rfl, hmore, -⟩
        · exact .inl ⟨.inl rfl, hend⟩
        · exact .inr ⟨by decide, hmore⟩
      · intro off n hmem
        rw [hdiscard.iov] at hmem
        obtain ⟨rfl, rfl⟩ := Iov.tmpbuf.inj (List.mem_singleton.mp hmem)
        rw [hdiscard.tmpbufSz]
        omega
  | unpack complete =>
    rw [hstage] at hkept
    obtain ⟨last, hfull⟩ := hkept
    have hloaded : (loaded r : Int) = 0 := by
      unfold loaded
      rw [hstage]
      rfl
    have hbasele := hfull.base_le
    have hlt := hfull.lt
    have hstops := hfull.stops
    have hgoesOn := hfull.goesOn
    refine ⟨by omega, ?_, ?_, ⟨_, by omega, by omega, hfull.written⟩, ?_⟩
    · intro h' heq
      rw [hstage] at heq
      exact nomatch heq
    · intro h' off n heq
      rw [hstage] at heq
      exact nomatch heq
    · intro hdone
      rw [hstage] at hdone
      exact nomatch hdone
  | done =>
    rw [hstage] at hkept
    obtain ⟨hend, hwritten⟩ := hkept
    have hloaded : (loaded r : Int) = 0 := by
      unfold loaded
      rw [hstage]
      rfl
    refine ⟨by omega, ?_, ?_, ⟨_, by omega, Int.le_refl _, by rw [hroom]; exact hwritten⟩, ?_⟩
    · intro h' heq
      rw [hstage] at heq
      exact nomatch heq
    · intro h' off n heq
      rw [hstage] at heq
      exact nomatch heq
    · rw [hroom]
      exact fun _ => ⟨hend, hwritten⟩

end Goodness

def Legal (L : Layout δ σ) (_ : World δ σ β) : Op δ β → Prop
  | .start _ r => Admissible L r
  | _ => True

/-- The message and the user buffer end between two basic elements, the load is safe, and the unpacking stays
within an `int`. -/
def Safe (S : Segments δ σ) (L : Layout δ σ) (w : World δ σ β) : Op δ β → Prop
  | .start _ r => L.whole r.datatype r.segmentSize
  | .load i => ∀ r ∈ w.request i, r.stage = .load → SafeLoad S L w.origSegmentFirst r
  | .arrive _ => True
  | .unpack i => ∀ r ∈ w.request i, (r.stage = .unpack true ∨ r.stage = .unpack false) →
      r.segmentFirst + r.tmpbufSz < 2 ^ 31

def WorldInv (L : Layout δ σ) (w : World δ σ β) : Prop := ∀ i r, w.request i = some r → Inv L r

theorem WorldInv.set {w : World δ σ β} (h : WorldInv L w) {i : Nat} {r : Request δ σ β} (hr : Inv L r)
    (static : Option Int) : WorldInv L { w.set i r with origSegmentFirst := static } := by
  intro j r' hj
  replace hj : Function.update w.request i (some r) j = some r' := hj
  by_cases hji : j = i
  · rw [hji, Function.update_self] at hj
    exact Option.some.inj hj ▸ hr
  · rw [Function.update_of_ne hji] at hj
    exact h j r' hj

theorem start_inv (hS : Documented S L) {r : Receive δ β} (hadmissible : Admissible L r)
    (hwhole : L.whole r.datatype r.segmentSize) : Inv L (r.request S) := by
  have hsizes := hadmissible.sizes hS
  have hpos := hsizes.pos
  refine ⟨hsizes, hwhole, rfl, .inl ⟨?_, ?_, hsizes.first_le, ?_, hsizes.whole, .inl ?_, rfl⟩⟩
  · show decide r.type.accum = true ↔ _
    rw [decide_eq_true_iff]
    rfl
  · show r.segmentFirst = r.segmentFirst + ((0 : Nat) : Int)
    omega
  · show ((0 : Nat) : Int) < r.message.dataSz
    omega
  · show L.streamOff S.init ≤ r.segmentFirst
    rw [hS.init]
    exact hsizes.first_nonneg

theorem step_inv (hS : Documented S L) {w : World δ σ β} {o : Op δ β} (h : WorldInv L w) (hlegal : Legal L w o)
    (hsafe : Safe S L w o) : ∃ w', step S w o = .ok w' ∧ WorldInv L w' := by
  cases o with
  | start i r =>
    cases hr : w.request i with
    | some old =>
      refine ⟨w, ?_, h⟩
      simp only [step, hr]
    | none =>
      refine ⟨w.set i (r.request S), ?_, h.set (start_inv hS hlegal hsafe) w.origSegmentFirst⟩
      simp only [step, hr]
  | load i =>
    cases hr : w.request i with
    | none =>
      refine ⟨w, ?_, h⟩
      simp only [step, hr]
    | some r =>
      by_cases hstage : r.stage = .load
      · obtain ⟨static, r', hload, hinv, -⟩ := loadRecvIov_inv hS (h i r hr) hstage (hsafe r hr hstage)
        refine ⟨{ w.set i r' with origSegmentFirst := static }, ?_, h.set hinv static⟩
        simp only [step, hr, if_pos hstage, hload]
        rfl
      · refine ⟨w, ?_, h⟩
        simp only [step, hr, if_neg hstage]
  | arrive i =>
    cases hr : w.request i with
    | none =>
      refine ⟨w, ?_, h⟩
      simp only [step, hr]
    | some r =>
      cases hstage : r.stage with
      | arrive onDataAvail =>
        refine ⟨w.set i (LoadIov.arrive onDataAvail r), ?_, h.set (arrive_inv (h i r hr) hstage) w.origSegmentFirst⟩
        simp only [step, hr, hstage]
      | _ =>
        refine ⟨w, ?_, h⟩
        simp only [step, hr, hstage]
  | unpack i =>
    cases hr : w.request i with
    | none =>
      refine ⟨w, ?_, h⟩
      simp only [step, hr]
    | some r =>
      cases hstage : r.stage with
      | unpack complete =>
        have hsmall : r.segmentFirst + r.tmpbufSz < 2 ^ 31 := by
          apply hsafe r hr
          rw [hstage]
          cases complete <;> simp
        refine ⟨w.set i { unpackSrbuf S r with stage := if complete then .done else .load }, ?_,
          h.set (unpackSrbuf_inv hS (h i r hr) hstage hsmall).1 w.origSegmentFirst⟩
        simp only [step, hr, hstage]
      | _ =>
        refine ⟨w, ?_, h⟩
        simp only [step, hr, hstage]

/-- Requests whose loads are safe are drained, in whatever order their steps come. -/
theorem requests_drained (hS : Documented S L) (ops : List (Op δ β))
    (hlegal : Along (step S) (Legal L) World.init ops) (hsafe : Along (step S) (Safe S L) World.init ops) :
    (∃ w, run (step S) World.init ops = .ok w) ∧
      ∀ k w, run (step S) World.init (ops.take k) = .ok w → ∀ i r, w.request i = some r → Good L r := by
  have hinit : WorldInv L (World.init : World δ σ β) := fun _ _ hnone => nomatch hnone
  have hstep : ∀ (w : World δ σ β) (o : Op δ β), WorldInv L w → Legal L w o ∧ Safe S L w o → ∃ w', step S w o = .ok w' ∧ WorldInv L w' :=
    fun w o h hboth => step_inv hS h hboth.1 hboth.2
  have hboth := hlegal.and hsafe
  constructor
  · obtain ⟨w, hrun, -⟩ := run_of_along hstep hinit hboth
    exact ⟨w, hrun⟩
  · intro k w hrun i r hr
    obtain ⟨w', hrun', hinv⟩ := run_of_along hstep hinit (hboth.take k)
    obtain rfl : w' = w := Except.ok.inj (hrun'.symm.trans hrun)
    exact Inv.good (hinv i r hr)

def strided : Segments Unit Int where
  init := 0
  vector := fun _ _ first last n =>
    let stop := min last (first + n)
    (stop, stop, (List.range (stop - first).toNat).map fun k : Nat => (2 * (first + k), 1))
  unpack := fun _ _ first last => (last, last, (List.range (last - first).toNat).map fun k : Nat => 2 * (first + k))

def stridedLayout : Layout Unit Int where
  place := fun _ k => 2 * k
  whole := fun _ _ => True
  element := fun _ => 1
  oneLevel := fun _ => True
  streamOff := id

theorem addresses_single (l : List Nat) (address : Nat → Int) :
    addresses (l.map fun k => (address k, 1)) = l.map address := by
  induction l with
  | nil => rfl
  | cons k l ih =>
    rw [List.map_cons, List.map_cons, ← ih]
    show [address k + ((0 : Nat) : Int)] ++ addresses (l.map fun k => (address k, 1)) = _
    rw [Int.natCast_zero, Int.add_zero]
    rfl

theorem strided_documented : Documented strided stridedLayout := by
  constructor
  · rfl
  · exact fun _ => trivial
  · intro d
    show (1 : Int) ≤ srbufSize
    decide
  · intro d segment first last n hn _ hlt _ _ _
    refine ⟨_, _, _, rfl, by omega, by omega, trivial, rfl, ?_, ?_, ?_⟩
    · rw [List.length_map, List.length_range]
      omega
    · rw [Ne, List.map_eq_nil_iff, List.range_eq_nil]
      omega
    · exact addresses_single _ fun k => 2 * (first + k)
  · intro d segment first last _ hlt _ _
    exact ⟨_, _, _, rfl, by omega, Int.le_refl _, trivial, rfl, by rw [Int.sub_self]; exact Int.one_pos, fun _ => rfl,
      rfl⟩

section Decidable
variable (S L) [∀ d x, Decidable (L.whole d x)] [∀ d, Decidable (L.oneLevel d)]

instance (r : Receive δ β) : Decidable (Admissible L r) :=
  match h : r.caller with
  | .receiveDataFound userbufSz =>
    decidable_of_iff (0 < r.message.dataSz ∧ 0 ≤ userbufSz ∧ (userbufSz < r.message.dataSz → r.type = .recv) ∧
      r.message.dataSz < 2 ^ 63) (by unfold Admissible; rw [h])
  | .stream offset =>
    decidable_of_iff (0 < r.message.dataSz ∧ 0 ≤ offset ∧ L.whole r.datatype offset ∧
      offset + r.message.dataSz < 2 ^ 63) (by unfold Admissible; rw [h])

instance (orig last : Int) (r : Request δ σ β) : Decidable (SafeStaged orig last r) :=
  inferInstanceAs (Decidable (_ ∧ _ ∧ _))

instance (orig last : Int) (count : Nat) (r : Request δ σ β) : Decidable (SafeChunk L orig last count r) :=
  inferInstanceAs (Decidable (_ ∧ (_ → _ ∧ _)))

instance (static : Option Int) (r : Request δ σ β) : Decidable (SafeLoad S L static r) :=
  inferInstanceAs (Decidable (_ → ite _ _ _))

instance (w : World δ σ β) : (o : Op δ β) → Decidable (Legal L w o)
  | .start _ r => inferInstanceAs (Decidable (Admissible L r))
  | .load _ => isTrue trivial
  | .arrive _ => isTrue trivial
  | .unpack _ => isTrue trivial

instance (w : World δ σ β) : (o : Op δ β) → Decidable (Safe S L w o)
  | .start _ r => inferInstanceAs (Decidable (L.whole r.datatype r.segmentSize))
  | .load i => inferInstanceAs (Decidable (∀ r ∈ w.request i, _ → _))
  | .arrive _ => isTrue trivial
  | .unpack i => inferInstanceAs (Decidable (∀ r ∈ w.request i, _ → _))

instance (d : Unit) (x : Int) : Decidable (stridedLayout.whole d x) := isTrue trivial

instance (d : Unit) : Decidable (stridedLayout.oneLevel d) := isTrue trivial

end Decidable

def strideReceive (dataSz userbufSz : Int) : Receive Unit Nat where
  type := .recv
  datatype := ()
  caller := .receiveDataFound userbufSz
  message := ⟨dataSz, id⟩
  tmpbuf := fun _ => 0

def sideBySide : List (Op Unit Nat) :=
  [.start 0 (strideReceive 9 5), .load 0, .start 1 (strideReceive 30 40), .load 1, .arrive 0, .load 0, .arrive 1,
    .unpack 1, .arrive 0]

theorem sideBySide_drained : (∃ w, run (step strided) World.init sideBySide = .ok w) ∧
    ∀ k w, run (step strided) World.init (sideBySide.take k) = .ok w →
      ∀ i r, w.request i = some r → Good stridedLayout r :=
  requests_drained strided_documented sideBySide (by decide) (by decide)

def truncated : List (Op Unit Nat) :=
  [.start 0 (strideReceive 40 20), .load 0, .arrive 0, .unpack 0, .load 0, .arrive 0, .unpack 0]

def putInto (ops : List (Op Unit Nat)) (i : Nat) : Option (Int × Nat) :=
  ((run (step strided) World.init ops).toOption.bind fun w => w.request i).map fun r =>
    (Receive.room r.receive, r.written.length)

theorem truncated_twice : Along (step strided) (Legal stridedLayout) World.init truncated ∧
    ∃ w r, run (step strided) World.init truncated = .ok w ∧ w.request 0 = some r ∧ ¬ Good stridedLayout r := by
  refine ⟨by decide, ?_⟩
  have hput : putInto truncated 0 = some (20, 40) := by decide
  unfold putInto at hput
  cases hrun : run (step strided) World.init truncated with
  | error fault =>
    rw [hrun] at hput
    exact nomatch hput
  | ok w =>
    rw [hrun] at hput
    obtain ⟨r, hr, hcounts⟩ := Option.map_eq_some_iff.mp hput
    obtain ⟨hroom, hcount⟩ := Prod.mk.inj hcounts
    refine ⟨w, r, rfl, hr, ?_⟩
    intro hgood
    obtain ⟨n, -, hn, hwritten⟩ := hgood.placed
    rw [hwritten, placed_length] at hcount
    omega

end FgMpi.Drain.Drained
