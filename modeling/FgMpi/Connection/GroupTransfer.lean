import FgMpi.Connection.ConnString

/-! The group of `MPI_COMM_WORLD` is encoded, decoded somewhere else and encoded again from there. -/

namespace FgMpi.Connection.GroupTransfer
open Procmap.Mapping Connection.ConnString

section Numbers
variable {ds : List Char} {n k : Nat}

theorem value_eq_ofDigitChars (hds : ∀ d ∈ ds, d.isDigit = true) (value : Nat) :
    ds.foldl (fun value d => 10 * value + digitValue d) value = Nat.ofDigitChars 10 ds value := by
  induction ds generalizing value with
  | nil => rfl
  | cons d ds ih =>
    obtain ⟨hd, hrest⟩ := List.forall_mem_cons.mp hds
    have hvalue : digitValue d = d.toNat - '0'.toNat := if_pos hd
    rw [List.foldl_cons, ih hrest, Nat.ofDigitChars_cons, hvalue]

theorem value_lt (hds : ∀ d ∈ ds, d.isDigit = true) (value : Nat) :
    ds.foldl (fun value d => 10 * value + digitValue d) value < (value + 1) * 10 ^ ds.length := by
  induction ds generalizing value with
  | nil => simp
  | cons d ds ih =>
    obtain ⟨hd, hrest⟩ := List.forall_mem_cons.mp hds
    have hlt : digitValue d < 10 := digitValue_lt_ten.2 hd
    rw [List.foldl_cons, List.length_cons]
    calc ds.foldl (fun value d => 10 * value + digitValue d) (10 * value + digitValue d)
        < (10 * value + digitValue d + 1) * 10 ^ ds.length := ih hrest _
      _ ≤ ((value + 1) * 10) * 10 ^ ds.length := Nat.mul_le_mul_right _ (by omega)
      _ = (value + 1) * 10 ^ (ds.length + 1) := by rw [Nat.pow_succ', Nat.mul_assoc]

theorem digits_decimal (n : Nat) : ∀ d ∈ decimal n, d.isDigit = true := by
  intro d hd
  rw [decimal, if_neg (by omega), Int.toNat_natCast] at hd
  exact Nat.isDigit_of_mem_toDigits (by decide) (by decide) hd

theorem not_nul_of_isDigit {d : Char} (h : d.isDigit = true) : nul ≠ d := by
  rintro rfl
  revert h
  decide

theorem atoi_digits (hds : ∀ d ∈ ds, d.isDigit = true) :
    atoi ds = longInt (ds.foldl (fun value d => 10 * value + digitValue d) 0) := by
  have hread : (readDigits 10 0 ds).1 = ds.foldl (fun value d => 10 * value + digitValue d) 0 := by
    have hdigits : Digits 10 ds := fun d hd => digitValue_lt_ten.2 (hds d hd)
    have hstop : Stops [] := fun c hc => by cases hc
    have happend := @readDigits_append 10 0 ds [] (by decide) hdigits hstop
    rw [List.append_nil] at happend
    rw [happend]
  cases ds with
  | nil => rfl
  | cons d ds =>
    have hd := hds d List.mem_cons_self
    have halnum : d.isAlphanum = true := isAlphanum_of_digitValue
      ((digitValue_lt_ten.2 hd).trans (by decide))
    have hskip : (d :: ds).dropWhile isSpace = d :: ds := by
      rw [List.dropWhile_cons_of_neg]
      simp [not_space_of_alphanum halnum]
    have hminus : d ≠ '-' := by
      rintro rfl
      revert hd
      decide
    have hplus : d ≠ '+' := by
      rintro rfl
      revert hd
      decide
    unfold atoi
    rw [hskip]
    split
    · rename_i heq
      exact absurd (List.cons.inj heq).1 hminus
    · rename_i heq
      exact absurd (List.cons.inj heq).1 hplus
    · rw [hread]

theorem atoi_decimal (hn : n < 2 ^ 31) : atoi (decimal n) = n := by
  rw [atoi_digits (digits_decimal n), value_eq_ofDigitChars (digits_decimal n)]
  rw [decimal, if_neg (by omega), Int.toNat_natCast, Nat.ofDigitChars_ten_toDigits]
  exact (longInt_eq_iff n).2 hn

theorem atoi_take (hpos : 0 < n) (hn : n < 2 ^ 31) (hk : k < (decimal n).length) :
    atoi ((decimal n).take k) < n := by
  have hds : ∀ d ∈ (decimal n).take k, d.isDigit = true := fun d hd =>
    digits_decimal n d (List.mem_of_mem_take hd)
  have hlength : ((decimal n).take k).length = k := List.length_take_of_le hk.le
  have hlt := value_lt hds 0
  rw [hlength, Nat.zero_add, Nat.one_mul] at hlt
  have hle : 10 ^ k ≤ n := by
    rcases Nat.eq_zero_or_pos k with rfl | hk0
    · rw [Nat.pow_zero]
      exact hpos
    · rw [decimal, if_neg (by omega), Int.toNat_natCast] at hk
      by_contra hlow
      have := (Nat.length_toDigits_le_iff (by decide : 1 < 10) hk0).2 (Nat.not_le.1 hlow)
      omega
  rw [atoi_digits hds, (longInt_eq_iff _).2 (by omega)]
  omega

end Numbers

section Writing
variable {curSlen size : Nat} {string t cs : List Char} {id : CString} {value : Nat → Card}

theorem storeAll_ok (hroom : string.length + cs.length ≤ curSlen)
    (hint : string.length + cs.length < intBound) : storeAll curSlen string cs = .ok (string ++ cs) := by
  induction cs generalizing string with
  | nil => rw [storeAll, List.append_nil]
  | cons c cs ih =>
    rw [List.length_cons] at hroom hint
    have hstore : store curSlen string c = .ok (string ++ [c]) := by
      rw [store, if_neg (by omega), if_neg (by omega)]
    have hlength : (string ++ [c]).length = string.length + 1 := List.length_append
    simp only [storeAll, hstore]
    rw [ih (by omega) (by omega), List.append_assoc, List.singleton_append]

theorem store_eq_ok {c : Char} (h : store curSlen string c = .ok t) :
    t = string ++ [c] ∧ t.length ≤ curSlen ∧ t.length < intBound := by
  unfold store at h
  split at h
  · cases h
  · split at h
    · cases h
    · cases h
      refine ⟨rfl, ?_⟩
      rw [List.length_append, List.length_singleton]
      omega

theorem storeAll_eq_ok (h : storeAll curSlen string cs = .ok t) :
    t = string ++ cs ∧ (cs ≠ [] → t.length ≤ curSlen ∧ t.length < intBound) := by
  induction cs generalizing string with
  | nil =>
    cases h
    simp
  | cons c cs ih =>
    simp only [storeAll] at h
    split at h
    · cases h
    · rename_i u hstore
      obtain ⟨rfl, hfirst⟩ := store_eq_ok hstore
      obtain ⟨rfl, hrest⟩ := ih h
      refine ⟨by simp, fun _ => ?_⟩
      cases cs with
      | nil => simpa using hfirst
      | cons c' cs => exact hrest (List.cons_ne_nil c' cs)

theorem copyId_ok (hroom : string.length + cs.length ≤ curSlen) (hint : curSlen < intBound) :
    copyId curSlen string cs = .ok (string ++ cs) := by
  induction cs generalizing string with
  | nil => rw [copyId, List.append_nil]
  | cons c cs ih =>
    rw [List.length_cons] at hroom
    have hstore : store curSlen string c = .ok (string ++ [c]) := by
      rw [store, if_neg (by omega), if_neg (by omega)]
    have hlength : (string ++ [c]).length = string.length + 1 := List.length_append
    rw [copyId, if_pos (by omega)]
    simp only [hstore]
    rw [ih (by omega), List.append_assoc, List.singleton_append]

theorem copyId_full (hfull : curSlen ≤ string.length + cs.length) (hle : string.length ≤ curSlen)
    (hint : curSlen < intBound) : ∃ t, copyId curSlen string cs = .ok t ∧ t.length = curSlen := by
  induction cs generalizing string with
  | nil =>
    rw [List.length_nil] at hfull
    exact ⟨string, rfl, by omega⟩
  | cons c cs ih =>
    rw [List.length_cons] at hfull
    rw [copyId]
    split
    · have hstore : store curSlen string c = .ok (string ++ [c]) := by
        rw [store, if_neg (by omega), if_neg (by omega)]
      have hlength : (string ++ [c]).length = string.length + 1 := List.length_append
      simp only [hstore]
      exact ih (by omega) (by omega)
    · exact ⟨string, rfl, by omega⟩

def written (value : Nat → Card) (rank left : Nat) : List Char :=
  (List.range' rank left).flatMap fun i => hideShm (value i).val ++ [nul]

theorem written_succ (value : Nat → Card) (rank left : Nat) :
    written value rank (left + 1) =
      hideShm (value rank).val ++ [nul] ++ written value (rank + 1) left := by
  rw [written, List.range'_succ, List.flatMap_cons]
  rfl

theorem grow_room {curSlen len left vallen : Nat} (h : len ≤ curSlen) :
    len + (vallen + 1) ≤ grow curSlen len (left + 1) vallen := by
  unfold grow
  split
  · have hmul : vallen + 1 ≤ (left + 1) * (vallen + 1) := Nat.le_mul_of_pos_left _ (Nat.succ_pos left)
    omega
  · omega

theorem appendCards_ok {left : Nat} (hleft : left ≤ size) (hlength : string.length ≤ curSlen)
    (hint : string.length + (written value (size - left) left).length < intBound) :
    ∃ curSlen', appendCards value size left curSlen string =
        .ok (string ++ written value (size - left) left, curSlen') ∧
      string.length + (written value (size - left) left).length ≤ curSlen' := by
  induction left generalizing curSlen string with
  | zero => exact ⟨curSlen, by simp [appendCards, written], by simpa [written] using hlength⟩
  | succ left ih =>
    have hnext : size - (left + 1) + 1 = size - left := by omega
    rw [written_succ, hnext] at hint ⊢
    simp only [List.length_append, List.length_singleton] at hint
    have hroom := @grow_room curSlen string.length left
      (hideShm (value (size - (left + 1))).val).length hlength
    simp only [appendCards]
    rw [storeAll_ok (by simpa using hroom) (by simp; omega)]
    obtain ⟨curSlen', happend, hle⟩ := @ih _ (string ++ (hideShm (value (size - (left + 1))).val ++
      [nul])) (by omega) (by simpa using hroom) (by simp; omega)
    refine ⟨curSlen', ?_, ?_⟩
    · dsimp only
      rw [happend]
      simp
    · simp at hle ⊢
      omega

theorem appendCards_eq_ok {left curSlen' : Nat} (hleft : left ≤ size)
    (h : appendCards value size left curSlen string = .ok (t, curSlen')) :
    t = string ++ written value (size - left) left ∧ (0 < left → t.length < intBound) := by
  induction left generalizing curSlen string with
  | zero =>
    cases h
    simp [written]
  | succ left ih =>
    have hnext : size - (left + 1) + 1 = size - left := by omega
    rw [written_succ, hnext]
    simp only [appendCards] at h
    split at h
    · cases h
    · rename_i u hstore
      obtain ⟨rfl, hbound⟩ := storeAll_eq_ok hstore
      obtain ⟨rfl, hrest⟩ := ih (by omega) h
      refine ⟨by simp, fun _ => ?_⟩
      rcases Nat.eq_zero_or_pos left with rfl | hpos
      · have := (hbound (by simp)).2
        simpa [written] using this
      · exact hrest hpos

end Writing

section First
variable {id : CString} {size : Nat} {value : Nat → Card} {string : List Char}

def header (id : CString) (field : List Char) : List Char := id.val ++ [nul] ++ field ++ [nul]

def sizeField (id : CString) (size : Nat) : List Char :=
  (decimal size).take (estimate size - (id.val.length + 1) - 1)

theorem length_header (id : CString) (field : List Char) :
    (header id field).length = id.val.length + field.length + 2 := by
  simp [header]
  omega

theorem length_sizeField (h : id.val.length + 1 < estimate size) :
    (header id (sizeField id size)).length ≤ estimate size := by
  rw [length_header, sizeField, List.length_take]
  omega

section
variable (hest : estimate size < intBound)
include hest

theorem header_written (hid : id.val.length + 1 < estimate size) :
    copyId (estimate size) [] id.val = .ok id.val ∧
    store (estimate size) id.val nul = .ok (id.val ++ [nul]) ∧
    putSize (estimate size) (id.val ++ [nul]) size = .ok (header id (sizeField id size)) := by
  have hlength : (id.val ++ [nul]).length = id.val.length + 1 := List.length_append
  refine ⟨copyId_ok (by rw [List.length_nil]; omega) hest, ?_, ?_⟩
  · rw [store, if_neg (by omega), if_neg (by omega)]
  · rw [putSize, if_neg (by omega), hlength]
    rfl

theorem connToStringKVS_ok (hid : id.val.length + 1 < estimate size)
    (hint : (header id (sizeField id size) ++ written value 0 size).length < intBound) :
    connToStringKVS id size value = .ok (header id (sizeField id size) ++ written value 0 size) := by
  obtain ⟨hcopy, hstore, hput⟩ := header_written hest hid
  have hwritten : written value (size - size) size = written value 0 size := by rw [Nat.sub_self]
  rw [List.length_append] at hint
  obtain ⟨curSlen, happend, hle⟩ := @appendCards_ok (estimate size) size
    (header id (sizeField id size)) value size (Nat.le_refl size) (length_sizeField hid)
    (by rw [hwritten]; exact hint)
  rw [hwritten] at happend hle
  have hassert : ¬ curSlen < (header id (sizeField id size) ++ written value 0 size).length := by
    rw [List.length_append]
    omega
  unfold connToStringKVS
  rw [if_neg (by omega)]
  simp only [hcopy, hstore, hput, happend, bind, Except.bind, pure, Except.pure]
  rw [if_neg hassert]

theorem connToStringKVS_short (hid : ¬ id.val.length + 1 < estimate size) :
    connToStringKVS id size value = .error .outOfBounds := by
  unfold connToStringKVS
  rw [if_neg (by omega)]
  by_cases hfits : id.val.length + 1 = estimate size
  · have hcopy : copyId (estimate size) [] id.val = .ok id.val :=
      copyId_ok (by rw [List.length_nil]; omega) hest
    have hstore : store (estimate size) id.val nul = .ok (id.val ++ [nul]) := by
      rw [store, if_neg (by omega), if_neg (by omega)]
    have hlength : (id.val ++ [nul]).length = id.val.length + 1 := List.length_append
    have hput : putSize (estimate size) (id.val ++ [nul]) size = .error .outOfBounds := by
      rw [putSize, if_pos (by omega)]
    simp only [hcopy, hstore, hput, bind, Except.bind]
  · obtain ⟨t, hcopy, hlength⟩ := @copyId_full (estimate size) [] id.val
      (by rw [List.length_nil]; omega) (Nat.zero_le _) hest
    have hstore : store (estimate size) t nul = .error .outOfBounds := by
      rw [store, if_pos (by omega)]
    simp only [hcopy, hstore, bind, Except.bind]

end

theorem connToStringKVS_eq_ok (hpos : 0 < size) (h : connToStringKVS id size value = .ok string) :
    estimate size < intBound ∧ id.val.length + 1 < estimate size ∧
      string = header id (sizeField id size) ++ written value 0 size ∧ string.length < intBound := by
  by_cases hest : estimate size < intBound
  · by_cases hid : id.val.length + 1 < estimate size
    · obtain ⟨hcopy, hstore, hput⟩ := header_written hest hid
      unfold connToStringKVS at h
      rw [if_neg (by omega)] at h
      simp only [hcopy, hstore, hput, bind, Except.bind, pure, Except.pure] at h
      cases happend : appendCards value size size (estimate size) (header id (sizeField id size)) with
      | error e =>
        simp only [happend] at h
        cases h
      | ok result =>
        obtain ⟨t, curSlen⟩ := result
        obtain ⟨ht, hbound⟩ := appendCards_eq_ok (Nat.le_refl size) happend
        rw [Nat.sub_self] at ht
        simp only [happend] at h
        split at h
        · cases h
        · cases h
          exact ⟨hest, hid, ht, hbound hpos⟩
    · rw [connToStringKVS_short hest hid] at h
      cases h
  · unfold connToStringKVS at h
    rw [if_pos (by omega)] at h
    cases h

end First

section Reading
variable {id field : CString} {cards : List CString} {r : List Char}

def ended (cards : List CString) : List Char := cards.flatMap fun s => s.val ++ [nul]

theorem ended_cons (s : CString) (cards : List CString) :
    ended (s :: cards) = s.val ++ [nul] ++ ended cards := List.flatMap_cons

theorem readString_append (s : CString) (r : List Char) : readString (s.val ++ nul :: r) = .ok (s, r) := by
  obtain ⟨val, hended⟩ := s
  induction val with
  | nil => exact dif_pos rfl
  | cons c cs ih =>
    obtain ⟨hc, hcs⟩ := List.ne_and_not_mem_of_not_mem_cons hended
    rw [List.cons_append]
    unfold readString
    rw [dif_neg hc, ih hcs]

theorem readStrings_append (cards : List CString) (r : List Char) :
    readStrings cards.length (ended cards ++ r) = .ok (cards, r) := by
  induction cards with
  | nil => rfl
  | cons s cards ih =>
    have hfirst : ended (s :: cards) ++ r = s.val ++ nul :: (ended cards ++ r) := by
      rw [ended_cons]
      simp
    rw [List.length_cons, hfirst, readStrings, readString_append]
    simp only [ih]

theorem header_append : header id field.val ++ r = id.val ++ nul :: (field.val ++ nul :: r) := by
  simp [header]

theorem connFromString_ended (hsize : atoi field.val = cards.length) :
    connFromString (header id field.val ++ ended cards) =
      if intBound ≤ (header id field.val ++ ended cards).length + 1 then .error .overflow
      else .ok (cards.length,
        .connInfo ((header id field.val ++ ended cards).length + 1) cards) := by
  have hread := readStrings_append cards []
  rw [List.append_nil] at hread
  unfold connFromString
  rw [header_append, readString_append]
  simp only [bind, Except.bind, pure, Except.pure]
  rw [readString_append]
  simp only [hsize, Int.toNat_natCast, hread, List.length_nil, Nat.sub_zero]
  split <;> rfl

theorem createFromString_size {g : Group} {isNew : Bool} {pgList : List Group}
    (h : createFromString [] (header id field.val ++ r) = .ok (g, isNew, pgList)) :
    g.size = atoi field.val := by
  unfold createFromString connFromString at h
  rw [header_append, readString_append] at h
  simp only [bind, Except.bind, pure, Except.pure, List.find?_nil] at h
  rw [readString_append] at h
  simp only at h
  cases hread : readStrings (atoi field.val).toNat r with
  | error e =>
    simp only [hread] at h
    cases h
  | ok result =>
    simp only [hread] at h
    split at h
    · cases h
    · rename_i hok
      split at hok
      · cases hok
      · cases hok
        cases h
        rfl

end Reading

section Second
variable {id myName : CString} {cards : List CString} {string : List Char} {toStringLen : Nat}

theorem storeStrings_ok (hroom : string.length + (ended cards).length ≤ toStringLen)
    (hint : string.length + (ended cards).length < intBound) :
    storeStrings toStringLen string cards = .ok (string ++ ended cards) := by
  induction cards generalizing string with
  | nil => simp [storeStrings, ended]
  | cons s cards ih =>
    rw [ended_cons] at hroom hint ⊢
    simp only [List.length_append] at hroom hint
    have hone := @storeAll_ok toStringLen string (s.val ++ [nul]) (by rw [List.length_append]; omega)
      (by rw [List.length_append]; omega)
    simp only [storeStrings, hone]
    rw [ih (by simp only [List.length_append]; omega) (by simp only [List.length_append]; omega)]
    simp

theorem take_decimal {n : Nat} (hn : n < 2 ^ 31) : (decimal n).take 19 = decimal n := by
  refine List.take_of_length_le ?_
  rw [decimal, if_neg (by omega), Int.toNat_natCast]
  have := (Nat.length_toDigits_le_iff (by decide : 1 < 10) (by decide : 0 < 19)).2
    (by omega : n < 10 ^ 19)
  exact this

theorem connToString_ok (hid : ¬ singinitKvs <+: id.val) (hsize : cards.length < 2 ^ 31)
    (hroom : (header id (decimal cards.length) ++ ended cards).length ≤ toStringLen)
    (hint : (header id (decimal cards.length) ++ ended cards).length < intBound) :
    connToString myName id cards.length toStringLen cards =
      .ok (header id (decimal cards.length) ++ ended cards) := by
  rw [List.length_append, length_header] at hroom hint
  have hname : singinitKvs.isPrefixOf id.val = false := by
    rw [Bool.eq_false_iff, ne_eq, List.isPrefixOf_iff_prefix]
    exact hid
  have hfirst := @storeAll_ok toStringLen [] (id.val ++ [nul])
    (by simp only [List.length_append, List.length_nil, List.length_singleton]; omega)
    (by simp only [List.length_append, List.length_nil, List.length_singleton]; omega)
  have hsecond := @storeAll_ok toStringLen (id.val ++ [nul]) (decimal cards.length ++ [nul])
    (by simp only [List.length_append, List.length_singleton]; omega)
    (by simp only [List.length_append, List.length_singleton]; omega)
  have hthird := @storeStrings_ok cards (id.val ++ [nul] ++ (decimal cards.length ++ [nul]))
    toStringLen (by simp only [List.length_append, List.length_singleton]; omega)
    (by simp only [List.length_append, List.length_singleton]; omega)
  unfold connToString
  simp only [hname, Bool.false_eq_true, if_false, take_decimal hsize, List.nil_append] at hfirst ⊢
  simp only [hfirst, hsecond, bind, Except.bind, pure, Except.pure, Int.lt_irrefl, if_false,
    Int.toNat_natCast, List.take_length, hthird]
  rw [if_neg (by simp only [List.length_append, List.length_singleton]; omega)]
  simp [header]

end Second

/-- The group of `MPI_COMM_WORLD`; `value` is what the key-value space has for each rank. -/
structure World where
  id : CString
  size : Nat
  value : Nat → Card
  pos : 0 < size
  int : size < 2 ^ 31

def World.cards (w : World) : List CString := (List.range w.size).map fun i => (w.value i).toCString

/-- No name of a queue in shared memory is in the cards, and the id is not the one of a singleton. -/
structure World.Plain (w : World) : Prop where
  id : ¬ singinitKvs <+: w.id.val
  cards : ∀ i < w.size, ¬ shmHost <:+: (w.value i).val

def World.text (w : World) : List Char := header w.id (decimal w.size) ++ ended w.cards

def Known (w : World) (g : Group) : Prop :=
  g = ⟨w.id, w.size, .kvs w.value⟩ ∨ g = ⟨w.id, w.size, .connInfo (w.text.length + 1) w.cards⟩

/-- The group can be written without an access out of bounds, and wherever the string arrives the group
that is found or made has the id, the size and the cards, and is written as the same string. -/
def RoundTrips (w : World) : Prop :=
  ∃ string, connToStringKVS w.id w.size w.value = .ok string ∧
    ∀ (myName : CString) (pgList : List Group), (∀ g ∈ pgList, g.id = w.id → Known w g) →
      ∃ g isNew pgList', createFromString pgList string = .ok (g, isNew, pgList') ∧
        g.id = w.id ∧ g.size = w.size ∧ (∀ i < w.size, g.card i = some (w.value i).toCString) ∧
        g.toString myName = .ok string

def Fits (w : World) : Prop := estimate w.size < intBound ∧
  w.id.val.length + (decimal w.size).length + 2 ≤ estimate w.size ∧ w.text.length + 1 < intBound

section Transfers
variable {w : World}

theorem hideShm_eq {s : List Char} (h : ¬ shmHost <:+: s) : hideShm s = s := by
  induction s with
  | nil => rfl
  | cons c cs ih =>
    have hprefix : shmHost.isPrefixOf (c :: cs) = false := by
      rw [Bool.eq_false_iff, ne_eq, List.isPrefixOf_iff_prefix]
      exact fun hp => h hp.isInfix
    have hrest : ¬ shmHost <:+: cs := fun hi => h (hi.trans (List.suffix_cons c cs).isInfix)
    simp only [hideShm, hprefix, Bool.false_eq_true, if_false]
    rw [ih hrest]

theorem length_cards : w.cards.length = w.size := by
  rw [World.cards, List.length_map, List.length_range]

theorem written_cards (h : w.Plain) : written w.value 0 w.size = ended w.cards := by
  rw [written, ended, World.cards, List.flatMap_map, ← List.range_eq_range', List.flatMap_def,
    List.flatMap_def]
  refine congrArg List.flatten (List.map_congr_left ?_)
  intro i hi
  rw [hideShm_eq (h.cards i (List.mem_range.1 hi))]

theorem sizeField_eq (h : w.id.val.length + (decimal w.size).length + 2 ≤ estimate w.size) :
    sizeField w.id w.size = decimal w.size :=
  List.take_of_length_le (by omega)

theorem length_decimal_pos (n : Nat) : 0 < (decimal n).length := by
  rw [decimal, if_neg (by omega), Int.toNat_natCast]
  exact Nat.length_toDigits_pos

theorem decimal_ended (n : Nat) : nul ∉ decimal n := fun h =>
  not_nul_of_isDigit (digits_decimal n nul h) rfl

theorem connToStringKVS_text (hplain : w.Plain) (h : Fits w) :
    connToStringKVS w.id w.size w.value = .ok w.text := by
  obtain ⟨hest, hid, hint⟩ := h
  have hpositive := length_decimal_pos w.size
  have htext : header w.id (sizeField w.id w.size) ++ written w.value 0 w.size = w.text := by
    rw [sizeField_eq hid, written_cards hplain, World.text]
  rw [← htext]
  refine connToStringKVS_ok hest (by omega) ?_
  rw [htext]
  omega

theorem readString_text : readString w.text = .ok (w.id, decimal w.size ++ nul :: ended w.cards) := by
  rw [World.text, @header_append w.id ⟨decimal w.size, decimal_ended w.size⟩]
  exact readString_append _ _

theorem connFromString_text : connFromString w.text =
    if intBound ≤ w.text.length + 1 then .error .overflow
    else .ok (w.size, .connInfo (w.text.length + 1) w.cards) := by
  have hsize : atoi (⟨decimal w.size, decimal_ended w.size⟩ : CString).val = w.cards.length := by
    rw [length_cards]
    exact atoi_decimal w.int
  have hread := @connFromString_ended w.id ⟨decimal w.size, decimal_ended w.size⟩ w.cards hsize
  rw [length_cards] at hread
  exact hread

theorem createFromString_new (h : Fits w) {pgList : List Group}
    (hnone : pgList.find? (fun g => g.id = w.id) = none) :
    createFromString pgList w.text =
      .ok (⟨w.id, w.size, .connInfo (w.text.length + 1) w.cards⟩, true,
        pgList ++ [⟨w.id, w.size, .connInfo (w.text.length + 1) w.cards⟩]) := by
  have hconn := @connFromString_text w
  rw [if_neg (Nat.not_le.2 h.2.2)] at hconn
  unfold createFromString
  simp only [readString_text, hnone, hconn, bind, Except.bind, pure, Except.pure]

theorem Known.found (hplain : w.Plain) (h : Fits w) {g : Group} (hg : Known w g) (myName : CString) :
    g.id = w.id ∧ g.size = w.size ∧ (∀ i < w.size, g.card i = some (w.value i).toCString) ∧
      g.toString myName = .ok w.text := by
  rcases hg with rfl | rfl
  · exact ⟨rfl, rfl, fun i _ => rfl, connToStringKVS_text hplain h⟩
  · refine ⟨rfl, rfl, ?_, ?_⟩
    · intro i hi
      show w.cards[i]? = _
      rw [World.cards, List.getElem?_map, List.getElem?_range hi]
      rfl
    · have hagain := @connToString_ok w.id myName w.cards (w.text.length + 1) hplain.id
        (by rw [length_cards]; exact w.int)
      rw [length_cards] at hagain
      exact hagain (Nat.le_succ _) (Nat.lt_of_succ_lt h.2.2)

theorem roundTrips_of_fits (hplain : w.Plain) (h : Fits w) : RoundTrips w := by
  refine ⟨w.text, connToStringKVS_text hplain h, ?_⟩
  intro myName pgList hknown
  cases hfind : pgList.find? (fun g => g.id = w.id) with
  | none =>
    exact ⟨_, true, _, createFromString_new h hfind, Known.found hplain h (Or.inr rfl) myName⟩
  | some g =>
    have hid : g.id = w.id := by simpa using List.find?_some hfind
    have hg := hknown g (List.mem_of_find?_eq_some hfind) hid
    refine ⟨g, false, pgList, ?_, Known.found hplain h hg myName⟩
    unfold createFromString
    simp only [readString_text, hfind, bind, Except.bind, pure, Except.pure]

theorem fits_of_roundTrips (hplain : w.Plain) (h : RoundTrips w) : Fits w := by
  obtain ⟨string, hwrite, hread⟩ := h
  obtain ⟨hest, hid, rfl, hint⟩ := connToStringKVS_eq_ok w.pos hwrite
  have hended : nul ∉ sizeField w.id w.size := fun hn =>
    decimal_ended w.size (List.mem_of_mem_take hn)
  obtain ⟨g, isNew, pgList', hcreate, _, hsize, _⟩ := hread ⟨[], List.not_mem_nil⟩ []
    (fun g hg => absurd hg List.not_mem_nil)
  have hfield := @createFromString_size w.id ⟨sizeField w.id w.size, hended⟩ _ g isNew pgList' hcreate
  -- a size that has been cut off would be read as a smaller one
  have hroom : (decimal w.size).length ≤ estimate w.size - (w.id.val.length + 1) - 1 := by
    by_contra hshort
    have hlt := atoi_take w.pos w.int (Nat.not_le.1 hshort)
    have hsame : (w.size : Int) =
        atoi ((decimal w.size).take (estimate w.size - (w.id.val.length + 1) - 1)) :=
      hsize.symm.trans hfield
    omega
  have hpositive := length_decimal_pos w.size
  have hfits : w.id.val.length + (decimal w.size).length + 2 ≤ estimate w.size := by omega
  refine ⟨hest, hfits, ?_⟩
  by_contra hlong
  have hover := @connFromString_text w
  rw [if_pos (Nat.not_lt.1 hlong)] at hover
  rw [sizeField_eq hfits, written_cards hplain, ← World.text] at hcreate
  unfold createFromString at hcreate
  simp only [readString_text, hover, bind, Except.bind, List.find?_nil] at hcreate
  cases hcreate

/-- The group round-trips if and only if the estimate has room for its id and size. -/
theorem roundTrips_iff (w : World) (hplain : w.Plain) : RoundTrips w ↔ Fits w :=
  ⟨fits_of_roundTrips hplain, roundTrips_of_fits hplain⟩

end Transfers

def longId : World where
  id := ⟨List.replicate 138 'a', fun h => absurd (List.eq_of_mem_replicate h) (by decide)⟩
  size := 1
  value := fun _ => ⟨⟨[], List.not_mem_nil⟩, by decide⟩
  pos := by decide
  int := by decide

theorem longId_beyond : longId.Plain ∧ ¬ RoundTrips longId := by
  refine ⟨⟨by decide, fun i _ => by decide +revert⟩, ?_⟩
  rintro ⟨string, hwrite, _⟩
  have hshort : connToStringKVS longId.id longId.size longId.value = .error .outOfBounds :=
    connToStringKVS_short (by decide) (by simp [longId, estimate])
  rw [hshort] at hwrite
  cases hwrite

def twoProcesses : World where
  id := ⟨['k', 'v', 's', '_', '0'], by decide⟩
  size := 2
  value := fun rank => ⟨⟨[if rank = 0 then 'a' else 'b'], by split <;> decide⟩, by
    rw [List.length_singleton]
    decide⟩
  pos := by decide
  int := by decide

theorem roundTrips_twoProcesses : RoundTrips twoProcesses :=
  (roundTrips_iff twoProcesses ⟨by decide, by decide⟩).2 ⟨by decide, by decide, by decide⟩

end FgMpi.Connection.GroupTransfer
