import FgMpi.Argstr.RoundTrip

/-! `MPIU_Str_add_string` and `MPIU_Str_get_string`. -/

namespace FgMpi.Argstr.Strings
open Argstr.Encoding Argstr.RoundTrip

variable {a : Alphabet}

variable (a) in
def written (s : List Char) : List Char :=
  if isSpecial a s then a.quote :: escaped a s ++ [a.quote, a.separ]
  else if s = [] then [a.quote, a.quote]
  else s ++ [a.separ]

variable (a) in
def Closed (s : List Char) : Prop := isSpecial a s = true → s.getLast? ≠ some a.escape

variable {s rest text : List Char}

theorem addString_room {b : Buffer} (h : ((written a s).length : Int) < b.maxlen) :
    addString a b s = .ok ⟨b.text ++ written a s, b.maxlen - (written a s).length⟩ := by
  unfold addString
  unfold written at h ⊢
  by_cases hs : isSpecial a s = true
  · rw [if_pos hs] at h ⊢
    rw [if_pos hs]
    simp only [List.length_append, List.length_cons, List.length_nil] at h
    have hprint : quotedPrintf a b.maxlen s =
        (a.quote :: escaped a s ++ [a.quote], ((escaped a s).length + 2 : Int)) := by
      unfold quotedPrintf
      rw [if_neg (by omega), quotedBody_of_escaped (by omega)]
      simp
      omega
    rw [hprint]
    dsimp only
    rw [if_neg (by omega), if_pos (by omega)]
    simp
  · rw [if_neg hs] at h ⊢
    rw [if_neg hs]
    dsimp only
    by_cases hempty : s = []
    · rw [if_pos hempty] at h ⊢
      rw [snprintf_of_room h, snprintf, if_neg (by omega)]
    · rw [if_neg hempty] at h ⊢
      rw [snprintf_of_room h, snprintf, if_neg (by omega)]

variable {vals : List (List Char)}

theorem addStrings_room {b : Buffer} (h : ((vals.flatMap (written a)).length : Int) < b.maxlen) :
    addStrings a b vals = .ok ⟨b.text ++ vals.flatMap (written a),
      b.maxlen - (vals.flatMap (written a)).length⟩ := by
  induction vals generalizing b with
  | nil => simp [addStrings]; rfl
  | cons s vals ih =>
    rw [List.flatMap_cons, List.length_append] at h
    have hrest : addStrings a ⟨b.text ++ written a s, b.maxlen - (written a s).length⟩ vals =
        .ok _ := ih (by dsimp only; omega)
    unfold addStrings at hrest ⊢
    rw [List.foldlM_cons, addString_room (by omega)]
    refine hrest.trans ?_
    rw [List.flatMap_cons, List.length_append, List.append_assoc]
    congr 2
    push_cast
    omega

theorem needsQuotes_of_notSpecial (h : isSpecial a s ≠ true) : needsQuotes a s ≠ true := by
  intro hq
  apply h
  simp only [needsQuotes, isSpecial, decide_eq_true_eq] at hq ⊢
  rcases hq with hsepar | hdelim | hhead
  · exact Or.inl hsepar
  · exact Or.inr (Or.inr hdelim)
  · exact Or.inr (Or.inl (List.mem_of_mem_head? hhead))

theorem reads_plain (hs : isSpecial a s ≠ true) (hne : s ≠ []) :
    Reads a s (a.separ :: rest) (s ++ a.separ :: rest) := by
  cases s with
  | nil => exact absurd rfl hne
  | cons c s => exact reads_literal (needsQuotes_of_notSpecial hs) (ends_separ rest)

variable {n : Nat}

theorem getString_of_token {next : Option (List Char)}
    (hn : s.length < n) (hfirst : firstToken a text = some text)
    (hcopy : tokenCopy a text n = .success s) (hnext : nextToken a text = next) :
    getString a (firstToken a text) n = .string s next := by
  unfold getString
  rw [if_neg (by omega), hfirst, Option.bind_some, hfirst]
  dsimp only
  rw [hcopy, hnext]

theorem getString_written (hclosed : Closed a s) (hn : s.length < n) :
    getString a (firstToken a (written a s ++ rest)) n = .string s (firstToken a rest) := by
  unfold written
  by_cases hs : isSpecial a s = true
  · rw [if_pos hs]
    have hquoted := quoted_escaped (a.separ :: rest) (hclosed hs)
    have htext : a.quote :: escaped a s ++ [a.quote, a.separ] ++ rest =
        a.quote :: (escaped a s ++ a.quote :: a.separ :: rest) := by simp
    rw [htext]
    apply getString_of_token hn (firstToken_cons _ separ_ne_quote.symm)
    · exact tokenCopy_quoted hquoted hn
    · rw [nextToken_quoted hquoted, firstToken_separ]
  · rw [if_neg hs]
    by_cases hempty : s = []
    · subst hempty
      have hquoted : Quoted a rest [] (a.quote :: rest) := .close
      rw [if_pos rfl]
      apply getString_of_token hn (firstToken_cons _ separ_ne_quote.symm)
      · exact tokenCopy_quoted hquoted hn
      · exact nextToken_quoted hquoted
    · have hreads : Reads a s (a.separ :: rest) (s ++ a.separ :: rest) := reads_plain hs hempty
      have htext : s ++ [a.separ] ++ rest = s ++ a.separ :: rest := by simp
      rw [if_neg hempty, htext]
      apply getString_of_token hn hreads.first
      · exact hreads.copy n hn
      · rw [hreads.next, firstToken_separ]

theorem copyQuoted_prefix {out val : List Char}
    (h : copyQuoted a n text out = .success val) : out <+: val := by
  induction n, text, out using copyQuoted.induct a with
  | case1 => cases h
  | case2 => cases h
  | case3 out n ih =>
    rw [copyQuoted, if_pos rfl] at h
    exact (List.prefix_append _ _).trans (ih h)
  | case4 out n hc =>
    rw [copyQuoted, if_neg hc, if_pos rfl] at h
    cases h
    exact List.prefix_rfl
  | case5 out n c hc hq ih =>
    rw [copyQuoted, if_neg hc, if_neg hq] at h
    exact (List.prefix_append _ _).trans (ih h)
  | case6 out n t ih =>
    rw [copyQuoted, if_pos rfl, if_pos rfl] at h
    exact (List.prefix_append _ _).trans (ih h)
  | case7 out n q t hq ih =>
    rw [copyQuoted, if_pos rfl, if_neg hq] at h
    exact (List.prefix_append _ _).trans (ih h)
  | case8 out n q t hc =>
    rw [copyQuoted, if_neg hc, if_pos rfl] at h
    cases h
    exact List.prefix_rfl
  | case9 out n c q t hc hq ih =>
    rw [copyQuoted, if_neg hc, if_neg hq] at h
    exact (List.prefix_append _ _).trans (ih h)

theorem escaped_cons (c : Char) (s : List Char) : ∃ q t, escaped a (c :: s) = q :: t ∧ q ≠ a.quote := by
  by_cases hc : c = a.quote
  · exact ⟨a.escape, c :: escaped a s, by simp [escaped, hc], quote_ne_escape.symm⟩
  · exact ⟨c, escaped a s, by simp [escaped, hc], hc⟩

theorem copyQuoted_open {out val : List Char}
    (h : copyQuoted a n (escaped a (s ++ [a.escape]) ++ a.quote :: rest) out = .success val) :
    out ++ s ++ [a.quote] <+: val := by
  induction s generalizing n out with
  | nil =>
    have htext : escaped a ([] ++ [a.escape]) = [a.escape] := by
      simp [escaped, quote_ne_escape.symm]
    rw [htext] at h
    cases n with
    | zero => cases h
    | succ n =>
      rw [List.singleton_append, copyQuoted, if_pos rfl, if_pos rfl] at h
      rw [List.append_nil]
      exact copyQuoted_prefix h
  | cons c s ih =>
    cases n with
    | zero => cases h
    | succ n =>
      by_cases hc : c = a.quote
      · subst hc
        have htext : escaped a (a.quote :: s ++ [a.escape]) =
            a.escape :: a.quote :: escaped a (s ++ [a.escape]) := by simp [escaped]
        rw [htext, List.cons_append, List.cons_append, copyQuoted, if_pos rfl, if_pos rfl] at h
        have hrest := ih h
        rw [List.append_assoc out] at hrest
        exact hrest
      · obtain ⟨q, t, hqt, hq⟩ : ∃ q t, escaped a (s ++ [a.escape]) = q :: t ∧ q ≠ a.quote := by
          cases s with
          | nil => exact escaped_cons a.escape []
          | cons d s => exact escaped_cons d (s ++ [a.escape])
        have htext : escaped a (c :: s ++ [a.escape]) = c :: escaped a (s ++ [a.escape]) := by
          simp [escaped, hc]
        have hnext : copyQuoted a n (escaped a (s ++ [a.escape]) ++ a.quote :: rest) (out ++ [c]) =
            .success val := by
          rw [htext, hqt] at h
          rw [hqt]
          rw [List.cons_append, List.cons_append, copyQuoted] at h
          by_cases hesc : c = a.escape
          · rwa [if_pos hesc, if_neg hq] at h
          · rwa [if_neg hesc, if_neg hc] at h
        have hrest := ih hnext
        rw [List.append_assoc out] at hrest
        exact hrest

theorem tokenCopy_open (hlast : s.getLast? = some a.escape) (hn : 1 < n) :
    tokenCopy a (a.quote :: (escaped a s ++ a.quote :: rest)) n ≠ .success s := by
  intro hcopy
  obtain ⟨w, rfl⟩ := List.getLast?_eq_some_iff.mp hlast
  unfold tokenCopy at hcopy
  rw [if_neg (by omega), if_neg (by omega), firstToken_cons _ separ_ne_quote.symm] at hcopy
  dsimp only at hcopy
  rw [if_neg delim_ne_quote.symm, if_pos rfl] at hcopy
  have hprefix := copyQuoted_open hcopy
  rw [List.nil_append] at hprefix
  have heq := hprefix.eq_of_length (by simp)
  exact quote_ne_escape (List.singleton_inj.mp (List.append_cancel_left heq))

variable (a) in
def ReadsBack (text : List Char) (vals : List (List Char)) : Prop :=
  ∀ lens : List Nat, List.Forall₂ (fun s n => s.length < n) vals lens →
    getStrings a (some text) lens = some vals

theorem firstToken_idem (text : List Char) : (firstToken a text).bind (firstToken a) = firstToken a text := by
  cases htext : firstToken a text with
  | none => rfl
  | some token =>
    rw [Option.bind_some]
    unfold firstToken at htext
    cases hdrop : text.dropWhile (· = a.separ) with
    | nil =>
      rw [hdrop] at htext
      cases htext
    | cons c s =>
      rw [hdrop] at htext
      cases htext
      apply firstToken_cons
      have hhead := List.head_dropWhile_not (· = a.separ) (l := text) (by simp [hdrop])
      simpa [hdrop] using hhead

theorem getStrings_firstToken (text : List Char) (lens : List Nat) :
    getStrings a (firstToken a text) lens = getStrings a (some text) lens := by
  cases lens with
  | nil => rfl
  | cons n lens =>
    have hget : getString a (firstToken a text) n = getString a (some text) n := by
      unfold getString
      rw [firstToken_idem, Option.bind_some]
    rw [getStrings, getStrings, hget]

theorem getStrings_written (hclosed : ∀ s ∈ vals, Closed a s) :
    ReadsBack a (vals.flatMap (written a)) vals := by
  intro lens hlens
  induction hlens with
  | nil => rfl
  | @cons s n vals lens hn _ ih =>
    have hrest := ih fun t ht => hclosed t (List.mem_cons_of_mem s ht)
    rw [← getStrings_firstToken] at hrest ⊢
    rw [List.flatMap_cons, getStrings, getString_written (hclosed s List.mem_cons_self) hn]
    dsimp only
    rw [hrest]
    rfl

theorem tokenCopy_of_getStrings
    {lens : List Nat} (hfirst : firstToken a text = some text)
    (h : getStrings a (some text) (n :: lens) = some (s :: vals)) :
    tokenCopy a text n = .success s ∧ getStrings a (nextToken a text) lens = some vals := by
  rw [getStrings, getString] at h
  by_cases hn : n < 1
  · rw [if_pos hn] at h
    cases h
  · rw [if_neg hn, Option.bind_some, hfirst] at h
    dsimp only at h
    cases hcopy : tokenCopy a text n with
    | success val =>
      rw [hcopy] at h
      obtain ⟨rest, hrest, hcons⟩ := Option.map_eq_some_iff.mp h
      obtain ⟨rfl, rfl⟩ := List.cons.inj hcons
      exact ⟨rfl, hrest⟩
    | nomem val =>
      rw [hcopy] at h
      cases h
    | fail =>
      rw [hcopy] at h
      cases h
    | overrun =>
      rw [hcopy] at h
      cases h

def ample (vals : List (List Char)) : List Nat := vals.map fun s => s.length + 2

theorem ample_forall (vals : List (List Char)) :
    List.Forall₂ (fun s n => s.length < n) vals (ample vals) := by
  rw [ample, List.forall₂_map_right_iff, List.forall₂_same]
  intro s _
  omega

theorem closed_of_readsBack
    (h : getStrings a (some (vals.flatMap (written a))) (ample vals) = some vals) :
    ∀ s ∈ vals, Closed a s := by
  induction vals with
  | nil => exact fun s hs => absurd hs List.not_mem_nil
  | cons s vals ih =>
    have hfirst : Closed a s := by
      intro hs hlast
      have htext : (s :: vals).flatMap (written a) =
          a.quote :: (escaped a s ++ a.quote :: (a.separ :: vals.flatMap (written a))) := by
        simp [written, hs]
      rw [htext] at h
      have hcopy := (tokenCopy_of_getStrings (firstToken_cons _ separ_ne_quote.symm) h).1
      exact tokenCopy_open hlast (Nat.lt_add_left s.length Nat.one_lt_two) hcopy
    have hrest : getStrings a (some (vals.flatMap (written a))) (ample vals) = some vals := by
      rw [← getStrings_firstToken, List.flatMap_cons, ample, List.map_cons, getStrings,
        getString_written hfirst (by omega)] at h
      obtain ⟨rest, hrest, hcons⟩ := Option.map_eq_some_iff.mp h
      obtain ⟨-, rfl⟩ := List.cons.inj hcons
      rwa [getStrings_firstToken] at hrest
    intro t ht
    rcases List.mem_cons.mp ht with rfl | ht
    · exact hfirst
    · exact ih hrest t ht

/-- Whatever is added to a buffer with room for it is read back exactly when no string that is
quoted ends in the escape character. -/
theorem getStrings_addStrings_iff (a : Alphabet) (vals : List (List Char)) (maxlen : Int)
    (hroom : ((vals.flatMap (written a)).length : Int) < maxlen) :
    ∃ b, addStrings a ⟨[], maxlen⟩ vals = .ok b ∧
      (ReadsBack a b.text vals ↔ ∀ s ∈ vals, Closed a s) := by
  refine ⟨_, addStrings_room hroom, ?_⟩
  rw [List.nil_append]
  constructor
  · intro h
    exact closed_of_readsBack (h _ (ample_forall vals))
  · intro h
    exact getStrings_written h

theorem getStrings_addStrings_mixed :
    ∃ b, addStrings standard ⟨[], 64⟩
        [[], ['a', 'b'], [], [], ['#'], ['\\', '"', 'c'], ['d', '\\'], ['$']] = .ok b ∧
      ReadsBack standard b.text
        [[], ['a', 'b'], [], [], ['#'], ['\\', '"', 'c'], ['d', '\\'], ['$']] := by
  obtain ⟨b, hb, hiff⟩ := getStrings_addStrings_iff standard
    [[], ['a', 'b'], [], [], ['#'], ['\\', '"', 'c'], ['d', '\\'], ['$']] 64 (by decide)
  refine ⟨b, hb, hiff.mpr ?_⟩
  unfold Closed
  decide

theorem getStrings_open :
    ∃ b, addStrings standard ⟨[], 64⟩ [['$', '\\'], ['x']] = .ok b ∧
      getStrings standard (some b.text) [64, 64] = none ∧
      ¬ ReadsBack standard b.text [['$', '\\'], ['x']] := by
  refine ⟨_, rfl, by decide, ?_⟩
  intro h
  have hread := h [64, 64] (by simp)
  exact nomatch hread

end FgMpi.Argstr.Strings
