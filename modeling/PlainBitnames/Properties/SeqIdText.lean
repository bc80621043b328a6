import PlainBitnames.Types.BitNameSeqId

/-!
The text form of sequential ids, read both ways. A text denotes a number when it
is two or three segments of four digits joined by `-`. Display writes a text that
denotes the id, and parsing returns what a text denotes, except that the sum of
its two parts is not checked: the product is, so the only texts that get past it
and still leave the range start with `0042`.
-/

namespace PlainBitnames

open Decimal Fallible

namespace BitNameSeqId

/-- Segments joined by `-`. -/
def joined (segments : List Segment) : List Char :=
  ['-'].intercalate (segments.map Segment.text)

/-- The last component: its digits in their own order, less the offset. -/
def lastEight (s0 s1 : Segment) : Nat :=
  (number (lastEightDigits s0 s1) + (10 ^ 8 - displayOffset.toNat)) % 10 ^ 8

/-- The number that segments denote. -/
def denoted : List Segment → Option Nat
  | [s0, s1] => some (lastEight s0 s1)
  | [s0, s1, s2] => some (number s0.text * 10 ^ 8 + lastEight s1 s2)
  | _ => none

/-- The number that a text denotes, whatever its size. -/
def Denotes (s : String) (n : Nat) : Prop :=
  ∃ segments, s.toList = joined segments ∧ denoted segments = some n

/-- Parsing returns the number that the text denotes or an error, and the error
is an overflow when the number has no place in a `u32`. -/
structure FaithfulAt (s : String) : Prop where
  returns : ∀ message, fromStr s ≠ .error (.panic message)
  exact : ∀ id, fromStr s = .ok id → Denotes s id.val.toNat
  overflow : ∀ n, Denotes s n → 2 ^ 32 ≤ n → fromStr s = .error (.error .overflow)

/-- Three segments, of which the first is `0042` and the others denote more than
`u32::MAX` leaves for them. -/
def SumOverflows (s : String) : Prop :=
  ∃ s0 s1 s2, s.toList = joined [s0, s1, s2] ∧ number s0.text = 42 ∧
    94967295 < lastEight s1 s2

theorem lastEight_lt (s0 s1 : Segment) : lastEight s0 s1 < 10 ^ 8 :=
  Nat.mod_lt _ (by decide)

theorem Segment.number_lt (s : Segment) : number s.text < 10 ^ 4 :=
  Decimal.number_lt s.isDigit

theorem isDigit_lastEightDigits {s0 s1 : Segment} {c : Char} (h : c ∈ lastEightDigits s0 s1) :
    c.isDigit = true := by
  obtain ⟨h0, h1, h2, h3, -⟩ : _ ∧ _ ∧ _ ∧ _ ∧ _ := by
    simpa only [List.forall_mem_cons] using s0.isDigit
  obtain ⟨h4, h5, h6, h7, -⟩ : _ ∧ _ ∧ _ ∧ _ ∧ _ := by
    simpa only [List.forall_mem_cons] using s1.isDigit
  simp only [lastEightDigits, List.mem_cons, List.not_mem_nil, or_false] at h
  rcases h with rfl | rfl | rfl | rfl | rfl | rfl | rfl | rfl <;> assumption

theorem lastEightDigitComponent_ok (s0 s1 : Segment) :
    ∃ last, lastEightDigitComponent s0 s1 = .ok last ∧ last.toNat = lastEight s0 s1 := by
  have hdigits : ∀ c ∈ lastEightDigits s0 s1, c.isDigit = true :=
    fun c hc => isDigit_lastEightDigits hc
  have hlt : number (lastEightDigits s0 s1) < 10 ^ 8 := Decimal.number_lt hdigits
  have hne : lastEightDigits s0 s1 ≠ [] := List.cons_ne_nil _ _
  obtain ⟨offset, hparse, hnat⟩ := parseU32_digits hne hdigits (by omega)
  rw [lastEightDigitComponent, hparse, okOr_some, ok_bind]
  have hoffset : displayOffset.toNat = 23071990 := rfl
  rw [lastEight, ← hnat, hoffset]
  split
  next hle =>
    refine ⟨offset - displayOffset, subU32_of_le hle, ?_⟩
    rw [UInt32.toNat_sub_of_le _ _ hle, hoffset]
    rw [UInt32.le_iff_toNat_le, hoffset] at hle
    omega
  next hlt' =>
    rw [UInt32.le_iff_toNat_le, hoffset, not_le] at hlt'
    have hle : offset ≤ displayOffset := UInt32.le_iff_toNat_le.mpr (by omega)
    have hbelow := UInt32.toNat_sub_of_le _ _ hle
    have htop : (100000000 : UInt32).toNat = 100000000 := rfl
    have hle' : displayOffset - offset ≤ 100000000 :=
      UInt32.le_iff_toNat_le.mpr (by omega)
    refine ⟨100000000 - (displayOffset - offset), ?_, ?_⟩
    · rw [subU32_of_le hle, ok_bind, subU32_of_le hle']
    · rw [UInt32.toNat_sub_of_le _ _ hle']
      omega

theorem parseU32_segment (s : Segment) :
    ∃ first, parseU32 s.text = some first ∧ first.toNat = number s.text := by
  have hlt := s.number_lt
  have hne : s.text ≠ [] := List.cons_ne_nil _ _
  exact parseU32_digits hne s.isDigit (by omega)

theorem parseSegment_text (s : Segment) : parseSegment s.text = .ok s := by
  have hhead : s.text.head? ≠ some '-' := by
    intro h
    have hdash := s.isDigit '-' (List.mem_of_mem_head? h)
    exact absurd hdash (by decide)
  rw [parseSegment, ensure_of hhead, ok_bind]
  exact dif_pos s.isDigit

theorem text_of_parseSegment {text : List Char} {s : Segment} (h : parseSegment text = .ok s) :
    text = s.text := by
  obtain ⟨-, h⟩ := ensure_bind_eq_ok.mp h
  split at h
  · split at h <;> cases h
    rfl
  · cases h

theorem parseSegment_error {text : List Char} {e : Failure ParseBitNameSeqIdError}
    (h : parseSegment text = .error e) : ∃ e', e = .error e' := by
  rcases bind_eq_error.mp h with h | ⟨-, -, h⟩
  · exact ⟨_, (ensure_eq_error.mp h).2.symm⟩
  · split at h
    · split at h <;> cases h
      exact ⟨_, rfl⟩
    · cases h
      exact ⟨_, rfl⟩

variable {segments : List Segment}

theorem parseSegments_map_text (hne : segments ≠ []) (done : List Segment)
    (hlength : done.length + segments.length ≤ 3) :
    parseSegments done (segments.map Segment.text) = .ok (done ++ segments) := by
  induction segments generalizing done with
  | nil => exact absurd rfl hne
  | cons s rest ih =>
    cases rest with
    | nil =>
      rw [List.map_singleton, parseSegments, parseSegment_text, ok_bind]
    | cons s' rest =>
      rw [List.length_cons, List.length_cons] at hlength
      have hdone : (done ++ [s]).length ≤ 2 := by
        rw [List.length_append, List.length_singleton]
        omega
      have hrest := ih (List.cons_ne_nil _ _) (done ++ [s]) (by
        rw [List.length_append, List.length_singleton, List.length_cons]
        omega)
      rw [List.map_cons, List.map_cons, parseSegments, parseSegment_text, ok_bind,
        ensure_of hdone, ok_bind, ← List.map_cons, hrest, List.append_assoc,
        List.singleton_append]
      simp

theorem map_text_of_parseSegments {pieces : List (List Char)} {done : List Segment}
    (h : parseSegments done pieces = .ok segments) :
    ∃ new, segments = done ++ new ∧ pieces = new.map Segment.text := by
  fun_induction parseSegments done pieces with
  | case1 done =>
    cases h
    exact ⟨[], (List.append_nil _).symm, rfl⟩
  | case2 done last =>
    obtain ⟨s, hs, h⟩ := bind_eq_ok.mp h
    cases h
    exact ⟨[s], rfl, by rw [text_of_parseSegment hs, List.map_singleton]⟩
  | case3 done piece pieces _ ih =>
    obtain ⟨s, hs, h⟩ := bind_eq_ok.mp h
    obtain ⟨-, h⟩ := ensure_bind_eq_ok.mp h
    obtain ⟨new, rfl, rfl⟩ := ih s h
    exact ⟨s :: new, List.append_assoc .., by rw [text_of_parseSegment hs, List.map_cons]⟩

theorem parseSegments_error {pieces : List (List Char)} {done : List Segment}
    {e : Failure ParseBitNameSeqIdError} (h : parseSegments done pieces = .error e) :
    ∃ e', e = .error e' := by
  fun_induction parseSegments done pieces with
  | case1 done => cases h
  | case2 done last =>
    rcases bind_eq_error.mp h with h | ⟨s, -, h⟩
    · exact parseSegment_error h
    · cases h
  | case3 done piece pieces _ ih =>
    rcases bind_eq_error.mp h with h | ⟨s, -, h⟩
    · exact parseSegment_error h
    · rcases bind_eq_error.mp h with h | ⟨-, -, h⟩
      · exact ⟨_, (ensure_eq_error.mp h).2.symm⟩
      · exact ih s h

theorem dash_not_mem_text (s : Segment) : '-' ∉ s.text := by
  intro h
  exact absurd (s.isDigit '-' h) (by decide)

theorem joined_singleton (s : Segment) : joined [s] = s.text :=
  List.append_nil _

theorem joined_cons_cons (s s' : Segment) (segments : List Segment) :
    joined (s :: s' :: segments) = s.text ++ '-' :: joined (s' :: segments) := by
  rw [joined, List.map_cons, List.map_cons, List.intercalate_cons_cons, List.append_assoc]
  rfl

theorem joined_ne_nil (s : Segment) (segments : List Segment) : joined (s :: segments) ≠ [] := by
  cases segments with
  | nil =>
    rw [joined_singleton]
    exact List.cons_ne_nil _ _
  | cons s' segments =>
    rw [joined_cons_cons]
    exact List.cons_ne_nil _ _

theorem mem_joined {c : Char} (h : c ∈ joined segments) : c.isDigit = true ∨ c = '-' := by
  induction segments with
  | nil => cases h
  | cons s rest ih =>
    cases rest with
    | nil =>
      rw [joined_singleton] at h
      exact .inl (s.isDigit c h)
    | cons s' rest =>
      rw [joined_cons_cons, List.mem_append, List.mem_cons] at h
      rcases h with h | h | h
      · exact .inl (s.isDigit c h)
      · exact .inr h
      · exact ih h

theorem head?_joined_ne (segments : List Segment) : (joined segments).head? ≠ some '-' := by
  rcases segments with _ | ⟨s, _ | ⟨s', rest⟩⟩
  · exact Option.some_ne_none _ |>.symm
  · intro h
    rw [joined_singleton] at h
    exact dash_not_mem_text s (List.mem_of_mem_head? h)
  · intro h
    rw [joined_cons_cons] at h
    exact dash_not_mem_text s (List.mem_of_mem_head? (l := s.text) h)

theorem getLast?_joined_ne (segments : List Segment) :
    (joined segments).getLast? ≠ some '-' := by
  induction segments with
  | nil => exact Option.some_ne_none _ |>.symm
  | cons s rest ih =>
    cases rest with
    | nil =>
      intro h
      rw [joined_singleton] at h
      exact dash_not_mem_text s (List.mem_of_getLast? h)
    | cons s' rest =>
      rw [joined_cons_cons, List.getLast?_append_of_ne_nil _ (List.cons_ne_nil _ _),
        List.getLast?_cons_of_ne_nil (joined_ne_nil s' rest)]
      exact ih

variable {s : String}

theorem fromStr_joined (hs : s.toList = joined segments) (hne : segments ≠ [])
    (hlength : segments.length ≤ 3) : fromStr s = ofSegments segments := by
  have hchars : s.toList.find? (fun c => !(c.isDigit || c == '-')) = none := by
    rw [List.find?_eq_none]
    intro c hc
    rw [hs] at hc
    rcases mem_joined hc with h | rfl
    · simp [h]
    · decide
  have hsplit : s.toList.splitOn '-' = segments.map Segment.text := by
    rw [hs]
    refine List.splitOn_intercalate '-' ?_ (by simpa using hne)
    intro text htext
    obtain ⟨segment, -, rfl⟩ := List.mem_map.mp htext
    exact dash_not_mem_text segment
  rw [fromStr, hchars]
  dsimp only
  rw [ensure_of (hs ▸ head?_joined_ne segments), ok_bind,
    ensure_of (hs ▸ getLast?_joined_ne segments), ok_bind, hsplit,
    parseSegments_map_text hne [] (by simpa using hlength), ok_bind]
  rfl

theorem fromStr_cases (s : String) :
    (∃ e, fromStr s = .error (.error e)) ∨
      ∃ segments, s.toList = joined segments ∧ fromStr s = ofSegments segments := by
  rw [fromStr]
  split
  next invalid _ => exact .inl ⟨_, rfl⟩
  next =>
    by_cases hstart : s.toList.head? ≠ some '-'
    · by_cases hend : s.toList.getLast? ≠ some '-'
      · rw [ensure_of hstart, ok_bind, ensure_of hend, ok_bind]
        cases hloop : parseSegments [] (s.toList.splitOn '-') with
        | error e =>
          obtain ⟨e', rfl⟩ := parseSegments_error hloop
          exact .inl ⟨e', rfl⟩
        | ok segments =>
          obtain ⟨new, hnew, hpieces⟩ := map_text_of_parseSegments hloop
          refine .inr ⟨segments, ?_, rfl⟩
          rw [hnew, List.nil_append, joined, ← hpieces, List.intercalate_splitOn]
      · refine .inl ⟨.emptySegmentEnd, ?_⟩
        rw [ensure_of hstart, ok_bind, ensure, if_neg hend]
        rfl
    · refine .inl ⟨.emptySegmentStart, ?_⟩
      rw [ensure, if_neg hstart]
      rfl

theorem ofSegments_two (s0 s1 : Segment) :
    ∃ id, ofSegments [s0, s1] = .ok id ∧ id.val.toNat = lastEight s0 s1 := by
  obtain ⟨last, hlast, hnat⟩ := lastEightDigitComponent_ok s0 s1
  refine ⟨⟨last⟩, ?_, hnat⟩
  rw [ofSegments, hlast, ok_bind]

/-- Only the product is checked: the sum stops the program where it overflows. -/
theorem ofSegments_three (s0 s1 s2 : Segment) :
    (2 ^ 32 ≤ number s0.text * 10 ^ 8 ∧ ofSegments [s0, s1, s2] = .error (.error .overflow)) ∨
      (number s0.text * 10 ^ 8 < 2 ^ 32 ∧
        2 ^ 32 ≤ number s0.text * 10 ^ 8 + lastEight s1 s2 ∧
        ofSegments [s0, s1, s2] = .error (.panic "attempt to add with overflow")) ∨
      ∃ id, ofSegments [s0, s1, s2] = .ok id ∧
        id.val.toNat = number s0.text * 10 ^ 8 + lastEight s1 s2 := by
  obtain ⟨first, hfirst, hfirstNat⟩ := parseU32_segment s0
  obtain ⟨last, hlast, hlastNat⟩ := lastEightDigitComponent_ok s1 s2
  have hunit : (100000000 : UInt32).toNat = 10 ^ 8 := rfl
  rw [ofSegments, hfirst, okOr_some, ok_bind, ← hfirstNat, ← hlastNat]
  cases hmul : checkedMulU32 first 100000000 with
  | none =>
    refine .inl ⟨?_, rfl⟩
    by_contra hlt
    rw [checkedMulU32, hunit, if_pos (not_le.mp hlt)] at hmul
    cases hmul
  | some high =>
    have hhigh := checkedMulU32_eq_some.mp hmul
    rw [hunit] at hhigh
    rw [okOr_some, ok_bind, hlast, ok_bind, hhigh]
    by_cases hsum : high.toNat + last.toNat < 2 ^ 32
    · refine .inr (.inr ⟨⟨high + last⟩, ?_, ?_⟩)
      · rw [addU32, if_pos hsum, ok_bind]
      · rw [UInt32.toNat_add, Nat.mod_eq_of_lt hsum]
    · refine .inr (.inl ⟨high.toNat_lt, not_lt.mp hsum, ?_⟩)
      rw [addU32, if_neg hsum]
      rfl

theorem fromStr_of_denotes {n : Nat} (h : Denotes s n) (hn : n < 2 ^ 32) :
    ∃ id, fromStr s = .ok id ∧ id.val.toNat = n := by
  obtain ⟨segments, hs, hdenoted⟩ := h
  unfold denoted at hdenoted
  split at hdenoted
  next s0 s1 =>
    obtain rfl := Option.some.inj hdenoted
    rw [fromStr_joined hs (by simp) (by simp)]
    exact ofSegments_two s0 s1
  next s0 s1 s2 =>
    obtain rfl := Option.some.inj hdenoted
    rw [fromStr_joined hs (by simp) (by simp)]
    rcases ofSegments_three s0 s1 s2 with ⟨hle, -⟩ | ⟨-, hle, -⟩ | hok
    · omega
    · omega
    · exact hok
  next => cases hdenoted

theorem exists_segment {n : Nat} (hn : n < 10 ^ 4) : ∃ s : Segment, s.text = zeroPad 4 n := by
  have hlength : (zeroPad 4 n).length = 4 := length_zeroPad (by decide) hn
  have hdigits : ∀ c ∈ zeroPad 4 n, c.isDigit = true := fun c hc => isDigit_zeroPad hc
  match hpad : zeroPad 4 n, hlength with
  | [d0, d1, d2, d3], _ =>
    rw [hpad] at hdigits
    exact ⟨⟨d0, d1, d2, d3, hdigits⟩, rfl⟩

theorem fmt_denotes (id : BitNameSeqId) :
    ∃ text, id.fmt = .ok text ∧ Denotes text id.val.toNat := by
  have hoffset : displayOffset.toNat = 23071990 := rfl
  have hunit : (100000000 : UInt32).toNat = 10 ^ 8 := rfl
  have hrem : (id.val % 100000000).toNat = id.val.toNat % 10 ^ 8 := UInt32.toNat_mod _ _
  have hquot : (id.val / 100000000).toNat = id.val.toNat / 10 ^ 8 := UInt32.toNat_div _ _
  have hid := id.val.toNat_lt
  have hrange : (id.val % 100000000).toNat + displayOffset.toNat < 2 ^ 32 := by omega
  have hlast : ((id.val % 100000000 + displayOffset) % 100000000).toNat =
      (id.val.toNat % 10 ^ 8 + 23071990) % 10 ^ 8 := by
    rw [UInt32.toNat_mod, UInt32.toNat_add, Nat.mod_eq_of_lt hrange, hrem, hoffset, hunit]
  rw [fmt, addU32, if_pos hrange, ok_bind, hlast]
  generalize hm : (id.val.toNat % 10 ^ 8 + 23071990) % 10 ^ 8 = m
  have hlength : (zeroPad 8 m).length = 8 := length_zeroPad (by decide) (by omega)
  have hdigits : ∀ c ∈ zeroPad 8 m, c.isDigit = true := fun c hc => isDigit_zeroPad hc
  have hnumber := number_zeroPad 8 m
  match hpad : zeroPad 8 m, hlength with
  | [d0, d1, d2, d3, d4, d5, d6, d7], _ =>
    rw [hpad] at hdigits hnumber
    simp only [List.forall_mem_cons] at hdigits
    obtain ⟨h0, h1, h2, h3, h4, h5, h6, h7, -⟩ := hdigits
    let s1 : Segment := ⟨d4, d3, d1, d6, by simp [h4, h3, h1, h6]⟩
    let s2 : Segment := ⟨d2, d7, d0, d5, by simp [h2, h7, h0, h5]⟩
    have hvalue : lastEight s1 s2 = id.val.toNat % 10 ^ 8 := by
      rw [lastEight, show lastEightDigits s1 s2 = [d0, d1, d2, d3, d4, d5, d6, d7] from rfl,
        hnumber, hoffset]
      omega
    rw [layout]
    split
    next hpos =>
      obtain ⟨s0, hs0⟩ := exists_segment (n := (id.val / 100000000).toNat) (by omega)
      refine ⟨_, rfl, [s0, s1, s2], ?_, ?_⟩
      · rw [String.toList_ofList, ← hs0]
        rfl
      · rw [denoted, hvalue, hs0, number_zeroPad, hquot, Option.some.injEq]
        omega
    next hzero =>
      rw [UInt32.lt_iff_toNat_lt, hquot, UInt32.toNat_zero, not_lt] at hzero
      refine ⟨_, rfl, [s1, s2], ?_, ?_⟩
      · rw [String.toList_ofList]
        rfl
      · rw [denoted, hvalue, Option.some.injEq]
        omega

theorem fromStr_of_sumOverflows (h : SumOverflows s) :
    fromStr s = .error (.panic "attempt to add with overflow") := by
  obtain ⟨s0, s1, s2, hs, hfirst, hlast⟩ := h
  rw [fromStr_joined hs (by simp) (by simp)]
  rcases ofSegments_three s0 s1 s2 with ⟨hle, -⟩ | ⟨-, -, hpanic⟩ | ⟨id, -, hid⟩
  · omega
  · exact hpanic
  · have hlt := id.val.toNat_lt
    omega

theorem returns_of_not_sumOverflows (h : ¬ SumOverflows s) (message : String) :
    fromStr s ≠ .error (.panic message) := by
  intro hpanic
  rcases fromStr_cases s with ⟨e, he⟩ | ⟨segments, hs, hsegments⟩
  · rw [hpanic] at he
    cases he
  · rw [hpanic] at hsegments
    match segments, hs with
    | [], _ => cases hsegments
    | [_], _ => cases hsegments
    | [s0, s1], _ =>
      obtain ⟨id, hid, -⟩ := ofSegments_two s0 s1
      rw [hid] at hsegments
      cases hsegments
    | [s0, s1, s2], hs =>
      have hlast := lastEight_lt s1 s2
      rcases ofSegments_three s0 s1 s2 with ⟨-, ho⟩ | ⟨hlt, hle, -⟩ | ⟨id, hid, -⟩
      · rw [ho] at hsegments
        cases hsegments
      · exact h ⟨s0, s1, s2, hs, by omega, by omega⟩
      · rw [hid] at hsegments
        cases hsegments
    | _ :: _ :: _ :: _ :: _, _ => cases hsegments

theorem denotes_of_fromStr {id : BitNameSeqId} (h : fromStr s = .ok id) :
    Denotes s id.val.toNat := by
  rcases fromStr_cases s with ⟨e, he⟩ | ⟨segments, hs, hsegments⟩
  · rw [h] at he
    cases he
  · rw [h] at hsegments
    refine ⟨segments, hs, ?_⟩
    match segments with
    | [] => cases hsegments
    | [_] => cases hsegments
    | [s0, s1] =>
      obtain ⟨id', hid, hnat⟩ := ofSegments_two s0 s1
      obtain rfl := Except.ok.inj (hsegments.trans hid)
      rw [denoted, hnat]
    | [s0, s1, s2] =>
      rcases ofSegments_three s0 s1 s2 with ⟨-, ho⟩ | ⟨-, -, hp⟩ | ⟨id', hid, hnat⟩
      · rw [ho] at hsegments
        cases hsegments
      · rw [hp] at hsegments
        cases hsegments
      · obtain rfl := Except.ok.inj (hsegments.trans hid)
        rw [denoted, hnat]
    | _ :: _ :: _ :: _ :: _ => cases hsegments

theorem overflow_of_denotes {n : Nat} (h : ¬ SumOverflows s) (hn : Denotes s n) (hle : 2 ^ 32 ≤ n) :
    fromStr s = .error (.error .overflow) := by
  obtain ⟨segments, hs, hdenoted⟩ := hn
  unfold denoted at hdenoted
  split at hdenoted
  next s0 s1 =>
    obtain rfl := Option.some.inj hdenoted
    have hlt := lastEight_lt s0 s1
    omega
  next s0 s1 s2 =>
    obtain rfl := Option.some.inj hdenoted
    have hlast := lastEight_lt s1 s2
    rw [fromStr_joined hs (by simp) (by simp)]
    rcases ofSegments_three s0 s1 s2 with ⟨-, ho⟩ | ⟨hlt, hle', -⟩ | ⟨id, -, hnat⟩
    · exact ho
    · exact absurd ⟨s0, s1, s2, hs, by omega, by omega⟩ h
    · have hlt := id.val.toNat_lt
      omega
  next => cases hdenoted

theorem faithfulAt_iff (s : String) : FaithfulAt s ↔ ¬ SumOverflows s := by
  constructor
  · intro hfaithful hover
    exact hfaithful.returns _ (fromStr_of_sumOverflows hover)
  · intro h
    exact ⟨returns_of_not_sumOverflows h, fun _ => denotes_of_fromStr,
      fun _ => overflow_of_denotes h⟩

/-- Display is read back and tells ids apart, and parsing is faithful at exactly
the texts whose parts do not overflow in their sum. -/
theorem seqId_text_faithful (s : String) :
    (∀ id : BitNameSeqId, ∃ text, id.fmt = .ok text ∧ fromStr text = .ok id) ∧
      Function.Injective fmt ∧ (FaithfulAt s ↔ ¬ SumOverflows s) := by
  have hround : ∀ id : BitNameSeqId, ∃ text, id.fmt = .ok text ∧ fromStr text = .ok id := by
    intro id
    obtain ⟨text, hfmt, hdenotes⟩ := fmt_denotes id
    obtain ⟨id', hparse, hnat⟩ := fromStr_of_denotes hdenotes id.val.toNat_lt
    have hid : id' = id := by
      cases id
      cases id'
      exact congrArg mk (UInt32.toNat_inj.mp hnat)
    exact ⟨text, hfmt, hid ▸ hparse⟩
  refine ⟨hround, ?_, faithfulAt_iff s⟩
  intro id id' hsame
  obtain ⟨text, hfmt, hparse⟩ := hround id
  obtain ⟨text', hfmt', hparse'⟩ := hround id'
  obtain rfl : text = text' := Except.ok.inj (hfmt.symm.trans (hsame.trans hfmt'))
  exact Except.ok.inj (hparse.symm.trans hparse')

/-- `0042-1738-0929` denotes 4299999999: the product is 4200000000 and the sum
leaves the range. -/
theorem overflowing_sum_not_faithful :
    Denotes "0042-1738-0929" 4299999999 ∧
      fromStr "0042-1738-0929" = .error (.panic "attempt to add with overflow") ∧
      ¬ FaithfulAt "0042-1738-0929" := by
  have hpanic : fromStr "0042-1738-0929" = .error (.panic "attempt to add with overflow") := by
    decide +kernel
  refine ⟨⟨[⟨'0', '0', '4', '2', by decide⟩, ⟨'1', '7', '3', '8', by decide⟩,
    ⟨'0', '9', '2', '9', by decide⟩], by decide +kernel, by decide +kernel⟩, hpanic, ?_⟩
  intro hfaithful
  exact hfaithful.returns _ hpanic

end BitNameSeqId

end PlainBitnames
