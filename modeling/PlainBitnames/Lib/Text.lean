import Mathlib.Data.List.TakeWhile
import Mathlib.Tactic

/-!
Texts as lists of characters: splitting at the last separator, and lower-case
hexadecimal digits.
-/

namespace Text

/-- The text before and behind the last `c`. -/
def rsplitOnce (c : Char) (text : List Char) : Option (List Char × List Char) :=
  match text.reverse.span (· != c) with
  | (_, []) => none
  | (behind, _ :: before) => some (before.reverse, behind.reverse)

theorem rsplitOnce_append {c : Char} {before behind : List Char} (h : c ∉ behind) :
    rsplitOnce c (before ++ c :: behind) = some (before, behind) := by
  have hspan : (before ++ c :: behind).reverse.span (· != c) =
      (behind.reverse, c :: before.reverse) := by
    rw [List.span_eq_takeWhile_dropWhile, List.reverse_append, List.reverse_cons,
      List.append_assoc, List.singleton_append]
    have hall : ∀ x ∈ behind.reverse, (x != c) = true := by
      intro x hx
      rw [bne_iff_ne]
      rintro rfl
      exact h (List.mem_reverse.mp hx)
    rw [List.takeWhile_append_of_pos hall, List.dropWhile_append_of_pos hall]
    simp
  rw [rsplitOnce, hspan]
  simp

theorem eq_of_rsplitOnce {c : Char} {text before behind : List Char}
    (h : rsplitOnce c text = some (before, behind)) :
    text = before ++ c :: behind ∧ c ∉ behind := by
  have hsplit := List.takeWhile_append_dropWhile (p := (· != c)) (l := text.reverse)
  have hstop := List.head?_dropWhile_not (· != c) text.reverse
  have hnot : c ∉ text.reverse.takeWhile (· != c) := by
    intro hmem
    have := List.mem_takeWhile_imp hmem
    simp at this
  rw [rsplitOnce, List.span_eq_takeWhile_dropWhile] at h
  split at h
  next => cases h
  next behind' stop before' heq =>
    obtain ⟨htake, hdrop⟩ := Prod.mk.inj heq
    cases h
    rw [hdrop] at hstop hsplit
    rw [htake] at hsplit hnot
    obtain rfl : stop = c := by simpa using hstop
    refine ⟨?_, fun hmem => hnot (List.mem_reverse.mp hmem)⟩
    rw [← List.reverse_inj, ← hsplit]
    simp

/-- Two digits for every byte. -/
def hexEncode (bytes : List UInt8) : List Char :=
  bytes.flatMap fun byte => [Nat.digitChar (byte.toNat / 16), Nat.digitChar (byte.toNat % 16)]

/-- A lower-case hexadecimal digit. -/
def IsHex (c : Char) : Prop := ∃ n < 16, c = Nat.digitChar n

theorem hexEncode_cons (byte : UInt8) (bytes : List UInt8) :
    hexEncode (byte :: bytes) =
      Nat.digitChar (byte.toNat / 16) :: Nat.digitChar (byte.toNat % 16) :: hexEncode bytes := rfl

theorem isHex_of_mem {bytes : List UInt8} {c : Char} (h : c ∈ hexEncode bytes) : IsHex c := by
  obtain ⟨byte, -, hc⟩ := List.mem_flatMap.mp h
  have hbyte := byte.toNat_lt
  simp only [List.mem_cons, List.not_mem_nil, or_false] at hc
  rcases hc with rfl | rfl
  · exact ⟨_, by omega, rfl⟩
  · exact ⟨_, by omega, rfl⟩

theorem IsHex.toLower_eq {c : Char} (h : IsHex c) : c.toLower = c := by
  obtain ⟨n, hn, rfl⟩ := h
  interval_cases n <;> decide

theorem IsHex.toNat_lt {c : Char} (h : IsHex c) : c.toNat < 128 := by
  obtain ⟨n, hn, rfl⟩ := h
  interval_cases n <;> decide

theorem not_isHex_underscore : ¬ IsHex '_' := by
  rintro ⟨n, hn, h⟩
  interval_cases n <;> exact absurd h (by decide)

theorem map_toLower_of_isHex {text : List Char} (h : ∀ c ∈ text, IsHex c) :
    text.map Char.toLower = text := by
  rw [List.map_congr_left fun c hc => (h c hc).toLower_eq, List.map_id']

theorem hexEncode_take (bytes : List UInt8) (k : Nat) :
    hexEncode (bytes.take k) = (hexEncode bytes).take (2 * k) := by
  induction bytes generalizing k with
  | nil => simp [hexEncode]
  | cons byte bytes ih =>
    cases k with
    | zero => rfl
    | succ k =>
      rw [List.take_succ_cons, hexEncode_cons, hexEncode_cons, ih, Nat.mul_succ]
      rfl

theorem length_hexEncode (bytes : List UInt8) : (hexEncode bytes).length = 2 * bytes.length := by
  induction bytes with
  | nil => rfl
  | cons byte bytes ih =>
    rw [hexEncode_cons, List.length_cons, List.length_cons, ih, List.length_cons]
    omega

end Text
