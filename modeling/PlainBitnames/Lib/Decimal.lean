import Mathlib.Data.Nat.Digits.Defs
import Mathlib.Tactic

/-!
Decimal texts of fixed width: a number written with leading zeros, and the
number that a string of digits denotes.
-/

namespace Decimal

/-- What is said of the members of a list is checked for these only. -/
instance decidableForallMem (l : List Char) (p : Char → Prop) [DecidablePred p] :
    Decidable (∀ c ∈ l, p c) :=
  List.decidableBAll p l

/-- The decimal digits of a number, filled up with zeros to a width. -/
def zeroPad (w n : Nat) : List Char :=
  List.replicate (w - (Nat.toDigits 10 n).length) '0' ++ Nat.toDigits 10 n

/-- The number that a string of digits denotes. -/
def number (digits : List Char) : Nat := Nat.ofDigitChars 10 digits 0

theorem number_zeros (k : Nat) : number (List.replicate k '0') = 0 := by
  induction k with
  | zero => rfl
  | succ k ih =>
    rw [List.replicate_succ, number, Nat.ofDigitChars_cons]
    exact ih

theorem number_zeroPad (w n : Nat) : number (zeroPad w n) = n := by
  have hzeros := number_zeros (w - (Nat.toDigits 10 n).length)
  rw [number] at hzeros
  rw [number, zeroPad, Nat.ofDigitChars_append, hzeros,
    Nat.ofDigitChars_toDigits (by decide) (by decide)]

theorem length_zeroPad {w n : Nat} (hw : 0 < w) (hn : n < 10 ^ w) : (zeroPad w n).length = w := by
  have hlength := Nat.toDigits_length 10 n w hw hn
  rw [zeroPad, List.length_append, List.length_replicate]
  omega

theorem isDigit_zeroPad {w n : Nat} {c : Char} (h : c ∈ zeroPad w n) : c.isDigit = true := by
  rcases List.mem_append.mp h with h | h
  · rw [List.eq_of_mem_replicate h]
    decide
  · exact Nat.isDigit_of_mem_toDigits (by decide) (by decide) h

theorem number_append_singleton (digits : List Char) (c : Char) :
    number (digits ++ [c]) = 10 * number digits + (c.toNat - '0'.toNat) := by
  rw [number, Nat.ofDigitChars_append]
  rfl

theorem toNat_sub_lt {c : Char} (h : c.isDigit = true) : c.toNat - '0'.toNat < 10 := by
  have hle : c.val ≤ 57 := by
    simp only [Char.isDigit, Bool.and_eq_true, decide_eq_true_eq] at h
    exact h.2
  have hnat : c.toNat ≤ 57 := UInt32.le_iff_toNat_le.mp hle
  have hzero : '0'.toNat = 48 := rfl
  omega

theorem number_lt {digits : List Char} (h : ∀ c ∈ digits, c.isDigit = true) :
    number digits < 10 ^ digits.length := by
  induction digits using List.reverseRecOn with
  | nil => decide
  | append_singleton digits c ih =>
    have hlt := ih fun c' hc' => h c' (List.mem_append_left _ hc')
    have hc := toNat_sub_lt (h c (by simp))
    rw [number_append_singleton, List.length_append, List.length_singleton, pow_succ]
    omega

end Decimal
