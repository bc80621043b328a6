import Mathlib.Algebra.BigOperators.Group.List.Basic
import Mathlib.Tactic

/-!
Checked arithmetic on 64-bit unsigned integers. An operation that would leave
the range has no result, so every result is the one of the natural numbers.
-/

namespace Checked

/-- `checked_add`. -/
def add? (a b : UInt64) : Option UInt64 :=
  if a.toNat + b.toNat < 2 ^ 64 then some (a + b) else none

/-- `checked_sub`. -/
def sub? (a b : UInt64) : Option UInt64 :=
  if b.toNat ≤ a.toNat then some (a - b) else none

/-- The checked sum of a list, from the left. -/
def sum? (l : List UInt64) : Option UInt64 := l.foldlM add? 0

theorem add?_eq_some {a b c : UInt64} :
    add? a b = some c ↔ a.toNat + b.toNat = c.toNat := by
  have hc := c.toNat_lt
  unfold add?
  split
  · next h =>
      rw [Option.some.injEq, ← UInt64.toNat_inj, UInt64.toNat_add, Nat.mod_eq_of_lt h]
  · next h =>
      constructor
      · intro h'
        cases h'
      · intro h'
        omega

theorem sub?_eq_some {a b c : UInt64} :
    sub? a b = some c ↔ a.toNat = b.toNat + c.toNat := by
  unfold sub?
  split
  · next h =>
      rw [Option.some.injEq, ← UInt64.toNat_inj, UInt64.toNat_sub_of_le _ _
        (UInt64.le_iff_toNat_le.mpr h)]
      omega
  · next h =>
      constructor
      · intro h'
        cases h'
      · intro h'
        omega

private theorem foldlM_add?_eq_some {l : List UInt64} {a s : UInt64} :
    l.foldlM add? a = some s ↔ a.toNat + (l.map UInt64.toNat).sum = s.toNat := by
  induction l generalizing a with
  | nil => simp [UInt64.toNat_inj]
  | cons x l ih =>
    rw [List.foldlM_cons, List.map_cons, List.sum_cons]
    constructor
    · intro h
      obtain ⟨b, hb, htail⟩ := Option.bind_eq_some_iff.mp h
      have hstep := add?_eq_some.mp hb
      have hrest := ih.mp htail
      omega
    · intro h
      have hs := s.toNat_lt
      have hlt : a.toNat + x.toNat < 2 ^ 64 := by omega
      have hx : add? a x = some (a + x) := if_pos hlt
      have hstep := add?_eq_some.mp hx
      exact Option.bind_eq_some_iff.mpr ⟨a + x, hx, ih.mpr (by omega)⟩

theorem sum?_eq_some {l : List UInt64} {s : UInt64} :
    sum? l = some s ↔ (l.map UInt64.toNat).sum = s.toNat := by
  rw [sum?, foldlM_add?_eq_some]
  simp

end Checked
