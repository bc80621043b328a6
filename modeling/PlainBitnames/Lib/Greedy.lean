import Mathlib.Algebra.BigOperators.Group.List.Basic
import Mathlib.Data.List.Perm.Basic
import Mathlib.Tactic

/-!
Orders that a program does not fix, and greedy selection. An unstable sort gives
some arrangement of its input in ascending order of a key, and the iteration of a
hash map some arrangement of its entries; both are functions of which no more is
known. Taking items until a target is met takes no more than is needed: without
its heaviest item the selection misses the target.
-/

/-- Any arrangement of a list. -/
structure Shuffle (α : Type) where
  run : List α → List α
  perm : ∀ l, (run l).Perm l

/-- Any arrangement of a list in ascending order of a key. -/
structure UnstableSort {α : Type} (key : α → Nat) where
  run : List α → List α
  perm : ∀ l, (run l).Perm l
  sorted : ∀ l, (run l).Pairwise (key · ≤ key ·)

namespace Greedy

variable {α : Type} (weight : α → Nat)

/-- The weight of a list. -/
def total (l : List α) : Nat := (l.map weight).sum

@[simp] theorem total_nil : total weight ([] : List α) = 0 := rfl

@[simp] theorem total_cons (x : α) (l : List α) :
    total weight (x :: l) = weight x + total weight l := rfl

variable {weight} {l : List α}

theorem total_perm {l' : List α} (h : l.Perm l') : total weight l = total weight l' :=
  (h.map weight).sum_nat

theorem total_sublist {l' : List α} (h : l.Sublist l') : total weight l ≤ total weight l' :=
  (h.map weight).sum_le_sum (fun _ _ => Nat.zero_le _)

theorem weight_le_total {x : α} (h : x ∈ l) : weight x ≤ total weight l :=
  List.single_le_sum (fun _ _ => Nat.zero_le _) _ (List.mem_map_of_mem h)

variable (weight)

/-- Take items from the front until the target is met, `sum` being what there is
already. -/
def takeUntil (target : Nat) : Nat → List α → List α
  | _, [] => []
  | sum, x :: l => if target ≤ sum then [] else x :: takeUntil target (sum + weight x) l

variable {weight}

theorem takeUntil_prefix (target sum : Nat) (l : List α) : takeUntil weight target sum l <+: l := by
  induction l generalizing sum with
  | nil => exact List.prefix_rfl
  | cons x l ih =>
    rw [takeUntil]
    split
    · exact List.nil_prefix
    · exact List.prefix_cons_inj x |>.mpr (ih _)

/-- The target is met if it can be. -/
theorem target_le_takeUntil {target sum : Nat} (h : target ≤ sum + total weight l) :
    target ≤ sum + total weight (takeUntil weight target sum l) := by
  induction l generalizing sum with
  | nil => exact h
  | cons x l ih =>
    rw [takeUntil]
    split
    · omega
    · rw [total_cons] at h ⊢
      have hrest : target ≤
          sum + weight x + total weight (takeUntil weight target (sum + weight x) l) :=
        ih (by omega)
      omega

/-- The target was not met before the last item, which is no heavier than the
heaviest one. -/
theorem takeUntil_minimal {target sum bound : Nat} (hne : takeUntil weight target sum l ≠ [])
    (hbound : ∀ x ∈ takeUntil weight target sum l, weight x ≤ bound) :
    sum + total weight (takeUntil weight target sum l) < target + bound := by
  induction l generalizing sum with
  | nil => exact absurd rfl hne
  | cons x l ih =>
    rw [takeUntil] at hne hbound ⊢
    split at hne
    · exact absurd rfl hne
    · next hlt =>
      rw [if_neg hlt] at hbound ⊢
      obtain ⟨hx, hrest⟩ := List.forall_mem_cons.mp hbound
      rw [total_cons]
      by_cases hnil : takeUntil weight target (sum + weight x) l = []
      · rw [hnil, total_nil]
        omega
      · have := ih hnil hrest
        omega

end Greedy
