import Mathlib.Data.List.Nodup
import PlainBitnames.Lib.Segment

/-!
Traversals of the descendants of a block with a queue. A block enters the queue
when its parent is visited, so that no block enters it twice. The queue is empty
after as many visits as there are blocks.
-/

namespace Lineage

variable {K : Type} {parent : K → Option K} {height : K → Option Nat}

/-- The blocks that were visited, and those in the queue. -/
structure Traversal (parent : K → Option K) (b : K) (visited queue : List K) : Prop where
  nodup : (visited ++ queue).Nodup
  descends : ∀ x ∈ visited ++ queue, Descends parent b x
  entered : ∀ x ∈ visited ++ queue, x = b ∨ ∃ p ∈ visited, parent x = some p

namespace Traversal

variable {b x : K} {visited queue : List K}

theorem start (b : K) : Traversal parent b [] [b] where
  nodup := List.nodup_singleton b
  descends x hx := by
    rw [List.mem_singleton.mp hx]
    exact .refl b
  entered x hx := .inl (List.mem_singleton.mp hx)

/-- A block is visited, and some of its children enter the queue. -/
theorem visit (hr : Rooted parent height) (hb : ∃ h, height b = some h)
    (h : Traversal parent b visited (x :: queue)) {children : List K} (hnodup : children.Nodup)
    (hchildren : ∀ y ∈ children, parent y = some x) :
    Traversal parent b (visited ++ [x]) (queue ++ children) := by
  have hmem : ∀ y, y ∈ visited ++ [x] ++ (queue ++ children) →
      y ∈ visited ++ x :: queue ∨ y ∈ children := by
    intro y hy
    simp only [List.mem_append, List.mem_cons] at hy ⊢
    tauto
  have hx : x ∈ visited ++ x :: queue := List.mem_append_right _ List.mem_cons_self
  -- a child that was there before entered it when `x` was visited, or is the first block
  have hnew : ∀ y ∈ visited ++ x :: queue, y ∉ children := by
    intro y hy hchild
    have hparent := hchildren y hchild
    rcases h.entered y hy with rfl | ⟨p, hp, hyp⟩
    · exact hr.not_upTo_parent hb ⟨x, hparent, h.descends x hx⟩
    · cases hparent.symm.trans hyp
      exact (List.nodup_append.mp h.nodup).2.2 x hp x List.mem_cons_self rfl
  refine ⟨?_, fun y hy => ?_, fun y hy => ?_⟩
  · have hold : (visited ++ [x] ++ queue).Nodup := by
      rw [List.append_assoc]
      exact h.nodup
    rw [← List.append_assoc, List.nodup_append]
    refine ⟨hold, hnodup, ?_⟩
    rintro y hy z hz rfl
    rw [List.append_assoc] at hy
    exact hnew y hy hz
  · rcases hmem y hy with hy | hy
    · exact h.descends y hy
    · exact (h.descends x hx).trans (.of_parent (hchildren y hy))
  · rcases hmem y hy with hy | hy
    · refine (h.entered y hy).imp_right ?_
      rintro ⟨p, hp, hyp⟩
      exact ⟨p, List.mem_append_left _ hp, hyp⟩
    · exact .inr ⟨x, List.mem_append_right _ (List.mem_singleton.mpr rfl), hchildren y hy⟩

theorem length_le (h : Traversal parent b visited queue) {blocks : List K}
    (hblocks : ∀ x ∈ visited ++ queue, x ∈ blocks) :
    visited.length + queue.length ≤ blocks.length := by
  rw [← List.length_append]
  exact (h.nodup.subperm hblocks).length_le

end Traversal

end Lineage
