import Mathlib.Logic.Relation

/-!
Removal with a worklist. When an element is removed, the elements that depend on it
enter the queue. When the queue is empty, the elements that were removed are those that
depend on the first one, directly or through others.
-/

/-- What was removed, and the queue, after the removal of some elements. -/
structure Cascade {K : Type} (edge : K → K → Prop) (first : K) (removed : K → Prop)
    (queue : List K) : Prop where
  reached : ∀ x, removed x ∨ x ∈ queue → Relation.ReflTransGen edge first x
  entered : removed first ∨ first ∈ queue
  closed : ∀ x y, removed x → edge x y → removed y ∨ y ∈ queue

namespace Cascade

variable {K : Type} {edge : K → K → Prop} {first x : K} {removed removed' : K → Prop}
  {queue : List K}

theorem start (hremoved : ∀ y, ¬ removed y) : Cascade edge first removed [first] where
  reached y hy := by
    rcases hy with hy | hy
    · exact absurd hy (hremoved y)
    · rw [List.mem_singleton.mp hy]
  entered := .inr (List.mem_singleton_self first)
  closed y _ hy := absurd hy (hremoved y)

/-- An element of the queue that was removed already is skipped. -/
theorem skip (h : Cascade edge first removed (x :: queue)) (hx : removed x) :
    Cascade edge first removed queue := by
  have hcons : ∀ {y}, removed y ∨ y ∈ x :: queue → removed y ∨ y ∈ queue := by
    rintro y (hy | hy)
    · exact .inl hy
    · rcases List.mem_cons.mp hy with rfl | hy
      · exact .inl hx
      · exact .inr hy
  exact ⟨fun y hy => h.reached y (hy.imp_right (List.mem_cons_of_mem x)), hcons h.entered,
    fun y z hy hedge => hcons (h.closed y z hy hedge)⟩

/-- An element of the queue is removed, and the elements that depend on it and are not
removed yet enter the queue. -/
theorem remove (h : Cascade edge first removed (x :: queue)) {children : List K}
    (hremoved : ∀ y, removed' y ↔ removed y ∨ y = x) (hchildren : ∀ y ∈ children, edge x y)
    (hall : ∀ y, edge x y → removed' y ∨ y ∈ children) :
    Cascade edge first removed' (queue ++ children) := by
  have hx := h.reached x (.inr List.mem_cons_self)
  have hcons : ∀ {y}, removed y ∨ y ∈ x :: queue → removed' y ∨ y ∈ queue ++ children := by
    rintro y (hy | hy)
    · exact .inl ((hremoved y).mpr (.inl hy))
    · rcases List.mem_cons.mp hy with rfl | hy
      · exact .inl ((hremoved y).mpr (.inr rfl))
      · exact .inr (List.mem_append_left _ hy)
  refine ⟨fun y hy => ?_, hcons h.entered, fun y z hy hedge => ?_⟩
  · rw [hremoved, List.mem_append] at hy
    rcases hy with (hy | rfl) | hy | hy
    · exact h.reached y (.inl hy)
    · exact hx
    · exact h.reached y (.inr (List.mem_cons_of_mem x hy))
    · exact hx.tail (hchildren y hy)
  · rcases (hremoved y).mp hy with hy | rfl
    · exact hcons (h.closed y z hy hedge)
    · exact (hall z hedge).imp_right (List.mem_append_right queue)

/-- At the end everything that depends on the first element was removed, and nothing
else. -/
theorem removed_iff (h : Cascade edge first removed []) {y : K} :
    removed y ↔ Relation.ReflTransGen edge first y := by
  have hqueue : ∀ {z}, removed z ∨ z ∈ [] → removed z := fun hz =>
    hz.resolve_right List.not_mem_nil
  refine ⟨fun hy => h.reached y (.inl hy), fun hy => ?_⟩
  induction hy with
  | refl => exact hqueue h.entered
  | tail _ hedge ih => exact hqueue (h.closed _ _ ih hedge)

end Cascade
