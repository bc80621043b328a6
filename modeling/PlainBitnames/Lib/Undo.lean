import PlainBitnames.Lib.Avoids

/-!
Undoing a loop. If every step can be taken back with a relation between the states of the
two directions kept, then taking back the steps of a loop last to first keeps it as well.
-/

namespace Fallible

variable {ε ε' γ δ σ τ : Type} {f : σ → γ → Except ε σ} {g : τ → δ → Except ε' τ} {key : γ → δ}
  {P : List γ → σ → Prop} {R : List γ → σ → τ → Prop}

/-- `P` holds of the remaining part of the list when a step is made, and `R` relates a state
of the loop to one of the undoing when the steps from there on have been undone. -/
theorem foldlM_undo (hforward : ∀ x l s s', P (x :: l) s → f s x = .ok s' → P l s')
    (hundo : ∀ x l s s' t t', P (x :: l) s → f s x = .ok s' → R l s' t →
      g t (key x) = .ok t' → R (x :: l) s t')
    {l : List γ} {s s' : σ} {t t' : τ} (hl : P l s) (h : l.foldlM f s = .ok s') (ht : R [] s' t)
    (h' : (l.map key).reverse.foldlM g t = .ok t') : R l s t' := by
  induction l generalizing s t' with
  | nil =>
    cases foldlM_nil_eq_ok.mp h
    cases foldlM_nil_eq_ok.mp h'
    exact ht
  | cons x l ih =>
    obtain ⟨m, hx, hrest⟩ := foldlM_cons_eq_ok.mp h
    rw [List.map_cons, List.reverse_cons] at h'
    obtain ⟨n, hn, hlast⟩ := foldlM_append_eq_ok.mp h'
    obtain ⟨_, hlast, hend⟩ := foldlM_cons_eq_ok.mp hlast
    cases foldlM_nil_eq_ok.mp hend
    exact hundo x l s m n _ hl hx (ih (hforward x l s m hl hx) hrest hn) hlast

/-- Under the same conditions, a loop whose steps are undone without bad errors is. -/
theorem avoids_foldlM_undo {bad : ε' → Prop}
    (hforward : ∀ x l s s', P (x :: l) s → f s x = .ok s' → P l s')
    (hundo : ∀ x l s s' t t', P (x :: l) s → f s x = .ok s' → R l s' t →
      g t (key x) = .ok t' → R (x :: l) s t')
    (havoids : ∀ x l s s' t, P (x :: l) s → f s x = .ok s' → R l s' t → Avoids bad (g t (key x)))
    {l : List γ} {s s' : σ} {t : τ} (hl : P l s) (h : l.foldlM f s = .ok s') (ht : R [] s' t) :
    Avoids bad ((l.map key).reverse.foldlM g t) := by
  induction l generalizing s with
  | nil => exact .ok t
  | cons x l ih =>
    obtain ⟨m, hx, hrest⟩ := foldlM_cons_eq_ok.mp h
    have hm := hforward x l s m hl hx
    rw [List.map_cons, List.reverse_cons, List.foldlM_append]
    refine (ih hm hrest).bind fun n hn => ?_
    have hR := foldlM_undo hforward hundo hm hrest ht hn
    rw [List.foldlM_cons]
    exact (havoids x l s m n hl hx hR).bind fun t' _ => .ok t'

end Fallible
