import PlainBitnames.Lib.Fallible

/-!
Computations that never stop with an error of some kind, and computations that do
not panic and return only what they should. The rules follow the way computations
are put together, and for a loop ask for an invariant.
-/

namespace Fallible

variable {ε α β : Type} {bad : ε → Prop}

/-- The computation does not stop with a bad error. -/
def Avoids (bad : ε → Prop) (x : Except ε α) : Prop := ∀ ⦃e⦄, x = .error e → ¬ bad e

/-- The failure is an error that is returned to a caller, not a panic. -/
def Failure.IsError {E : Type} : Failure E → Prop
  | .error _ => True
  | .panic _ => False

namespace Avoids

theorem ok (a : α) : Avoids bad (.ok a : Except ε α) := nofun

theorem of_ok {x : Except ε α} (h : ∃ a, x = .ok a) : Avoids bad x := by
  obtain ⟨a, rfl⟩ := h
  exact ok a

theorem error {e : ε} (h : ¬ bad e) : Avoids bad (.error e : Except ε α) := by
  intro e' he
  cases he
  exact h

theorem bind {x : Except ε α} {f : α → Except ε β} (hx : Avoids bad x)
    (hf : ∀ a, x = .ok a → Avoids bad (f a)) : Avoids bad (x >>= f) := by
  intro e he
  rcases bind_eq_error.mp he with he | ⟨a, ha, he⟩
  · exact hx he
  · exact hf a ha he

theorem ensure {c : Prop} [Decidable c] {e : ε} (h : ¬ c → ¬ bad e) :
    Avoids bad (Fallible.ensure c e) := by
  intro e' he
  obtain ⟨hc, rfl⟩ := ensure_eq_error.mp he
  exact h hc

theorem okOr {o : Option α} {e : ε} (h : o = none → ¬ bad e) : Avoids bad (Fallible.okOr o e) := by
  cases o with
  | none => exact error (h rfl)
  | some a => exact ok a

theorem mapFailure {E F : Type} {f : E → F} {bad : Failure E → Prop} {bad' : Failure F → Prop}
    {x : Except (Failure E) α} (h : Avoids bad x) (hbad : ∀ e, bad' (e.map f) → bad e) :
    Avoids bad' (Fallible.mapFailure f x) := by
  cases x with
  | ok a => exact ok a
  | error e => exact error fun he => h rfl (hbad e he)

theorem mapM {γ : Type} {f : γ → Except ε α} {l : List γ} (h : ∀ x ∈ l, Avoids bad (f x)) :
    Avoids bad (l.mapM f) := by
  induction l with
  | nil => exact ok []
  | cons x l ih =>
    obtain ⟨hx, hl⟩ := List.forall_mem_cons.mp h
    rw [List.mapM_cons]
    exact hx.bind fun _ _ => (ih hl).bind fun _ _ => ok _

/-- A loop whose every step avoids bad errors and keeps an invariant. -/
theorem foldlM {γ σ : Type} {P : σ → Prop} {f : σ → γ → Except ε σ} {l : List γ} {s : σ} (hs : P s)
    (hstep : ∀ s, P s → ∀ x ∈ l, Avoids bad (f s x) ∧ ∀ s', f s x = .ok s' → P s') :
    Avoids bad (l.foldlM f s) := by
  induction l generalizing s with
  | nil => exact ok s
  | cons x l ih =>
    rw [List.foldlM_cons]
    obtain ⟨hx, hnext⟩ := hstep s hs x List.mem_cons_self
    exact hx.bind fun s' hs' =>
      ih (hnext s' hs') fun s hs x hx => hstep s hs x (List.mem_cons_of_mem _ hx)

end Avoids

/-- The computation does not panic, and what it returns satisfies `Q`. -/
def Meets {E : Type} (Q : α → Prop) (x : Except (Failure E) α) : Prop :=
  (∀ message, x ≠ .error (.panic message)) ∧ ∀ a, x = .ok a → Q a

namespace Meets

variable {E : Type} {P : α → Prop} {Q : β → Prop}

theorem ok {a : α} (h : P a) : Meets (E := E) P (.ok a) := by
  constructor
  · intro message hpanic
    cases hpanic
  · intro a' ha
    cases ha
    exact h

theorem error (e : E) : Meets P (.error (.error e) : Except (Failure E) α) := by
  constructor
  · intro message hpanic
    cases hpanic
  · intro a ha
    cases ha

variable {x : Except (Failure E) α}

theorem bind {f : α → Except (Failure E) β} (hx : Meets P x) (hf : ∀ a, P a → Meets Q (f a)) :
    Meets Q (x >>= f) := by
  match x, hx with
  | .ok a, hx => exact hf a (hx.2 a rfl)
  | .error (.error e), _ => exact error e
  | .error (.panic message), hx => exact absurd rfl (hx.1 message)

theorem okOr {o : Option α} {e : E} (h : ∀ a, o = some a → P a) :
    Meets P (Fallible.okOr o (.error e)) := by
  cases o with
  | none => exact error e
  | some a => exact ok (h a rfl)

theorem ensure {c : Prop} [Decidable c] {e : E} :
    Meets (fun _ => c) (Fallible.ensure c (.error e) : Except (Failure E) Unit) := by
  by_cases hc : c
  · rw [ensure_of hc]
    exact ok hc
  · rw [Fallible.ensure, if_neg hc]
    exact error e

theorem imp {P' : α → Prop} (hx : Meets P x) (h : ∀ a, P a → P' a) : Meets P' x :=
  ⟨hx.1, fun a ha => h a (hx.2 a ha)⟩

theorem mapFailure {F : Type} (f : E → F) (hx : Meets P x) : Meets P (Fallible.mapFailure f x) := by
  match x, hx with
  | .ok a, hx => exact ok (hx.2 a rfl)
  | .error (.error e), _ => exact error (f e)
  | .error (.panic message), hx => exact absurd rfl (hx.1 message)

/-- Items and results are related. -/
theorem mapM {γ : Type} {R : γ → α → Prop} {f : γ → Except (Failure E) α} {l : List γ}
    (h : ∀ x ∈ l, Meets (R x) (f x)) :
    Meets (fun as => (∀ x ∈ l, ∃ a ∈ as, R x a) ∧ ∀ a ∈ as, ∃ x ∈ l, R x a) (l.mapM f) := by
  induction l with
  | nil =>
    rw [List.mapM_nil]
    exact ok (by simp)
  | cons x l ih =>
    obtain ⟨hx, hl⟩ := List.forall_mem_cons.mp h
    rw [List.mapM_cons]
    refine hx.bind fun a ha => (ih hl).bind fun as has => ok ⟨?_, ?_⟩
    · rw [List.forall_mem_cons]
      refine ⟨⟨a, List.mem_cons_self, ha⟩, fun y hy => ?_⟩
      obtain ⟨b, hb, hR⟩ := has.1 y hy
      exact ⟨b, List.mem_cons_of_mem a hb, hR⟩
    · rw [List.forall_mem_cons]
      refine ⟨⟨x, List.mem_cons_self, ha⟩, fun b hb => ?_⟩
      obtain ⟨y, hy, hR⟩ := has.2 b hb
      exact ⟨y, List.mem_cons_of_mem x hy, hR⟩

theorem findM? {γ : Type} {p : γ → Except (Failure E) Bool} {l : List γ}
    (h : ∀ x ∈ l, Meets (fun _ => True) (p x)) :
    Meets (fun found => ∀ x, found = some x → x ∈ l) (l.findM? p) := by
  induction l with
  | nil =>
    refine ok ?_
    intro x hx
    cases hx
  | cons x l ih =>
    obtain ⟨hx, hl⟩ := List.forall_mem_cons.mp h
    rw [List.findM?]
    refine hx.bind fun found _ => ?_
    cases found with
    | true =>
      refine ok ?_
      intro y hy
      cases hy
      exact List.mem_cons_self
    | false => exact (ih hl).imp fun found hfound y hy => List.mem_cons_of_mem x (hfound y hy)

theorem filterM {γ : Type} {p : γ → Except (Failure E) Bool} {l : List γ}
    (h : ∀ x ∈ l, Meets (fun _ => True) (p x)) : Meets (fun _ => True) (l.filterM p) := by
  have haux : ∀ acc, Meets (fun _ => True) (l.filterAuxM p acc) := by
    induction l with
    | nil => exact fun acc => ok trivial
    | cons x l ih =>
      obtain ⟨hx, hl⟩ := List.forall_mem_cons.mp h
      exact fun acc => hx.bind fun _ _ => ih hl _
  exact (haux []).bind fun _ _ => ok trivial

end Meets

end Fallible
