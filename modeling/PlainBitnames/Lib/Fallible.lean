import Mathlib.Data.List.Forall2
import Mathlib.Tactic

/-!
Computations that may stop with an error, as `Except`. A guard that returns
early is `ensure`, a lookup that must succeed is `okOr`, and a loop that
threads a state is `List.foldlM`. The lemmas invert a successful computation
into the facts it has checked, and package the two inductions every loop
needs: an invariant of the state, and an invariant of the state together with
the part of the list already consumed.
-/

namespace Fallible

variable {ε α β : Type}

/-- Continue only if `c` holds; otherwise stop with `e`. -/
def ensure (c : Prop) [Decidable c] (e : ε) : Except ε Unit :=
  if c then .ok () else .error e

/-- The value of an option that is expected to be present. -/
def okOr (x : Option α) (e : ε) : Except ε α :=
  match x with
  | some a => .ok a
  | none => .error e

variable {e : ε}

theorem ensure_eq_ok {c : Prop} [Decidable c] {u : Unit} : ensure c e = .ok u ↔ c := by
  unfold ensure
  split <;> simp_all

theorem ensure_of {c : Prop} [Decidable c] (h : c) : ensure c e = .ok () := by
  simp [ensure, h]

theorem okOr_eq_ok {x : Option α} {a : α} : okOr x e = .ok a ↔ x = some a := by
  cases x <;> simp [okOr]

@[simp] theorem okOr_some (a : α) : okOr (some a) e = .ok a := rfl

variable {x : Except ε α}

theorem bind_eq_ok {f : α → Except ε β} {b : β} :
    (x >>= f) = .ok b ↔ ∃ a, x = .ok a ∧ f a = .ok b := by
  cases x <;> simp [bind, Except.bind]

@[simp] theorem ok_bind (a : α) (f : α → Except ε β) :
    ((Except.ok a : Except ε α) >>= f) = f a := rfl

theorem ensure_bind_eq_ok {c : Prop} [Decidable c] {f : Unit → Except ε β} {b : β} :
    (ensure c e >>= f) = .ok b ↔ c ∧ f () = .ok b := by
  rw [bind_eq_ok]
  constructor
  · rintro ⟨u, hc, hf⟩
    exact ⟨ensure_eq_ok.mp hc, hf⟩
  · rintro ⟨hc, hf⟩
    exact ⟨(), ensure_of hc, hf⟩

theorem bind_eq_error {f : α → Except ε β} :
    (x >>= f) = .error e ↔ x = .error e ∨ ∃ a, x = .ok a ∧ f a = .error e := by
  cases x <;> simp [bind, Except.bind]

theorem ensure_eq_error {c : Prop} [Decidable c] {e' : ε} :
    ensure c e = .error e' ↔ ¬ c ∧ e = e' := by
  unfold ensure
  split <;> simp_all

theorem pure_eq_ok {a b : α} : (pure a : Except ε α) = .ok b ↔ a = b := by
  simp [pure, Except.pure]

theorem mapError_eq_ok {δ : Type} {f : ε → δ} {a : α} : x.mapError f = .ok a ↔ x = .ok a := by
  cases x <;> simp [Except.mapError]

/-- How a computation stops early: with an error it returns to its caller, or
with a panic. -/
inductive Failure (E : Type) where
  | error (e : E)
  | panic (message : String)
deriving DecidableEq

/-- A failure passed on to a caller with its own error type. -/
def Failure.map {E F : Type} (f : E → F) : Failure E → Failure F
  | .error e => .error (f e)
  | .panic message => .panic message

/-- Pass failures on to a caller with its own error type. -/
def mapFailure {E F : Type} (f : E → F) (x : Except (Failure E) α) : Except (Failure F) α :=
  x.mapError (Failure.map f)

theorem mapFailure_eq_ok {E F : Type} {f : E → F} {x : Except (Failure E) α} {a : α} :
    mapFailure f x = .ok a ↔ x = .ok a :=
  mapError_eq_ok

section Loops

variable {γ σ τ : Type} {f : σ → γ → Except ε σ} {l : List γ}

theorem foldlM_cons_eq_ok {x : γ} {s t : σ} :
    (x :: l).foldlM f s = .ok t ↔ ∃ m, f s x = .ok m ∧ l.foldlM f m = .ok t := by
  rw [List.foldlM_cons, bind_eq_ok]

theorem foldlM_append_eq_ok {l' : List γ} {s t : σ} :
    (l ++ l').foldlM f s = .ok t ↔
      ∃ m, l.foldlM f s = .ok m ∧ l'.foldlM f m = .ok t := by
  rw [List.foldlM_append, bind_eq_ok]

@[simp] theorem foldlM_nil_eq_ok {s t : σ} :
    ([] : List γ).foldlM f s = .ok t ↔ s = t := by
  simp [pure_eq_ok]

/-- What holds of the state together with the consumed part of the list. -/
theorem foldlM_history {P : List γ → σ → Prop} {s t : σ} (hinit : P [] s)
    (hstep : ∀ done x m m', x ∈ l → P done m → f m x = .ok m' →
      P (done ++ [x]) m') (h : l.foldlM f s = .ok t) : P l t := by
  induction l using List.reverseRecOn generalizing t with
  | nil =>
    obtain rfl := foldlM_nil_eq_ok.mp h
    exact hinit
  | append_singleton l x ih =>
    obtain ⟨m, hm, hlast⟩ := foldlM_append_eq_ok.mp h
    obtain ⟨m', hx, hend⟩ := foldlM_cons_eq_ok.mp hlast
    obtain rfl := foldlM_nil_eq_ok.mp hend
    refine hstep l x m m' (by simp) (ih ?_ hm) hx
    intro done y k k' hy
    exact hstep done y k k' (by simp [hy])

/-- What every step preserves holds at the end of the loop. -/
theorem foldlM_invariant {P : σ → Prop} {s t : σ} (hinit : P s)
    (hstep : ∀ x m m', x ∈ l → P m → f m x = .ok m' → P m') (h : l.foldlM f s = .ok t) : P t :=
  foldlM_history (P := fun _ => P) hinit
    (fun _ x m m' hx hm hf => hstep x m m' hx hm hf) h

/-- A loop succeeds when every step does. -/
theorem exists_foldlM (hstep : ∀ x ∈ l, ∀ s, ∃ t, f s x = .ok t) (s : σ) :
    ∃ t, l.foldlM f s = .ok t := by
  induction l generalizing s with
  | nil => exact ⟨s, rfl⟩
  | cons x l ih =>
    obtain ⟨hx, hl⟩ := List.forall_mem_cons.mp hstep
    obtain ⟨m, hm⟩ := hx s
    obtain ⟨t, ht⟩ := ih hl m
    exact ⟨t, foldlM_cons_eq_ok.mpr ⟨m, hm, ht⟩⟩

/-- What every error of a step satisfies is satisfied by every error of the loop. -/
theorem foldlM_error {P : ε → Prop} (hstep : ∀ x m e, f m x = .error e → P e) {s : σ} {e : ε}
    (h : l.foldlM f s = .error e) : P e := by
  induction l generalizing s with
  | nil => cases h
  | cons x l ih =>
    rw [List.foldlM_cons] at h
    rcases bind_eq_error.mp h with hx | ⟨m, -, hrest⟩
    · exact hstep x s e hx
    · exact ih hrest

end Loops

theorem mapM_eq_ok {γ : Type} {f : γ → Except ε β} {l : List γ} {r : List β} :
    l.mapM f = .ok r ↔ List.Forall₂ (fun a b => f a = .ok b) l r := by
  induction l generalizing r with
  | nil =>
    rw [List.mapM_nil, pure_eq_ok, List.forall₂_nil_left_iff]
    exact eq_comm
  | cons a l ih =>
    simp only [List.mapM_cons, bind_eq_ok, pure_eq_ok, ih]
    constructor
    · rintro ⟨b, hb, bs, hbs, rfl⟩
      exact .cons hb hbs
    · rintro (_ | ⟨hb, hbs⟩)
      exact ⟨_, hb, _, hbs, rfl⟩

theorem exists_of_mapM_eq_error {γ : Type} {f : γ → Except ε β} {l : List γ}
    (h : l.mapM f = .error e) : ∃ x ∈ l, f x = .error e := by
  induction l with
  | nil => cases h
  | cons x l ih =>
    rw [List.mapM_cons] at h
    rcases bind_eq_error.mp h with h | ⟨_, -, h⟩
    · exact ⟨x, List.mem_cons_self, h⟩
    · rcases bind_eq_error.mp h with h | ⟨_, -, h⟩
      · obtain ⟨y, hy, herr⟩ := ih h
        exact ⟨y, List.mem_cons_of_mem x hy, herr⟩
      · cases h

end Fallible
