/-
  Operations on a state that return a value or an error.

  The state stays when an operation fails. `bind_eq_ok_iff` and `bind_eq_error_iff` take a sequence
  apart, `bind_of_ok` and `bind_of_error` put one together. `Triple P x Q E`: from a state in `P`,
  `x` ends in `Q` with its value or in `E` with its error; a sequence is followed one operation at
  a time (`Triple.bind`).
-/
import Mathlib.Tactic

abbrev StateOp (σ ε α : Type) := ExceptT ε (StateM σ) α

namespace StateOp

variable {σ ε α β : Type} {x : StateOp σ ε α} {f : α → StateOp σ ε β} {s s' : σ}

theorem bind_of_ok {a : α} (h : x s = (.ok a, s')) : (x >>= f) s = f a s' := by
  change (match x s with | (r, s1) => ExceptT.bindCont f r s1) = _
  rw [h]
  rfl

theorem bind_of_error {e : ε} (h : x s = (.error e, s')) : (x >>= f) s = (.error e, s') := by
  change (match x s with | (r, s1) => ExceptT.bindCont f r s1) = _
  rw [h]
  rfl

theorem bind_eq_ok_iff {b : β} : (x >>= f) s = (.ok b, s') ↔
    ∃ a s1, x s = (.ok a, s1) ∧ f a s1 = (.ok b, s') := by
  constructor
  · intro h
    rcases hx : x s with ⟨r, s1⟩
    cases r with
    | error e =>
      rw [bind_of_error hx] at h
      cases h
    | ok a =>
      rw [bind_of_ok hx] at h
      exact ⟨a, s1, rfl, h⟩
  · rintro ⟨a, s1, hx, h⟩
    rw [bind_of_ok hx, h]

theorem bind_eq_error_iff {e : ε} : (x >>= f) s = (.error e, s') ↔
    x s = (.error e, s') ∨ ∃ a s1, x s = (.ok a, s1) ∧ f a s1 = (.error e, s') := by
  constructor
  · intro h
    rcases hx : x s with ⟨r, s1⟩
    cases r with
    | error e' =>
      rw [bind_of_error hx] at h
      cases h
      exact .inl rfl
    | ok a =>
      rw [bind_of_ok hx] at h
      exact .inr ⟨a, s1, rfl, h⟩
  · rintro (hx | ⟨a, s1, hx, h⟩)
    · exact bind_of_error hx
    · rw [bind_of_ok hx, h]

theorem tryCatch_of_ok {h : ε → StateOp σ ε α} {a : α} (hx : x s = (.ok a, s')) :
    tryCatch x h s = (.ok a, s') := by
  change (match x s with
    | (r, s1) => (match r with
      | .ok a => pure (.ok a)
      | .error e => h e : StateM σ (Except ε α)) s1) = _
  rw [hx]
  rfl

theorem tryCatch_of_error {h : ε → StateOp σ ε α} {e : ε} (hx : x s = (.error e, s')) :
    tryCatch x h s = h e s' := by
  change (match x s with
    | (r, s1) => (match r with
      | .ok a => pure (.ok a)
      | .error e => h e : StateM σ (Except ε α)) s1) = _
  rw [hx]

/-- A handler that only changes the error. -/
theorem tryCatch_throw_eq_ok_iff {g : ε → ε} {a : α} :
    (tryCatch x fun e => throw (g e)) s = (.ok a, s') ↔ x s = (.ok a, s') := by
  rcases hx : x s with ⟨e | a', s1⟩
  · rw [tryCatch_of_error hx]
    exact iff_of_false (fun h => by cases h) fun h => by cases h
  · rw [tryCatch_of_ok hx]

/-- From a state in `P` to the value in `Q` or the error in `E`. -/
def Triple (P : σ → Prop) (x : StateOp σ ε α) (Q : α → σ → Prop) (E : ε → σ → Prop) : Prop :=
  ∀ s, P s → match x s with
    | (.ok a, s') => Q a s'
    | (.error e, s') => E e s'

variable {P P' : σ → Prop} {Q Q' : α → σ → Prop} {R : β → σ → Prop} {E E' : ε → σ → Prop}

namespace Triple

theorem ok (h : Triple P x Q E) {a : α} (hP : P s) (hx : x s = (.ok a, s')) : Q a s' := by
  have := h s hP
  rwa [hx] at this

theorem error (h : Triple P x Q E) {e : ε} (hP : P s) (hx : x s = (.error e, s')) : E e s' := by
  have := h s hP
  rwa [hx] at this

theorem of_cases (hok : ∀ s a s', P s → x s = (.ok a, s') → Q a s')
    (herr : ∀ s e s', P s → x s = (.error e, s') → E e s') : Triple P x Q E := by
  intro s hP
  rcases hx : x s with ⟨r, s'⟩
  cases r with
  | ok a => exact hok s a s' hP hx
  | error e => exact herr s e s' hP hx

theorem bind (hx : Triple P x Q E) (hf : ∀ a, Triple (Q a) (f a) R E) :
    Triple P (x >>= f) R E := by
  intro s hP
  have h := hx s hP
  rcases he : x s with ⟨r, s'⟩
  rw [he] at h
  cases r with
  | ok a =>
    rw [bind_of_ok he]
    exact hf a s' h
  | error e =>
    rw [bind_of_error he]
    exact h

theorem pure (a : α) (h : ∀ s, P s → Q a s) : Triple P (Pure.pure a : StateOp σ ε α) Q E := h

theorem throw (e : ε) (h : ∀ s, P s → E e s) :
    Triple P (MonadExcept.throw e : StateOp σ ε α) Q E := h

theorem modify {g : σ → σ} {Q : PUnit → σ → Prop} (h : ∀ s, P s → Q ⟨⟩ (g s)) :
    Triple P (modify g : StateOp σ ε PUnit) Q E := h

theorem get {Q : σ → σ → Prop} (h : ∀ s, P s → Q s s) :
    Triple P (MonadState.get : StateOp σ ε σ) Q E := h

theorem ite {c : Prop} [Decidable c] {y : StateOp σ ε α} (hx : c → Triple P x Q E)
    (hy : ¬ c → Triple P y Q E) : Triple P (if c then x else y) Q E := by
  split
  · exact hx ‹c›
  · exact hy ‹¬ c›

theorem tryCatch {h : ε → StateOp σ ε α} (hx : Triple P x Q E')
    (hh : ∀ e, Triple (E' e) (h e) Q E) : Triple P (tryCatch x h) Q E := by
  intro s hP
  have hs := hx s hP
  rcases he : x s with ⟨r, s'⟩
  rw [he] at hs
  cases r with
  | ok a =>
    rw [tryCatch_of_ok he]
    exact hs
  | error e =>
    rw [tryCatch_of_error he]
    exact hh e s' hs

theorem weaken (h : Triple P x Q E) (hP : ∀ s, P' s → P s) (hQ : ∀ a s, Q a s → Q' a s)
    (hE : ∀ e s, E e s → E' e s) : Triple P' x Q' E' :=
  of_cases (fun _ _ _ hp hx => hQ _ _ (h.ok (hP _ hp) hx))
    fun _ _ _ hp hx => hE _ _ (h.error (hP _ hp) hx)

end Triple

end StateOp
