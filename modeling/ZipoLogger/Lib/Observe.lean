/-
  What an observer sees of the runs of a machine, and refinement.

  `Observed M obs s τ`: some run leads to `s` while the observer records the events `τ`, the
  events of a step being read off its two states and its label. A specification is a machine whose
  labels are the events: `τ` is allowed when it can be executed. `Observed.refines` is the forward
  simulation: when every step is answered by the events the observer records of it, every recorded
  sequence is allowed.
-/
import ZipoLogger.Lib.Trace

namespace Machine

variable {σ α ρ ε : Type} {M : Machine σ α} {N : Machine ρ ε} {obs : σ → α → σ → List ε}

/-- A run to `s` of which the observer has recorded `τ`. -/
inductive Observed (M : Machine σ α) (obs : σ → α → σ → List ε) : σ → List ε → Prop
  | init : Observed M obs M.init []
  | step {s t : σ} {a : α} {τ : List ε} : Observed M obs s τ → M.step s a = some t →
      Observed M obs t (τ ++ obs s a t)

theorem Observed.reach {s : σ} {τ : List ε} (h : Observed M obs s τ) : M.Reach s := by
  induction h with
  | init => exact .refl
  | step _ hs ih => exact ih.tail hs

/-- The forward simulation along a relation between the states. -/
theorem Observed.refines {R : σ → ρ → Prop} (h0 : R M.init N.init)
    (hstep : ∀ s a t r, M.Reach s → R s r → M.step s a = some t →
      ∃ r', N.exec r (obs s a t) = some r' ∧ R t r')
    {s : σ} {τ : List ε} (h : Observed M obs s τ) : ∃ r, N.exec N.init τ = some r ∧ R s r := by
  induction h with
  | init => exact ⟨N.init, rfl, h0⟩
  | step hrun hs ih =>
    obtain ⟨r, hr, hR⟩ := ih
    obtain ⟨r', hr', hR'⟩ := hstep _ _ _ r hrun.reach hR hs
    exact ⟨r', by rw [exec_append, hr, Option.bind_some, hr'], hR'⟩

/-- The run a list of labels makes and what is recorded of it. -/
def record (M : Machine σ α) (obs : σ → α → σ → List ε) : σ → List α → Option (σ × List ε)
  | s, [] => some (s, [])
  | s, a :: as =>
    (M.step s a).bind fun t => (record M obs t as).map fun r => (r.1, obs s a t ++ r.2)

theorem Observed.record {s : σ} {τ τ' : List ε} (h : Observed M obs s τ) (as : List α)
    (hr : (M.record obs s as).map Prod.snd = some τ') : ∃ t, Observed M obs t (τ ++ τ') := by
  induction as generalizing s τ τ' with
  | nil =>
    cases hr
    exact ⟨s, by rwa [List.append_nil]⟩
  | cons a as ih =>
    rw [Machine.record, Option.map_bind] at hr
    obtain ⟨u, hu, hr⟩ := Option.bind_eq_some_iff.mp hr
    rw [Function.comp_apply, Option.map_map] at hr
    obtain ⟨⟨v, τ''⟩, hrec, rfl⟩ := Option.map_eq_some_iff.mp hr
    rw [Function.comp_apply, ← List.append_assoc]
    exact ih (h.step hu) (by rw [hrec]; rfl)

end Machine
