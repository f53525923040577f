/-
  Machines whose steps of one kind lower a measure.

  `M.Lowers C μ` says that every step that meets `C` makes `μ` smaller. Then runs of such steps
  are no longer than `μ` of the state they start in (`Lowers.length_le`), and from every state
  such steps lead to one where none is left (`Lowers.exists_stuck`).
-/
import ZipoLogger.Lib.Machine
import Mathlib.Tactic

namespace Machine

variable {σ α : Type} {M : Machine σ α} {C D : σ → α → Prop} {μ : σ → Nat} {s t : σ}

/-- Every step that meets `C` lowers `μ`. -/
def Lowers (M : Machine σ α) (C : σ → α → Prop) (μ : σ → Nat) : Prop :=
  ∀ s a t, C s a → M.step s a = some t → μ t < μ s

/-- No step that meets `C` is possible. -/
def Stuck (M : Machine σ α) (C : σ → α → Prop) (s : σ) : Prop :=
  ∀ a, C s a → M.step s a = none

theorem Lowers.mono (h : M.Lowers D μ) (hCD : ∀ s a, C s a → D s a) : M.Lowers C μ :=
  fun s a t hc hs => h s a t (hCD s a hc) hs

/-- What a list of such steps leaves of the measure. -/
theorem Lowers.length_add_le {c : σ → α → Bool} (h : M.Lowers (fun s a => c s a = true) μ)
    {as : List α} (hrun : M.execIf c s as = some t) : as.length + μ t ≤ μ s := by
  induction as generalizing s with
  | nil =>
    cases hrun
    exact (Nat.zero_add _).le
  | cons a as ih =>
    unfold execIf at hrun
    split at hrun
    · obtain ⟨u, hu, ht⟩ := Option.bind_eq_some_iff.mp hrun
      have hlt := h s a u ‹_› hu
      have hle := ih ht
      rw [List.length_cons]
      omega
    · cases hrun

theorem Lowers.length_le {c : σ → α → Bool} (h : M.Lowers (fun s a => c s a = true) μ)
    {as : List α} (hrun : M.execIf c s as = some t) : as.length ≤ μ s :=
  (Nat.le_add_right _ _).trans (h.length_add_le hrun)

/-- From every state such steps lead to one where none is left. -/
theorem Lowers.exists_stuck (h : M.Lowers C μ) (s : σ) : ∃ t, M.RunIf C s t ∧ M.Stuck C t := by
  induction hn : μ s using Nat.strong_induction_on generalizing s with
  | _ n ih =>
    subst hn
    by_cases hstuck : M.Stuck C s
    · exact ⟨s, .refl, hstuck⟩
    · simp only [Stuck, not_forall] at hstuck
      obtain ⟨a, hc, hs⟩ := hstuck
      obtain ⟨u, hu⟩ := Option.ne_none_iff_exists'.mp hs
      obtain ⟨t, hrun, ht⟩ := ih (μ u) (h s a u hc hu) u rfl
      exact ⟨t, (RunIf.tail .refl hc hu).trans hrun, ht⟩

end Machine
