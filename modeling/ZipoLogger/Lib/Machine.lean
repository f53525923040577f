/-
  Labelled machines with a partial step function, and their runs.

  `Machine.RunIf M C s t`: a run from `s` to `t` each of whose steps `(u, a)` meets the side
  condition `C u a`. `Machine.Run` is the unconditional case, `Machine.Reach` the runs from the
  initial state. `RunIf.invariant` is the induction every safety proof goes through: what one
  step preserves, a whole run preserves. `exec` and `execIf` run a list of labels, so that a
  concrete run is checked by evaluation (`exec_run`, `execIf_run`).
-/
import Mathlib.Logic.Basic

/-- A labelled machine: an initial state and a partial step function. -/
structure Machine (σ α : Type) where
  init : σ
  step : σ → α → Option σ

namespace Machine

variable {σ α : Type} {M : Machine σ α} {C D : σ → α → Prop} {s t u : σ}

/-- A run from `s` whose steps all meet `C`. -/
inductive RunIf (M : Machine σ α) (C : σ → α → Prop) (s : σ) : σ → Prop
  | refl : RunIf M C s s
  | tail {t u : σ} {a : α} : RunIf M C s t → C t a → M.step t a = some u → RunIf M C s u

/-- A run without a side condition. -/
def Run (M : Machine σ α) : σ → σ → Prop := M.RunIf fun _ _ => True

/-- The states of the runs from the initial state. -/
def Reach (M : Machine σ α) (s : σ) : Prop := M.Run M.init s

/-- The states of the runs from the initial state whose steps all meet `C`. -/
def ReachIf (M : Machine σ α) (C : σ → α → Prop) (s : σ) : Prop := M.RunIf C M.init s

theorem Reach.tail {a : α} (h : M.Reach s) (hs : M.step s a = some t) : M.Reach t :=
  RunIf.tail h trivial hs

theorem RunIf.trans (h₁ : M.RunIf C s t) (h₂ : M.RunIf C t u) : M.RunIf C s u := by
  induction h₂ with
  | refl => exact h₁
  | tail _ hc hs ih => exact .tail ih hc hs

theorem RunIf.mono (hCD : ∀ u a, C u a → D u a) (h : M.RunIf C s t) : M.RunIf D s t := by
  induction h with
  | refl => exact .refl
  | tail _ hc hs ih => exact .tail ih (hCD _ _ hc) hs

theorem ReachIf.reach (h : M.ReachIf C s) : M.Reach s := RunIf.mono (fun _ _ _ => trivial) h

/-- The induction over a run: `P` holds at its first state and one step from a state of the
    run keeps it. -/
theorem RunIf.invariant {P : σ → Prop} (h : M.RunIf C s t) (h0 : P s)
    (hstep : ∀ u a v, M.RunIf C s u → P u → C u a → M.step u a = some v → P v) : P t := by
  induction h with
  | refl => exact h0
  | tail hr hc hs ih => exact hstep _ _ _ hr ih hc hs

/-- `RunIf.invariant` for the reachable states. -/
theorem Reach.invariant {P : σ → Prop} (h : M.Reach s) (h0 : P M.init)
    (hstep : ∀ u a v, M.Reach u → P u → M.step u a = some v → P v) : P s :=
  RunIf.invariant h h0 fun u a v hr hp _ hs => hstep u a v hr hp hs

/-- A relation that is reflexive, transitive and holds across every step holds across a run. -/
theorem RunIf.rel {R : σ → σ → Prop} (h : M.RunIf C s t) (hrefl : ∀ u, R u u)
    (htrans : ∀ u v w, R u v → R v w → R u w)
    (hstep : ∀ u a v, M.step u a = some v → R u v) : R s t :=
  h.invariant (hrefl s) fun u a v _ hp _ hs => htrans _ u v hp (hstep u a v hs)

/-- Run a list of labels. -/
def exec (M : Machine σ α) : σ → List α → Option σ
  | s, [] => some s
  | s, a :: as => (M.step s a).bind fun t => exec M t as

theorem exec_run {as : List α} (h : M.exec s as = some t) : M.Run s t := by
  induction as generalizing s with
  | nil =>
    cases h
    exact .refl
  | cons a as ih =>
    obtain ⟨u, hu, ht⟩ := Option.bind_eq_some_iff.mp h
    exact (RunIf.tail .refl trivial hu).trans (ih ht)

theorem exec_reach {as : List α} (h : M.exec M.init as = some s) : M.Reach s := exec_run h

/-- Run a list of labels as long as every step meets a test. -/
def execIf (M : Machine σ α) (c : σ → α → Bool) : σ → List α → Option σ
  | s, [] => some s
  | s, a :: as => if c s a then (M.step s a).bind fun t => execIf M c t as else none

theorem execIf_run {c : σ → α → Bool} {as : List α} (h : M.execIf c s as = some t) :
    M.RunIf (fun u a => c u a = true) s t := by
  induction as generalizing s with
  | nil =>
    cases h
    exact .refl
  | cons a as ih =>
    unfold execIf at h
    split at h
    · obtain ⟨u, hu, ht⟩ := Option.bind_eq_some_iff.mp h
      exact (RunIf.tail .refl ‹_› hu).trans (ih ht)
    · cases h

end Machine
