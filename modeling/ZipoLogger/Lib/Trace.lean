/-
  Runs with their states and labels, addressed by the number of steps taken.

  A `Trace` of `n` steps starts in the initial state. `state i` is the state after `i` steps and
  `action i` the label of the step from there, so "between two moments of the run" is a range of
  indices. `Trace.along` is the induction from one moment to a later one, `Trace.back` to an
  earlier one; `exec_labels` follows a run with some of its steps left out, `tally` counts the
  steps of a range that pass a test. `ofExec` makes the trace of a list of labels.
-/
import ZipoLogger.Lib.Machine
import Mathlib.Tactic

namespace Machine

variable {σ α : Type} {M : Machine σ α}

theorem exec_append {s : σ} {as bs : List α} :
    M.exec s (as ++ bs) = (M.exec s as).bind fun t => M.exec t bs := by
  induction as generalizing s with
  | nil => rfl
  | cons a as ih =>
    rw [List.cons_append, exec, exec, Option.bind_assoc]
    exact congrArg _ (funext fun t => ih)

structure Trace (M : Machine σ α) (n : Nat) where
  state : Nat → σ
  action : Nat → α
  start : state 0 = M.init
  step : ∀ i < n, M.step (state i) (action i) = some (state (i + 1))

namespace Trace

variable {n i j k : Nat} (T : M.Trace n)

/-- The induction from a moment of the run to a later one. -/
theorem along {P : Nat → Prop} (hij : i ≤ j) (hj : j ≤ n) (h0 : P i)
    (hstep : ∀ k, i ≤ k → k < j → M.step (T.state k) (T.action k) = some (T.state (k + 1)) →
      P k → P (k + 1)) : P j := by
  induction j, hij using Nat.le_induction with
  | base => exact h0
  | succ j hij ih =>
    refine hstep j hij (Nat.lt_succ_self j) (T.step j hj) (ih (Nat.le_of_succ_le hj) ?_)
    exact fun k hk hkj => hstep k hk (Nat.lt_succ_of_lt hkj)

/-- The induction from a moment of the run back to an earlier one. -/
theorem back {P : Nat → Prop} (hij : i ≤ j) (hj : j ≤ n) (h0 : P j)
    (hstep : ∀ k, i ≤ k → k < j → M.step (T.state k) (T.action k) = some (T.state (k + 1)) →
      P (k + 1) → P k) : P i := by
  refine Nat.decreasingInduction' (fun k hkj hik ih => ?_) hij h0
  exact hstep k hik hkj (T.step k (Nat.lt_of_lt_of_le hkj hj)) ih

/-- A cell that nothing but the events `E` assign: at a later moment it holds what it held, or
    what an event between the two has put there. -/
theorem cell {β : Type} {f : σ → β} {E : β → Nat → Prop}
    (hstep : ∀ k < n, f (T.state (k + 1)) = f (T.state k) ∨ E (f (T.state (k + 1))) k)
    (hij : i ≤ j) (hj : j ≤ n) :
    f (T.state j) = f (T.state i) ∨ ∃ k, i ≤ k ∧ k < j ∧ E (f (T.state j)) k := by
  refine T.along (P := fun m => f (T.state m) = f (T.state i) ∨
    ∃ k, i ≤ k ∧ k < m ∧ E (f (T.state m)) k) hij hj (.inl rfl) fun m him hm _ ih => ?_
  rcases hstep m (hm.trans_le hj) with hsame | hset
  · rw [hsame]
    exact ih.imp_right fun ⟨k, hik, hkm, hk⟩ => ⟨k, hik, Nat.lt_succ_of_lt hkm, hk⟩
  · exact .inr ⟨m, him, Nat.lt_succ_self m, hset⟩

theorem runIf {C : σ → α → Prop} (hij : i ≤ j) (hj : j ≤ n)
    (hC : ∀ k, i ≤ k → k < j → C (T.state k) (T.action k)) :
    M.RunIf C (T.state i) (T.state j) :=
  T.along (P := fun k => M.RunIf C (T.state i) (T.state k)) hij hj .refl
    fun k hk hkj hs hr => .tail hr (hC k hk hkj) hs

theorem run (hij : i ≤ j) (hj : j ≤ n) : M.Run (T.state i) (T.state j) :=
  T.runIf hij hj fun _ _ _ => trivial

theorem reach (hi : i ≤ n) : M.Reach (T.state i) := by
  have h := T.run (Nat.zero_le i) hi
  rwa [T.start] at h

/-! ## Another run with some of the steps -/

/-- The labels of the kept ones among the first `i` steps. -/
def labels (keep : Nat → Bool) (i : Nat) : List α :=
  ((List.range i).filter keep).map T.action

theorem labels_succ (keep : Nat → Bool) (i : Nat) :
    T.labels keep (i + 1) = T.labels keep i ++ if keep i then [T.action i] else [] := by
  rw [labels, List.range_succ, List.filter_append, List.map_append]
  cases h : keep i <;> simp [h, labels]

/-- A second run that follows the kept steps and stands still at the others. -/
theorem exec_labels {keep : Nat → Bool} {R : Nat → σ → Prop} (h0 : R 0 M.init)
    (hkeep : ∀ k < n, keep k = true → ∀ v, R k v →
      ∃ w, M.step v (T.action k) = some w ∧ R (k + 1) w)
    (hskip : ∀ k < n, keep k = false → ∀ v, R k v → R (k + 1) v) :
    ∃ v, M.exec M.init (T.labels keep n) = some v ∧ R n v := by
  refine T.along (P := fun k => ∃ v, M.exec M.init (T.labels keep k) = some v ∧ R k v)
    (Nat.zero_le n) le_rfl ⟨M.init, rfl, h0⟩ ?_
  rintro k - hk - ⟨v, hv, hR⟩
  rw [T.labels_succ, exec_append, hv, Option.bind_some]
  cases hkept : keep k with
  | true =>
    obtain ⟨w, hw, hR'⟩ := hkeep k hk hkept v hR
    exact ⟨w, by simp [exec, hw], hR'⟩
  | false => exact ⟨v, by simp [exec], hskip k hk hkept v hR⟩

/-! ## Counting -/

/-- The steps between two moments that pass a test. -/
def tally (p : σ → α → Bool) (i j : Nat) : Nat :=
  (List.range' i (j - i)).countP fun k => p (T.state k) (T.action k)

@[simp] theorem tally_self (p : σ → α → Bool) : T.tally p i i = 0 := by simp [tally]

theorem tally_succ (p : σ → α → Bool) (hij : i ≤ j) :
    T.tally p i (j + 1) = T.tally p i j + (p (T.state j) (T.action j)).toNat := by
  have hlen : j + 1 - i = (j - i) + 1 := by omega
  have hlast : i + 1 * (j - i) = j := by omega
  rw [tally, hlen, List.range'_concat, hlast, List.countP_append, List.countP_singleton]
  cases p (T.state j) (T.action j) <;> rfl

end Trace

/-- The trace of a list of labels. -/
def Trace.ofExec [Inhabited α] (as : List α) (h : (M.exec M.init as).isSome) :
    M.Trace as.length where
  state i := (M.exec M.init (as.take i)).getD M.init
  action i := as.getD i default
  start := rfl
  step i hi := by
    have hsplit : as.take i ++ as[i] :: as.drop (i + 1) = as := by
      rw [List.cons_getElem_drop_succ, List.take_append_drop]
    have hlabel : as.getD i default = as[i] := by simp [hi]
    rw [← hsplit, exec_append] at h
    rcases hu : M.exec M.init (as.take i) with _ | u
    · rw [hu] at h
      cases h
    · rw [hu, Option.bind_some, exec] at h
      rcases hv : M.step u as[i] with _ | v
      · rw [hv] at h
        cases h
      · rw [List.take_succ_eq_append_getElem hi, exec_append, hu, hlabel]
        simp [exec, hv]

theorem Trace.ofExec_end [Inhabited α] (as : List α) (h : (M.exec M.init as).isSome) :
    (Trace.ofExec as h).state as.length = (M.exec M.init as).get h := by
  change (M.exec M.init (as.take as.length)).getD M.init = _
  rw [List.take_length, ← Option.get_eq_getD]

end Machine
