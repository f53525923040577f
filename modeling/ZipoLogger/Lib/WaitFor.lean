/-
  Wait-for relations with a rank.

  `r a b` says that `a` waits for `b`. When everything waits only for what ranks lower, the
  relation has no cycle (`acyclic`), and when whoever is busy can move or waits for somebody busy,
  the chain from anybody busy ends with one that can move (`progress`).
-/
import Mathlib.Logic.Relation
import Mathlib.Tactic

namespace WaitFor

open Relation

variable {τ : Type} {r : τ → τ → Prop} {rank : τ → Nat}

theorem rank_lt (hrank : ∀ a b, r a b → rank b < rank a) {a b : τ} (h : TransGen r a b) :
    rank b < rank a := by
  induction h with
  | single hab => exact hrank _ _ hab
  | tail _ hbc ih => exact (hrank _ _ hbc).trans ih

theorem acyclic (hrank : ∀ a b, r a b → rank b < rank a) (a : τ) : ¬ TransGen r a a :=
  fun h => lt_irrefl _ (rank_lt hrank h)

theorem progress (hrank : ∀ a b, r a b → rank b < rank a) {busy moves : τ → Prop}
    (hstep : ∀ a, busy a → moves a ∨ ∃ b, r a b ∧ busy b) {a : τ} (ha : busy a) :
    ∃ b, ReflTransGen r a b ∧ busy b ∧ moves b := by
  induction hn : rank a using Nat.strong_induction_on generalizing a with
  | _ n ih =>
    subst hn
    rcases hstep a ha with hmoves | ⟨b, hab, hb⟩
    · exact ⟨a, .refl, ha, hmoves⟩
    · obtain ⟨c, hbc, hc⟩ := ih (rank b) (hrank a b hab) hb rfl
      exact ⟨c, .head hab hbc, hc⟩

end WaitFor
