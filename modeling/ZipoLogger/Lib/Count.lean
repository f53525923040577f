/-
  Counting the elements of a list by a predicate, by position.

  A pool of goroutines is a list that one step changes at one position: `countP_set_add` says
  what the change does to a count, `sum_map_set_add` what it does to a sum of weights
  (`sum_range_update` for a pool that is a function), and `countP_eq_one_iff` that a count of one
  is a single position.
-/
import Mathlib.Tactic

namespace List

variable {α : Type} {p : α → Bool}

theorem countP_set_add {xs : List α} {i : Nat} {x : α} (h : xs[i]? = some x) (y : α) :
    (xs.set i y).countP p + (p x).toNat = xs.countP p + (p y).toNat := by
  obtain ⟨hi, rfl⟩ := List.getElem?_eq_some_iff.mp h
  have hpos : p xs[i] = true → 0 < xs.countP p := fun hp =>
    List.countP_pos_iff.mpr ⟨_, List.getElem_mem hi, hp⟩
  rw [List.countP_set hi]
  cases hx : p xs[i] <;> cases hy : p y <;> simp
  all_goals
    have := hpos hx
    omega

theorem sum_map_set_add {f : α → Nat} {xs : List α} {i : Nat} {x : α} (h : xs[i]? = some x)
    (y : α) : ((xs.set i y).map f).sum + f x = (xs.map f).sum + f y := by
  induction xs generalizing i with
  | nil => cases h
  | cons z zs ih =>
    cases i with
    | zero =>
      cases h
      simp only [List.set_cons_zero, List.map_cons, List.sum_cons]
      omega
    | succ i =>
      have hzs := ih (i := i) h
      simp only [List.set_cons_succ, List.map_cons, List.sum_cons]
      omega

theorem countP_eq_one_iff {xs : List α} :
    xs.countP p = 1 ↔ ∃! i : Nat, ∃ x, xs[i]? = some x ∧ p x = true := by
  induction xs with
  | nil => simp [ExistsUnique]
  | cons y ys ih =>
    cases hy : p y
    case false =>
      rw [List.countP_cons_of_neg (by simp [hy]), ih]
      constructor
      · rintro ⟨i, ⟨x, hx, hp⟩, huniq⟩
        refine ⟨i + 1, ⟨x, hx, hp⟩, ?_⟩
        rintro (_ | j) ⟨x', hx', hp'⟩
        · cases hx'
          simp [hy] at hp'
        · rw [huniq j ⟨x', hx', hp'⟩]
      · rintro ⟨_ | i, ⟨x, hx, hp⟩, huniq⟩
        · cases hx
          simp [hy] at hp
        · exact ⟨i, ⟨x, hx, hp⟩, fun j ⟨x', hx', hp'⟩ =>
            Nat.succ.inj (huniq (j + 1) ⟨x', hx', hp'⟩)⟩
    case true =>
      rw [List.countP_cons_of_pos hy, Nat.add_eq_right, List.countP_eq_zero]
      constructor
      · intro hnone
        refine ⟨0, ⟨y, rfl, hy⟩, ?_⟩
        rintro (_ | j) ⟨x, hx, hp⟩
        · rfl
        · exact absurd hp (hnone x (List.mem_of_getElem? (i := j) hx))
      · rintro ⟨i, -, huniq⟩ x hx hp
        obtain ⟨j, hj⟩ := List.mem_iff_getElem?.mp hx
        have h0 := huniq 0 ⟨y, rfl, hy⟩
        have h1 := huniq (j + 1) ⟨x, hj, hp⟩
        omega

end List

theorem Finset.sum_range_update {β : Type} (f : β → Nat) (p : Nat → β) {n i : Nat} (h : i < n)
    (x : β) : ∑ j ∈ range n, f (Function.update p i x j) + f (p i) =
      ∑ j ∈ range n, f (p j) + f x := by
  have hmem : i ∈ range n := mem_range.mpr h
  have hrest : ∑ j ∈ (range n).erase i, f (Function.update p i x j) =
      ∑ j ∈ (range n).erase i, f (p j) :=
    sum_congr rfl fun j hj => by rw [Function.update_of_ne (ne_of_mem_erase hj)]
  rw [← add_sum_erase _ _ hmem, ← add_sum_erase (range n) (fun j => f (p j)) hmem, hrest,
    Function.update_self]
  omega
