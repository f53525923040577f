/-
  Items kept in cells that are overwritten.

  A write replaces what one cell holds and counts one item as stored. `Kept` says that every
  item counted so far stands in some cell. After a run a cell holds what the last write to it
  has put there, or what it held before if there was none (`run_last`, `run_untouched`), so an
  item stands in a cell exactly when it outlasts the writes (`stored_run_iff`). When no write
  holds the item of another one, the items are kept all along a run exactly when every write
  holds its own and no cell is written twice (`kept_iff_of_unrelated`).
-/
import Mathlib.Data.List.Induction
import Mathlib.Data.List.Pairwise
import Mathlib.Logic.Function.Basic

namespace Overwrite

/-- The new contents of a cell, and the item the write counts as stored. -/
structure Write (κ ν α : Type) where
  cell : κ
  value : ν
  item : α

structure Store (κ ν α : Type) where
  cells : κ → Option ν
  /-- the items counted as stored -/
  items : List α := []

variable {κ ν α : Type} [DecidableEq κ]

namespace Store

def write (s : Store κ ν α) (w : Write κ ν α) : Store κ ν α where
  cells := Function.update s.cells w.cell (some w.value)
  items := s.items ++ [w.item]

theorem write_cells (s : Store κ ν α) (w : Write κ ν α) (k : κ) :
    (s.write w).cells k = if k = w.cell then some w.value else s.cells k :=
  Function.update_apply ..

/-- A step that writes, or does nothing. -/
def step (s : Store κ ν α) : Option (Write κ ν α) → Store κ ν α
  | none => s
  | some w => s.write w

def run (s : Store κ ν α) (ws : List (Option (Write κ ν α))) : Store κ ν α := ws.foldl step s

theorem run_append (s : Store κ ν α) (ws ws' : List (Option (Write κ ν α))) :
    s.run (ws ++ ws') = (s.run ws).run ws' := List.foldl_append

theorem run_items (s : Store κ ν α) (ws : List (Option (Write κ ν α))) :
    (s.run ws).items = s.items ++ ws.filterMap (Option.map Write.item) := by
  induction ws generalizing s with
  | nil => simp [run]
  | cons x ws ih =>
    change ((s.step x).run ws).items = _
    rw [ih]
    cases x <;> simp [step, write]

/-! ## What a cell holds -/

variable {s : Store κ ν α} {us vs ws : List (Option (Write κ ν α))} {w : Write κ ν α} {k : κ}

theorem run_untouched (h : ∀ w, some w ∈ ws → w.cell ≠ k) : (s.run ws).cells k = s.cells k := by
  induction ws generalizing s with
  | nil => rfl
  | cons x ws ih =>
    change ((s.step x).run ws).cells k = _
    rw [ih fun w hw => h w (List.mem_cons_of_mem _ hw)]
    rcases x with _ | w
    · rfl
    · rw [step, write_cells, if_neg (h w List.mem_cons_self).symm]

theorem run_last (h : ∀ w', some w' ∈ vs → w'.cell ≠ w.cell) :
    (s.run (us ++ some w :: vs)).cells w.cell = some w.value := by
  rw [run_append]
  change (((s.run us).step (some w)).run vs).cells w.cell = _
  rw [run_untouched h, step, write_cells, if_pos rfl]

/-- A cell that is written has a last write. -/
theorem exists_last (ws : List (Option (Write κ ν α))) (k : κ) :
    (∀ w, some w ∈ ws → w.cell ≠ k) ∨
    ∃ us w vs, ws = us ++ some w :: vs ∧ w.cell = k ∧ ∀ w', some w' ∈ vs → w'.cell ≠ k := by
  induction ws with
  | nil => exact .inl fun w hw => (List.not_mem_nil hw).elim
  | cons x ws ih =>
    rcases ih with hnone | ⟨us, w, vs, rfl, hw, hlast⟩
    · by_cases hx : ∃ w, x = some w ∧ w.cell = k
      · obtain ⟨w, rfl, hw⟩ := hx
        exact .inr ⟨[], w, ws, rfl, hw, hnone⟩
      · refine .inl fun w hw hk => ?_
        rcases List.mem_cons.mp hw with rfl | hw
        · exact hx ⟨w, rfl, hk⟩
        · exact hnone w hw hk
    · exact .inr ⟨x :: us, w, vs, rfl, hw, hlast⟩

/-! ## Keeping the items -/

section Kept

variable (region : κ → Prop) (holds : ν → α → Prop)

/-- An item stands in a cell of the region. -/
def Stored (s : Store κ ν α) (a : α) : Prop :=
  ∃ k v, region k ∧ s.cells k = some v ∧ holds v a

def Kept (s : Store κ ν α) : Prop := ∀ a ∈ s.items, s.Stored region holds a

/-- The last write to some cell holds the item, or a cell of the region that is never written. -/
inductive Outlasts (s : Store κ ν α) (ws : List (Option (Write κ ν α))) (a : α) : Prop
  | written {us vs : List (Option (Write κ ν α))} {w : Write κ ν α} : ws = us ++ some w :: vs →
      (∀ w', some w' ∈ vs → w'.cell ≠ w.cell) → holds w.value a → Outlasts s ws a
  | untouched {k : κ} {v : ν} : region k → s.cells k = some v →
      (∀ w, some w ∈ ws → w.cell ≠ k) → holds v a → Outlasts s ws a

variable {region holds} {a : α}

theorem stored_run_iff (hR : ∀ w, some w ∈ ws → region w.cell) :
    (s.run ws).Stored region holds a ↔ s.Outlasts region holds ws a := by
  constructor
  · rintro ⟨k, v, hk, hv, ha⟩
    rcases exists_last ws k with hnone | ⟨us, w, vs, rfl, rfl, hlast⟩
    · rw [run_untouched hnone] at hv
      exact .untouched hk hv hnone ha
    · rw [run_last hlast] at hv
      cases hv
      exact .written rfl hlast ha
  · intro h
    cases h with
    | @written us vs w hws hlast ha =>
      subst hws
      exact ⟨w.cell, w.value, hR w (by simp), run_last hlast, ha⟩
    | @untouched k v hk hv hnone ha => exact ⟨k, v, hk, (run_untouched hnone).trans hv, ha⟩

theorem kept_run_iff (hs : s.items = []) (hR : ∀ w, some w ∈ ws → region w.cell) :
    (s.run ws).Kept region holds ↔
      ∀ w, some w ∈ ws → s.Outlasts region holds ws w.item := by
  simp only [Kept, run_items, hs, List.nil_append, List.mem_filterMap, Option.map_eq_some_iff,
    stored_run_iff hR]
  constructor
  · exact fun h w hw => h _ ⟨_, hw, w, rfl, rfl⟩
  · rintro h a ⟨x, hx, w, rfl, rfl⟩
    exact h w hx

/-- Every write holds its item, and no cell is written twice. -/
structure Separate (holds : ν → α → Prop) (ws : List (Option (Write κ ν α))) : Prop where
  whole : ∀ w, some w ∈ ws → holds w.value w.item
  distinct : ws.Pairwise fun x y => ∀ w ∈ x, ∀ w' ∈ y, w'.cell ≠ w.cell

/-- No write holds the item of another one, nor does a cell at the start. -/
structure Unrelated (region : κ → Prop) (holds : ν → α → Prop) (s : Store κ ν α)
    (ws : List (Option (Write κ ν α))) : Prop where
  writes : ws.Pairwise fun x y => ∀ w ∈ x, ∀ w' ∈ y,
    ¬ holds w.value w'.item ∧ ¬ holds w'.value w.item
  cells : ∀ w, some w ∈ ws → ∀ k v, region k → s.cells k = some v → ¬ holds v w.item

omit [DecidableEq κ] in
theorem Separate.prefix_left (h : Separate holds (us ++ vs)) : Separate holds us where
  whole w hw := h.whole w (List.mem_append_left _ hw)
  distinct := (List.pairwise_append.mp h.distinct).1

omit [DecidableEq κ] in
theorem Unrelated.prefix_left (h : Unrelated region holds s (us ++ vs)) :
    Unrelated region holds s us where
  writes := (List.pairwise_append.mp h.writes).1
  cells w hw := h.cells w (List.mem_append_left _ hw)

theorem kept_of_separate (hs : s.items = []) (hR : ∀ w, some w ∈ ws → region w.cell)
    (h : Separate holds ws) : (s.run ws).Kept region holds := by
  refine (kept_run_iff hs hR).mpr fun w hw => ?_
  obtain ⟨us, vs, rfl⟩ := List.append_of_mem hw
  refine .written rfl (fun w' hw' => ?_) (h.whole w hw)
  have hlater := List.rel_of_pairwise_cons (List.pairwise_append.mp h.distinct).2.1 hw'
  exact hlater w rfl w' rfl

theorem split_cases {β : Type} {us vs us' vs' : List β} {x y : β}
    (h : us ++ x :: vs = us' ++ y :: vs') : (x = y ∧ vs = vs') ∨ y ∈ us ∨ y ∈ vs := by
  rcases List.append_eq_append_iff.mp h with ⟨zs, rfl, hz⟩ | ⟨zs, rfl, hz⟩
  · rcases zs with _ | ⟨z, zs⟩
    · cases hz
      exact .inl ⟨rfl, rfl⟩
    · cases hz
      exact .inr (.inr (by simp))
  · rcases zs with _ | ⟨z, zs⟩
    · cases hz
      exact .inl ⟨rfl, rfl⟩
    · cases hz
      exact .inr (.inl (by simp))

omit [DecidableEq κ] in
/-- Among unrelated writes only its own can keep an item. -/
theorem Unrelated.own (h : Unrelated region holds s (us ++ some w :: vs))
    (ho : s.Outlasts region holds (us ++ some w :: vs) w.item) :
    holds w.value w.item ∧ ∀ w', some w' ∈ vs → w'.cell ≠ w.cell := by
  obtain ⟨-, hw, hcross⟩ := List.pairwise_append.mp h.writes
  cases ho with
  | @written us' vs' w' hsplit hlast ha =>
    rcases split_cases hsplit with ⟨heq, rfl⟩ | hmem | hmem
    · cases heq
      exact ⟨ha, hlast⟩
    · exact absurd ha (hcross _ hmem _ List.mem_cons_self w' rfl w rfl).1
    · exact absurd ha (List.rel_of_pairwise_cons hw hmem w rfl w' rfl).2
  | @untouched k v hk hv _ ha => exact absurd ha (h.cells w (by simp) k v hk hv)

theorem pairwise_of_split {β : Type} {R : β → β → Prop} {l : List β}
    (h : ∀ us x vs y vs', l = us ++ x :: vs ++ y :: vs' → R x y) : l.Pairwise R := by
  induction l with
  | nil => exact List.Pairwise.nil
  | cons x l ih =>
    refine List.pairwise_cons.mpr ⟨fun y hy => ?_, ih fun us z vs y vs' hl => ?_⟩
    · obtain ⟨vs, vs', rfl⟩ := List.append_of_mem hy
      exact h [] x vs y vs' rfl
    · exact h (x :: us) z vs y vs' (by rw [hl]; rfl)

/-- Unrelated items are kept all along a run exactly when the writes are separate. -/
theorem kept_iff_of_unrelated (hs : s.items = []) (hR : ∀ w, some w ∈ ws → region w.cell)
    (hun : Unrelated region holds s ws) :
    (∀ us vs, ws = us ++ vs → (s.run us).Kept region holds) ↔ Separate holds ws := by
  constructor
  · intro h
    have hown : ∀ us w vs vs', ws = us ++ some w :: vs ++ vs' →
        holds w.value w.item ∧ ∀ w', some w' ∈ vs → w'.cell ≠ w.cell := by
      rintro us w vs vs' rfl
      have hkept := h _ vs' rfl
      rw [kept_run_iff hs fun w hw => hR w (List.mem_append_left _ hw)] at hkept
      exact hun.prefix_left.own (hkept w (by simp))
    refine ⟨fun w hw => ?_, pairwise_of_split ?_⟩
    · obtain ⟨us, vs, rfl⟩ := List.append_of_mem hw
      exact (hown us w [] vs (by simp)).1
    · rintro us x vs y vs' hl w rfl w' rfl
      exact (hown us w (vs ++ [some w']) vs' (by simp [hl])).2 w' (by simp)
  · rintro h us vs rfl
    exact kept_of_separate hs (fun w hw => hR w (List.mem_append_left _ hw)) h.prefix_left

end Kept

end Store

end Overwrite
