/-
  A list of named values written as one text, with the names left out that repeat.

  An item is `name colon digits`; items after the first stand behind `arrow`, and the name is
  left out when it equals the one before. A `Format` says what makes this readable: the digits
  are a class of characters of their own, an arrow does not begin with a digit. When names are not
  empty and do not contain the colon, the text determines the list (`chain_injective`). Names may
  contain the arrow and digits.
-/
import Mathlib.Tactic

/-- How values are written and what stands between the parts. -/
structure Format (α ν : Type) where
  colon : α
  arrow : List α
  digits : ν → List α
  isDigit : α → Bool
  digits_ne_nil : ∀ v, digits v ≠ []
  isDigit_digits : ∀ v, ∀ c ∈ digits v, isDigit c
  digits_injective : Function.Injective digits
  arrow_head : ∃ c r, arrow = c :: r ∧ isDigit c = false

namespace Format

variable {α ν : Type}

/-! ## Splitting -/

/-- Two texts that begin with characters of a class and go on outside of it split alike. -/
theorem span_eq {p : α → Bool} {xs xs' ys ys' : List α} (hx : ∀ c ∈ xs, p c)
    (hx' : ∀ c ∈ xs', p c) (hy : ∀ c ∈ ys.head?, p c = false) (hy' : ∀ c ∈ ys'.head?, p c = false)
    (h : xs ++ ys = xs' ++ ys') : xs = xs' ∧ ys = ys' := by
  have take : ∀ {us vs : List α}, (∀ c ∈ us, p c) → (∀ c ∈ vs.head?, p c = false) →
      (us ++ vs).takeWhile p = us := by
    intro us vs hu hv
    rw [List.takeWhile_append_of_pos hu]
    cases vs with
    | nil => simp
    | cons c vs =>
      have hc : p c = false := hv c rfl
      rw [List.takeWhile_cons_of_neg (by simp [hc]), List.append_nil]
  have hxs : xs = xs' := by rw [← take hx hy, h, take hx' hy']
  rw [hxs] at h
  exact ⟨hxs, List.append_cancel_left h⟩

/-! ## The text -/

variable [DecidableEq α] (F : Format α ν)

/-- One item, behind an item of the name `previous`. -/
def item (previous name : List α) (v : ν) : List α :=
  (if previous = name then [] else name) ++ F.colon :: F.digits v

/-- The items after one of the name `previous`. -/
def tail : List α → List (List α × ν) → List α
  | _, [] => []
  | previous, (name, v) :: ps => F.arrow ++ (F.item previous name v ++ tail name ps)

/-- The text of a list of named values. -/
def chain : List (List α × ν) → List α
  | [] => []
  | (name, v) :: ps => F.item [] name v ++ F.tail name ps

/-- A name that can be told from the colon behind it. -/
def Plain (name : List α) : Prop := name ≠ [] ∧ F.colon ∉ name

variable {F}

/-! ## Items -/

theorem tail_head (previous : List α) (ps : List (List α × ν)) :
    ∀ c ∈ (F.tail previous ps).head?, F.isDigit c = false := by
  intro c hc
  obtain ⟨a, r, ha, hd⟩ := F.arrow_head
  rcases ps with _ | ⟨⟨name, v⟩, ps⟩
  · cases hc
  · rw [tail, ha] at hc
    cases hc
    exact hd

/-- The name as written: nothing when it repeats. -/
theorem shortened_eq {previous name name' : List α} (h : name ≠ []) (h' : name' ≠ [])
    (he : (if previous = name then [] else name) = if previous = name' then [] else name') :
    name = name' := by
  split at he
  · rename_i hp
    split at he
    · rename_i hp'
      rw [← hp, ← hp']
    · exact absurd he.symm h'
  · split at he
    · exact absurd he h
    · exact he

/-- An item and what stands behind it are read off the text. -/
theorem item_append_eq {previous name name' : List α} {v v' : ν} {ps ps' : List (List α × ν)}
    (h : F.Plain name) (h' : F.Plain name')
    (he : F.item previous name v ++ F.tail name ps =
      F.item previous name' v' ++ F.tail name' ps') :
    (name, v) = (name', v') ∧ F.tail name ps = F.tail name' ps' := by
  have hnot : ∀ {n : List α}, F.Plain n → ∀ c ∈ (if previous = n then [] else n),
      (decide (c ≠ F.colon)) = true := by
    intro n hn c hc
    split at hc
    · cases hc
    · have hne : c ≠ F.colon := fun e => hn.2 (e ▸ hc)
      simpa using hne
  simp only [item, List.append_assoc, List.cons_append] at he
  obtain ⟨hname, hrest⟩ := span_eq (hnot h) (hnot h') (by simp) (by simp) he
  obtain ⟨hdig, htail⟩ := span_eq (F.isDigit_digits v) (F.isDigit_digits v')
    (tail_head name ps) (tail_head name' ps') (List.cons.inj hrest).2
  exact ⟨by rw [shortened_eq h.1 h'.1 hname, F.digits_injective hdig], htail⟩

/-! ## The list is read off the text -/

theorem tail_injective {previous : List α} {ps qs : List (List α × ν)}
    (hp : ∀ p ∈ ps, F.Plain p.1) (hq : ∀ q ∈ qs, F.Plain q.1)
    (h : F.tail previous ps = F.tail previous qs) : ps = qs := by
  obtain ⟨a, r, ha, -⟩ := F.arrow_head
  induction ps generalizing previous qs with
  | nil =>
    rcases qs with _ | ⟨q, qs⟩
    · rfl
    · simp [tail, ha] at h
  | cons p ps ih =>
    rcases qs with _ | ⟨q, qs⟩
    · simp [tail, ha] at h
    · obtain ⟨hpq, htail⟩ := item_append_eq (hp p List.mem_cons_self) (hq q List.mem_cons_self)
        (List.append_cancel_left h)
      have hname : p.1 = q.1 := congrArg Prod.fst hpq
      rw [hname] at htail
      have hrest := ih (fun x hx => hp x (List.mem_cons_of_mem _ hx))
        (fun x hx => hq x (List.mem_cons_of_mem _ hx)) htail
      rw [hrest]
      exact congrArg (· :: qs) hpq

/-- No text is longer than nothing and shorter than an item. -/
theorem three_le_length_chain {ps : List (List α × ν)} (hp : ∀ p ∈ ps, F.Plain p.1)
    (h : ps ≠ []) : 3 ≤ (F.chain ps).length := by
  rcases ps with _ | ⟨⟨name, v⟩, ps⟩
  · exact absurd rfl h
  · have hname : name ≠ [] := (hp _ List.mem_cons_self).1
    have hlen := List.length_pos_of_ne_nil hname
    have hdig := List.length_pos_of_ne_nil (F.digits_ne_nil v)
    rw [chain, item, if_neg hname.symm]
    simp only [List.length_append, List.length_cons]
    omega

/-- Two different lists of plain names never give the same text. -/
theorem chain_injective {ps qs : List (List α × ν)} (hp : ∀ p ∈ ps, F.Plain p.1)
    (hq : ∀ q ∈ qs, F.Plain q.1) (h : F.chain ps = F.chain qs) : ps = qs := by
  rcases ps with _ | ⟨p, ps⟩
  · by_contra hne
    have hlen := three_le_length_chain hq (Ne.symm hne)
    rw [← h] at hlen
    simp [chain] at hlen
  · rcases qs with _ | ⟨q, qs⟩
    · have hlen := three_le_length_chain hp (List.cons_ne_nil _ _)
      rw [h] at hlen
      simp [chain] at hlen
    · obtain ⟨hpq, htail⟩ := item_append_eq (hp p List.mem_cons_self) (hq q List.mem_cons_self) h
      have hname : p.1 = q.1 := congrArg Prod.fst hpq
      rw [hname] at htail
      have hrest := tail_injective (fun x hx => hp x (List.mem_cons_of_mem _ hx))
        (fun x hx => hq x (List.mem_cons_of_mem _ hx)) htail
      rw [hrest]
      exact congrArg (· :: qs) hpq

/-! ## One value in the text -/

/-- A value stands between two parts of the text that do not depend on it. -/
theorem exists_tail_append_cons (previous name : List α) (ps qs : List (List α × ν)) :
    ∃ before after, ∀ v, F.tail previous (ps ++ (name, v) :: qs) =
      before ++ F.colon :: (F.digits v ++ after) := by
  induction ps generalizing previous with
  | nil =>
    refine ⟨F.arrow ++ if previous = name then [] else name, F.tail name qs, fun v => ?_⟩
    simp [tail, item]
  | cons p ps ih =>
    obtain ⟨before, after, h⟩ := ih p.1
    refine ⟨F.arrow ++ (F.item previous p.1 p.2 ++ before), after, fun v => ?_⟩
    rw [List.cons_append, tail, h v, List.append_assoc, List.append_assoc]

theorem exists_chain_append_cons (name : List α) (ps qs : List (List α × ν)) :
    ∃ before after, ∀ v, F.chain (ps ++ (name, v) :: qs) =
      before ++ F.colon :: (F.digits v ++ after) := by
  rcases ps with _ | ⟨p, ps⟩
  · refine ⟨if [] = name then [] else name, F.tail name qs, fun v => ?_⟩
    simp [chain, item]
  · obtain ⟨before, after, h⟩ := exists_tail_append_cons (F := F) p.1 name ps qs
    refine ⟨F.item [] p.1 p.2 ++ before, after, fun v => ?_⟩
    rw [List.cons_append, chain, h v, List.append_assoc]

/-- Texts that differ in one value differ, whatever the names are. -/
theorem value_injective_chain {name : List α} {ps qs : List (List α × ν)} {v w : ν}
    (h : F.chain (ps ++ (name, v) :: qs) = F.chain (ps ++ (name, w) :: qs)) : v = w := by
  obtain ⟨before, after, hchain⟩ := exists_chain_append_cons (F := F) name ps qs
  rw [hchain v, hchain w] at h
  exact F.digits_injective
    (List.append_cancel_right (List.cons.inj (List.append_cancel_left h)).2)

/-- A text is longer than each of the values in it. -/
theorem length_digits_lt_chain (name : List α) (ps qs : List (List α × ν)) (v : ν) :
    (F.digits v).length < (F.chain (ps ++ (name, v) :: qs)).length := by
  obtain ⟨before, after, hchain⟩ := exists_chain_append_cons (F := F) name ps qs
  rw [hchain v]
  simp only [List.length_append, List.length_cons]
  omega

end Format
