/-
  Readers that take one encoding off the front of their input.

  `Reads dec enc V`: on success `dec` returns a valid value and what follows its encoding, and it
  succeeds wherever the input begins with the encoding of a valid value. Such a code is a prefix
  code (`Reads.cancel`), so a concatenation of encodings is read back one by one and in one way only
  (`Reads.readAll_iff`). `Reads.refine` is the reader that reads further into the value.
-/
import Mathlib.Tactic

namespace PrefixReader

variable {α β γ ε : Type}

theorem bind_eq_ok_iff {x : Except ε α} {f : α → Except ε γ} {c : γ} :
    x >>= f = .ok c ↔ ∃ a, x = .ok a ∧ f a = .ok c := by
  constructor
  · intro h
    cases x with
    | error e => cases h
    | ok a => exact ⟨a, rfl, h⟩
  · rintro ⟨a, rfl, h⟩
    exact h

theorem map_eq_ok_iff {x : Except ε α} {f : α → γ} {c : γ} :
    x.map f = .ok c ↔ ∃ a, x = .ok a ∧ f a = c := by
  constructor
  · intro h
    cases x with
    | error e => cases h
    | ok a => exact ⟨a, rfl, Except.ok.inj h⟩
  · rintro ⟨a, rfl, rfl⟩
    rfl

def Reads (dec : List β → Except ε (α × List β)) (enc : α → List β) (V : α → Prop) : Prop :=
  ∀ b a r, dec b = .ok (a, r) ↔ V a ∧ b = enc a ++ r

variable {dec : List β → Except ε (α × List β)} {enc : α → List β} {V : α → Prop}

namespace Reads

theorem append (h : Reads dec enc V) {a : α} (ha : V a) (r : List β) :
    dec (enc a ++ r) = .ok (a, r) :=
  (h _ _ _).mpr ⟨ha, rfl⟩

/-- Two encodings, one of which begins the other, are the same. -/
theorem cancel (h : Reads dec enc V) {a a' : α} {r r' : List β} (ha : V a) (ha' : V a')
    (he : enc a ++ r = enc a' ++ r') : a = a' ∧ r = r' := by
  have h1 := h.append ha r
  rw [he, h.append ha' r'] at h1
  cases h1
  exact ⟨rfl, rfl⟩

/-- A reader that goes on with the value another one has read. -/
theorem refine (h : Reads dec enc V) {dec' : List β → Except ε (γ × List β)} {Q : α → γ → Prop}
    {g : γ → α} {W : γ → Prop}
    (hdec : ∀ b c r, dec' b = .ok (c, r) ↔ ∃ a, dec b = .ok (a, r) ∧ Q a c)
    (hQ : ∀ a c, V a → (Q a c ↔ W c ∧ a = g c)) (hW : ∀ c, W c → V (g c)) :
    Reads dec' (fun c => enc (g c)) W := by
  intro b c r
  rw [hdec]
  constructor
  · rintro ⟨a, hd, hq⟩
    obtain ⟨ha, rfl⟩ := (h b a r).mp hd
    obtain ⟨hw, rfl⟩ := (hQ a c ha).mp hq
    exact ⟨hw, rfl⟩
  · rintro ⟨hw, rfl⟩
    exact ⟨g c, h.append (hW c hw) r, (hQ _ _ (hW c hw)).mpr ⟨hw, rfl⟩⟩

end Reads

/-- Reads values up to the end of the input, at most `n` of them. -/
def readAll (dec : List β → Except ε (α × List β)) : Nat → List β → Except ε (List α)
  | _, [] => .ok []
  | 0, _ :: _ => .ok []
  | n + 1, b :: bs => do
    let (a, r) ← dec (b :: bs)
    let as ← readAll dec n r
    return a :: as

namespace Reads

variable {n : Nat} {b : List β} {as as' : List α}

theorem readAll_flatMap (h : Reads dec enc V) (hne : ∀ a, V a → enc a ≠ [])
    (has : ∀ a ∈ as, V a) (hn : (as.flatMap enc).length ≤ n) :
    readAll dec n (as.flatMap enc) = .ok as := by
  induction as generalizing n with
  | nil => cases n <;> rfl
  | cons a as ih =>
    have ha := has a List.mem_cons_self
    have hpos := List.length_pos_of_ne_nil (hne a ha)
    rw [List.flatMap_cons, List.length_append] at hn
    obtain ⟨x, xs, hx⟩ : ∃ x xs, enc a ++ as.flatMap enc = x :: xs :=
      List.exists_cons_of_ne_nil (by simp [hne a ha])
    have hd := h.append ha (as.flatMap enc)
    cases n with
    | zero => omega
    | succ n =>
      rw [List.flatMap_cons, hx, readAll, ← hx, hd]
      change (readAll dec n (as.flatMap enc) >>= _) = _
      rw [ih (fun a' h' => has a' (List.mem_cons_of_mem _ h')) (by omega)]
      rfl

theorem of_readAll (h : Reads dec enc V) (hne : ∀ a, V a → enc a ≠ []) (hn : b.length ≤ n)
    (hr : readAll dec n b = .ok as) : (∀ a ∈ as, V a) ∧ b = as.flatMap enc := by
  induction n generalizing b as with
  | zero =>
    obtain rfl : b = [] := List.eq_nil_of_length_eq_zero (by omega)
    cases hr
    exact ⟨by simp, rfl⟩
  | succ n ih =>
    cases b with
    | nil =>
      cases hr
      exact ⟨by simp, rfl⟩
    | cons x xs =>
      obtain ⟨⟨a, r⟩, hd, hr⟩ := bind_eq_ok_iff.mp hr
      obtain ⟨as', hrest, hr⟩ := bind_eq_ok_iff.mp hr
      cases hr
      obtain ⟨ha, he⟩ := (h _ a r).mp hd
      have hlen := congrArg List.length he
      have hpos := List.length_pos_of_ne_nil (hne a ha)
      rw [List.length_append, List.length_cons] at hlen
      rw [List.length_cons] at hn
      obtain ⟨has, rfl⟩ := ih (by omega) hrest
      refine ⟨?_, by rw [he, List.flatMap_cons]⟩
      intro a' h'
      cases h' with
      | head => exact ha
      | tail _ h' => exact has a' h'

/-- The inputs read to their end are the concatenations of valid values. -/
theorem readAll_iff (h : Reads dec enc V) (hne : ∀ a, V a → enc a ≠ []) :
    readAll dec b.length b = .ok as ↔ (∀ a ∈ as, V a) ∧ b = as.flatMap enc := by
  constructor
  · exact h.of_readAll hne le_rfl
  · rintro ⟨has, rfl⟩
    exact h.readAll_flatMap hne has le_rfl

end Reads

end PrefixReader
