/-
  A text with pieces to be inserted at given offsets.

  A mark is an offset into the text and what goes in there. `weave text pos marks` is the text from
  `pos` on with the marks in their places; the offsets must not decrease and must stay inside the
  text (`Marked`). Two marked texts put one after the other weave to the two results one after
  the other (`weave_append`), so what a writer has put together piece by piece need not be looked
  at as a whole.
-/
import Mathlib.Tactic

namespace Weave

variable {β : Type}

def weave (text : List β) : Nat → List (Nat × List β) → List β
  | pos, [] => text.drop pos
  | pos, (o, h) :: ms => (text.drop pos).take (o - pos) ++ (h ++ weave text o ms)

/-- The offsets go from `pos` up to `n` at most. -/
def Marked (n : Nat) : Nat → List (Nat × List β) → Prop
  | pos, [] => pos ≤ n
  | pos, (o, _) :: ms => pos ≤ o ∧ Marked n o ms

def shift (d : Nat) (ms : List (Nat × List β)) : List (Nat × List β) :=
  ms.map fun m => (m.1 + d, m.2)

/-- What the marks add to the length of the text. -/
def added (ms : List (Nat × List β)) : Nat := (ms.map fun m => m.2.length).sum

variable {text t1 t2 h : List β} {pos n m o d : Nat} {ms ms1 ms2 : List (Nat × List β)}

theorem weave_cons_self : weave text o ((o, h) :: ms) = h ++ weave text o ms := by
  rw [weave, Nat.sub_self, List.take_zero, List.nil_append]

@[simp] theorem added_nil : added ([] : List (Nat × List β)) = 0 := rfl

@[simp] theorem added_cons : added ((o, h) :: ms) = h.length + added ms := List.sum_cons

@[simp] theorem added_append : added (ms1 ++ ms2) = added ms1 + added ms2 := by
  rw [added, List.map_append, List.sum_append]
  rfl

@[simp] theorem added_shift : added (shift d ms) = added ms := by
  rw [added, shift, List.map_map]
  rfl

namespace Marked

theorem le (h : Marked n pos ms) : pos ≤ n := by
  induction ms generalizing pos with
  | nil => exact h
  | cons m ms ih => exact h.1.trans (ih h.2)

theorem shift (h : Marked n pos ms) (d : Nat) : Marked (n + d) (pos + d) (Weave.shift d ms) := by
  induction ms generalizing pos with
  | nil => exact Nat.add_le_add_right h d
  | cons m ms ih => exact ⟨Nat.add_le_add_right h.1 d, ih h.2⟩

theorem anti (h : Marked n pos ms) {pos' : Nat} (hle : pos' ≤ pos) : Marked n pos' ms := by
  cases ms with
  | nil => exact hle.trans h
  | cons m ms => exact ⟨hle.trans h.1, h.2⟩

theorem append (h1 : Marked n pos ms1) (h2 : Marked m 0 ms2) :
    Marked (m + n) pos (ms1 ++ Weave.shift n ms2) := by
  induction ms1 generalizing pos with
  | nil => exact (h2.shift n).anti (by rw [Nat.zero_add]; exact h1)
  | cons _ ms ih => exact ⟨h1.1, ih h1.2⟩

end Marked

theorem weave_shift (t1 t2 : List β) (pos : Nat) (ms : List (Nat × List β)) :
    weave (t1 ++ t2) (pos + t1.length) (shift t1.length ms) = weave t2 pos ms := by
  have hdrop : ∀ p, (t1 ++ t2).drop (p + t1.length) = t2.drop p := by
    intro p
    rw [Nat.add_comm, List.drop_length_add_append]
  induction ms generalizing pos with
  | nil => exact hdrop pos
  | cons m ms ih =>
    obtain ⟨o, h⟩ := m
    change weave (t1 ++ t2) (pos + t1.length) ((o + t1.length, h) :: shift t1.length ms) = _
    rw [weave, weave, hdrop, ih, Nat.add_sub_add_right]

/-- One marked text after another. -/
theorem weave_append (hm : Marked t1.length pos ms1) : weave (t1 ++ t2) pos
    (ms1 ++ shift t1.length ms2) = weave t1 pos ms1 ++ weave t2 0 ms2 := by
  induction ms1 generalizing pos with
  | nil =>
    have hle : pos ≤ t1.length := hm
    cases ms2 with
    | nil =>
      change (t1 ++ t2).drop pos = t1.drop pos ++ t2
      exact List.drop_append_of_le_length hle
    | cons m ms =>
      obtain ⟨o, h⟩ := m
      have hlen : o + t1.length - pos = (t1.drop pos).length + o := by
        rw [List.length_drop]
        omega
      change ((t1 ++ t2).drop pos).take (o + t1.length - pos) ++
          (h ++ weave (t1 ++ t2) (o + t1.length) (shift t1.length ms)) =
        t1.drop pos ++ (t2.take o ++ (h ++ weave t2 o ms))
      rw [weave_shift, List.drop_append_of_le_length hle, hlen, List.take_length_add_append,
        List.append_assoc]
  | cons m ms ih =>
    obtain ⟨o, h⟩ := m
    have hle := hm.2.le
    have hpos : pos ≤ t1.length := hm.1.trans hle
    have htake : (t1.drop pos ++ t2).take (o - pos) = (t1.drop pos).take (o - pos) :=
      List.take_append_of_le_length (by rw [List.length_drop]; omega)
    rw [List.cons_append, weave, ih hm.2, List.drop_append_of_le_length hpos, htake, weave]
    simp only [List.append_assoc]

theorem length_weave (hm : Marked text.length pos ms) :
    (weave text pos ms).length = text.length - pos + added ms := by
  induction ms generalizing pos with
  | nil => rw [weave, List.length_drop, added_nil, Nat.add_zero]
  | cons m ms ih =>
    obtain ⟨o, h⟩ := m
    have hle := hm.2.le
    have hpos : pos ≤ o := hm.1
    rw [weave, List.length_append, List.length_append, ih hm.2, List.length_take, List.length_drop,
      added_cons]
    omega

end Weave
