/-
  Files written through several handles at once.

  Every handle has an offset of its own. `pwrite` puts a chunk at an offset: what lies below
  stays, a gap up to the offset is filled with zeros. A byte of the result comes from the chunk,
  from the old contents or from such a gap (`getElem?_pwrite`); chunks that follow one another put a
  text together (`pwrite_take`).
-/
import Mathlib.Tactic

namespace Handle

variable {content chunk text : List UInt8} {off n i : Nat} {b : UInt8}

/-- Write `chunk` at `off`. -/
def pwrite (content : List UInt8) (off : Nat) (chunk : List UInt8) : List UInt8 :=
  if chunk = [] then content
  else (content ++ List.replicate (off - content.length) 0).take off ++ chunk ++
    content.drop (off + chunk.length)

/-- Where a byte comes from. -/
theorem getElem?_pwrite (h : (pwrite content off chunk)[i]? = some b) :
    (off ≤ i ∧ chunk[i - off]? = some b) ∨ content[i]? = some b ∨ b = 0 := by
  unfold pwrite at h
  split at h
  · exact .inr (.inl h)
  · have hlen : ((content ++ List.replicate (off - content.length) (0 : UInt8)).take off).length =
        off := by
      rw [List.length_take, List.length_append, List.length_replicate]
      omega
    rw [List.append_assoc] at h
    by_cases hlow : i < off
    · rw [List.getElem?_append_left (by omega), List.getElem?_take_of_lt hlow] at h
      by_cases hold : i < content.length
      · rw [List.getElem?_append_left hold] at h
        exact .inr (.inl h)
      · -- in the gap
        rw [List.getElem?_append_right (by omega), List.getElem?_replicate] at h
        split at h
        · cases h
          exact .inr (.inr rfl)
        · cases h
    · rw [List.getElem?_append_right (by omega), hlen] at h
      by_cases hmid : i - off < chunk.length
      · rw [List.getElem?_append_left hmid] at h
        exact .inl ⟨by omega, h⟩
      · rw [List.getElem?_append_right (by omega), List.getElem?_drop] at h
        rw [show off + chunk.length + (i - off - chunk.length) = i by omega] at h
        exact .inr (.inl h)

/-- The next chunk of a text, written where the last one ended. -/
theorem pwrite_take (h : off ≤ text.length) :
    pwrite (text.take off) off ((text.drop off).take n) =
      text.take (off + ((text.drop off).take n).length) := by
  unfold pwrite
  split
  · rename_i hnil
    rw [hnil, List.length_nil, Nat.add_zero]
  · have hoff : (text.take off).length = off := by
      rw [List.length_take]
      omega
    have hrest : (text.take off).drop (off + ((text.drop off).take n).length) = [] :=
      List.drop_of_length_le (by rw [hoff]; exact Nat.le_add_right _ _)
    rw [hrest, hoff, Nat.sub_self, List.replicate_zero, List.append_nil, List.append_nil,
      List.take_take, Nat.min_self, List.take_add, List.length_take, ← List.take_eq_take_min]

end Handle
