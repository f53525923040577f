/-
  What is encoded is decoded.

  `Val.Denotes`: the item that a value of Go stands for. Integers and strings become strings, the
  fields of a struct and the elements of a slice become a list, and a raw value stands for what it
  is the encoding of, as an `Encoder` does for the one value it writes. A field with the tag `tail`
  is no item of its own, and a struct with one stands for none. Many values stand for one item; the
  encoding shows the item and nothing more (`decodeBytes_encodeToBytes`).
-/
import ZipoLogger.Rlp.Decode
import ZipoLogger.Rlp.Encode

namespace ZipoLogger.Rlp

open BigEndian

mutual

def Val.Denotes : Val → Item → Prop
  | .rawValue b, x => b = x.enc
  | .bigInt none, x => x = .str []
  | .bigInt (some i), x => 0 ≤ i ∧ x = .str (minimal i.natAbs)
  | .uint256 none, x => x = .str []
  | .uint256 (some z), x => x = .str (minimal z.toNat)
  | .uint n, x => x = .str (minimal n.toNat)
  | .bool b, x => x = .str (if b then [1] else [])
  | .string s, x => x = .str s
  | .bytes b, x => x = .str b
  | .byteArray b, x => x = .str b
  | .slice elems, x => ∃ xs, Val.DenoteAll elems xs ∧ x = .list xs
  | .struct fields, x => ∃ xs, Val.DenoteAll fields xs ∧ x = .list xs
  | .nilPtr nilKind, x => x = if nilKind = .string then .str [] else .list []
  | .nilInterface, x => x = .list []
  | .encoder writes err, x => Val.DenoteAll writes [x] ∧ err = none
  | .tail _, _ => False
  | .unaddressable, _ => False
  | .noWriter, _ => False

def Val.DenoteAll : List Val → List Item → Prop
  | [], xs => xs = []
  | v :: vs, xs => ∃ y ys, v.Denotes y ∧ Val.DenoteAll vs ys ∧ xs = y :: ys

end

mutual

/-- The encoding of a value is that of the item, and there is no fault in it. -/
theorem Val.enc_of_denotes (v : Val) {x : Item} (h : v.Denotes x) :
    v.fault = none ∧ v.enc = x.enc := by
  cases v with
  | rawValue b => exact ⟨rfl, h⟩
  | bigInt i =>
    cases i with
    | none =>
      obtain rfl : x = _ := h
      exact ⟨rfl, rfl⟩
    | some i =>
      obtain ⟨hi, rfl⟩ : 0 ≤ i ∧ x = _ := h
      exact ⟨if_neg (not_lt.mpr hi), rfl⟩
  | uint256 z =>
    cases z with
    | none =>
      obtain rfl : x = _ := h
      exact ⟨rfl, rfl⟩
    | some z =>
      obtain rfl : x = _ := h
      exact ⟨rfl, rfl⟩
  | slice elems =>
    obtain ⟨xs, hxs, rfl⟩ : ∃ xs, Val.DenoteAll elems xs ∧ x = .list xs := h
    obtain ⟨hn, he⟩ := Val.encAll_of_denotes elems hxs
    exact ⟨hn, congrArg (fun b => (Value.mk .list b).enc) he⟩
  | struct fields =>
    obtain ⟨xs, hxs, rfl⟩ : ∃ xs, Val.DenoteAll fields xs ∧ x = .list xs := h
    obtain ⟨hn, he⟩ := Val.encAll_of_denotes fields hxs
    exact ⟨hn, congrArg (fun b => (Value.mk .list b).enc) he⟩
  | nilPtr nilKind =>
    obtain rfl : x = _ := h
    refine ⟨rfl, ?_⟩
    rw [enc]
    split <;> rfl
  | encoder writes err =>
    obtain ⟨hx, rfl⟩ : Val.DenoteAll writes [x] ∧ err = none := h
    obtain ⟨hn, he⟩ := Val.encAll_of_denotes writes hx
    rw [fault, hn, enc, he, Item.encAll, Item.encAll, List.append_nil]
    exact ⟨rfl, rfl⟩
  | tail => exact h.elim
  | unaddressable => exact h.elim
  | noWriter => exact h.elim
  | _ =>
    obtain rfl : x = _ := h
    exact ⟨rfl, rfl⟩

theorem Val.encAll_of_denotes (vs : List Val) {xs : List Item} (h : Val.DenoteAll vs xs) :
    Val.firstFault vs = none ∧ Val.encAll vs = Item.encAll xs := by
  cases vs with
  | nil =>
    obtain rfl : xs = [] := h
    exact ⟨rfl, rfl⟩
  | cons v vs =>
    obtain ⟨y, ys, hy, hys, rfl⟩ : ∃ y ys, v.Denotes y ∧ Val.DenoteAll vs ys ∧ xs = y :: ys := h
    obtain ⟨hn, he⟩ := Val.enc_of_denotes v hy
    obtain ⟨hns, hes⟩ := Val.encAll_of_denotes vs hys
    rw [Val.firstFault, hn, hns, Val.encAll, Item.encAll, he, hes]
    exact ⟨rfl, rfl⟩

end

/-- Items with one encoding are equal. -/
theorem Item.enc_inj {x y : Item} (hx : x.enc.length < 2 ^ 63) (h : x.enc = y.enc) : x = y := by
  have hdx := (decodeBytes_iff hx).mpr rfl
  have hdy := (decodeBytes_iff hx).mpr h
  rw [hdx] at hdy
  exact Except.ok.inj hdy

theorem encodeToBytes_of_denotes {v : Val} {x : Item} (h : v.Denotes x)
    (hs : v.enc.length < 2 ^ 63) : encodeToBytes v = .ok (some x.enc) := by
  obtain ⟨hn, he⟩ := v.enc_of_denotes h
  rw [encodeToBytes_eq hn (hs.trans (by norm_num)), he]

end ZipoLogger.Rlp
