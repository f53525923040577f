/-
  The RLP format.

  An item is a byte string or a list of items. A byte below 0x80 is its own encoding; everything
  else is a header and its content, the content of a list being the encodings of its elements.
  The header holds a content size below 56 in the tag; a larger size follows the tag, big endian,
  without leading zeros. `Value` is one encoded value as it is split off an input: the kind and
  the content, the content of a list left as it is.
-/
import ZipoLogger.Lib.PrefixReader
import ZipoLogger.Lib.BigEndian

namespace ZipoLogger.Rlp

open BigEndian

inductive Kind
  | byte
  | string
  | list
  deriving DecidableEq, Repr

/-- The tag of `size` content bytes, and the size where the tag does not hold it. -/
def header (smalltag largetag size : Nat) : Bytes :=
  if size < 56 then [UInt8.ofNat (smalltag + size)]
  else UInt8.ofNat (largetag + (minimal size).length) :: minimal size

/-- A string that is its own encoding. -/
def isByte : Bytes → Bool
  | [x] => x < 0x80
  | _ => false

structure Value where
  kind : Kind
  content : Bytes
  deriving DecidableEq, Repr

namespace Value

/-- What stands before the content. -/
def head (v : Value) : Bytes :=
  match v.kind with
  | .byte => []
  | .string => header 0x80 0xB7 v.content.length
  | .list => header 0xC0 0xF7 v.content.length

def enc (v : Value) : Bytes := v.head ++ v.content

structure Valid (v : Value) : Prop where
  byte_iff : v.kind ≠ .list → (v.kind = .byte ↔ isByte v.content = true)
  size_lt : v.content.length < 2 ^ 64

def ofString (b : Bytes) : Value := ⟨if isByte b then .byte else .string, b⟩

end Value

inductive Item
  | str (content : Bytes)
  | list (elems : List Item)

mutual

def Item.enc : Item → Bytes
  | .str b => (Value.ofString b).enc
  | .list xs => (Value.mk .list (Item.encAll xs)).enc

def Item.encAll : List Item → Bytes
  | [] => []
  | x :: xs => x.enc ++ Item.encAll xs

end

/-! ## Headers -/

theorem isByte_iff {b : Bytes} : isByte b = true ↔ ∃ x, x.toNat < 0x80 ∧ b = [x] := by
  constructor
  · intro h
    match b, h with
    | [x], h => exact ⟨x, UInt8.lt_iff_toNat_lt.mp (by simpa [isByte] using h), rfl⟩
  · rintro ⟨x, hx, rfl⟩
    simpa [isByte] using UInt8.lt_iff_toNat_lt.mpr hx

theorem header_ne_nil (s l n : Nat) : header s l n ≠ [] := by
  unfold header
  split <;> simp

theorem header_small {s l n : Nat} (h : n < 56) : header s l n = [UInt8.ofNat (s + n)] := if_pos h

theorem header_large {s l n : Nat} (h : 56 ≤ n) :
    header s l n = UInt8.ofNat (l + (minimal n).length) :: minimal n := if_neg (by omega)

/-- The sizes a header can hold take up to eight bytes. -/
theorem size_length {n : Nat} (hlo : 56 ≤ n) (hhi : n < 2 ^ 64) :
    1 ≤ (minimal n).length ∧ (minimal n).length ≤ 8 := by
  refine ⟨?_, minimal_length_le (by simpa using hhi)⟩
  by_contra h
  have hlt := lt_minimal_length n
  rw [show (minimal n).length = 0 by omega] at hlt
  omega

theorem ofNat_toNat_of_eq {b : UInt8} {n : Nat} (h : b.toNat = n) : UInt8.ofNat n = b := by
  rw [← h, UInt8.ofNat_toNat]

theorem toNat_ofNat_of_lt {n : Nat} (h : n < 256) : (UInt8.ofNat n).toNat = n := by
  rw [UInt8.toNat_ofNat']
  exact Nat.mod_eq_of_lt h

namespace Value

theorem enc_ne_nil {v : Value} (h : v.Valid) : v.enc ≠ [] := by
  obtain ⟨k, c⟩ := v
  cases k with
  | byte =>
    obtain ⟨x, -, hc⟩ := isByte_iff.mp ((h.byte_iff (by simp)).mp rfl)
    simp only at hc
    simp [enc, head, hc]
  | string => simp [enc, head, header_ne_nil]
  | list => simp [enc, head, header_ne_nil]

theorem ofString_valid {b : Bytes} (h : b.length < 2 ^ 64) : (ofString b).Valid := by
  refine ⟨fun _ => ?_, h⟩
  unfold ofString
  cases isByte b <;> simp

theorem byte_valid {b : Bytes} (hb : isByte b = true) : (Value.mk .byte b).Valid := by
  obtain ⟨x, -, rfl⟩ := isByte_iff.mp hb
  have hsize : [x].length < 2 ^ 64 := Nat.one_lt_two_pow (by decide)
  exact ⟨fun _ => iff_of_true rfl hb, hsize⟩

theorem string_valid {b : Bytes} (hb : isByte b = false) (h : b.length < 2 ^ 64) :
    (Value.mk .string b).Valid :=
  ⟨fun _ => by simp [hb], h⟩

theorem list_valid {b : Bytes} (h : b.length < 2 ^ 64) : (Value.mk .list b).Valid :=
  ⟨fun hk => absurd rfl hk, h⟩

theorem eq_ofString {v : Value} (h : v.Valid) (hk : v.kind ≠ .list) : v = ofString v.content := by
  obtain ⟨k, c⟩ := v
  have hb := h.byte_iff hk
  unfold ofString
  cases k with
  | byte => simp [hb.mp rfl]
  | string => simpa using hb
  | list => exact absurd rfl hk

end Value

namespace Item

/-- The value an encoding is. -/
def value : Item → Value
  | .str b => Value.ofString b
  | .list xs => ⟨.list, encAll xs⟩

theorem enc_eq (x : Item) : x.enc = x.value.enc := by
  cases x <;> rfl

theorem value_valid {x : Item} (h : x.value.content.length < 2 ^ 64) : x.value.Valid := by
  cases x with
  | str b => exact Value.ofString_valid h
  | list xs => exact Value.list_valid h

theorem content_length_le (x : Item) : x.value.content.length ≤ x.enc.length := by
  rw [enc_eq, Value.enc, List.length_append]
  exact Nat.le_add_left _ _

end Item

end ZipoLogger.Rlp
