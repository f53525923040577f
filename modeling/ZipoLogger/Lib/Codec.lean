/-
  Text codecs: hexadecimal (`encoding/hex`), white space (`strings.TrimSpace`) and unpadded
  base64 (`base64.RawStdEncoding`).

  The base64 decoder is the non-strict one: line breaks are skipped, and the bits a final short
  quantum does not use may be anything.
-/
import ZipoLogger.Lib.BigEndian

namespace Hex

/-- The lower-case digit of `n < 16`. -/
def digit (n : Nat) : UInt8 := if n < 10 then UInt8.ofNat (48 + n) else UInt8.ofNat (87 + n)

/-- `hex.EncodeToString`. -/
def encodeToString (b : Bytes) : Bytes :=
  b.flatMap fun x => [digit (x.toNat / 16), digit (x.toNat % 16)]

/-- The value of a hexadecimal digit, either case. -/
def fromHexChar (c : UInt8) : Option Nat :=
  if 48 ≤ c ∧ c ≤ 57 then some (c.toNat - 48)
  else if 97 ≤ c ∧ c ≤ 102 then some (c.toNat - 87)
  else if 65 ≤ c ∧ c ≤ 70 then some (c.toNat - 55)
  else none

/-- `hex.DecodeString`; `none` for its errors (odd length, invalid byte). -/
def decodeString : Bytes → Option Bytes
  | [] => some []
  | [_] => none
  | a :: b :: r => do
    let x ← fromHexChar a
    let y ← fromHexChar b
    let bs ← decodeString r
    return UInt8.ofNat (16 * x + y) :: bs

theorem fromHexChar_digit : ∀ n < 16, fromHexChar (digit n) = some n := by decide

theorem decode_encode (b : Bytes) : decodeString (encodeToString b) = some b := by
  induction b with
  | nil => rfl
  | cons x b ih =>
    have hx := x.toNat_lt
    have hhi := fromHexChar_digit (x.toNat / 16) (by omega)
    have hlo := fromHexChar_digit (x.toNat % 16) (by omega)
    have he : encodeToString (x :: b) =
        digit (x.toNat / 16) :: digit (x.toNat % 16) :: encodeToString b := by
      simp [encodeToString]
    have hv : 16 * (x.toNat / 16) + x.toNat % 16 = x.toNat := by omega
    simp only [he, decodeString, hhi, hlo, ih, hv, Option.bind_eq_bind, Option.bind_some,
      UInt8.ofNat_toNat]
    rfl

theorem decode_length {s k : Bytes} (h : decodeString s = some k) : s.length = 2 * k.length := by
  fun_induction decodeString s generalizing k with
  | case1 =>
    cases h
    rfl
  | case2 => cases h
  | case3 a b r ih =>
    simp only [Option.bind_eq_bind, Option.bind_eq_some_iff] at h
    obtain ⟨x, -, y, -, bs, hbs, hk⟩ := h
    cases hk
    rw [List.length_cons, List.length_cons, List.length_cons, ih hbs]
    omega

theorem encode_length (b : Bytes) : (encodeToString b).length = 2 * b.length := by
  simp [encodeToString, Nat.mul_comm]

/-- A digit is an ASCII letter or number. -/
theorem digit_range : ∀ n < 16, 48 ≤ digit n ∧ digit n ≤ 102 := by decide

theorem encode_range {b : Bytes} {c : UInt8} (h : c ∈ encodeToString b) : 48 ≤ c ∧ c ≤ 102 := by
  obtain ⟨x, -, hc⟩ := List.mem_flatMap.mp h
  have hx := x.toNat_lt
  simp only [List.mem_cons, List.not_mem_nil, or_false] at hc
  rcases hc with rfl | rfl
  · exact digit_range _ (by omega)
  · exact digit_range _ (by omega)

/-! The other direction: what a text decodes to, encodes to its lower-case form. -/

/-- The lower-case form of an ASCII character. -/
def toLower (c : UInt8) : UInt8 := if 65 ≤ c ∧ c ≤ 90 then c + 32 else c

/-- `strings.ToLower` of an ASCII text. -/
def lower (s : Bytes) : Bytes := s.map toLower

theorem fromHexChar_toLower : ∀ n < 256,
    fromHexChar (toLower (UInt8.ofNat n)) = fromHexChar (UInt8.ofNat n) := by decide +kernel

theorem digit_fromHexChar : ∀ n < 256,
    (fromHexChar (UInt8.ofNat n)).all (fun v => v < 16 ∧ digit v = toLower (UInt8.ofNat n)) := by
  decide +kernel

/-- A digit is written in lower case, whatever case it was read from. -/
theorem digit_of_fromHexChar {c : UInt8} {v : Nat} (h : fromHexChar c = some v) :
    v < 16 ∧ digit v = toLower c := by
  have hc := digit_fromHexChar c.toNat c.toNat_lt
  rw [UInt8.ofNat_toNat, h] at hc
  simpa using hc

theorem decode_lower (s : Bytes) : decodeString (lower s) = decodeString s := by
  have hc : ∀ c : UInt8, fromHexChar (toLower c) = fromHexChar c := by
    intro c
    have h := fromHexChar_toLower c.toNat c.toNat_lt
    rwa [UInt8.ofNat_toNat] at h
  unfold lower
  fun_induction decodeString s with
  | case1 => rfl
  | case2 => rfl
  | case3 a b r ih =>
    rw [List.map_cons, List.map_cons, decodeString, hc a, hc b, ih]

theorem encode_decode {s k : Bytes} (h : decodeString s = some k) :
    encodeToString k = lower s := by
  fun_induction decodeString s generalizing k with
  | case1 =>
    cases h
    rfl
  | case2 => cases h
  | case3 a b r ih =>
    simp only [Option.bind_eq_bind, Option.bind_eq_some_iff] at h
    obtain ⟨x, hx, y, hy, bs, hbs, hk⟩ := h
    cases hk
    obtain ⟨hx16, hxd⟩ := digit_of_fromHexChar hx
    obtain ⟨hy16, hyd⟩ := digit_of_fromHexChar hy
    have hv : (UInt8.ofNat (16 * x + y)).toNat = 16 * x + y := by
      rw [UInt8.toNat_ofNat']
      exact Nat.mod_eq_of_lt (by omega)
    have hhi : (16 * x + y) / 16 = x := by omega
    have hlo : (16 * x + y) % 16 = y := by omega
    have ih' := ih hbs
    rw [encodeToString, lower] at ih' ⊢
    rw [List.flatMap_cons, hv, hhi, hlo, hxd, hyd, ih']
    rfl

/-- Up to case, a text decodes to `k` exactly when it is the encoding of `k`. -/
theorem decode_eq_some_iff {s k : Bytes} :
    decodeString s = some k ↔ lower s = encodeToString k := by
  constructor
  · intro h
    exact (encode_decode h).symm
  · intro h
    rw [← decode_lower, h, decode_encode]

end Hex

namespace TrimSpace

/-- Drop the leading UTF-8 encodings of the runes of `unicode.IsSpace`. -/
def left : Bytes → Bytes
  | 0xC2 :: 0x85 :: r => left r
  | 0xC2 :: 0xA0 :: r => left r
  | 0xE1 :: 0x9A :: 0x80 :: r => left r
  | 0xE2 :: 0x80 :: c :: r =>
    if (0x80 ≤ c ∧ c ≤ 0x8A) ∨ c = 0xA8 ∨ c = 0xA9 ∨ c = 0xAF then left r
    else 0xE2 :: 0x80 :: c :: r
  | 0xE2 :: 0x81 :: 0x9F :: r => left r
  | 0xE3 :: 0x80 :: 0x80 :: r => left r
  | c :: r => if (9 ≤ c ∧ c ≤ 13) ∨ c = 32 then left r else c :: r
  | [] => []

/-- `left` on the mirrored string: the same encodings, last byte first. -/
def right : Bytes → Bytes
  | 0x85 :: 0xC2 :: r => right r
  | 0xA0 :: 0xC2 :: r => right r
  | 0x80 :: 0x9A :: 0xE1 :: r => right r
  | 0x9F :: 0x81 :: 0xE2 :: r => right r
  | 0x80 :: 0x80 :: 0xE3 :: r => right r
  | c :: 0x80 :: 0xE2 :: r =>
    if (0x80 ≤ c ∧ c ≤ 0x8A) ∨ c = 0xA8 ∨ c = 0xA9 ∨ c = 0xAF then right r
    else c :: 0x80 :: 0xE2 :: r
  | c :: r => if (9 ≤ c ∧ c ≤ 13) ∨ c = 32 then right r else c :: r
  | [] => []

/-- `strings.TrimSpace`. -/
def trimSpace (s : Bytes) : Bytes := (right (left s).reverse).reverse

theorem left_length_le (s : Bytes) : (left s).length ≤ s.length := by
  fun_induction left s <;> simp only [List.length_cons, List.length_nil] at * <;> omega

theorem right_length_le (s : Bytes) : (right s).length ≤ s.length := by
  fun_induction right s <;> simp only [List.length_cons, List.length_nil] at * <;> omega

theorem trimSpace_length_le (s : Bytes) : (trimSpace s).length ≤ s.length := by
  have hl := left_length_le s
  have hr := right_length_le (left s).reverse
  rw [List.length_reverse] at hr
  rw [trimSpace, List.length_reverse]
  omega

section Printable

variable {c : UInt8} {r : Bytes} (h : 33 ≤ c ∧ c ≤ 127)
include h

/-- A printable ASCII byte is no byte outside of that range. -/
theorem ne_of_printable {x : UInt8} (hx : ¬ (33 ≤ x ∧ x ≤ 127)) : c ≠ x :=
  fun he => hx (he ▸ h)

theorem not_space : ¬ ((9 ≤ c ∧ c ≤ 13) ∨ c = 32) := by
  intro hs
  rcases hs with hs | hs
  · exact absurd (UInt8.le_trans h.1 hs.2) (by decide)
  · exact ne_of_printable h (by decide) hs

/-- Nothing is trimmed before a printable ASCII byte. -/
theorem left_cons : left (c :: r) = c :: r := by
  have h1 : c ≠ 0xC2 := ne_of_printable h (by decide)
  have h2 : c ≠ 0xE1 := ne_of_printable h (by decide)
  have h3 : c ≠ 0xE2 := ne_of_printable h (by decide)
  have h4 : c ≠ 0xE3 := ne_of_printable h (by decide)
  rw [left]
  · exact if_neg (not_space h)
  all_goals simp_all

theorem right_cons : right (c :: r) = c :: r := by
  have h1 : c ≠ 0x85 := ne_of_printable h (by decide)
  have h2 : c ≠ 0xA0 := ne_of_printable h (by decide)
  have h3 : c ≠ 0x80 := ne_of_printable h (by decide)
  have h4 : c ≠ 0x9F := ne_of_printable h (by decide)
  have h5 : ¬ ((0x80 ≤ c ∧ c ≤ 0x8A) ∨ c = 0xA8 ∨ c = 0xA9 ∨ c = 0xAF) := by
    intro hs
    rcases hs with hs | hs | hs | hs
    · exact absurd (UInt8.le_trans hs.1 h.2) (by decide)
    all_goals exact ne_of_printable h (by decide) hs
  by_cases hr : ∃ r', r = 0x80 :: 0xE2 :: r'
  · obtain ⟨r', rfl⟩ := hr
    rw [right]
    · exact if_neg h5
  · rw [right]
    · exact if_neg (not_space h)
    all_goals simp_all

end Printable

/-- A string of printable ASCII bytes is left alone. -/
theorem trimSpace_eq_self {s : Bytes} (h : ∀ c ∈ s, 33 ≤ c ∧ c ≤ 127) : trimSpace s = s := by
  have hl : left s = s := by
    cases s with
    | nil => rfl
    | cons c r => exact left_cons (h c List.mem_cons_self)
  have hr : right s.reverse = s.reverse := by
    cases hs : s.reverse with
    | nil => rfl
    | cons c r =>
      exact right_cons (h c (List.mem_reverse.mp (hs ▸ List.mem_cons_self)))
  rw [trimSpace, hl, hr, List.reverse_reverse]

end TrimSpace

namespace Base64

/-- The character of a six-bit value. -/
def char (n : Nat) : UInt8 :=
  if n < 26 then UInt8.ofNat (65 + n)
  else if n < 52 then UInt8.ofNat (71 + n)
  else if n < 62 then UInt8.ofNat (n - 4)
  else if n = 62 then 43
  else 47

/-- The value of a character of the alphabet. -/
def value (c : UInt8) : Option Nat :=
  if 65 ≤ c ∧ c ≤ 90 then some (c.toNat - 65)
  else if 97 ≤ c ∧ c ≤ 122 then some (c.toNat - 71)
  else if 48 ≤ c ∧ c ≤ 57 then some (c.toNat + 4)
  else if c = 43 then some 62
  else if c = 47 then some 63
  else none

/-- `base64.RawStdEncoding.EncodeToString`. -/
def encodeToString : Bytes → Bytes
  | [] => []
  | [a] => [char (a.toNat / 4), char (a.toNat % 4 * 16)]
  | [a, b] =>
    [char (a.toNat / 4), char (a.toNat % 4 * 16 + b.toNat / 16), char (b.toNat % 16 * 4)]
  | a :: b :: c :: r =>
    char (a.toNat / 4) :: char (a.toNat % 4 * 16 + b.toNat / 16) ::
      char (b.toNat % 16 * 4 + c.toNat / 64) :: char (c.toNat % 64) :: encodeToString r

/-- The quanta of `DecodeString`, on a text without line breaks. -/
def decodeQuanta : Bytes → Option Bytes
  | [] => some []
  | [_] => none
  | [w, x] => do
    let w ← value w
    let x ← value x
    return [UInt8.ofNat (w * 4 + x / 16)]
  | [w, x, y] => do
    let w ← value w
    let x ← value x
    let y ← value y
    return [UInt8.ofNat (w * 4 + x / 16), UInt8.ofNat (x % 16 * 16 + y / 4)]
  | w :: x :: y :: z :: r => do
    let w ← value w
    let x ← value x
    let y ← value y
    let z ← value z
    let bs ← decodeQuanta r
    return UInt8.ofNat (w * 4 + x / 16) :: UInt8.ofNat (x % 16 * 16 + y / 4) ::
      UInt8.ofNat (y % 4 * 64 + z) :: bs

/-- `base64.RawStdEncoding.DecodeString`; `none` for `CorruptInputError`. -/
def decodeString (s : Bytes) : Option Bytes :=
  decodeQuanta (s.filter fun c => c ≠ 10 ∧ c ≠ 13)

theorem value_char : ∀ n < 64, value (char n) = some n := by decide

/-- No character of the alphabet is a line break. -/
theorem char_ne : ∀ n < 64, char n ≠ 10 ∧ char n ≠ 13 := by decide

theorem encode_ne {b : Bytes} : ∀ c ∈ encodeToString b, c ≠ 10 ∧ c ≠ 13 := by
  induction b using encodeToString.induct with
  | case1 => simp [encodeToString]
  | case2 a =>
    have ha := a.toNat_lt
    simp only [encodeToString, List.forall_mem_cons]
    exact ⟨char_ne _ (by omega), char_ne _ (by omega), by simp⟩
  | case3 a b =>
    have ha := a.toNat_lt
    have hb := b.toNat_lt
    simp only [encodeToString, List.forall_mem_cons]
    exact ⟨char_ne _ (by omega), char_ne _ (by omega), char_ne _ (by omega), by simp⟩
  | case4 a b c r ih =>
    have ha := a.toNat_lt
    have hb := b.toNat_lt
    have hc := c.toNat_lt
    simp only [encodeToString, List.forall_mem_cons]
    exact ⟨char_ne _ (by omega), char_ne _ (by omega), char_ne _ (by omega),
      char_ne _ (by omega), ih⟩

theorem decodeQuanta_encode (b : Bytes) : decodeQuanta (encodeToString b) = some b := by
  induction b using encodeToString.induct with
  | case1 => rfl
  | case2 a =>
    have ha := a.toNat_lt
    have e1 : a.toNat / 4 * 4 + a.toNat % 4 * 16 / 16 = a.toNat := by omega
    simp only [encodeToString, decodeQuanta, value_char (a.toNat / 4) (by omega),
      value_char (a.toNat % 4 * 16) (by omega), Option.bind_eq_bind, Option.bind_some, e1,
      UInt8.ofNat_toNat]
    rfl
  | case3 a b =>
    have ha := a.toNat_lt
    have hb := b.toNat_lt
    have e1 : a.toNat / 4 * 4 + (a.toNat % 4 * 16 + b.toNat / 16) / 16 = a.toNat := by omega
    have e2 : (a.toNat % 4 * 16 + b.toNat / 16) % 16 * 16 + b.toNat % 16 * 4 / 4 = b.toNat := by
      omega
    simp only [encodeToString, decodeQuanta, value_char (a.toNat / 4) (by omega),
      value_char (a.toNat % 4 * 16 + b.toNat / 16) (by omega),
      value_char (b.toNat % 16 * 4) (by omega), Option.bind_eq_bind, Option.bind_some, e1, e2,
      UInt8.ofNat_toNat]
    rfl
  | case4 a b c r ih =>
    have ha := a.toNat_lt
    have hb := b.toNat_lt
    have hc := c.toNat_lt
    have e1 : a.toNat / 4 * 4 + (a.toNat % 4 * 16 + b.toNat / 16) / 16 = a.toNat := by omega
    have e2 : (a.toNat % 4 * 16 + b.toNat / 16) % 16 * 16 +
        (b.toNat % 16 * 4 + c.toNat / 64) / 4 = b.toNat := by omega
    have e3 : (b.toNat % 16 * 4 + c.toNat / 64) % 4 * 64 + c.toNat % 64 = c.toNat := by omega
    simp only [encodeToString, decodeQuanta, value_char (a.toNat / 4) (by omega),
      value_char (a.toNat % 4 * 16 + b.toNat / 16) (by omega),
      value_char (b.toNat % 16 * 4 + c.toNat / 64) (by omega),
      value_char (c.toNat % 64) (by omega), ih, Option.bind_eq_bind, Option.bind_some, e1, e2, e3,
      UInt8.ofNat_toNat]
    rfl

theorem decode_encode (b : Bytes) : decodeString (encodeToString b) = some b := by
  have hf : (encodeToString b).filter (fun c => c ≠ 10 ∧ c ≠ 13) = encodeToString b := by
    rw [List.filter_eq_self]
    intro c hc
    simpa using encode_ne c hc
  rw [decodeString, hf, decodeQuanta_encode]

theorem encode_length (b : Bytes) : (encodeToString b).length = (8 * b.length + 5) / 6 := by
  induction b using encodeToString.induct with
  | case1 => rfl
  | case2 a => simp [encodeToString]
  | case3 a b => simp [encodeToString]
  | case4 a b c r ih =>
    simp only [encodeToString, List.length_cons, ih]
    omega

end Base64
