/-
  enc/enc.go and the key conversions it uses (internal/crypto, internal/common/math): key pairs,
  their text form, and `Encrypt`/`Decrypt` under a parsed key.

  The text form of a private key goes through `PaddedBigBytes`, whose word and byte loops
  (`readBits`) are modelled as they stand; the text form of a public key is the hexadecimal
  `marshal`. Parsing trims white space, decodes hexadecimal and checks what the code checks: a
  length and a range for a scalar, a length and a prefix for a point.
-/
import ZipoLogger.Enc.Ecies
import ZipoLogger.Lib.Codec

namespace ZipoLogger.Enc

open BigEndian

/-! ## `PaddedBigBytes` -/

/-- Bytes of a `big.Word` on a 64-bit platform. -/
def wordBytes : Nat := 8

/-- `bigint.Bits()`: the words, least significant first. -/
def bits (n : Nat) : List Nat := Nat.digits (256 ^ wordBytes) n

/-- The inner loop of `ReadBits`: the bytes of the word `d`, written downwards from index `i`. -/
def readWord : Nat → Nat → Nat → Bytes → Nat × Bytes
  | 0, _, i, buf => (i, buf)
  | j + 1, d, i, buf =>
    if 0 < i then readWord j (d / 256) (i - 1) (buf.set (i - 1) (UInt8.ofNat (d % 256)))
    else (i, buf)

/-- The outer loop of `ReadBits`. -/
def readWords : List Nat → Nat → Bytes → Bytes
  | [], _, buf => buf
  | d :: ds, i, buf =>
    let r := readWord wordBytes d i buf
    readWords ds r.1 r.2

/-- `ReadBits`. -/
def readBits (n : Nat) (buf : Bytes) : Bytes := readWords (bits n) buf.length buf

/-- `PaddedBigBytes`. -/
def paddedBigBytes (bigint n : Nat) : Bytes :=
  if n ≤ bitLen bigint / 8 then minimal bigint else readBits bigint (List.replicate n 0)

/-- One word fills the `j` places below index `i`, or all of them when there are fewer. -/
theorem readWord_eq (j d i : Nat) (tail : Bytes) :
    readWord j d i (List.replicate i 0 ++ tail) =
      (i - j, List.replicate (i - j) 0 ++ (fixed (min i j) d ++ tail)) := by
  induction j generalizing d i tail with
  | zero => simp [readWord, fixed]
  | succ j ih =>
    cases i with
    | zero => simp [readWord, fixed]
    | succ i =>
      have hset : (List.replicate (i + 1) (0 : UInt8) ++ tail).set i (UInt8.ofNat (d % 256)) =
          List.replicate i 0 ++ (UInt8.ofNat (d % 256) :: tail) := by
        rw [List.replicate_succ', List.append_assoc, List.set_append_right _ _ (by simp)]
        simp
      rw [readWord, if_pos (Nat.succ_pos i), Nat.add_sub_cancel, hset, ih, Nat.add_sub_add_right,
        Nat.succ_min_succ, fixed]
      simp

/-- The words of a number fill a buffer of zeros with its low bytes. -/
theorem readWords_eq (ds : List Nat) (hds : ∀ d ∈ ds, d < 256 ^ wordBytes) (i : Nat)
    (tail : Bytes) : readWords ds i (List.replicate i 0 ++ tail) =
      fixed i (Nat.ofDigits (256 ^ wordBytes) ds) ++ tail := by
  induction ds generalizing i tail with
  | nil => rw [readWords, Nat.ofDigits_nil, fixed_zero]
  | cons d ds ih =>
    have hd := hds d List.mem_cons_self
    rw [readWords, readWord_eq, ih (fun x hx => hds x (List.mem_cons_of_mem _ hx)),
      ← List.append_assoc, Nat.ofDigits_cons]
    congr 1
    rcases Nat.le_total wordBytes i with hi | hi
    · have hdiv : (d + 256 ^ wordBytes * Nat.ofDigits (256 ^ wordBytes) ds) / 256 ^ wordBytes =
          Nat.ofDigits (256 ^ wordBytes) ds := by
        rw [Nat.add_mul_div_left _ _ (by decide), Nat.div_eq_of_lt hd, Nat.zero_add]
      have hmod : fixed wordBytes (d + 256 ^ wordBytes * Nat.ofDigits (256 ^ wordBytes) ds) =
          fixed wordBytes d := fixed_congr (Nat.add_mul_mod_self_left _ _ _)
      have hadd := fixed_add (i - wordBytes) wordBytes
        (d + 256 ^ wordBytes * Nat.ofDigits (256 ^ wordBytes) ds)
      rw [Nat.sub_add_cancel hi, hdiv, hmod] at hadd
      rw [Nat.min_eq_right hi, hadd]
    · have hlow : fixed i (d + 256 ^ wordBytes * Nat.ofDigits (256 ^ wordBytes) ds) =
          fixed i d := by
        apply fixed_congr
        obtain ⟨k, hk⟩ := Nat.pow_dvd_pow 256 hi
        rw [hk, Nat.mul_assoc]
        exact Nat.add_mul_mod_self_left _ _ _
      rw [Nat.min_eq_left hi, Nat.sub_eq_zero_of_le hi, hlow]
      rfl

theorem readBits_eq (n len : Nat) : readBits n (List.replicate len 0) = fixed len n := by
  have h := readWords_eq (bits n) (fun d hd => Nat.digits_lt_base (by decide) hd) len []
  rw [List.append_nil, List.append_nil] at h
  rw [readBits, List.length_replicate, h, bits, Nat.ofDigits_digits]

/-- `PaddedBigBytes` of a number that fits is its fixed-width form, on both branches. -/
theorem paddedBigBytes_eq {n len : Nat} (h : n < 256 ^ len) :
    paddedBigBytes n len = fixed len n := by
  unfold paddedBigBytes
  split
  · rename_i hle
    rw [show (256 : Nat) = 2 ^ 8 from rfl, ← pow_mul] at h
    have hub := bitLen_le_iff.mpr h
    have hlen : (bitLen n + 7) / 8 = len := by omega
    rw [minimal, hlen]
  · exact readBits_eq n len

/-! ## Keys -/

/-- `enc.KeyEncrypt`. -/
structure KeyEncrypt where
  pub : Point
  deriving DecidableEq

/-- `enc.KeyDecrypt`. -/
structure KeyDecrypt where
  key : PrivateKey

/-- `enc.Key`. -/
structure Key where
  keyEncrypt : KeyEncrypt
  keyDecrypt : KeyDecrypt

variable (P : Primitives)

/-- `enc.NewKey` on the draw of the scalar. -/
def newKey (draw : Option Scalar) : Option Key :=
  match generateKey P draw with
  | .error _ => none
  | .ok key => some { keyDecrypt := ⟨key⟩, keyEncrypt := ⟨key.pub⟩ }

/-- `KeyEncrypt.EncryptionKey`. -/
def KeyEncrypt.encryptionKey (k : KeyEncrypt) : Bytes := Hex.encodeToString (marshal k.pub)

/-- `crypto.FromECDSA`. -/
def fromECDSA (priv : PrivateKey) : Bytes := paddedBigBytes priv.D (bitSize / 8)

/-- `KeyDecrypt.DecryptionKey`. -/
def KeyDecrypt.decryptionKey (k : KeyDecrypt) : Bytes := Hex.encodeToString (fromECDSA k.key)

/-- `enc.NewEncryptKey`; `none` for nil. -/
def newEncryptKey (encKey : Bytes) : Option KeyEncrypt := do
  let k ← Hex.decodeString (TrimSpace.trimSpace encKey)
  let pub ← unmarshal k
  return ⟨pub⟩

/-- `KeyEncrypt.Encrypt`. -/
def KeyEncrypt.encrypt (k : KeyEncrypt) (msg : Bytes) (draws : Draws) : Except Fault Bytes :=
  Enc.encrypt P k.pub msg [] [] draws

/-- `KeyEncrypt.EncryptString`. -/
def KeyEncrypt.encryptString (k : KeyEncrypt) (str : Bytes) (draws : Draws) :
    Except Fault Bytes :=
  k.encrypt P str draws

/-- `crypto.ToECDSA`; `none` for its errors. -/
def toECDSA (d : Bytes) : Option PrivateKey :=
  if 8 * d.length ≠ bitSize then none
  else if secp256k1N ≤ ofBytes d then none
  else if ofBytes d = 0 then none
  else (P.scalarBaseMult (ofBytes d)).map fun pub => { D := ofBytes d, pub }

/-- `enc.NewDecryptKey`; `none` for nil. -/
def newDecryptKey (encKey : Bytes) : Option KeyDecrypt := do
  let k ← Hex.decodeString (TrimSpace.trimSpace encKey)
  let key ← toECDSA P k
  return ⟨key⟩

/-- `KeyDecrypt.Decrypt`. -/
def KeyDecrypt.decrypt (k : KeyDecrypt) (ciphertext : Bytes) : Except Fault Bytes :=
  Enc.decrypt P k.key.D ciphertext [] []

/-! ## The text forms read back -/

variable {P}

theorem trimSpace_encodeToString (b : Bytes) :
    TrimSpace.trimSpace (Hex.encodeToString b) = Hex.encodeToString b := by
  apply TrimSpace.trimSpace_eq_self
  intro c hc
  have h := Hex.encode_range hc
  exact ⟨UInt8.le_trans (by decide) h.1, UInt8.le_trans h.2 (by decide)⟩

theorem newEncryptKey_marshal (p : Point) :
    newEncryptKey (Hex.encodeToString (marshal p)) = some ⟨p⟩ := by
  simp [newEncryptKey, trimSpace_encodeToString, Hex.decode_encode, unmarshal_marshal]

theorem Scalar.lt_pow (d : Scalar) : d.D < 256 ^ 32 := d.lt.trans (by decide)

theorem Primitives.scalarBaseMult_eq (d : Nat) : P.scalarBaseMult d = some (P.pub d) := by
  simp [Primitives.pub]

theorem newDecryptKey_fixed (d : Scalar) :
    newDecryptKey P (Hex.encodeToString (fixed 32 d.D)) = some ⟨⟨d.D, P.pub d.D⟩⟩ := by
  have hv : ofBytes (fixed 32 d.D) = d.D := ofBytes_fixed_of_lt d.lt_pow
  have hN : ¬ secp256k1N ≤ d.D := Nat.not_le.mpr d.lt
  have h0 : d.D ≠ 0 := Nat.pos_iff_ne_zero.mp d.pos
  simp [newDecryptKey, trimSpace_encodeToString, Hex.decode_encode, toECDSA, bitSize, hv, hN, h0,
    Primitives.scalarBaseMult_eq]

/-- The text of a decryption key has at least the digits of 32 bytes. -/
theorem newDecryptKey_length {text : Bytes} {k : KeyDecrypt} (h : newDecryptKey P text = some k) :
    64 ≤ text.length := by
  have htrim := TrimSpace.trimSpace_length_le text
  unfold newDecryptKey at h
  rcases hk : Hex.decodeString (TrimSpace.trimSpace text) with _ | b
  · rw [hk] at h
    cases h
  · have hlen := Hex.decode_length hk
    rw [hk, Option.bind_eq_bind, Option.bind_some] at h
    by_cases hb : 8 * b.length ≠ bitSize
    · rw [toECDSA, if_pos hb] at h
      cases h
    · simp only [bitSize] at hb
      omega

theorem fromECDSA_eq (d : Scalar) (p : Point) : fromECDSA ⟨d.D, p⟩ = fixed 32 d.D :=
  paddedBigBytes_eq d.lt_pow

/-- A generated pair survives the trip through its text form. -/
theorem newKey_texts (d : Scalar) : ∃ k, newKey P (some d) = some k ∧
    newEncryptKey k.keyEncrypt.encryptionKey = some ⟨P.pub d.D⟩ ∧
    newDecryptKey P k.keyDecrypt.decryptionKey = some ⟨⟨d.D, P.pub d.D⟩⟩ := by
  refine ⟨⟨⟨P.pub d.D⟩, ⟨⟨d.D, P.pub d.D⟩⟩⟩, rfl, newEncryptKey_marshal _, ?_⟩
  rw [KeyDecrypt.decryptionKey, fromECDSA_eq]
  exact newDecryptKey_fixed d

end ZipoLogger.Enc
