/-
  The text forms of keys, in both directions.

  `DecryptionKey` prints the scalar at 32 bytes (`PaddedBigBytes`, whatever zeros lead it) and
  `EncryptionKey` both coordinates at 32 bytes behind the prefix `04`; `NewDecryptKey` and
  `NewEncryptKey` take exactly what is printed, in either case and with white space around it
  (`newDecryptKey_eq_some_iff`, `newEncryptKey_eq_some_iff_lower`).

  `key_strings` assembles the round trips.
-/
import ZipoLogger.Enc.Keys

namespace ZipoLogger.Enc

open BigEndian

variable {P : Primitives}

/-- What the comparison of texts ignores: the case of letters and white space at the ends. -/
def normalize (s : Bytes) : Bytes := Hex.lower (TrimSpace.trimSpace s)

/-- The pair of a scalar: the key `ToECDSA` makes of it. -/
def Scalar.privateKey (P : Primitives) (d : Scalar) : PrivateKey := ⟨d.D, P.pub d.D⟩

theorem decryptionKey_eq (d : Scalar) (p : Point) :
    KeyDecrypt.decryptionKey ⟨⟨d.D, p⟩⟩ = Hex.encodeToString (fixed 32 d.D) := by
  rw [KeyDecrypt.decryptionKey, fromECDSA_eq]

/-! ## What the parsers take -/

/-- `ToECDSA` takes exactly the 32-byte numbers in `[1, N-1]`. -/
theorem toECDSA_eq_some_iff {b : Bytes} {key : PrivateKey} :
    toECDSA P b = some key ↔ ∃ d : Scalar, b = fixed 32 d.D ∧ key = d.privateKey P := by
  constructor
  · intro h
    unfold toECDSA at h
    split at h
    · cases h
    · rename_i hlen
      split at h
      · cases h
      · rename_i hN
        split at h
        · cases h
        · rename_i h0
          have hb : b.length = 32 := by
            simp only [bitSize] at hlen
            omega
          rw [Primitives.scalarBaseMult_eq] at h
          refine ⟨⟨ofBytes b, Nat.pos_of_ne_zero h0, Nat.not_le.mp hN⟩, ?_, ?_⟩
          · exact (fixed_of_length hb).symm
          · exact (Option.some.inj h).symm
  · intro h
    obtain ⟨d, hb, hkey⟩ := h
    have hv : ofBytes (fixed 32 d.D) = d.D := ofBytes_fixed_of_lt d.lt_pow
    have hlen : ¬ 8 * (fixed 32 d.D).length ≠ bitSize := by simp [bitSize]
    rw [hb, hkey, toECDSA, if_neg hlen, hv, if_neg (Nat.not_le.mpr d.lt),
      if_neg (Nat.pos_iff_ne_zero.mp d.pos), Primitives.scalarBaseMult_eq]
    rfl

/-- `NewDecryptKey` takes exactly the texts of the scalars. -/
theorem newDecryptKey_eq_some_iff {s : Bytes} {k : KeyDecrypt} :
    newDecryptKey P s = some k ↔
      ∃ d : Scalar, normalize s = Hex.encodeToString (fixed 32 d.D) ∧ k = ⟨d.privateKey P⟩ := by
  have hbind : newDecryptKey P s = some k ↔
      ∃ b, Hex.decodeString (TrimSpace.trimSpace s) = some b ∧
        ∃ key, toECDSA P b = some key ∧ KeyDecrypt.mk key = k := by
    simp [newDecryptKey, Option.bind_eq_some_iff]
  rw [hbind]
  constructor
  · intro h
    obtain ⟨b, hb, key, hkey, hk⟩ := h
    obtain ⟨d, hd, hkd⟩ := toECDSA_eq_some_iff.mp hkey
    rw [hd] at hb
    rw [hkd] at hk
    exact ⟨d, Hex.decode_eq_some_iff.mp hb, hk.symm⟩
  · intro h
    obtain ⟨d, hd, hk⟩ := h
    exact ⟨_, Hex.decode_eq_some_iff.mpr hd, _, toECDSA_eq_some_iff.mpr ⟨d, rfl, rfl⟩, hk.symm⟩

/-- `NewEncryptKey` takes exactly the texts of the pairs of 32-byte numbers. -/
theorem newEncryptKey_eq_some_iff_lower {s : Bytes} {k : KeyEncrypt} :
    newEncryptKey s = some k ↔ normalize s = k.encryptionKey := by
  have hbind : newEncryptKey s = some k ↔
      ∃ b, Hex.decodeString (TrimSpace.trimSpace s) = some b ∧
        ∃ p, unmarshal b = some p ∧ KeyEncrypt.mk p = k := by
    simp [newEncryptKey, Option.bind_eq_some_iff]
  rw [hbind, normalize, KeyEncrypt.encryptionKey, ← Hex.decode_eq_some_iff]
  constructor
  · intro h
    obtain ⟨b, hb, p, hp, rfl⟩ := h
    rw [hb, unmarshal_eq_some_iff.mp hp]
  · intro h
    exact ⟨_, h, k.pub, unmarshal_marshal _, rfl⟩

/-! ## Both directions -/

/-- The text of a key reads back as the key; a text that is taken is, up to case and white
    space, the text of the key it gave; and `NewDecryptKey` takes the 32-byte numbers in
    `[1, N-1]` and nothing else. -/
theorem key_strings (P : Primitives) :
    (∀ d : Scalar,
      newDecryptKey P (KeyDecrypt.decryptionKey ⟨d.privateKey P⟩) = some ⟨d.privateKey P⟩ ∧
      newEncryptKey (KeyEncrypt.encryptionKey ⟨P.pub d.D⟩) = some ⟨P.pub d.D⟩) ∧
    (∀ s k, newDecryptKey P s = some k → k.decryptionKey = normalize s) ∧
    (∀ s k, newEncryptKey s = some k → k.encryptionKey = normalize s) ∧
    (∀ s, (newDecryptKey P s).isSome ↔
      ∃ d, 1 ≤ d ∧ d ≤ secp256k1N - 1 ∧ normalize s = Hex.encodeToString (fixed 32 d)) := by
  refine ⟨fun d => ⟨?_, newEncryptKey_marshal _⟩, fun s k h => ?_, fun s k h => ?_, fun s => ?_⟩
  · rw [Scalar.privateKey, decryptionKey_eq]
    exact newDecryptKey_fixed d
  · obtain ⟨d, hd, rfl⟩ := newDecryptKey_eq_some_iff.mp h
    rw [Scalar.privateKey, decryptionKey_eq, hd]
  · exact (newEncryptKey_eq_some_iff_lower.mp h).symm
  · have hN : 1 ≤ secp256k1N := by decide
    rw [Option.isSome_iff_exists]
    constructor
    · intro h
      obtain ⟨k, hk⟩ := h
      obtain ⟨d, hd, -⟩ := newDecryptKey_eq_some_iff.mp hk
      have hlt := d.lt
      exact ⟨d.D, d.pos, by omega, hd⟩
    · intro h
      obtain ⟨d, hpos, hle, hd⟩ := h
      have hlt : d < secp256k1N := by omega
      exact ⟨_, newDecryptKey_eq_some_iff.mpr ⟨⟨d, hpos, hlt⟩, hd, rfl⟩⟩

end ZipoLogger.Enc
