/-
  When `KeyDecrypt.Decrypt` panics.

  `ecies.Decrypt` asks for a point, one byte and a tag; `symDecrypt` makes a slice of the body's
  length minus a block. A body of 1 to 15 bytes passes the first check and fails the second, after
  its tag has verified. Whoever knows the encryption key can compute that tag.
  `decrypt_survives_iff`: there is no other way to panic.
-/
import ZipoLogger.Enc.RoundTrip

namespace ZipoLogger.Enc

open BigEndian

variable {P : Primitives} {D : Nat} {c s1 s2 : Bytes}

/-- The call returns a plaintext or an error. -/
def Survives (r : Except Fault Bytes) : Prop := (∃ m, r = .ok m) ∨ ∃ e, r = .error (.error e)

/-- The ciphertext begins with a point and ends with the tag of its body, under the keys derived
    from that point and the scalar. -/
def Authentic (P : Primitives) (D : Nat) (c : Bytes) : Prop :=
  ∃ R z, unmarshal (c.take 65) = some R ∧ generateShared P D R 16 16 = .ok z ∧
    tag c = messageTag P (deriveKeys P z [] 16).2 (body c) []

theorem body_length (h : 98 ≤ c.length) : (body c).length = c.length - 97 := by
  rw [body, List.length_drop, List.length_take]
  omega

/-- The first length check. -/
theorem decrypt_short (h : c.length < 98) : ∃ e, decrypt P D c s1 s2 = .error (.error e) := by
  by_cases h0 : c.length = 0
  · rw [List.length_eq_zero_iff.mp h0]
    exact ⟨_, rfl⟩
  · have hrLen : (bitSize + 7) / 4 = 65 := rfl
    have hshort : c.length < 65 + 32 + 1 := h
    unfold decrypt
    simp only [pubkeyParams, maxKeyLen, bind, Except.bind, if_neg h0, hrLen]
    by_cases hhead : c.head? = some 2 ∨ c.head? = some 3 ∨ c.head? = some 4
    · simp only [eciesAES128SHA256, Nat.reduceLT, if_false, if_pos hhead, hshort, if_true]
      exact ⟨_, rfl⟩
    · simp only [if_neg hhead]
      exact ⟨_, rfl⟩

/-- A ciphertext that does not begin with a point. -/
theorem decrypt_no_point (h : 98 ≤ c.length) (hR : unmarshal (c.take 65) = none) :
    ∃ e, decrypt P D c s1 s2 = .error (.error e) := by
  have h0 : ¬ c.length = 0 := by omega
  have hrLen : (bitSize + 7) / 4 = 65 := rfl
  have hlong : ¬ c.length < 65 + 32 + 1 := by omega
  unfold decrypt
  simp only [pubkeyParams, maxKeyLen, bind, Except.bind, if_neg h0, hrLen, hR]
  by_cases hhead : c.head? = some 2 ∨ c.head? = some 3 ∨ c.head? = some 4
  · simp only [eciesAES128SHA256, Nat.reduceLT, if_false, if_pos hhead, hlong]
    exact ⟨_, rfl⟩
  · simp only [if_neg hhead]
    exact ⟨_, rfl⟩

/-- Whatever is not authentic is refused with an error. -/
theorem decrypt_not_authentic (h : ¬ Authentic P D c) :
    ∃ e, decrypt P D c [] [] = .error (.error e) := by
  by_cases hlen : c.length < 98
  · exact decrypt_short hlen
  · rw [Nat.not_lt] at hlen
    cases hR : unmarshal (c.take 65) with
    | none => exact decrypt_no_point hlen hR
    | some R =>
      obtain ⟨z, hz⟩ := generateShared_ok (P := P) D R
      have htag : ¬ tag c = messageTag P (deriveKeys P z [] 16).2 (body c) [] :=
        fun he => h ⟨R, z, hR, hz, he⟩
      rw [decrypt_of_point [] [] hlen hR hz, if_neg htag]
      exact ⟨_, rfl⟩

/-- What is authentic comes to `symDecrypt`. -/
theorem decrypt_authentic (hlen : 98 ≤ c.length) (h : Authentic P D c) :
    ((body c).length < 16 ∧ decrypt P D c [] [] = .error .panic) ∨
      (16 ≤ (body c).length ∧ ∃ m, decrypt P D c [] [] = .ok m) := by
  obtain ⟨R, z, hR, hz, htag⟩ := h
  rw [decrypt_of_point [] [] hlen hR hz, if_pos htag, symDecrypt_deriveKeys]
  by_cases hb : (body c).length < 16
  · rw [if_pos hb]
    exact .inl ⟨hb, rfl⟩
  · rw [if_neg hb]
    exact .inr ⟨Nat.not_lt.mp hb, _, rfl⟩

/-- Under every key `Decrypt` returns a plaintext or an error exactly when the ciphertext is not an
    authentic one with fewer than 16 bytes between the point and the tag. -/
theorem decrypt_survives_iff (P : Primitives) (k : KeyDecrypt) (c : Bytes) :
    Survives (k.decrypt P c) ↔ ¬ (98 ≤ c.length ∧ c.length < 113 ∧ Authentic P k.key.D c) := by
  constructor
  · intro hs hbad
    obtain ⟨hlen, hshort, hauth⟩ := hbad
    have hb := body_length hlen
    rcases decrypt_authentic hlen hauth with ⟨-, hp⟩ | ⟨hlong, -⟩
    · rcases hs with ⟨m, hm⟩ | ⟨e, he⟩
      · cases hm.symm.trans hp
      · cases he.symm.trans hp
    · omega
  · intro hno
    by_cases hauth : Authentic P k.key.D c
    · by_cases hlen : 98 ≤ c.length
      · have hb := body_length hlen
        rcases decrypt_authentic hlen hauth with ⟨hshort, -⟩ | ⟨-, hm⟩
        · exact absurd ⟨hlen, by omega, hauth⟩ hno
        · exact .inl hm
      · exact .inr (decrypt_short (Nat.not_le.mp hlen))
    · exact .inr (decrypt_not_authentic hauth)

/-- `unitPrimitives`, with the tag of a body that is one zero byte. -/
def craftedPrimitives : Primitives :=
  { unitPrimitives with
    hmacSha256 := fun _ b =>
      if b = [0] then
        fixed 32 0x60dc816b38b97c99b45214ac408c698dda0a61a1c53dbdd7395f750dc6740de1
      else fixed 32 0
    hmacSha256_length := fun k b => by split_ifs <;> exact fixed_length _ _ }

/-- The base point, a zero byte, the tag under the keys of the scalar 1. -/
def craftedCiphertext : Bytes :=
  marshal basePoint ++ [0] ++
    fixed 32 0x60dc816b38b97c99b45214ac408c698dda0a61a1c53dbdd7395f750dc6740de1

/-- With the decryption key of the scalar 1 it panics. -/
theorem craftedCiphertext_panics : ¬ ∀ (text : Bytes) (k : KeyDecrypt),
    newDecryptKey craftedPrimitives text = some k →
      ∀ c, Survives (k.decrypt craftedPrimitives c) := by
  intro h
  have hp : (⟨⟨1, basePoint⟩⟩ : KeyDecrypt).decrypt craftedPrimitives craftedCiphertext =
      .error .panic := by decide +kernel
  rcases h _ _ (newDecryptKey_fixed unitScalar) craftedCiphertext with ⟨m, hm⟩ | ⟨e, he⟩
  · cases hm.symm.trans hp
  · cases he.symm.trans hp

end ZipoLogger.Enc
