/-
  Encrypt under the text form of a public key, decrypt under the text form of its private key.

  `encryptsBack_iff`: whatever the draws, the plaintext comes back exactly when it is not empty.
  For the empty message `ecies.Encrypt` leaves by `return nil, err` with a nil `err`: the caller
  gets an empty ciphertext and no error, and `Decrypt` refuses the empty ciphertext.

  `unitPrimitives` is a set of primitives for concrete runs. On one encryption (scalar 1 on both
  sides, zero initialisation vector, message `a`) its values are those of secp256k1, SHA-256,
  HMAC and AES.
-/
import ZipoLogger.Enc.Keys

namespace ZipoLogger.Enc

open BigEndian

/-! ## The round trip -/

/-- `Encrypt` under `NewEncryptKey(hex of P)` returns an error or a ciphertext that
    `NewDecryptKey(hex of d).Decrypt` turns back into `m`. -/
def EncryptsBack (P : Primitives) (d : Scalar) (m : Bytes) (draws : Draws) : Prop :=
  ∃ ke kd, newEncryptKey (Hex.encodeToString (marshal (P.pub d.D))) = some ke ∧
    newDecryptKey P (Hex.encodeToString (fixed 32 d.D)) = some kd ∧
    match ke.encrypt P m draws with
    | .ok c => kd.decrypt P c = .ok m
    | .error (.error _) => True
    | .error .panic => False

/-- The ciphertext under the public key of `d`: the sealed message, or nothing at all. -/
theorem encrypt_pub (P : Primitives) (d k : Scalar) (iv : IV) (m : Bytes) :
    ∃ z, generateShared P d.D (P.pub k.D) 16 16 = .ok z ∧
      (⟨P.pub d.D⟩ : KeyEncrypt).encrypt P m ⟨some k, some iv⟩ =
        .ok (if m = [] then [] else sealed P (P.pub k.D) z iv m [] []) := by
  obtain ⟨z, hz⟩ := generateShared_ok (P := P) d.D (P.pub k.D)
  have hz' : generateShared P k.D (P.pub d.D) 16 16 = .ok z := by rw [generateShared_comm, hz]
  exact ⟨z, hz, encrypt_of_draws hz'⟩

/-- The two keys are the parsed ones. -/
theorem encryptsBack_keys {P : Primitives} {d : Scalar} {m c : Bytes} {draws : Draws}
    (henc : (⟨P.pub d.D⟩ : KeyEncrypt).encrypt P m draws = .ok c) :
    EncryptsBack P d m draws ↔ decrypt P d.D c [] [] = .ok m := by
  constructor
  · rintro ⟨ke, kd, hke, hkd, h⟩
    cases (newEncryptKey_marshal _).symm.trans hke
    cases (newDecryptKey_fixed d).symm.trans hkd
    rwa [henc] at h
  · intro h
    refine ⟨_, _, newEncryptKey_marshal _, newDecryptKey_fixed d, ?_⟩
    rw [henc]
    exact h

theorem encryptsBack_iff (P : Primitives) (d k : Scalar) (iv : IV) (m : Bytes) :
    EncryptsBack P d m ⟨some k, some iv⟩ ↔ m ≠ [] := by
  obtain ⟨z, hz, henc⟩ := encrypt_pub P d k iv m
  rw [encryptsBack_keys henc]
  by_cases hm : m = []
  · simp [hm, decrypt_nil]
  · simp [hm, decrypt_sealed hm hz]

/-! ## Primitives for concrete runs -/

/-- The base point of secp256k1. -/
def basePoint : Point where
  X := 0x79be667ef9dcbbac55a06295ce870b07029bfcdb2dce28d959f2815b16f81798
  Y := 0x483ada7726a3c4655da4fbfc0e1108a8fd17b448a68554199c47d08ffb10d4b8
  X_lt := by decide
  Y_lt := by decide

/-- Exclusive or with a key stream, the identity past its end. -/
def xorStream : Bytes → Bytes → Bytes
  | [], _ => []
  | bs, [] => bs
  | b :: bs, s :: ss => (b ^^^ s) :: xorStream bs ss

theorem xorStream_length (b s : Bytes) : (xorStream b s).length = b.length := by
  induction b, s using xorStream.induct with
  | case1 => rfl
  | case2 bs h => cases bs <;> rfl
  | case3 b bs s ss ih => simp [xorStream, ih]

theorem xorStream_xorStream (b s : Bytes) : xorStream (xorStream b s) s = b := by
  induction b, s using xorStream.induct with
  | case1 => rfl
  | case2 bs h => cases bs <;> rfl
  | case3 b bs s ss ih =>
    rw [xorStream, xorStream, ih, UInt8.xor_assoc, UInt8.xor_self, UInt8.xor_zero]

/-- The scalar 1 fixes every point; the other scalars are sent to a dummy. -/
def unitPrimitives : Primitives where
  scalarBaseMult k := some (if k = 1 then basePoint else ⟨0, 0, by decide, by decide⟩)
  scalarMult p k := some (if k = 1 then p else ⟨0, 0, by decide, by decide⟩)
  sha256 b :=
    if b = fixed 4 1 ++ fixed 32 basePoint.X then
      fixed 32 0x8cb9c636e2c2d4e3345e36fcfe419f156780a25b8cf712db134a234384fbb0f1
    else if b = fixed 16 0x6780a25b8cf712db134a234384fbb0f1 then
      fixed 32 0x89e892d1ac6a7f3914c14512baf1ff8be5219e82f3385a48cc5e61da59f70b40
    else fixed 32 0
  hmacSha256 _ b :=
    if b = fixed 17 0xe7 then
      fixed 32 0xf32ddf611e419666755c5fca632d138c6306de01736481f16cf8c3aa95e74b00
    else fixed 32 0
  aesCTR _ _ b := xorStream b (fixed 16 0x8602483c010fadc65388e9c85909ae43)
  scalarBaseMult_isSome _ := rfl
  scalarMult_isSome _ _ := rfl
  scalarMult_comm a b := by
    simp only [Option.bind_some]
    split_ifs <;> rfl
  sha256_length b := by split_ifs <;> exact fixed_length _ _
  hmacSha256_length k b := by split_ifs <;> exact fixed_length _ _
  aesCTR_length k iv b := xorStream_length _ _
  aesCTR_aesCTR k iv b := xorStream_xorStream _ _

/-- The scalar 1. -/
def unitScalar : Scalar := ⟨1, by decide, by decide⟩

/-- The zero initialisation vector. -/
def zeroIV : IV := ⟨fixed 16 0, fixed_length _ _⟩

def unitDraws : Draws := ⟨some unitScalar, some zeroIV⟩

/-- The empty message does not come back. -/
theorem encryptsBack_empty_fails : ¬ EncryptsBack unitPrimitives unitScalar [] unitDraws := by
  obtain ⟨z, -, henc⟩ := encrypt_pub unitPrimitives unitScalar unitScalar zeroIV []
  rw [unitDraws, encryptsBack_keys henc]
  simp [decrypt_nil]

end ZipoLogger.Enc
