/-
  internal/crypto/ecies: ECIES over secp256k1 with AES-128-CTR, SHA-256 and HMAC-SHA-256
  (`ECIES_AES128_SHA256`, the parameters `ParamsFromCurve` gives for `S256()`).

  Model. The curve arithmetic (btcec), the hash, the MAC and the cipher are outside the
  repository and are the fields of `Primitives`, together with what the code relies on: point
  coordinates fit 32 bytes (a field of `Point`), scalar multiplication commutes on multiples of
  the base point, digests and tags have 32 bytes, AES-CTR keeps the length and undoes itself.
  Everything between them is the repository's: offsets, length checks, key derivation, padding of
  the shared secret, the order of the tests. A Go function that returns `(x, err)` is an
  `Except Fault`, where a fault is an error value or a run-time panic; `nil, nil` of a byte
  slice is `ok []`. The random draws are arguments (`Draws`), `none` being a failed read.
-/
import ZipoLogger.Lib.BigEndian

namespace ZipoLogger.Enc

open BigEndian

/-! ## Curve, primitives, faults -/

/-- `secp256k1N`, the order of the base point. -/
def secp256k1N : Nat := 0xfffffffffffffffffffffffffffffffebaaedce6af48a03bbfd25e8cd0364141

/-- `S256().Params().BitSize`. -/
def bitSize : Nat := 256

/-- A pair of big integers of at most 32 bytes each. Nothing says it lies on the curve. -/
@[ext] structure Point where
  X : Nat
  Y : Nat
  X_lt : X < 256 ^ 32
  Y_lt : Y < 256 ^ 32
  deriving DecidableEq

/-- A private scalar in `[1, N-1]`. -/
structure Scalar where
  D : Nat
  pos : 0 < D
  lt : D < secp256k1N
  deriving DecidableEq

/-- An initialisation vector: one AES block. -/
structure IV where
  bytes : Bytes
  length_eq : bytes.length = 16
  deriving DecidableEq

structure Primitives where
  /-- `S256().ScalarBaseMult(k)`. -/
  scalarBaseMult : Nat → Option Point
  /-- `S256().ScalarMult(x, y, k)`. -/
  scalarMult : Point → Nat → Option Point
  /-- `sha256.Sum256`. -/
  sha256 : Bytes → Bytes
  /-- HMAC-SHA-256 under a key. -/
  hmacSha256 : Bytes → Bytes → Bytes
  /-- `cipher.NewCTR(aes, iv).XORKeyStream` under a key. -/
  aesCTR : Bytes → Bytes → Bytes → Bytes
  scalarBaseMult_isSome : ∀ k, (scalarBaseMult k).isSome
  scalarMult_isSome : ∀ p k, (scalarMult p k).isSome
  scalarMult_comm : ∀ a b, (scalarBaseMult a).bind (scalarMult · b) =
    (scalarBaseMult b).bind (scalarMult · a)
  sha256_length : ∀ b, (sha256 b).length = 32
  hmacSha256_length : ∀ k b, (hmacSha256 k b).length = 32
  aesCTR_length : ∀ k iv b, (aesCTR k iv b).length = b.length
  aesCTR_aesCTR : ∀ k iv b, aesCTR k iv (aesCTR k iv b) = b

/-- The error values the package returns, and the failed read of the random source. -/
inductive Err where
  | invalidPublicKey
  | sharedKeyIsPointAtInfinity
  | sharedKeyTooBig
  | invalidMessage
  | invalidKeyLen
  | aesKeySize
  | rand
  deriving DecidableEq, Repr

/-- How a Go call ends without a value. -/
inductive Fault where
  | error (e : Err)
  | panic
  deriving DecidableEq, Repr

/-- The random draws of one encryption: the ephemeral key and the initialisation vector. -/
structure Draws where
  scalar : Option Scalar
  iv : Option IV
  deriving DecidableEq

/-- Both draws succeed. -/
def Draws.ok (d : Draws) : Bool := d.scalar.isSome && d.iv.isSome

theorem Draws.of_ok {d : Draws} (h : d.ok = true) : ∃ k iv, d = ⟨some k, some iv⟩ := by
  obtain ⟨k, iv⟩ := d
  obtain ⟨hk, hiv⟩ := Bool.and_eq_true_iff.mp h
  obtain ⟨k, rfl⟩ := Option.isSome_iff_exists.mp hk
  obtain ⟨iv, rfl⟩ := Option.isSome_iff_exists.mp hiv
  exact ⟨k, iv, rfl⟩

/-! ## Parameters -/

structure ECIESParams where
  hashSize : Nat
  blockSize : Nat
  keyLen : Nat

def eciesAES128SHA256 : ECIESParams := { hashSize := 32, blockSize := 16, keyLen := 16 }

def maxKeyLen : Nat := 512

/-- `pubkeyParams` for a key on `S256()`. -/
def pubkeyParams : Except Fault ECIESParams :=
  let params := eciesAES128SHA256
  if maxKeyLen < params.keyLen then .error (.error .invalidKeyLen) else .ok params

/-! ## Point marshalling (`btCurve`) -/

def byteLen : Nat := (bitSize + 7) / 8

theorem byteLen_eq : byteLen = 32 := rfl

/-- `btCurve.Marshal`. -/
def marshal (p : Point) : Bytes := 4 :: (fixed byteLen p.X ++ fixed byteLen p.Y)

theorem ofBytes_lt_of_length_le {b : Bytes} (h : b.length ≤ 32) : ofBytes b < 256 ^ 32 :=
  (ofBytes_lt b).trans_le (Nat.pow_le_pow_right (by decide) h)

/-- `btCurve.Unmarshal`; `none` for the nil coordinates. -/
def unmarshal (data : Bytes) : Option Point :=
  if h : data.length ≠ 1 + 2 * byteLen then none
  else if data.head? ≠ some 4 then none
  else some
    { X := ofBytes ((data.drop 1).take byteLen)
      Y := ofBytes (data.drop (1 + byteLen))
      X_lt := ofBytes_lt_of_length_le (List.length_take_le _ _)
      Y_lt := ofBytes_lt_of_length_le (by
        rw [List.length_drop]
        simp only [byteLen, bitSize] at h ⊢
        omega) }

theorem marshal_length (p : Point) : (marshal p).length = 65 := by simp [marshal, byteLen, bitSize]

theorem unmarshal_marshal (p : Point) : unmarshal (marshal p) = some p := by
  have hl := marshal_length p
  have hX : ((marshal p).drop 1).take byteLen = fixed byteLen p.X := by
    rw [marshal, List.drop_one, List.tail_cons, List.take_left' (fixed_length _ _)]
  have hY : (marshal p).drop (1 + byteLen) = fixed byteLen p.Y := by
    rw [marshal, Nat.add_comm, List.drop_succ_cons, List.drop_left' (fixed_length _ _)]
  have h65 : ¬ (marshal p).length ≠ 1 + 2 * byteLen := by simp [hl, byteLen, bitSize]
  have hh : ¬ (marshal p).head? ≠ some 4 := by simp [marshal]
  have eX : ofBytes (((marshal p).drop 1).take byteLen) = p.X := by
    rw [hX, byteLen_eq, ofBytes_fixed_of_lt p.X_lt]
  have eY : ofBytes ((marshal p).drop (1 + byteLen)) = p.Y := by
    rw [hY, byteLen_eq, ofBytes_fixed_of_lt p.Y_lt]
  rw [unmarshal, dif_neg h65, if_neg hh, Option.some_inj]
  -- the projections are reduced first: unification would unfold `ofBytes`
  refine Point.ext ?_ ?_ <;> dsimp only
  · exact eX
  · exact eY

/-- `btCurve.Unmarshal` takes exactly what `btCurve.Marshal` makes of a pair. -/
theorem unmarshal_eq_some_iff {data : Bytes} {p : Point} :
    unmarshal data = some p ↔ data = marshal p := by
  constructor
  · intro h
    unfold unmarshal at h
    split at h
    · cases h
    · rename_i hlen
      split at h
      · cases h
      · rename_i hhead
        have hp := Option.some.inj h
        rw [not_not] at hlen hhead
        rcases data with _ | ⟨b, data⟩
        · cases hhead
        · have hb : b = 4 := Option.some.inj hhead
          have hl : data.length = 64 := by
            rw [List.length_cons, byteLen_eq] at hlen
            omega
          have eX : fixed 32 (ofBytes (data.take 32)) = data.take 32 :=
            fixed_of_length (by rw [List.length_take]; omega)
          have eY : fixed 32 (ofBytes (data.drop 32)) = data.drop 32 :=
            fixed_of_length (by rw [List.length_drop]; omega)
          have pX : p.X = ofBytes (data.take 32) := by
            rw [← hp]
            rfl
          have pY : p.Y = ofBytes (data.drop 32) := by
            rw [← hp]
            show ofBytes ((b :: data).drop (1 + byteLen)) = _
            rw [byteLen_eq, Nat.add_comm, List.drop_succ_cons]
          rw [marshal, byteLen_eq, pX, pY, eX, eY, List.take_append_drop, hb]
  · rintro rfl
    exact unmarshal_marshal p

/-! ## Key agreement and key derivation -/

variable (P : Primitives)

structure PrivateKey where
  D : Nat
  pub : Point

/-- The public point of a scalar, `ScalarBaseMult` of its bytes. -/
def Primitives.pub (d : Nat) : Point := (P.scalarBaseMult d).get (P.scalarBaseMult_isSome d)

/-- `GenerateKey` on the draw of the scalar. -/
def generateKey : Option Scalar → Except Fault PrivateKey
  | none => .error (.error .rand)
  | some d => .ok { D := d.D, pub := P.pub d.D }

/-- `MaxSharedKeyLength`. -/
def maxSharedKeyLength : Nat := (bitSize + 7) / 8

/-- `PrivateKey.GenerateShared`; both keys are on `S256()`. A secret longer than the buffer
    would be an out-of-range slice. -/
def generateShared (D : Nat) (pub : Point) (skLen macLen : Nat) : Except Fault Bytes :=
  if maxSharedKeyLength < skLen + macLen then .error (.error .sharedKeyTooBig)
  else match P.scalarMult pub (ofBytes (minimal D)) with
  | none => .error (.error .sharedKeyIsPointAtInfinity)
  | some x =>
    let skBytes := minimal x.X
    if skLen + macLen < skBytes.length then .error .panic
    else .ok (List.replicate (skLen + macLen - skBytes.length) 0 ++ skBytes)

/-- The loop of `concatKDF` from a counter, `k` being the key material so far. The first argument
    bounds the rounds; each adds a digest, so `kdLen` of them are enough. -/
def kdfLoop (z s1 : Bytes) (kdLen : Nat) : Nat → Nat → Bytes → Bytes
  | 0, _, k => k
  | n + 1, counter, k =>
    if k.length < kdLen then
      kdfLoop z s1 kdLen n (counter + 1) (k ++ P.sha256 (fixed 4 counter ++ z ++ s1))
    else k

/-- `concatKDF`. -/
def concatKDF (z s1 : Bytes) (kdLen : Nat) : Bytes :=
  (kdfLoop P z s1 kdLen kdLen 1 []).take kdLen

/-- `deriveKeys`: the encryption key and the MAC key. -/
def deriveKeys (z s1 : Bytes) (keyLen : Nat) : Bytes × Bytes :=
  let K := concatKDF P z s1 (2 * keyLen)
  (K.take keyLen, P.sha256 (K.drop keyLen))

/-- `messageTag`. -/
def messageTag (km msg shared : Bytes) : Bytes := P.hmacSha256 km (msg ++ shared)

/-- `aes.NewCipher`. -/
def newCipher (key : Bytes) : Except Fault Unit :=
  if key.length = 16 ∨ key.length = 24 ∨ key.length = 32 then .ok ()
  else .error (.error .aesKeySize)

/-- `generateIV` on the draw. -/
def generateIV : Option IV → Except Fault Bytes
  | none => .error (.error .rand)
  | some iv => .ok iv.bytes

/-- `symEncrypt`. -/
def symEncrypt (key m : Bytes) (iv : Option IV) : Except Fault Bytes := do
  newCipher key
  let iv ← generateIV iv
  return iv ++ P.aesCTR key iv m

/-- `symDecrypt`. With fewer bytes than a block the slice `ct[:BlockSize]` reaches into the tag
    behind the body, and the length of the result is negative, which panics in `make`. -/
def symDecrypt (params : ECIESParams) (key ct : Bytes) : Except Fault Bytes := do
  newCipher key
  if ct.length < params.blockSize then throw .panic
  return P.aesCTR key (ct.take params.blockSize) (ct.drop params.blockSize)

/-! ## Encrypt and Decrypt -/

/-- `ecies.Encrypt`. -/
def encrypt (pub : Point) (m s1 s2 : Bytes) (draws : Draws) : Except Fault Bytes := do
  let params ← pubkeyParams
  let R ← generateKey P draws.scalar
  let z ← generateShared P R.D pub params.keyLen params.keyLen
  let (Ke, Km) := deriveKeys P z s1 params.keyLen
  let em ← symEncrypt P Ke m draws.iv
  -- `return nil, err` with a nil `err` when the body is no longer than the initialisation vector
  if em.length ≤ params.blockSize then return []
  let d := messageTag P Km em s2
  return marshal R.pub ++ em ++ d

/-- `PrivateKey.Decrypt`. -/
def decrypt (D : Nat) (c s1 s2 : Bytes) : Except Fault Bytes := do
  if c.length = 0 then throw (.error .invalidMessage)
  let params ← pubkeyParams
  let hLen := params.hashSize
  if c.head? = some 2 ∨ c.head? = some 3 ∨ c.head? = some 4 then
    let rLen := (bitSize + 7) / 4
    if c.length < rLen + hLen + 1 then throw (.error .invalidMessage)
    let mStart := rLen
    let mEnd := c.length - hLen
    match unmarshal (c.take rLen) with
    | none => throw (.error .invalidPublicKey)
    | some R =>
      let z ← generateShared P D R params.keyLen params.keyLen
      let (Ke, Km) := deriveKeys P z s1 params.keyLen
      let d := messageTag P Km ((c.take mEnd).drop mStart) s2
      if c.drop mEnd ≠ d then throw (.error .invalidMessage)
      symDecrypt P params Ke ((c.take mEnd).drop mStart)
  else throw (.error .invalidPublicKey)

/-! ## What the steps compute -/

variable {P}

theorem kdfLoop_length {z s1 : Bytes} {kdLen n counter : Nat} {k : Bytes}
    (h : kdLen ≤ k.length + n) : kdLen ≤ (kdfLoop P z s1 kdLen n counter k).length := by
  induction n generalizing counter k with
  | zero => simpa [kdfLoop] using h
  | succ n ih =>
    rw [kdfLoop]
    split
    · apply ih
      rw [List.length_append, P.sha256_length]
      omega
    · omega

@[simp] theorem concatKDF_length (z s1 : Bytes) (kdLen : Nat) :
    (concatKDF P z s1 kdLen).length = kdLen := by
  have h : kdLen ≤ (kdfLoop P z s1 kdLen kdLen 1 []).length := kdfLoop_length (by simp)
  rw [concatKDF, List.length_take, Nat.min_eq_left h]

theorem deriveKeys_fst_length (z s1 : Bytes) (keyLen : Nat) :
    (deriveKeys P z s1 keyLen).1.length = keyLen := by
  simp only [deriveKeys, List.length_take, concatKDF_length]
  omega

/-- The shared secret is the 32-byte form of the abscissa, leading zeros included. -/
theorem generateShared_eq {D : Nat} {pub x : Point} (h : P.scalarMult pub D = some x) :
    generateShared P D pub 16 16 = .ok (fixed 32 x.X) := by
  have hle := minimal_length_le x.X_lt
  have hpad := replicate_append_minimal x.X_lt
  unfold generateShared
  rw [if_neg (by decide), ofBytes_minimal, h]
  dsimp only
  rw [if_neg (by omega), hpad]

/-- Both sides of a key agreement get the same secret. -/
theorem generateShared_comm (a b : Nat) :
    generateShared P a (P.pub b) 16 16 = generateShared P b (P.pub a) 16 16 := by
  have hcomm := P.scalarMult_comm a b
  obtain ⟨A, hA⟩ := Option.isSome_iff_exists.mp (P.scalarBaseMult_isSome a)
  obtain ⟨B, hB⟩ := Option.isSome_iff_exists.mp (P.scalarBaseMult_isSome b)
  have hpa : P.pub a = A := by simp [Primitives.pub, hA]
  have hpb : P.pub b = B := by simp [Primitives.pub, hB]
  rw [hA, hB, Option.bind_some, Option.bind_some] at hcomm
  obtain ⟨x, hx⟩ := Option.isSome_iff_exists.mp (P.scalarMult_isSome A b)
  rw [hpa, hpb, generateShared_eq hx, generateShared_eq (hcomm ▸ hx)]

/-- The shared secret of a private scalar and any point. -/
theorem generateShared_ok (D : Nat) (pub : Point) :
    ∃ z, generateShared P D pub 16 16 = .ok z := by
  obtain ⟨x, hx⟩ := Option.isSome_iff_exists.mp (P.scalarMult_isSome pub D)
  exact ⟨_, generateShared_eq hx⟩

theorem newCipher_deriveKeys (z s1 : Bytes) : newCipher (deriveKeys P z s1 16).1 = .ok () := by
  unfold newCipher
  rw [if_pos (.inl (deriveKeys_fst_length z s1 16))]

/-- The ciphertext of a non-empty message: point, initialisation vector, body, tag. -/
def sealed (P : Primitives) (R : Point) (z : Bytes) (iv : IV) (m s1 s2 : Bytes) : Bytes :=
  let K := deriveKeys P z s1 16
  let em := iv.bytes ++ P.aesCTR K.1 iv.bytes m
  marshal R ++ em ++ messageTag P K.2 em s2

theorem sealed_length (R : Point) (z : Bytes) (iv : IV) (m s1 s2 : Bytes) :
    (sealed P R z iv m s1 s2).length = m.length + 113 := by
  simp only [sealed, messageTag, List.length_append, marshal_length, iv.length_eq,
    P.aesCTR_length, P.hmacSha256_length]
  omega

theorem encrypt_of_draws {pub : Point} {m s1 s2 z : Bytes} {k : Scalar} {iv : IV}
    (hz : generateShared P k.D pub 16 16 = .ok z) :
    encrypt P pub m s1 s2 ⟨some k, some iv⟩ =
      .ok (if m = [] then [] else sealed P (P.pub k.D) z iv m s1 s2) := by
  have hlen : (iv.bytes ++ P.aesCTR (deriveKeys P z s1 16).1 iv.bytes m).length ≤ 16 ↔
      m = [] := by
    rw [List.length_append, iv.length_eq, P.aesCTR_length, ← List.length_eq_zero_iff]
    omega
  simp only [encrypt, pubkeyParams, maxKeyLen, eciesAES128SHA256, generateKey, symEncrypt,
    generateIV, bind, Except.bind, Nat.reduceLT, if_false, hz, newCipher_deriveKeys, pure,
    Except.pure, hlen]
  split <;> rfl

/-- An encryption fails exactly when one of its draws does. -/
theorem encrypt_ok_iff (pub : Point) (m s1 s2 : Bytes) (draws : Draws) :
    (∃ c, encrypt P pub m s1 s2 draws = .ok c) ↔ draws.ok := by
  obtain ⟨k, iv⟩ := draws
  cases k with
  | none => simp [encrypt, pubkeyParams, maxKeyLen, eciesAES128SHA256, generateKey, bind,
      Except.bind, Draws.ok]
  | some k =>
    obtain ⟨z, hz⟩ := generateShared_ok (P := P) k.D pub
    cases iv with
    | none => simp [encrypt, pubkeyParams, maxKeyLen, eciesAES128SHA256, generateKey, symEncrypt,
        generateIV, hz, newCipher_deriveKeys, bind, Except.bind, Draws.ok]
    | some iv =>
      rw [encrypt_of_draws hz]
      simp [Draws.ok]

/-- A ciphertext is empty or 113 bytes longer than its message. -/
theorem encrypt_length {pub : Point} {m s1 s2 c : Bytes} {draws : Draws}
    (h : encrypt P pub m s1 s2 draws = .ok c) :
    c.length = if m = [] then 0 else m.length + 113 := by
  obtain ⟨k, iv, rfl⟩ := Draws.of_ok ((encrypt_ok_iff pub m s1 s2 draws).mp ⟨c, h⟩)
  obtain ⟨z, hz⟩ := generateShared_ok (P := P) k.D pub
  rw [encrypt_of_draws hz] at h
  cases h
  split
  · rfl
  · exact sealed_length _ _ _ _ _ _

/-! ## The parts of a ciphertext -/

/-- What stands between the point and the tag. -/
def body (c : Bytes) : Bytes := (c.take (c.length - 32)).drop 65

/-- The last bytes. -/
def tag (c : Bytes) : Bytes := c.drop (c.length - 32)

/-- With a key of `deriveKeys` only the length of the body counts. -/
theorem symDecrypt_deriveKeys (z s1 ct : Bytes) :
    symDecrypt P eciesAES128SHA256 (deriveKeys P z s1 16).1 ct =
      if ct.length < 16 then .error .panic
      else .ok (P.aesCTR (deriveKeys P z s1 16).1 (ct.take 16) (ct.drop 16)) := by
  by_cases h : ct.length < 16
  · have hb : ct.length < eciesAES128SHA256.blockSize := h
    simp only [symDecrypt, newCipher_deriveKeys, bind, Except.bind, if_pos hb, if_pos h]
    rfl
  · have hb : ¬ ct.length < eciesAES128SHA256.blockSize := h
    simp only [symDecrypt, newCipher_deriveKeys, bind, Except.bind, if_neg hb, if_neg h]
    rfl

/-- `Decrypt` of a ciphertext that passes the length check and begins with a point. -/
theorem decrypt_of_point {D : Nat} {R : Point} {c z : Bytes} (s1 s2 : Bytes) (hlen : 98 ≤ c.length)
    (hR : unmarshal (c.take 65) = some R) (hz : generateShared P D R 16 16 = .ok z) :
    decrypt P D c s1 s2 =
      if tag c = messageTag P (deriveKeys P z s1 16).2 (body c) s2 then
        symDecrypt P eciesAES128SHA256 (deriveKeys P z s1 16).1 (body c)
      else .error (.error .invalidMessage) := by
  have hhead : c.head? = some 4 := by
    rcases c with _ | ⟨b, c⟩
    · simp at hlen
    · unfold unmarshal at hR
      split at hR
      · cases hR
      · split at hR
        · cases hR
        · rename_i hb
          simpa using hb
  have hne : c.length ≠ 0 := by omega
  have hlong : ¬ c.length < 65 + 32 + 1 := by omega
  have hrLen : (bitSize + 7) / 4 = 65 := rfl
  unfold decrypt
  simp only [pubkeyParams, maxKeyLen, hne, hhead, if_false, or_true, if_true, bind,
    Except.bind, hrLen, hR]
  by_cases h : tag c = messageTag P (deriveKeys P z s1 16).2 (body c) s2
  · simp only [eciesAES128SHA256, Nat.reduceLT, if_false, hlong, hz, body, tag] at h ⊢
    simp only [h, ne_eq, not_true_eq_false, if_false, if_true]
  · simp only [eciesAES128SHA256, Nat.reduceLT, if_false, hlong, hz, body, tag] at h ⊢
    simp only [h, ne_eq, not_false_eq_true, if_false, if_true]
    rfl

/-- A sealed message begins with its point, ends with its tag and has its body in between. -/
theorem sealed_parts (R : Point) (z : Bytes) (iv : IV) (m s1 s2 : Bytes) :
    unmarshal ((sealed P R z iv m s1 s2).take 65) = some R ∧
      body (sealed P R z iv m s1 s2) =
        iv.bytes ++ P.aesCTR (deriveKeys P z s1 16).1 iv.bytes m ∧
      tag (sealed P R z iv m s1 s2) =
        messageTag P (deriveKeys P z s1 16).2 (body (sealed P R z iv m s1 s2)) s2 := by
  have hlen := sealed_length (P := P) R z iv m s1 s2
  obtain ⟨Ke, Km, hK⟩ : ∃ Ke Km, deriveKeys P z s1 16 = (Ke, Km) := ⟨_, _, rfl⟩
  set em := iv.bytes ++ P.aesCTR Ke iv.bytes m with hem
  have hemLen : em.length = m.length + 16 := by
    rw [hem, List.length_append, iv.length_eq, P.aesCTR_length]
    omega
  have hc : sealed P R z iv m s1 s2 = marshal R ++ (em ++ messageTag P Km em s2) := by
    simp only [sealed, hK, ← hem, List.append_assoc]
  have hEnd : (sealed P R z iv m s1 s2).length - 32 = 65 + em.length := by omega
  have hbody : body (sealed P R z iv m s1 s2) = em := by
    rw [body, hEnd, hc, ← List.append_assoc,
      List.take_left' (by rw [List.length_append, marshal_length]),
      List.drop_left' (marshal_length R)]
  refine ⟨?_, by rw [hbody, hK], ?_⟩
  · rw [hc, List.take_left' (marshal_length R), unmarshal_marshal]
  · rw [hbody, hK, tag, hEnd, hc, ← List.append_assoc,
      List.drop_left' (by rw [List.length_append, marshal_length])]

/-- Decrypting a sealed message with the scalar whose shared secret sealed it. -/
theorem decrypt_sealed {D : Nat} {R : Point} {z : Bytes} {iv : IV} {m s1 s2 : Bytes}
    (hm : m ≠ []) (hz : generateShared P D R 16 16 = .ok z) :
    decrypt P D (sealed P R z iv m s1 s2) s1 s2 = .ok m := by
  have hpos : 0 < m.length := List.length_pos_iff.mpr hm
  have hlen := sealed_length (P := P) R z iv m s1 s2
  obtain ⟨Ke, Km, hK⟩ : ∃ Ke Km, deriveKeys P z s1 16 = (Ke, Km) := ⟨_, _, rfl⟩
  set em := iv.bytes ++ P.aesCTR Ke iv.bytes m with hem
  have hemLen : em.length = m.length + 16 := by
    rw [hem, List.length_append, iv.length_eq, P.aesCTR_length]
    omega
  have hc : sealed P R z iv m s1 s2 = marshal R ++ (em ++ messageTag P Km em s2) := by
    simp only [sealed, hK, ← hem, List.append_assoc]
  have hR : unmarshal ((sealed P R z iv m s1 s2).take 65) = some R := by
    rw [hc, List.take_left' (marshal_length R), unmarshal_marshal]
  have hEnd : (sealed P R z iv m s1 s2).length - 32 = 65 + em.length := by omega
  have hbody : body (sealed P R z iv m s1 s2) = em := by
    rw [body, hEnd, hc, ← List.append_assoc,
      List.take_left' (by rw [List.length_append, marshal_length]),
      List.drop_left' (marshal_length R)]
  have htag : tag (sealed P R z iv m s1 s2) = messageTag P Km em s2 := by
    rw [tag, hEnd, hc, ← List.append_assoc,
      List.drop_left' (by rw [List.length_append, marshal_length])]
  have hiv : em.take 16 = iv.bytes := by rw [hem, List.take_left' iv.length_eq]
  have hct : em.drop 16 = P.aesCTR Ke iv.bytes m := by rw [hem, List.drop_left' iv.length_eq]
  have hblk : ¬ em.length < 16 := by omega
  rw [decrypt_of_point s1 s2 (by omega) hR hz, symDecrypt_deriveKeys, hbody, htag, hK,
    if_pos rfl, if_neg hblk, hiv, hct, P.aesCTR_aesCTR]

/-- The empty ciphertext is refused. -/
theorem decrypt_nil (D : Nat) (s1 s2 : Bytes) :
    decrypt P D [] s1 s2 = .error (.error .invalidMessage) := rfl

end ZipoLogger.Enc
