/-
  Which texts are taken for an encryption key.

  `UnmarshalPubkey` "converts bytes to a secp256k1 public key", and the comment of
  `CompressPubkey` names it among the functions that give coordinates below the field prime and a
  point on the curve. `btCurve.Unmarshal` checks the length and the prefix only, so every pair of
  32-byte numbers is taken (`newEncryptKey_eq_some_iff`). `SetGlobalEncryption` and
  `SetEncryptionKey` take what `NewEncryptKey` takes.
-/
import ZipoLogger.Enc.RoundTrip
import ZipoLogger.Logger.Step

namespace ZipoLogger

open Enc BigEndian

/-! ## Points of the curve -/

/-- The field prime of secp256k1. -/
def secp256k1P : Nat := 0xfffffffffffffffffffffffffffffffffffffffffffffffffffffffefffffc2f

/-- Coordinates in the field, on `y² = x³ + 7`. -/
def OnCurve (p : Point) : Prop :=
  p.X < secp256k1P ∧ p.Y < secp256k1P ∧ p.Y ^ 2 % secp256k1P = (p.X ^ 3 + 7) % secp256k1P

instance (p : Point) : Decidable (OnCurve p) := inferInstanceAs (Decidable (_ ∧ _))

/-- Without the white space around it, the text is the hexadecimal `04 ‖ X ‖ Y`. -/
def EncodesPair (text : Bytes) (p : Point) : Prop :=
  Hex.decodeString (TrimSpace.trimSpace text) = some (4 :: (fixed 32 p.X ++ fixed 32 p.Y))

def EncodesPoint (text : Bytes) : Prop := ∃ p, EncodesPair text p ∧ OnCurve p

example : OnCurve basePoint := by decide +kernel

/-! ## What the code checks -/

theorem newEncryptKey_eq_some_iff {text : Bytes} {p : Point} :
    newEncryptKey text = some ⟨p⟩ ↔ EncodesPair text p := by
  unfold newEncryptKey EncodesPair
  cases hk : Hex.decodeString (TrimSpace.trimSpace text) with
  | none => simp
  | some k =>
    have hu : unmarshal k = some p ↔ k = marshal p := unmarshal_eq_some_iff
    rw [marshal, byteLen_eq] at hu
    rw [Option.some_inj, ← hu, Option.bind_eq_bind, Option.bind_some]
    rcases unmarshal k with _ | q
    · simp
    · simp

theorem newEncryptKey_isSome_iff {text : Bytes} :
    (newEncryptKey text).isSome ↔ ∃ p, EncodesPair text p := by
  rw [Option.isSome_iff_exists]
  constructor
  · intro h
    obtain ⟨⟨p⟩, hp⟩ := h
    exact ⟨p, newEncryptKey_eq_some_iff.mp hp⟩
  · intro h
    obtain ⟨p, hp⟩ := h
    exact ⟨⟨p⟩, newEncryptKey_eq_some_iff.mpr hp⟩

/-- A text encodes at most one pair. -/
theorem EncodesPair.unique {text : Bytes} {p q : Point} (hp : EncodesPair text p)
    (hq : EncodesPair text q) : p = q := by
  have h := (newEncryptKey_eq_some_iff.mpr hp).symm.trans (newEncryptKey_eq_some_iff.mpr hq)
  exact congrArg KeyEncrypt.pub (Option.some.inj h)

/-- `SetGlobalEncryption` reports what `NewEncryptKey` does with the text. -/
theorem setGlobalStep_reports {g : Gid} {text : Bytes} {s s' : Shared} {pc : Pc} {ok : Bool}
    (h : setGlobalStep g text true s = some (pc, s'))
    (hr : s'.returned = s.returned ++ [.setKey g ok]) : ok = (newEncryptKey text).isSome := by
  cases hk : newEncryptKey text with
  | none =>
    simp only [setGlobalStep, hk] at h
    cases h
    simpa using hr.symm
  | some k =>
    simp only [setGlobalStep, hk] at h
    cases h
    simpa using hr.symm

/-- So does `SetEncryptionKey`. -/
theorem setStep_reports {g : Gid} {l : Ptr} {text : Bytes} {s s' : Shared} {pc : Pc} {ok : Bool}
    (h : setStep g l (.setEncryptionKey text) true s = some (pc, s'))
    (hr : s'.returned = s.returned ++ [.setKey g ok]) : ok = (newEncryptKey text).isSome := by
  cases h
  simpa [Setter.report] using hr.symm

/-! ## Every text -/

/-- `NewEncryptKey` and the two setters take the text exactly when it encodes a point. -/
structure TakesPoints (text : Bytes) : Prop where
  key : (newEncryptKey text).isSome ↔ EncodesPoint text
  setGlobal : ∀ g s pc s' ok, setGlobalStep g text true s = some (pc, s') →
    s'.returned = s.returned ++ [.setKey g ok] → (ok = true ↔ EncodesPoint text)
  set : ∀ g l s pc s' ok, setStep g l (.setEncryptionKey text) true s = some (pc, s') →
    s'.returned = s.returned ++ [.setKey g ok] → (ok = true ↔ EncodesPoint text)

/-- A pair off the curve is taken for a key. -/
theorem EncodesPair.taken {text : Bytes} {p : Point} (hp : EncodesPair text p)
    (hno : ¬ OnCurve p) : ¬ TakesPoints text := by
  intro h
  obtain ⟨q, hq, hon⟩ := h.key.mp (newEncryptKey_isSome_iff.mpr ⟨p, hp⟩)
  exact hno (hp.unique hq ▸ hon)

/-- Points, and nothing but points, are taken for a key exactly when the text is not the encoding of
    a pair off the curve. -/
theorem takesPoints_iff (text : Bytes) :
    TakesPoints text ↔ ¬ ∃ p, EncodesPair text p ∧ ¬ OnCurve p := by
  constructor
  · intro h hoff
    obtain ⟨p, hp, hno⟩ := hoff
    exact hp.taken hno h
  · intro h
    have hkey : (newEncryptKey text).isSome ↔ EncodesPoint text := by
      rw [newEncryptKey_isSome_iff]
      constructor
      · intro hp
        obtain ⟨p, hp⟩ := hp
        exact ⟨p, hp, not_not.mp fun hno => h ⟨p, hp, hno⟩⟩
      · intro hp
        obtain ⟨p, hp, -⟩ := hp
        exact ⟨p, hp⟩
    refine ⟨hkey, fun g s pc s' ok hs hr => ?_, fun g l s pc s' ok hs hr => ?_⟩
    · rw [setGlobalStep_reports hs hr]
      exact hkey
    · rw [setStep_reports hs hr]
      exact hkey

theorem coordinate_pos : 0 < 256 ^ 32 := by decide

/-- The pair `(0, 0)`. -/
def zeroPair : Point := ⟨0, 0, coordinate_pos, coordinate_pos⟩

/-- The text of `(0, 0)` is taken; no point of the curve has these coordinates. -/
theorem zeroPair_taken : ¬ ∀ text : Bytes, TakesPoints text := by
  intro h
  have hpair : EncodesPair (Hex.encodeToString (marshal zeroPair)) zeroPair :=
    newEncryptKey_eq_some_iff.mp (newEncryptKey_marshal zeroPair)
  exact hpair.taken (by decide +kernel) (h _)

end ZipoLogger
