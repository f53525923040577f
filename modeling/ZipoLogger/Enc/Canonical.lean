/-
  The ciphertexts `KeyDecrypt.Decrypt` accepts.

  The format leaves no freedom: with the ephemeral point, the initialisation vector and the
  plaintext fixed there is one accepted ciphertext, the one `ecies.Encrypt` puts together
  (`decrypt_canonical`). The point is the sender's choice, and nothing says that it is a
  multiple of the base point; where it is one, `Encrypt` with the draws read off the ciphertext
  gives it back byte for byte. A plaintext of no bytes is accepted in one form only as well, which
  `Encrypt` never sends: it returns nothing instead.
-/
import ZipoLogger.Enc.ShortBody

namespace ZipoLogger.Enc

open BigEndian

variable {P : Primitives} {D : Nat} {c m s1 s2 : Bytes}

/-- A ciphertext long enough for the tests is its first 65 bytes, its body and its tag. -/
theorem parts_eq (h : 98 ≤ c.length) : c = c.take 65 ++ body c ++ tag c := by
  have htake : (c.take (c.length - 32)).take 65 = c.take 65 := by
    rw [List.take_take, Nat.min_eq_left (by omega)]
  rw [body, tag, ← htake, List.take_append_drop, List.take_append_drop]

/-- What `symDecrypt` undoes. -/
theorem aesCTR_drop {ct key m : Bytes} (hm : m = P.aesCTR key (ct.take 16) (ct.drop 16)) :
    ct = ct.take 16 ++ P.aesCTR key (ct.take 16) m := by
  rw [hm, P.aesCTR_aesCTR, List.take_append_drop]

/-- Some bytes decrypt to `m` exactly when they are a sealed `m`. -/
theorem decrypt_eq_ok_iff : decrypt P D c [] [] = .ok m ↔
    ∃ R iv z, generateShared P D R 16 16 = .ok z ∧ c = sealed P R z iv m [] [] := by
  constructor
  · intro h
    have hlen : 98 ≤ c.length := by
      by_contra hshort
      obtain ⟨e, he⟩ : ∃ e, decrypt P D c [] [] = .error (.error e) := decrypt_short (by omega)
      rw [h] at he
      cases he
    cases hR : unmarshal (c.take 65) with
    | none =>
      obtain ⟨e, he⟩ := decrypt_no_point (P := P) (D := D) hlen hR
      rw [h] at he
      cases he
    | some R =>
      obtain ⟨z, hz⟩ := generateShared_ok (P := P) D R
      rw [decrypt_of_point [] [] hlen hR hz] at h
      split at h
      · rename_i htag
        rw [symDecrypt_deriveKeys] at h
        split at h
        · cases h
        · have hiv : ((body c).take 16).length = 16 := by
            rw [List.length_take]
            omega
          have hbody := aesCTR_drop (Except.ok.inj h).symm
          refine ⟨R, ⟨(body c).take 16, hiv⟩, z, hz, ?_⟩
          rw [sealed, ← hbody, ← htag, ← unmarshal_eq_some_iff.mp hR]
          exact parts_eq hlen
      · cases h
  · rintro ⟨R, iv, z, hz, rfl⟩
    have hlen := sealed_length (P := P) R z iv m [] []
    obtain ⟨hR, hbody, htag⟩ := sealed_parts (P := P) R z iv m [] []
    have hblk : ¬ (iv.bytes ++ P.aesCTR (deriveKeys P z [] 16).1 iv.bytes m).length < 16 := by
      rw [List.length_append, iv.length_eq]
      omega
    rw [decrypt_of_point [] [] (by omega) hR hz, if_pos htag, symDecrypt_deriveKeys, hbody,
      if_neg hblk, List.take_left' iv.length_eq, List.drop_left' iv.length_eq, P.aesCTR_aesCTR]

/-- The point a sealed message begins with is the one it was sealed under. -/
theorem sealed_point {R R' : Point} {z : Bytes} {iv : IV}
    (h : (sealed P R z iv m s1 s2).take 65 = marshal R') : R = R' := by
  have hR := (sealed_parts (P := P) R z iv m s1 s2).1
  rw [h, unmarshal_marshal] at hR
  exact (Option.some.inj hR).symm

/-- `Decrypt` accepts the sealed messages and nothing else; of those under a multiple of the base
    point it accepts exactly what `Encrypt` makes of their plaintext. -/
theorem decrypt_canonical (P : Primitives) (d : Scalar) (c m : Bytes) :
    ((KeyDecrypt.mk ⟨d.D, P.pub d.D⟩).decrypt P c = .ok m ↔
      ∃ R iv z, generateShared P d.D R 16 16 = .ok z ∧ c = sealed P R z iv m [] []) ∧
    ∀ k : Scalar, c.take 65 = marshal (P.pub k.D) → m ≠ [] →
      ((KeyDecrypt.mk ⟨d.D, P.pub d.D⟩).decrypt P c = .ok m ↔
        ∃ iv, (KeyEncrypt.mk (P.pub d.D)).encrypt P m ⟨some k, some iv⟩ = .ok c) := by
  refine ⟨decrypt_eq_ok_iff, fun k hpoint hm => ?_⟩
  constructor
  · intro h
    obtain ⟨R, iv, z, hz, rfl⟩ := decrypt_eq_ok_iff.mp h
    cases sealed_point hpoint
    obtain ⟨z', hz', henc⟩ := encrypt_pub P d k iv m
    cases hz.symm.trans hz'
    exact ⟨iv, by rw [henc, if_neg hm]⟩
  · rintro ⟨iv, henc⟩
    obtain ⟨z, hz, hsealed⟩ := encrypt_pub P d k iv m
    rw [hsealed, if_neg hm] at henc
    exact decrypt_eq_ok_iff.mpr ⟨_, iv, z, hz, (Except.ok.inj henc).symm⟩

theorem decrypt_canonical_unit : ∃ iv,
    (KeyEncrypt.mk (unitPrimitives.pub 1)).encrypt unitPrimitives [97] ⟨some unitScalar, some iv⟩ =
      .ok (sealed unitPrimitives basePoint (fixed 32 basePoint.X) zeroIV [97] [] []) :=
  ((decrypt_canonical unitPrimitives unitScalar _ [97]).2 unitScalar (by decide +kernel)
    (by simp)).mp (by decide +kernel)

end ZipoLogger.Enc
