/-
  Byte strings and big-endian numbers.

  `Bytes` is a Go string or byte slice. `ofBytes` is `big.Int.SetBytes`, `fixed len n` the `len`
  low bytes of `n` (`FillBytes` on a buffer of `len` bytes that `n` fits), `minimal n` is
  `big.Int.Bytes`: as many bytes as the bit length needs, no leading zero.
-/
import Mathlib.Tactic

/-- A Go string or byte slice. -/
abbrev Bytes := List UInt8

namespace BigEndian

/-- `new(big.Int).SetBytes(b)`. -/
def ofBytes (b : Bytes) : Nat := b.foldl (fun n x => n * 256 + x.toNat) 0

/-- The `len` low bytes of `n`, most significant first. -/
def fixed : Nat → Nat → Bytes
  | 0, _ => []
  | len + 1, n => fixed len (n / 256) ++ [UInt8.ofNat (n % 256)]

/-- `n.BitLen()`. -/
def bitLen (n : Nat) : Nat := if n = 0 then 0 else n.log2 + 1

/-- `n.Bytes()`. -/
def minimal (n : Nat) : Bytes := fixed ((bitLen n + 7) / 8) n

theorem ofBytes_append (a b : Bytes) :
    ofBytes (a ++ b) = ofBytes a * 256 ^ b.length + ofBytes b := by
  induction b using List.reverseRecOn with
  | nil => simp [ofBytes]
  | append_singleton b x ih =>
    have h1 : ∀ c : Bytes, ofBytes (c ++ [x]) = ofBytes c * 256 + x.toNat := by
      intro c
      simp [ofBytes, List.foldl_append]
    rw [← List.append_assoc, h1, h1, ih, List.length_append, List.length_singleton, pow_succ]
    ring

@[simp] theorem ofBytes_nil : ofBytes [] = 0 := rfl

@[simp] theorem ofBytes_singleton (x : UInt8) : ofBytes [x] = x.toNat := by simp [ofBytes]

@[simp] theorem fixed_length (len n : Nat) : (fixed len n).length = len := by
  induction len generalizing n with
  | zero => rfl
  | succ len ih => simp [fixed, ih]

theorem ofBytes_fixed (len n : Nat) : ofBytes (fixed len n) = n % 256 ^ len := by
  induction len generalizing n with
  | zero => simp [fixed, Nat.mod_one]
  | succ len ih =>
    have hb : (UInt8.ofNat (n % 256)).toNat = n % 256 := by
      rw [UInt8.toNat_ofNat']
      exact Nat.mod_mod _ _
    rw [fixed, ofBytes_append, ofBytes_singleton, hb, ih, List.length_singleton, pow_one,
      pow_succ, Nat.mul_comm (256 ^ len) 256, Nat.mod_mul]
    ring

theorem ofBytes_fixed_of_lt {len n : Nat} (h : n < 256 ^ len) : ofBytes (fixed len n) = n := by
  rw [ofBytes_fixed, Nat.mod_eq_of_lt h]

theorem ofBytes_lt (b : Bytes) : ofBytes b < 256 ^ b.length := by
  induction b using List.reverseRecOn with
  | nil => simp
  | append_singleton b x ih =>
    have hx := x.toNat_lt
    rw [ofBytes_append, ofBytes_singleton, List.length_append, List.length_singleton, pow_one,
      pow_succ]
    omega

theorem fixed_ofBytes (b : Bytes) : fixed b.length (ofBytes b) = b := by
  induction b using List.reverseRecOn with
  | nil => rfl
  | append_singleton b x ih =>
    have hx := x.toNat_lt
    have hdiv : (ofBytes b * 256 + x.toNat) / 256 = ofBytes b := by omega
    have hmod : (ofBytes b * 256 + x.toNat) % 256 = x.toNat := by omega
    rw [ofBytes_append, ofBytes_singleton, List.length_append, List.length_singleton, pow_one,
      fixed, hdiv, hmod, ih, UInt8.ofNat_toNat]

theorem fixed_of_length {b : Bytes} {len : Nat} (h : b.length = len) :
    fixed len (ofBytes b) = b := by
  rw [← h, fixed_ofBytes]

/-- Only the low bytes count. -/
theorem fixed_mod (len n : Nat) : fixed len (n % 256 ^ len) = fixed len n := by
  have h := fixed_ofBytes (fixed len n)
  rwa [fixed_length, ofBytes_fixed] at h

theorem fixed_congr {len n m : Nat} (h : n % 256 ^ len = m % 256 ^ len) :
    fixed len n = fixed len m := by
  rw [← fixed_mod, h, fixed_mod]

/-- High bytes, then low bytes. -/
theorem fixed_add (a b n : Nat) : fixed (a + b) n = fixed a (n / 256 ^ b) ++ fixed b n := by
  induction b generalizing n with
  | zero => simp [fixed]
  | succ b ih =>
    rw [← Nat.add_assoc, fixed, ih, fixed, Nat.div_div_eq_div_mul, pow_succ,
      Nat.mul_comm 256, List.append_assoc]

theorem fixed_zero (len : Nat) : fixed len 0 = List.replicate len 0 := by
  induction len with
  | zero => rfl
  | succ len ih => rw [fixed, Nat.zero_div, ih, List.replicate_succ']; rfl

/-- Bytes above the value are zero. -/
theorem replicate_append_fixed {k len n : Nat} (h : n < 256 ^ len) :
    List.replicate k 0 ++ fixed len n = fixed (k + len) n := by
  induction len generalizing n with
  | zero =>
    have h0 : n = 0 := by simpa using h
    rw [h0, fixed_zero, fixed_zero, ← List.replicate_add]
  | succ len ih =>
    have hn : n / 256 < 256 ^ len := by
      rw [pow_succ] at h
      omega
    rw [fixed, ← List.append_assoc, ih hn]
    rfl

theorem lt_of_bitLen (n : Nat) : n < 2 ^ bitLen n := by
  unfold bitLen
  split
  · rename_i h
    simp [h]
  · exact Nat.lt_log2_self

theorem bitLen_le_iff {n k : Nat} : bitLen n ≤ k ↔ n < 2 ^ k := by
  unfold bitLen
  split
  · rename_i h
    simp [h]
  · rename_i h
    exact Nat.log2_lt h

theorem minimal_length (n : Nat) : (minimal n).length = (bitLen n + 7) / 8 := fixed_length _ _

theorem lt_minimal_length (n : Nat) : n < 256 ^ (minimal n).length := by
  rw [minimal_length, show (256 : Nat) = 2 ^ 8 from rfl, ← pow_mul]
  exact (lt_of_bitLen n).trans_le (Nat.pow_le_pow_right (by decide) (by omega))

theorem minimal_length_le {n len : Nat} (h : n < 256 ^ len) : (minimal n).length ≤ len := by
  rw [show (256 : Nat) = 2 ^ 8 from rfl, ← pow_mul] at h
  have := bitLen_le_iff.mpr h
  rw [minimal_length]
  omega

@[simp] theorem ofBytes_minimal (n : Nat) : ofBytes (minimal n) = n := by
  have h := lt_minimal_length n
  rw [minimal_length] at h
  exact ofBytes_fixed_of_lt h

/-- Padding the minimal form to `len` bytes gives the fixed form. -/
theorem replicate_append_minimal {n len : Nat} (h : n < 256 ^ len) :
    List.replicate (len - (minimal n).length) 0 ++ minimal n = fixed len n := by
  have hlt := lt_minimal_length n
  have hle := minimal_length_le h
  rw [minimal_length] at hlt hle
  rw [minimal_length, minimal, replicate_append_fixed hlt, Nat.sub_add_cancel hle]

theorem minimal_length_eq {n k : Nat} (hlo : 256 ^ k ≤ n) (hhi : n < 256 ^ (k + 1)) :
    (minimal n).length = k + 1 := by
  have hle := minimal_length_le hhi
  have hgt : k < (minimal n).length := by
    by_contra h
    have hpow : 256 ^ (minimal n).length ≤ 256 ^ k :=
      Nat.pow_le_pow_right (by decide) (by omega)
    have := lt_minimal_length n
    omega
  omega

/-- The minimal form with its length known. -/
theorem minimal_eq_fixed {n k : Nat} (hlo : 256 ^ k ≤ n) (hhi : n < 256 ^ (k + 1)) :
    minimal n = fixed (k + 1) n := by
  rw [minimal, ← minimal_length, minimal_length_eq hlo hhi]

/-- Bytes without a leading zero are minimal. -/
theorem minimal_ofBytes {b : Bytes} (h : b.head? ≠ some 0) : minimal (ofBytes b) = b := by
  cases b with
  | nil => rfl
  | cons x t =>
    have hx : 1 ≤ x.toNat := by
      by_contra h0
      have hx0 : x.toNat = (0 : UInt8).toNat := by
        rw [UInt8.toNat_zero]
        omega
      exact h (by rw [UInt8.toNat_inj.mp hx0]; rfl)
    have hval := ofBytes_append [x] t
    rw [ofBytes_singleton, List.singleton_append] at hval
    have hlo : 256 ^ t.length ≤ ofBytes (x :: t) := by
      rw [hval]
      exact (Nat.le_mul_of_pos_left _ hx).trans (Nat.le_add_right _ _)
    rw [minimal_eq_fixed hlo (ofBytes_lt (x :: t)), ← List.length_cons (a := x), fixed_ofBytes]

theorem minimal_head? (n : Nat) : (minimal n).head? ≠ some 0 := by
  intro h0
  obtain ⟨t, ht⟩ : ∃ t, minimal n = 0 :: t := by
    cases hm : minimal n with
    | nil =>
      rw [hm] at h0
      cases h0
    | cons x t =>
      rw [hm] at h0
      cases h0
      exact ⟨t, rfl⟩
  have hval := ofBytes_append [0] t
  rw [ofBytes_singleton, List.singleton_append, ← ht, ofBytes_minimal, UInt8.toNat_zero,
    Nat.zero_mul, Nat.zero_add] at hval
  have hle := minimal_length_le (hval ▸ ofBytes_lt t)
  rw [ht, List.length_cons] at hle
  omega

theorem minimal_zero : minimal 0 = [] := rfl

/-- The last byte of the minimal form, and the rest. -/
theorem minimal_div {n : Nat} (h : 0 < n) :
    minimal n = minimal (n / 256) ++ [UInt8.ofNat (n % 256)] := by
  have hb : (UInt8.ofNat (n % 256)).toNat = n % 256 := by
    rw [UInt8.toNat_ofNat']
    exact Nat.mod_mod _ _
  have hval : ofBytes (minimal (n / 256) ++ [UInt8.ofNat (n % 256)]) = n := by
    rw [ofBytes_append, ofBytes_minimal, ofBytes_singleton, hb, List.length_singleton, pow_one]
    omega
  have hhead : (minimal (n / 256) ++ [UInt8.ofNat (n % 256)]).head? ≠ some 0 := by
    cases hm : minimal (n / 256) with
    | nil =>
      intro h0
      have hz := ofBytes_minimal (n / 256)
      have hb0 := congrArg UInt8.toNat (Option.some.inj h0)
      rw [hm, ofBytes_nil] at hz
      rw [hb, UInt8.toNat_zero] at hb0
      omega
    | cons x t =>
      have := minimal_head? (n / 256)
      rwa [hm] at this
  have h := minimal_ofBytes hhead
  rwa [hval] at h

theorem minimal_singleton {n : Nat} (h0 : 0 < n) (h : n < 256) : minimal n = [UInt8.ofNat n] := by
  rw [minimal_div h0, Nat.div_eq_of_lt h, Nat.mod_eq_of_lt h]
  rfl

end BigEndian
