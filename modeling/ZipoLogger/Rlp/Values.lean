/-
  decode.go: the operations of the stream that read one value.

  `Accepts op P enc`: from a stream between two values the operation succeeds exactly where the
  encoding of a value in `P` stands ahead within the limits, and it takes that encoding and no
  more. Each operation looks at the kind and goes three ways; for those that read a string or an
  integer `accepts_string` asks only what becomes of the content. `stream_accepts` has them all:
  integers are accepted in their shortest form alone, but `Raw` lets a longer form of a single byte
  pass.
-/
import ZipoLogger.Rlp.StreamReads

namespace ZipoLogger.Rlp

open BigEndian
open ZipoLogger.Rlp.Stream

/-! ## What a value takes -/

/-- What is left of the innermost list after `n` bytes, on 64 bits. -/
def settle (n : Nat) : List Nat → List Nat
  | [] => []
  | limit :: outer => sub64 limit n :: outer

/-- A limited stream between two values. -/
structure Ready (s : Stream) : Prop extends Synced s where
  kind_none : s.kind = none
  remaining_lt : s.remaining < 2 ^ 63
  limits_lt : ∀ l ∈ s.stack, l < 2 ^ 64

/-- `n` bytes have been read, and taken off the limits. -/
structure Passed (n : Nat) (s s' : Stream) : Prop where
  le : n ≤ s.remaining
  r_eq : s'.r = s.r.drop n
  remaining_eq : s'.remaining = s.remaining - n
  stack_eq : s'.stack = settle n s.stack
  kind_none : s'.kind = none
  limited_eq : s'.limited = s.limited

theorem sub64_of_le {a b : Nat} (ha : a < 2 ^ 64) (h : b ≤ a) : sub64 a b = a - b := by
  unfold sub64
  omega

theorem sub64_sub64 {a m n : Nat} (h : m + n < 2 ^ 64) :
    sub64 (sub64 a m) n = sub64 a (m + n) := by
  unfold sub64
  omega

theorem settle_settle {m n : Nat} (h : m + n < 2 ^ 64) (st : List Nat) :
    settle n (settle m st) = settle (m + n) st := by
  cases st with
  | nil => rfl
  | cons l ls => exact congrArg (· :: ls) (sub64_sub64 h)

theorem settle_zero {st : List Nat} (h : ∀ l ∈ st, l < 2 ^ 64) : settle 0 st = st := by
  cases st with
  | nil => rfl
  | cons l ls =>
    exact congrArg (· :: ls) (sub64_of_le (h l List.mem_cons_self) (Nat.zero_le l))

variable {s s1 s2 s' : Stream} {m n : Nat}

theorem charge_eq_settle (hs : Ready s) (hf : s.Fits n) : charge n s.stack = settle n s.stack := by
  have hlist := hf.1
  have hlt := hs.limits_lt
  cases hst : s.stack with
  | nil => rfl
  | cons l ls =>
    rw [hst] at hlist hlt
    exact congrArg (· :: ls)
      (sub64_of_le (hlt l List.mem_cons_self) (of_decide_eq_true hlist)).symm

theorem Ready.settle_lt (hs : Ready s) (n : Nat) : ∀ l ∈ settle n s.stack, l < 2 ^ 64 := by
  have hlt := hs.limits_lt
  cases hst : s.stack with
  | nil => simp [settle]
  | cons l ls =>
    rw [hst] at hlt
    intro l' hl'
    cases hl' with
    | head => exact Nat.mod_lt _ (by decide)
    | tail _ hl' => exact hlt l' (List.mem_cons_of_mem _ hl')

theorem Passed.ready (h : Passed n s s') (hs : Ready s) : Ready s' where
  limited := h.limited_eq.trans hs.limited
  le_length := by
    rw [h.remaining_eq, h.r_eq, List.length_drop]
    exact Nat.sub_le_sub_right hs.le_length n
  kind_none := h.kind_none
  remaining_lt := by
    rw [h.remaining_eq]
    exact (Nat.sub_le _ _).trans_lt hs.remaining_lt
  limits_lt := by
    rw [h.stack_eq]
    exact hs.settle_lt n

theorem Passed.zero (hs : Ready s) : Passed 0 s s :=
  ⟨Nat.zero_le _, rfl, rfl, (settle_zero hs.limits_lt).symm, hs.kind_none, rfl⟩

theorem Passed.trans (hs : Ready s) (h1 : Passed m s s1) (h2 : Passed n s1 s2) :
    Passed (m + n) s s2 where
  le := by
    have := h2.le
    rw [h1.remaining_eq] at this
    have := h1.le
    omega
  r_eq := by rw [h2.r_eq, h1.r_eq, List.drop_drop]
  remaining_eq := by rw [h2.remaining_eq, h1.remaining_eq, Nat.sub_sub]
  stack_eq := by
    have hrem := hs.remaining_lt
    have hm := h1.le
    have hn := h2.le
    rw [h1.remaining_eq] at hn
    rw [h2.stack_eq, h1.stack_eq, settle_settle (by omega)]
  kind_none := h2.kind_none
  limited_eq := h2.limited_eq.trans h1.limited_eq

/-- A read within the limits. -/
theorem Passed.consume (hs : Ready s) (hf : s.Fits n) : Passed n s (s.consume n) :=
  ⟨hf.2, rfl, rfl, charge_eq_settle hs hf, rfl, rfl⟩

/-- The bytes `b` stood ahead, and have been passed. -/
def Read (b : Bytes) (s s' : Stream) : Prop := s.r.take b.length = b ∧ Passed b.length s s'

theorem Read.append (hs : Ready s) {a b : Bytes} (h1 : Read a s s1) (h2 : Read b s1 s2) :
    Read (a ++ b) s s2 := by
  obtain ⟨ha, hp1⟩ := h1
  obtain ⟨hb, hp2⟩ := h2
  rw [hp1.r_eq] at hb
  refine ⟨?_, by rw [List.length_append]; exact hp1.trans hs hp2⟩
  rw [List.length_append, List.take_add, ha, hb]

/-- The head of a value. -/
theorem Read.head (hs : Ready s) {hd : Bytes} (hf : s.Fits hd.length)
    (htake : s.r.take hd.length = hd) : Read hd s (s.consume hd.length) :=
  ⟨htake, Passed.consume hs hf⟩

/-- The bytes `b` stand ahead, within the limits. -/
structure Ahead (b : Bytes) (s : Stream) : Prop where
  fits : s.Fits b.length
  take_eq : s.r.take b.length = b

theorem Ahead.left {a b : Bytes} (h : Ahead (a ++ b) s) : Ahead a s := by
  have hf := h.fits
  have ht := congrArg (List.take a.length) h.take_eq
  rw [List.length_append] at hf
  rw [List.take_take, List.length_append, Nat.min_eq_left (Nat.le_add_right _ _),
    List.take_left] at ht
  exact ⟨hf.of_add.1, ht⟩

theorem Ahead.right {a b : Bytes} (h : Ahead (a ++ b) s) : Ahead b (s.consume a.length) := by
  have hf := h.fits
  have ht := congrArg (List.drop a.length) h.take_eq
  rw [List.length_append] at hf
  rw [List.drop_take, List.length_append, Nat.add_sub_cancel_left, List.drop_left] at ht
  exact ⟨hf.of_add.2, ht⟩

/-- `Kind` on a value that stands ahead as a whole. -/
theorem getKind_of_ahead (hs : Ready s) {hd c : Bytes} {k : Kind} {b : UInt8}
    (hhd : IsHead k n b hd) (h : Ahead (hd ++ c) s) (hn : n ≤ c.length) :
    getKind s = (.ok (k, n), (s.consume hd.length).ahead k n b) := by
  have hf := h.fits
  have hlist := hf.1
  have hrem := hf.2
  rw [List.length_append] at hlist hrem
  refine (getKind_eq_ok_iff hs.toSynced hs.kind_none).mpr
    ⟨hd, b, hhd, h.left.fits, h.left.take_eq, ?_, by omega, rfl⟩
  cases hst : s.stack.head? with
  | none => rfl
  | some l =>
    rw [hst] at hlist
    have hl := of_decide_eq_true hlist
    exact decide_eq_true (by omega)

/-- The rest of the bytes that stood ahead. -/
theorem Read.ahead (hs : Ready s) {a b : Bytes} (h : Ahead (a ++ b) s) (hread : Read a s s1) :
    Ahead b s1 := by
  obtain ⟨hfits, htake⟩ := h.right
  have hp := hread.2
  have hst : s1.stack = (s.consume a.length).stack :=
    hp.stack_eq.trans (charge_eq_settle hs h.left.fits).symm
  refine ⟨⟨?_, ?_⟩, ?_⟩
  · rw [hst]
    exact hfits.1
  · rw [hp.remaining_eq]
    exact hfits.2
  · rw [hp.r_eq]
    exact htake

/-- What is left of a list after some of its bytes. -/
theorem Passed.head? (hs : Ready s) (h : Passed m s s1) (hlimit : s.stack.head? = some (m + n)) :
    s1.stack.head? = some n := by
  have hlt := hs.limits_lt
  rw [h.stack_eq]
  cases hst : s.stack with
  | nil =>
    rw [hst] at hlimit
    cases hlimit
  | cons l ls =>
    rw [hst] at hlimit hlt
    cases hlimit
    have hl := sub64_of_le (hlt (m + n) List.mem_cons_self) (Nat.le_add_right m n)
    rw [Nat.add_sub_cancel_left] at hl
    exact congrArg some hl

/-! ## Contents -/

theorem Passed.congr (h : Passed n s s1) (hr : s2.r = s1.r) (hrem : s2.remaining = s1.remaining)
    (hst : s2.stack = s1.stack) (hk : s2.kind = none) (hl : s2.limited = s1.limited) :
    Passed n s s2 :=
  ⟨h.le, hr.trans h.r_eq, hrem.trans h.remaining_eq, hst.trans h.stack_eq, hk,
    hl.trans h.limited_eq⟩

theorem Ahead.append {a b : Bytes} (ha : Ahead a s) (hb : Ahead b (s.consume a.length)) :
    Ahead (a ++ b) s := by
  have htake : (s.r.drop a.length).take b.length = b := hb.take_eq
  refine ⟨?_, ?_⟩
  · rw [List.length_append]
    exact ha.fits.add hb.fits
  · rw [List.length_append, List.take_add, ha.take_eq, htake]

/-- The state after a head and its content. -/
def afterContent (hd : Bytes) (n : Nat) (k : Kind) (b : UInt8) (s : Stream) : Stream :=
  ((s.consume hd.length).ahead k n b).consume n

/-- The content of a value is read as a whole. -/
theorem content_iff (hs : Ready s) {hd c : Bytes} (hhd : Ahead hd s) {k : Kind} {b : UInt8} :
    readFull n ((s.consume hd.length).ahead k n b) = (.ok c, s') ↔
      c.length = n ∧ Ahead (hd ++ c) s ∧ s' = afterContent hd n k b s := by
  have hsynced : ((s.consume hd.length).ahead k n b).Synced := (hs.consume _).of_eq rfl rfl rfl
  rw [readFull_eq_ok_iff hsynced]
  constructor
  · rintro ⟨hfits, rfl, rfl⟩
    have hlen := List.length_take_of_le (hfits.2.trans hsynced.le_length)
    refine ⟨hlen, hhd.append ⟨?_, ?_⟩, rfl⟩
    · rw [hlen]
      exact hfits
    · rw [hlen]
      rfl
  · rintro ⟨rfl, h, rfl⟩
    exact ⟨h.right.fits, h.right.take_eq.symm, rfl⟩

theorem content_read (hs : Ready s) {hd c : Bytes} (h : Ahead (hd ++ c) s) (k : Kind) (b : UInt8) :
    Read (hd ++ c) s (afterContent hd c.length k b s) := by
  have hp := Passed.consume hs h.fits
  rw [List.length_append, ← consume_consume] at hp
  refine ⟨h.take_eq, ?_⟩
  rw [List.length_append]
  exact hp.congr rfl rfl rfl rfl rfl

/-! ## Operations -/

/-- The operation succeeds exactly where the encoding of a value in `P` stands ahead, and takes
    it. -/
structure Accepts {α : Type} (op : Op α) (P : α → Prop) (enc : α → Bytes) : Prop where
  sound : ∀ {s s' : Stream} {a : α}, Ready s → op s = (.ok a, s') →
    P a ∧ Ahead (enc a) s ∧ Read (enc a) s s'
  complete : ∀ {s : Stream} {a : α}, Ready s → P a → Ahead (enc a) s → ∃ s', op s = (.ok a, s')

section String

variable {α : Type} {f : Kind × Nat → Op α} {P : α → Prop} {content : α → Bytes}

/-- An operation on strings, from what it does with a byte and with the content of a string. -/
theorem accepts_string (hlist : ∀ {n s a s'}, f (.list, n) s ≠ (.ok a, s'))
    (hbyte : ∀ {s a s'}, s.byteval.toNat < 0x80 →
      (f (.byte, 0) s = (.ok a, s') ↔ P a ∧ content a = [s.byteval] ∧ s' = s.rearm))
    (hstring : ∀ {n s a s'}, Synced s → (f (.string, n) s = (.ok a, s') ↔
      P a ∧ isByte (content a) = false ∧ readFull n s = (.ok (content a), s'))) :
    Accepts (getKind >>= f) P (fun a => (Value.ofString (content a)).enc) where
  sound := by
    intro s s' a hs h
    obtain ⟨⟨k, n⟩, s1, hg, hf⟩ := StateOp.bind_eq_ok_iff.mp h
    obtain ⟨hd, b, hhd, hfits, htake, -, -, rfl⟩ :=
      (getKind_eq_ok_iff hs.toSynced hs.kind_none).mp hg
    cases hhd with
    | byte hlt =>
      obtain ⟨hP, hc, rfl⟩ := (hbyte hlt).mp hf
      have hc : content a = [b] := hc
      have henc := Value.ofString_enc_byte (isByte_iff.mpr ⟨b, hlt, hc⟩)
      rw [henc, hc]
      exact ⟨hP, ⟨hfits, htake⟩, htake, (Passed.consume hs hfits).congr rfl rfl rfl rfl rfl⟩
    | string h64 =>
      have hsynced : ((s.consume (header 0x80 0xB7 n).length).ahead .string n 0).Synced :=
        (hs.consume _).of_eq rfl rfl rfl
      obtain ⟨hP, hc, hread⟩ := (hstring hsynced).mp hf
      obtain ⟨rfl, hahead, rfl⟩ := (content_iff hs ⟨hfits, htake⟩).mp hread
      rw [Value.ofString_enc_of_not_byte hc]
      exact ⟨hP, hahead, content_read hs hahead _ _⟩
    | list h64 => exact absurd hf hlist
  complete := by
    intro s a hs hP h
    have hlt := hs.remaining_lt
    cases hc : isByte (content a) with
    | true =>
      obtain ⟨x, hx, hcx⟩ := isByte_iff.mp hc
      rw [Value.ofString_enc_byte hc, hcx, ← List.append_nil [x]] at h
      have hg := getKind_of_ahead hs (.byte hx) h (Nat.le_refl 0)
      rw [StateOp.bind_of_ok hg]
      exact ⟨_, (hbyte hx).mpr ⟨hP, hcx, rfl⟩⟩
    | false =>
      rw [Value.ofString_enc_of_not_byte hc] at h
      have hle := h.fits.2
      rw [List.length_append] at hle
      have hg := getKind_of_ahead hs (.string (by omega)) h (Nat.le_refl _)
      have hsynced : ((s.consume (header 0x80 0xB7 (content a).length).length).ahead .string
          (content a).length 0).Synced := (hs.consume _).of_eq rfl rfl rfl
      rw [StateOp.bind_of_ok hg]
      exact ⟨_, (hstring hsynced).mpr ⟨hP, hc, (content_iff hs h.left).mpr ⟨rfl, h, rfl⟩⟩⟩

end String

/-- The form of a single byte that is not its own encoding. -/
theorem isByte_false_iff {c : Bytes} :
    isByte c = false ↔ ¬ (c.length = 1 ∧ c.head?.any (· < 128) = true) := by
  rw [← Bool.not_eq_true, isByte_iff, not_iff_not]
  constructor
  · rintro ⟨x, hx, rfl⟩
    exact ⟨rfl, decide_eq_true (UInt8.lt_iff_toNat_lt.mpr hx)⟩
  · rintro ⟨h1, hany⟩
    obtain ⟨x, rfl⟩ := List.length_eq_one_iff.mp h1
    exact ⟨x, UInt8.lt_iff_toNat_lt.mp (of_decide_eq_true hany), rfl⟩

theorem length_of_readFull (hs : s.Synced) {c : Bytes} (hr : readFull n s = (.ok c, s')) :
    c.length = n := by
  obtain ⟨hf, rfl, -⟩ := (readFull_eq_ok_iff hs).mp hr
  exact List.length_take_of_le (hf.2.trans hs.le_length)

/-- The check after a string has been read. -/
theorem readString_iff (hs : s.Synced) {c : Bytes} :
    (readFull n >>= fun b => if n = 1 ∧ b.head?.any (· < 128) = true then throw .canonSize
      else pure b : Op Bytes) s = (.ok c, s') ↔
      isByte c = false ∧ readFull n s = (.ok c, s') := by
  rw [StateOp.bind_eq_ok_iff]
  constructor
  · rintro ⟨c', s1, hr, hc⟩
    have hlen := length_of_readFull hs hr
    split at hc
    · cases hc
    · rename_i hone
      cases hc
      rw [← hlen] at hone
      exact ⟨isByte_false_iff.mpr hone, hr⟩
  · rintro ⟨hc, hr⟩
    have hlen := length_of_readFull hs hr
    refine ⟨c, s', hr, ?_⟩
    rw [← hlen, if_neg (isByte_false_iff.mp hc)]
    rfl

theorem bytes_accepts : Accepts bytes (fun _ => True) (fun c => (Value.ofString c).enc) := by
  refine accepts_string ?_ ?_ ?_
  · intro n s a s' h
    cases h
  · intro s a s' _
    refine ⟨fun h => ?_, ?_⟩
    · cases h
      exact ⟨trivial, rfl, rfl⟩
    · rintro ⟨-, rfl, rfl⟩
      rfl
  · intro n s a s' hs
    exact (readString_iff hs).trans (by simp)

/-- After `Kind` the same value is read. -/
theorem bytes_cached (hs : Ready s) {k : Kind} (hg : getKind s = (.ok (k, n), s1)) :
    bytes s1 = bytes s := by
  obtain ⟨hd, b, -, -, -, -, -, rfl⟩ := (getKind_eq_ok_iff hs.toSynced hs.kind_none).mp hg
  rw [bytes, StateOp.bind_of_ok hg, StateOp.bind_of_ok (getKind_ahead k n b _)]

theorem readBytes_accepts (len : Nat) :
    Accepts (readBytes len) (·.length = len) (fun c => (Value.ofString c).enc) := by
  refine accepts_string ?_ ?_ ?_
  · intro n s a s' h
    cases h
  · intro s a s' _
    dsimp only
    constructor
    · intro h
      split at h
      · cases h
      · rename_i hlen
        cases h
        exact ⟨(not_not.mp hlen).symm, rfl, rfl⟩
    · rintro ⟨hlen, rfl, rfl⟩
      have h1 : len = 1 := hlen.symm
      rw [if_neg (not_not.mpr h1)]
      rfl
  · intro n s a s' hs
    dsimp only
    constructor
    · intro h
      split at h
      · cases h
      · rename_i hlen
        obtain rfl := not_not.mp hlen
        obtain ⟨hc, hr⟩ := (readString_iff hs).mp h
        exact ⟨length_of_readFull hs hr, hc, hr⟩
    · rintro ⟨rfl, hc, hr⟩
      obtain rfl := length_of_readFull hs hr
      rw [if_neg (not_not.mpr rfl)]
      exact (readString_iff hs).mpr ⟨hc, hr⟩

/-! ## Integers -/

/-- An integer as it is written. -/
def intEnc (n : Nat) : Bytes := (Value.ofString (minimal n)).enc

theorem readFull_zero_iff (hs : s.Synced) {c : Bytes} :
    readFull 0 s = (.ok c, s') ↔ c = [] ∧ s' = s.rearm := by
  rw [readFull_eq_ok_iff hs, consume_zero, List.take_zero]
  exact ⟨fun h => h.2, fun h => ⟨s.fits_zero, h⟩⟩

/-- The integer is the one whose shortest form has been read. -/
theorem readUint_iff (hs : s.Synced) {m v : Nat} (hm : 0 < m) :
    readUint m s = (.ok v, s') ∧ ¬ v < 128 ↔
      isByte (minimal v) = false ∧ readFull m s = (.ok (minimal v), s') := by
  rw [readUint_eq_ok_iff hs hm, readFull_eq_ok_iff hs]
  constructor
  · rintro ⟨⟨hf, rfl, rfl, h0⟩, h128⟩
    have hhead : (s.r.take m).head? ≠ some 0 := by
      intro hz
      by_cases h1 : 1 < m
      · exact h0 h1 hz
      · obtain ⟨b, hb⟩ := List.length_eq_one_iff.mp
          ((List.length_take_of_le (hf.2.trans hs.le_length)).trans (by omega : m = 1))
        rw [hb] at hz h128
        cases hz
        exact h128 (by decide)
    rw [minimal_ofBytes hhead]
    refine ⟨?_, hf, rfl, rfl⟩
    rw [← minimal_ofBytes hhead]
    exact isByte_minimal (not_lt.mp h128)
  · rintro ⟨hc, hf, hv, rfl⟩
    have hval : v = ofBytes (s.r.take m) := by rw [← hv, ofBytes_minimal]
    refine ⟨⟨hf, hval, rfl, fun _ => by rw [← hv]; exact minimal_head? v⟩, fun h128 => ?_⟩
    have hlen := List.length_take_of_le (hf.2.trans hs.le_length)
    have hpos : 0 < v := by
      by_contra h0
      obtain rfl : v = 0 := by omega
      rw [← hv, minimal_zero] at hlen
      exact absurd hlen.symm hm.ne'
    rw [minimal_singleton hpos (by omega)] at hc
    have hbyte : isByte [UInt8.ofNat v] = true :=
      isByte_iff.mpr ⟨_, by rwa [toNat_ofNat_of_lt (by omega)], rfl⟩
    rw [hbyte] at hc
    cases hc

/-- A single byte as an integer. -/
theorem uintByte_iff {k a : Nat} (hk : 0 < k) (hb : s.byteval.toNat < 0x80) :
    (if s.byteval = 0 then throw .canonInt else do
      modify Stream.rearm
      return s.byteval.toNat : Op Nat) s = (.ok a, s') ↔
      a < 256 ^ k ∧ minimal a = [s.byteval] ∧ s' = s.rearm := by
  constructor
  · intro h
    split at h
    · cases h
    · rename_i h0
      cases h
      have hpow : 256 ^ 1 ≤ 256 ^ k := Nat.pow_le_pow_right (by decide) hk
      refine ⟨by omega, ?_, rfl⟩
      have hmin := minimal_ofBytes (b := [s.byteval]) (fun hz => h0 (Option.some.inj hz))
      rwa [ofBytes_singleton] at hmin
  · rintro ⟨-, hmin, rfl⟩
    have h0 : s.byteval ≠ 0 := by
      intro h0
      rw [h0] at hmin
      exact minimal_head? a (by rw [hmin]; rfl)
    have hval : a = s.byteval.toNat := by rw [← ofBytes_minimal a, hmin, ofBytes_singleton]
    rw [if_neg h0, hval]
    rfl

/-- A string as an integer. -/
theorem uintString_iff {k a : Nat} (hs : s.Synced) :
    (if n > k then throw .uintOverflow else do
      let v ← tryCatch (readUint n) fun e => throw (canonIntError e)
      if 0 < n ∧ v < 128 then throw .canonSize else return v : Op Nat) s = (.ok a, s') ↔
      a < 256 ^ k ∧ isByte (minimal a) = false ∧ readFull n s = (.ok (minimal a), s') := by
  by_cases hnk : n > k
  · rw [if_pos hnk]
    refine iff_of_false (fun h => by cases h) ?_
    rintro ⟨hlt, -, hr⟩
    have hlen := length_of_readFull hs hr
    have hle := minimal_length_le hlt
    omega
  · rw [if_neg hnk, StateOp.bind_eq_ok_iff]
    rcases Nat.eq_zero_or_pos n with rfl | hpos
    · rw [readFull_zero_iff hs]
      constructor
      · rintro ⟨v, s1, hv, h⟩
        cases StateOp.tryCatch_throw_eq_ok_iff.mp hv
        cases h
        exact ⟨Nat.pow_pos (by decide), rfl, rfl, rfl⟩
      · rintro ⟨-, -, hmin, rfl⟩
        have ha : a = 0 := by rw [← ofBytes_minimal a, hmin, ofBytes_nil]
        exact ⟨0, s.rearm, StateOp.tryCatch_throw_eq_ok_iff.mpr rfl, by rw [ha]; rfl⟩
    · constructor
      · rintro ⟨v, s1, hv, h⟩
        have hv := StateOp.tryCatch_throw_eq_ok_iff.mp hv
        split at h
        · cases h
        · rename_i h128
          cases h
          obtain ⟨hc, hr⟩ := (readUint_iff hs hpos).mp ⟨hv, fun hlt => h128 ⟨hpos, hlt⟩⟩
          have hlt := lt_minimal_length a
          rw [length_of_readFull hs hr] at hlt
          exact ⟨hlt.trans_le (Nat.pow_le_pow_right (by decide) (by omega)), hc, hr⟩
      · rintro ⟨-, hc, hr⟩
        obtain ⟨hv, h128⟩ := (readUint_iff hs hpos).mpr ⟨hc, hr⟩
        refine ⟨a, s', StateOp.tryCatch_throw_eq_ok_iff.mpr hv, ?_⟩
        rw [if_neg fun h => h128 h.2]
        rfl

theorem uint_accepts {k : Nat} (hk : 0 < k) : Accepts (uint (8 * k)) (· < 256 ^ k) intEnc := by
  refine accepts_string ?_ ?_ ?_
  · intro n s a s' h
    cases h
  · intro s a s' hb
    exact uintByte_iff hk hb
  · intro n s a s' hs
    dsimp only
    rw [Nat.mul_div_cancel_left k (by decide)]
    exact uintString_iff hs

theorem intBuffer_accepts {large : Nat → Op Bytes} {P : Bytes → Prop}
    (hsmall : ∀ c : Bytes, c.length ≤ 32 → P c)
    (hlarge : ∀ {n : Nat} {s : Stream} {c : Bytes} {s' : Stream}, Synced s → 32 < n →
      (large n s = (.ok c, s') ↔ P c ∧ readFull n s = (.ok c, s'))) :
    Accepts (intBuffer large) P (fun c => (Value.ofString c).enc) := by
  refine accepts_string ?_ ?_ ?_
  · intro n s a s' h
    cases h
  · intro s a s' _
    constructor
    · intro h
      cases h
      have hle : [s.byteval].length ≤ 32 := by simp
      exact ⟨hsmall _ hle, rfl, rfl⟩
    · rintro ⟨-, rfl, rfl⟩
      rfl
  · intro n s a s' hs
    dsimp only
    split
    · rename_i h0
      rw [h0, readFull_zero_iff hs]
      constructor
      · intro h
        cases h
        exact ⟨hsmall [] (Nat.zero_le _), rfl, rfl, rfl⟩
      · rintro ⟨-, -, rfl, rfl⟩
        rfl
    · split
      · rename_i hle
        rw [readString_iff hs]
        constructor
        · rintro ⟨hc, hr⟩
          exact ⟨hsmall a (by rwa [length_of_readFull hs hr]), hc, hr⟩
        · rintro ⟨-, hc, hr⟩
          exact ⟨hc, hr⟩
      · rename_i hgt
        rw [hlarge hs (not_le.mp hgt)]
        constructor
        · rintro ⟨hP, hr⟩
          have hlen := length_of_readFull hs hr
          exact ⟨hP, isByte_of_length (by omega), hr⟩
        · rintro ⟨hP, -, hr⟩
          exact ⟨hP, hr⟩

/-- The check for zeros in front of an integer. -/
theorem readInt_accepts {large : Nat → Op Bytes} {P : Bytes → Prop}
    (h : Accepts (intBuffer large) P (fun c => (Value.ofString c).enc)) :
    Accepts (readInt large) (fun n => P (minimal n)) intEnc where
  sound := by
    intro s s' n hs hr
    obtain ⟨c, s1, hc, hr⟩ := StateOp.bind_eq_ok_iff.mp hr
    split at hr
    · cases hr
    · rename_i h0
      cases hr
      have hread := h.sound hs hc
      rw [← minimal_ofBytes h0] at hread
      exact hread
  complete := by
    intro s n hs hP hahead
    obtain ⟨s', hc⟩ := h.complete hs hP hahead
    refine ⟨s', StateOp.bind_eq_ok_iff.mpr ⟨_, _, hc, ?_⟩⟩
    rw [if_neg (minimal_head? n), ofBytes_minimal]
    rfl

theorem bigInt_accepts : Accepts bigInt (fun _ => True) intEnc :=
  readInt_accepts (intBuffer_accepts (fun _ _ => trivial) fun _ _ => by simp)

theorem readUint256_accepts : Accepts readUint256 (· < 256 ^ 32) intEnc := by
  have h : Accepts readUint256 (fun n => (minimal n).length ≤ 32) intEnc := by
    refine readInt_accepts (P := fun c => c.length ≤ 32) (intBuffer_accepts (fun _ hc => hc) ?_)
    intro n s c s' hs hn
    refine iff_of_false (fun h => by cases h) ?_
    rintro ⟨hle, hr⟩
    have hlen := length_of_readFull hs hr
    omega
  have hP : (fun n => (minimal n).length ≤ 32) = (· < 256 ^ 32) := by
    funext n
    refine propext ⟨fun hle => ?_, minimal_length_le⟩
    exact (lt_minimal_length n).trans_le (Nat.pow_le_pow_right (by decide) hle)
  rw [← hP]
  exact h

/-- A `bool` as it is written. -/
def boolEnc (b : Bool) : Bytes := (Value.ofString (if b then [1] else [])).enc

theorem boolEnc_eq (b : Bool) : boolEnc b = intEnc (if b then 1 else 0) := by
  cases b <;> rfl

theorem bool_iff {b : Bool} :
    Stream.bool s = (.ok b, s') ↔ uint 8 s = (.ok (if b then 1 else 0), s') := by
  rw [Stream.bool, StateOp.bind_eq_ok_iff]
  constructor
  · rintro ⟨n, s1, hn, h⟩
    split at h <;> cases h <;> exact hn
  · intro h
    refine ⟨_, _, h, ?_⟩
    cases b <;> rfl

theorem bool_accepts : Accepts Stream.bool (fun _ => True) boolEnc where
  sound := by
    intro s s' b hs h
    have hread := ((uint_accepts (k := 1) (by decide)).sound hs (bool_iff.mp h)).2
    rw [← boolEnc_eq] at hread
    exact ⟨trivial, hread⟩
  complete := by
    intro s b hs _ h
    rw [boolEnc_eq] at h
    obtain ⟨s', hu⟩ := (uint_accepts (k := 1) (by decide)).complete hs (by cases b <;> decide) h
    exact ⟨s', bool_iff.mpr hu⟩

/-! ## `Raw` -/

/-- The bytes of a value, also those of a byte written as a string. -/
def IsRaw (b : Bytes) : Prop :=
  ∃ v : Value, v.enc = b ∧ v.content.length < 2 ^ 64 ∧ (v.kind = .byte → isByte v.content = true)

theorem raw_accepts : Accepts raw IsRaw id where
  sound := by
    intro s s' a hs h
    obtain ⟨⟨k, n⟩, s1, hg, hf⟩ := StateOp.bind_eq_ok_iff.mp h
    obtain ⟨hd, b, hhd, hfits, htake, -, -, rfl⟩ :=
      (getKind_eq_ok_iff hs.toSynced hs.kind_none).mp hg
    have hhead : Ahead hd s := ⟨hfits, htake⟩
    cases hhd with
    | byte hlt =>
      cases hf
      have hsize : [b].length < 2 ^ 64 := Nat.one_lt_two_pow (by decide)
      refine ⟨⟨⟨.byte, [b]⟩, rfl, hsize, fun _ => isByte_iff.mpr ⟨b, hlt, rfl⟩⟩, hhead, htake, ?_⟩
      exact (Passed.consume hs hfits).congr rfl rfl rfl rfl rfl
    | string h64 =>
      obtain ⟨c, s2, hr, hf⟩ := StateOp.bind_eq_ok_iff.mp hf
      obtain ⟨rfl, hahead, rfl⟩ := (content_iff hs hhead).mp hr
      cases hf
      rw [puthead_eq _ _ h64]
      exact ⟨⟨⟨.string, c⟩, rfl, h64, fun hk => by cases hk⟩, hahead, content_read hs hahead _ _⟩
    | list h64 =>
      obtain ⟨c, s2, hr, hf⟩ := StateOp.bind_eq_ok_iff.mp hf
      obtain ⟨rfl, hahead, rfl⟩ := (content_iff hs hhead).mp hr
      cases hf
      rw [puthead_eq _ _ h64]
      exact ⟨⟨⟨.list, c⟩, rfl, h64, fun hk => by cases hk⟩, hahead, content_read hs hahead _ _⟩
  complete := by
    rintro s _ hs ⟨⟨k, c⟩, rfl, h64, hbyte⟩ h
    cases k with
    | byte =>
      obtain ⟨x, hx, hc⟩ := isByte_iff.mp (hbyte rfl)
      have hc : c = [x] := hc
      subst hc
      have hg := getKind_of_ahead (c := []) hs (.byte hx) h (Nat.le_refl 0)
      exact ⟨_, StateOp.bind_of_ok hg⟩
    | string =>
      have h : Ahead (header 0x80 0xB7 c.length ++ c) s := h
      have hg := getKind_of_ahead hs (.string h64) h (Nat.le_refl _)
      have hr := (content_iff (k := .string) (b := 0) hs h.left).mpr ⟨rfl, h, rfl⟩
      refine ⟨afterContent (header 0x80 0xB7 c.length) c.length .string 0 s, ?_⟩
      refine (StateOp.bind_of_ok hg).trans ((StateOp.bind_of_ok hr).trans ?_)
      rw [puthead_eq _ _ h64]
      rfl
    | list =>
      have h : Ahead (header 0xC0 0xF7 c.length ++ c) s := h
      have hg := getKind_of_ahead hs (.list h64) h (Nat.le_refl _)
      have hr := (content_iff (k := .list) (b := 0) hs h.left).mpr ⟨rfl, h, rfl⟩
      refine ⟨afterContent (header 0xC0 0xF7 c.length) c.length .list 0 s, ?_⟩
      refine (StateOp.bind_of_ok hg).trans ((StateOp.bind_of_ok hr).trans ?_)
      rw [puthead_eq _ _ h64]
      rfl

/-- Every operation on a value accepts what the encoders write for it, and the integers nothing
    else. -/
theorem stream_accepts :
    Accepts bytes (fun _ => True) (fun c => (Value.ofString c).enc) ∧
    (∀ len, Accepts (readBytes len) (·.length = len) (fun c => (Value.ofString c).enc)) ∧
    Accepts raw IsRaw id ∧
    (∀ k, 0 < k → k ≤ 8 → Accepts (uint (8 * k)) (· < 256 ^ k) intEnc) ∧
    Accepts Stream.bool (fun _ => True) boolEnc ∧
    Accepts bigInt (fun _ => True) intEnc ∧
    Accepts readUint256 (· < 256 ^ 32) intEnc :=
  ⟨bytes_accepts, readBytes_accepts, raw_accepts, fun _ hk _ => uint_accepts hk, bool_accepts,
    bigInt_accepts, readUint256_accepts⟩

end ZipoLogger.Rlp
