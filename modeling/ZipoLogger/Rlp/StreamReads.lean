/-
  What the stream reads.

  All this is about a stream with an input limit that the slice can meet (`Synced`). A read within
  both limits gives the next bytes and takes them off the limits (`consume`); any other read is
  refused (`Refused`), which for the input limit leaves the list charged although nothing has been
  read. `Kind` succeeds exactly on the head of a value of a size within the limits
  (`getKind_eq_ok_iff`); `getKind_error` says what it leaves when it fails.
-/
import ZipoLogger.Rlp.Stream

namespace ZipoLogger.Rlp

open BigEndian

/-- An error that says something about the input, and not only that a list is at its end. -/
def Err.Proper (e : Err) : Prop := e ≠ .eol ∧ e ≠ .outOfFuel

namespace Stream

/-! ## What reading takes -/

/-- The limit of the innermost list after `n` bytes. -/
def charge (n : Nat) : List Nat → List Nat
  | [] => []
  | limit :: outer => (limit - n) :: outer

/-- `n` bytes have been taken off the limit of the innermost list. -/
def charged (n : Nat) (s : Stream) : Stream := { s with stack := charge n s.stack, kind := none }

/-- `n` bytes have been taken off both limits. -/
def taken (n : Nat) (s : Stream) : Stream := { s.charged n with remaining := s.remaining - n }

/-- `n` bytes have been read. -/
def consume (n : Nat) (s : Stream) : Stream :=
  { s.taken n with r := s.r.drop n }

/-- `n` bytes are within both limits. -/
def Fits (n : Nat) (s : Stream) : Prop := s.stack.head?.all (n ≤ ·) = true ∧ n ≤ s.remaining

/-- There is an input limit, and the slice has that much. -/
structure Synced (s : Stream) : Prop where
  limited : s.limited = true
  le_length : s.remaining ≤ s.r.length

variable {s s' : Stream} {n : Nat}

theorem Synced.of_eq (h : s.Synced) (hr : s'.r = s.r) (hrem : s'.remaining = s.remaining)
    (hl : s'.limited = s.limited) : s'.Synced :=
  ⟨hl.trans h.limited, by rw [hr, hrem]; exact h.le_length⟩

theorem Synced.consume (h : s.Synced) (n : Nat) : (s.consume n).Synced := by
  refine ⟨h.limited, ?_⟩
  have := h.le_length
  change s.remaining - n ≤ (s.r.drop n).length
  rw [List.length_drop]
  omega

theorem willReadList_of_le (h : s.stack.head?.all (n ≤ ·) = true) :
    willReadList n s = (.ok (), { s with stack := charge n s.stack }) := by
  obtain ⟨r, remaining, size, kinderr, stack, kind, byteval, limited⟩ := s
  cases stack with
  | nil => rfl
  | cons limit outer => exact if_neg (not_lt.mpr (of_decide_eq_true h))

theorem willReadList_of_lt (h : s.stack.head?.all (n ≤ ·) ≠ true) :
    willReadList n s = (.error .elemTooLarge, s) := by
  obtain ⟨r, remaining, size, kinderr, stack, kind, byteval, limited⟩ := s
  cases stack with
  | nil => exact absurd rfl h
  | cons limit outer => exact if_pos (not_le.mp fun hle => h (decide_eq_true hle))

theorem willReadInput_eq (h : s.limited = true) : willReadInput n s =
    if n > s.remaining then (.error .valueTooLarge, s)
    else (.ok (), { s with remaining := s.remaining - n }) := if_pos h

theorem willRead_eq (n : Nat) (s : Stream) :
    willRead n s = (willReadList n >>= fun _ => willReadInput n) s.rearm :=
  StateOp.bind_of_ok rfl

/-- What `willRead` can do: take the bytes off both limits, refuse them for the list, or refuse
    them for the input when the list has been charged already. -/
theorem willRead_cases (h : s.limited = true) (n : Nat) :
    s.Fits n ∧ willRead n s = (.ok (), s.taken n) ∨
    ¬ s.Fits n ∧ (willRead n s = (.error .elemTooLarge, s.rearm) ∨
      s.stack.head?.all (n ≤ ·) = true ∧ s.remaining < n ∧
        willRead n s = (.error .valueTooLarge, s.charged n)) := by
  rw [willRead_eq]
  by_cases hlist : s.stack.head?.all (n ≤ ·) = true
  · have hw : willReadList n s.rearm = (.ok (), s.charged n) := willReadList_of_le hlist
    have hin : willReadInput n (s.charged n) = if n > s.remaining then
        (.error .valueTooLarge, s.charged n) else (.ok (), s.taken n) := willReadInput_eq h
    rw [StateOp.bind_of_ok hw, hin]
    by_cases hlt : s.remaining < n
    · exact .inr ⟨fun hf => absurd hf.2 (not_le.mpr hlt), .inr ⟨hlist, hlt, if_pos hlt⟩⟩
    · exact .inl ⟨⟨hlist, not_lt.mp hlt⟩, if_neg hlt⟩
  · exact .inr ⟨fun hf => hlist hf.1, .inl (StateOp.bind_of_error (willReadList_of_lt hlist))⟩

/-- `n` bytes within the limits are read. -/
theorem readFull_of_fits (h : s.Synced) (hf : s.Fits n) :
    readFull n s = (.ok (s.r.take n), s.consume n) := by
  obtain ⟨-, hw⟩ | ⟨hnf, -⟩ := willRead_cases h.limited n
  · have hlen : n ≤ s.r.length := hf.2.trans h.le_length
    rw [readFull, StateOp.bind_of_ok hw]
    exact congrArg (·, s.consume n) (if_pos hlen)
  · exact absurd hf hnf

/-- What is left of the limits when a read does not fit. -/
def Refused (n : Nat) (s s' : Stream) : Prop :=
  s' = s.rearm ∨ s.stack.head?.all (n ≤ ·) = true ∧ s.remaining < n ∧ s' = s.charged n

theorem willRead_refused (h : s.Synced) (hf : ¬ s.Fits n) :
    ∃ e s', willRead n s = (.error e, s') ∧ e.Proper ∧ Refused n s s' := by
  obtain ⟨hf', -⟩ | ⟨-, hw | ⟨hall, hlt, hw⟩⟩ := willRead_cases h.limited n
  · exact absurd hf' hf
  · exact ⟨_, _, hw, ⟨by simp, by simp⟩, .inl rfl⟩
  · exact ⟨_, _, hw, ⟨by simp, by simp⟩, .inr ⟨hall, hlt, rfl⟩⟩

theorem readFull_refused (h : s.Synced) (hf : ¬ s.Fits n) :
    ∃ e s', readFull n s = (.error e, s') ∧ e.Proper ∧ Refused n s s' := by
  obtain ⟨e, s', hw, hr⟩ := willRead_refused h hf
  exact ⟨e, s', StateOp.bind_of_error hw, hr⟩

theorem readByte_of_fits (h : s.Synced) (hf : s.Fits 1) :
    ∃ b r, s.r = b :: r ∧ readByte s = (.ok b, s.consume 1) := by
  obtain ⟨-, hw⟩ | ⟨hnf, -⟩ := willRead_cases h.limited 1
  · have hlen : 1 ≤ s.r.length := hf.2.trans h.le_length
    cases hr : s.r with
    | nil =>
      rw [hr] at hlen
      cases hlen
    | cons b r =>
      refine ⟨b, r, rfl, ?_⟩
      rw [readByte, StateOp.bind_of_ok hw]
      rw [consume, sliceReadByte, show (s.taken 1).r = b :: r from hr, hr]
      rfl
  · exact absurd hf hnf

theorem readByte_refused (h : s.Synced) (hf : ¬ s.Fits 1) :
    ∃ e s', readByte s = (.error e, s') ∧ e.Proper ∧ Refused 1 s s' := by
  obtain ⟨e, s', hw, hr⟩ := willRead_refused h hf
  exact ⟨e, s', StateOp.bind_of_error hw, hr⟩

theorem readFull_eq_ok_iff (h : s.Synced) {b : Bytes} :
    readFull n s = (.ok b, s') ↔ s.Fits n ∧ b = s.r.take n ∧ s' = s.consume n := by
  constructor
  · intro hr
    by_cases hf : s.Fits n
    · rw [readFull_of_fits h hf] at hr
      cases hr
      exact ⟨hf, rfl, rfl⟩
    · obtain ⟨e, s1, he, -⟩ := readFull_refused h hf
      rw [he] at hr
      cases hr
  · rintro ⟨hf, rfl, rfl⟩
    exact readFull_of_fits h hf

theorem readByte_eq_ok_iff (h : s.Synced) {b : UInt8} :
    readByte s = (.ok b, s') ↔ s.Fits 1 ∧ s.r.take 1 = [b] ∧ s' = s.consume 1 := by
  by_cases hf : s.Fits 1
  · obtain ⟨c, r, hr, hc⟩ := readByte_of_fits h hf
    rw [hc, hr]
    constructor
    · intro he
      cases he
      exact ⟨hf, rfl, rfl⟩
    · rintro ⟨-, hb, rfl⟩
      cases hb
      rfl
  · obtain ⟨e, s1, he, -⟩ := readByte_refused h hf
    rw [he]
    exact iff_of_false (fun hr => by cases hr) fun hr => hf hr.1

/-- The integer of `m` bytes. -/
theorem readUint_eq_ok_iff (h : s.Synced) {m : Nat} (hm : 0 < m) : readUint m s = (.ok n, s') ↔
    s.Fits m ∧ n = ofBytes (s.r.take m) ∧ s' = s.consume m ∧
      (1 < m → (s.r.take m).head? ≠ some 0) := by
  match m, hm with
  | 1, _ =>
    rw [readUint, StateOp.bind_eq_ok_iff]
    constructor
    · rintro ⟨b, s1, hb, he⟩
      obtain ⟨hf, hr, rfl⟩ := (readByte_eq_ok_iff h).mp hb
      cases he
      rw [hr]
      exact ⟨hf, (ofBytes_singleton b).symm, rfl, fun h1 => absurd h1 (lt_irrefl 1)⟩
    · rintro ⟨hf, rfl, rfl, -⟩
      obtain ⟨b, r, hr, hb⟩ := readByte_of_fits h hf
      refine ⟨b, _, hb, ?_⟩
      rw [hr]
      exact congrArg (fun n => (Except.ok n, _)) (ofBytes_singleton b).symm
  | m + 2, _ =>
    rw [readUint, StateOp.bind_eq_ok_iff]
    · constructor
      · rintro ⟨b, s1, hb, he⟩
        obtain ⟨hf, rfl, rfl⟩ := (readFull_eq_ok_iff h).mp hb
        split at he
        · cases he
        · rename_i h0
          cases he
          exact ⟨hf, rfl, rfl, fun _ => h0⟩
      · rintro ⟨hf, rfl, rfl, h0⟩
        refine ⟨_, _, readFull_of_fits h hf, ?_⟩
        rw [if_neg (h0 (by omega))]
        rfl
    all_goals simp

theorem readFull_error (h : s.Synced) {e : Err} (hr : readFull n s = (.error e, s')) :
    e.Proper ∧ Refused n s s' := by
  by_cases hf : s.Fits n
  · rw [readFull_of_fits h hf] at hr
    cases hr
  · obtain ⟨e', s1, he, hne, href⟩ := readFull_refused h hf
    rw [he] at hr
    cases hr
    exact ⟨hne, href⟩

theorem readByte_error (h : s.Synced) {e : Err} (hr : readByte s = (.error e, s')) :
    e.Proper ∧ Refused 1 s s' := by
  by_cases hf : s.Fits 1
  · obtain ⟨b, r, -, hb⟩ := readByte_of_fits h hf
    rw [hb] at hr
    cases hr
  · obtain ⟨e', s1, he, hne, href⟩ := readByte_refused h hf
    rw [he] at hr
    cases hr
    exact ⟨hne, href⟩

/-- What a failed `readUint` leaves: what a refused read leaves, or the bytes have been read. -/
theorem readUint_error (h : s.Synced) {m : Nat} (hm : 0 < m) {e : Err}
    (hr : readUint m s = (.error e, s')) :
    e.Proper ∧ (Refused m s s' ∨ s.Fits m ∧ s' = s.consume m) := by
  match m, hm with
  | 1, _ =>
    rcases hb : readByte s with ⟨e' | b, s1⟩
    · obtain ⟨hne, href⟩ := readByte_error h hb
      rw [readUint, StateOp.bind_of_error hb] at hr
      cases hr
      exact ⟨hne, .inl href⟩
    · rw [readUint, StateOp.bind_of_ok hb] at hr
      cases hr
  | m + 2, _ =>
    rcases hb : readFull (m + 2) s with ⟨e' | b, s1⟩
    · obtain ⟨hne, href⟩ := readFull_error h hb
      rw [readUint, StateOp.bind_of_error hb] at hr
      · cases hr
        exact ⟨hne, .inl href⟩
      all_goals simp
    · obtain ⟨hf, -, rfl⟩ := (readFull_eq_ok_iff h).mp hb
      rw [readUint, StateOp.bind_of_ok hb] at hr
      · split at hr <;> cases hr
        exact ⟨⟨by simp, by simp⟩, .inr ⟨hf, rfl⟩⟩
      all_goals simp

/-- A size of `m` bytes after the tag. -/
theorem readLongSize_eq_iff (h : s.Synced) {m : Nat} (hm : 1 ≤ m ∧ m ≤ 8) {k : Kind} :
    readLongSize k m s = ((k, n, none), s') ↔
      s.Fits m ∧ 56 ≤ n ∧ n < 2 ^ 64 ∧ s.r.take m = minimal n ∧ s' = s.consume m := by
  constructor
  · intro hr
    unfold readLongSize at hr
    rcases hu : readUint m s with ⟨_ | n', s1⟩
    · rw [hu] at hr
      cases hr
    · rw [hu] at hr
      dsimp only at hr
      split at hr
      · cases hr
      · rename_i h56
        cases hr
        obtain ⟨hf, hn, rfl, h0⟩ := (readUint_eq_ok_iff h hm.1).mp hu
        have hlen : (s.r.take m).length = m :=
          List.length_take_of_le (hf.2.trans h.le_length)
        have hhead : (s.r.take m).head? ≠ some 0 := by
          intro hz
          by_cases h1 : 1 < m
          · exact h0 h1 hz
          · obtain ⟨b, hb⟩ := List.length_eq_one_iff.mp (hlen.trans (by omega : m = 1))
            rw [hb] at hz hn
            cases hz
            rw [hn] at h56
            exact h56 (by decide)
        have hlt := ofBytes_lt (s.r.take m)
        have hpow : 256 ^ m ≤ 256 ^ 8 := Nat.pow_le_pow_right (by decide) hm.2
        rw [hlen, ← hn] at hlt
        refine ⟨hf, not_lt.mp h56, hlt.trans_le hpow, ?_, rfl⟩
        rw [hn, minimal_ofBytes hhead]
  · rintro ⟨hf, h56, -, hmin, rfl⟩
    have hu : readUint m s = (.ok n, s.consume m) := (readUint_eq_ok_iff h hm.1).mpr
      ⟨hf, by rw [hmin, ofBytes_minimal], rfl, fun _ => by rw [hmin]; exact minimal_head? n⟩
    rw [readLongSize, hu]
    dsimp only
    rw [if_neg (not_lt.mpr h56)]

/-- What `readKind` has read when it has found a kind and a size: the tag, and the size after it. -/
inductive IsHead : Kind → Nat → UInt8 → Bytes → Prop
  | byte {b : UInt8} : b.toNat < 0x80 → IsHead .byte 0 b [b]
  | string {n : Nat} : n < 2 ^ 64 → IsHead .string n 0 (header 0x80 0xB7 n)
  | list {n : Nat} : n < 2 ^ 64 → IsHead .list n 0 (header 0xC0 0xF7 n)

theorem consume_consume (s : Stream) (m n : Nat) : (s.consume m).consume n = s.consume (m + n) := by
  obtain ⟨r, remaining, size, kinderr, stack, kind, byteval, limited⟩ := s
  cases stack <;> simp [consume, taken, charged, charge, List.drop_drop, Nat.sub_sub]

theorem Fits.of_add {m n : Nat} (h : s.Fits (m + n)) : s.Fits m ∧ (s.consume m).Fits n := by
  obtain ⟨r, remaining, size, kinderr, stack, kind, byteval, limited⟩ := s
  have hrem : m + n ≤ remaining := h.2
  cases stack with
  | nil => exact ⟨⟨rfl, Nat.le_of_add_right_le hrem⟩, rfl, Nat.le_sub_of_add_le' hrem⟩
  | cons l ls =>
    have hl : m + n ≤ l := of_decide_eq_true h.1
    refine ⟨⟨decide_eq_true (by omega), Nat.le_of_add_right_le hrem⟩, decide_eq_true ?_, ?_⟩
    · exact Nat.le_sub_of_add_le' hl
    · exact Nat.le_sub_of_add_le' hrem

theorem Fits.add {m n : Nat} (h : s.Fits m) (h' : (s.consume m).Fits n) : s.Fits (m + n) := by
  obtain ⟨r, remaining, size, kinderr, stack, kind, byteval, limited⟩ := s
  have hm : m ≤ remaining := h.2
  have hn : n ≤ remaining - m := h'.2
  cases stack with
  | nil => exact ⟨rfl, Nat.add_le_of_le_sub' hm hn⟩
  | cons l ls =>
    have hl : m ≤ l := of_decide_eq_true h.1
    have hl' : n ≤ l - m := of_decide_eq_true h'.1
    exact ⟨decide_eq_true (by omega), Nat.add_le_of_le_sub' hm hn⟩

section Tag

variable {b0 : UInt8} {m : Nat} {k : Kind}

/-- The state after the first byte of a tag. -/
def afterTag (s : Stream) : Stream := { s.consume 1 with byteval := 0 }

theorem Synced.afterTag (h : s.Synced) : s.afterTag.Synced :=
  (h.consume 1).of_eq rfl rfl rfl

theorem afterTag_consume (s : Stream) (m : Nat) :
    s.afterTag.consume m = { s.consume (m + 1) with byteval := 0 } := by
  rw [Nat.add_comm m 1, ← consume_consume]
  rfl

theorem take_succ_of_take_one (h : s.r.take 1 = [b0]) (m : Nat) :
    s.r.take (m + 1) = b0 :: s.afterTag.r.take m := by
  rw [Nat.add_comm, List.take_add, h]
  rfl

/-- A header with its size after the tag, the two families of tags at once. -/
theorem longSize_iff (h : s.Synced) (hb : s.r.take 1 = [b0]) (hf : s.Fits 1) {l t : Nat}
    (hl : b0.toNat = l + m) (hm : 1 ≤ m ∧ m ≤ 8) :
    readLongSize k m s.afterTag = ((k, n, none), s') ↔
      56 ≤ n ∧ n < 2 ^ 64 ∧ s.Fits (header t l n).length ∧
        s.r.take (header t l n).length = header t l n ∧ (minimal n).length = m ∧
        s' = { s.consume (header t l n).length with byteval := 0 } := by
  rw [readLongSize_eq_iff h.afterTag hm]
  constructor
  · rintro ⟨hf', h56, h64, htake, rfl⟩
    have hmlen : (minimal n).length = m := by
      rw [← htake]
      exact List.length_take_of_le (hf'.2.trans h.afterTag.le_length)
    have hhead : header t l n = b0 :: minimal n := of_tag_large (by rw [hl, hmlen]) h56
    have hlen : (header t l n).length = m + 1 := by rw [hhead, List.length_cons, hmlen]
    rw [hlen, take_succ_of_take_one hb, htake, hhead, afterTag_consume]
    exact ⟨h56, h64, by rw [Nat.add_comm]; exact hf.add hf', rfl, hmlen, rfl⟩
  · rintro ⟨h56, h64, hfits, htake, hmlen, rfl⟩
    have hhead : header t l n = b0 :: minimal n := of_tag_large (by rw [hl, hmlen]) h56
    have hlen : (header t l n).length = m + 1 := by rw [hhead, List.length_cons, hmlen]
    rw [hlen] at hfits htake
    rw [hlen, afterTag_consume]
    rw [take_succ_of_take_one hb, hhead] at htake
    rw [Nat.add_comm] at hfits
    exact ⟨hfits.of_add.2, h56, h64, (List.cons.inj htake).2, rfl⟩

end Tag

theorem readLongSize_kind (k : Kind) (m : Nat) (s : Stream) : (readLongSize k m s).1.1 = k := by
  unfold readLongSize
  split <;> rfl

theorem IsHead.length_pos {k : Kind} {b : UInt8} {hd : Bytes} (h : IsHead k n b hd) :
    1 ≤ hd.length := by
  cases h with
  | byte _ => exact Nat.le_refl 1
  | string _ => exact List.length_pos_of_ne_nil (header_ne_nil _ _ _)
  | list _ => exact List.length_pos_of_ne_nil (header_ne_nil _ _ _)

/-- What `readKind` finds is the head of a value, and it takes no more than that. -/
theorem of_readKind (h : s.Synced) {k : Kind} (hr : readKind s = ((k, n, none), s')) :
    ∃ hd b, IsHead k n b hd ∧ s.Fits hd.length ∧ s.r.take hd.length = hd ∧
      s' = { s.consume hd.length with byteval := b } := by
  unfold readKind at hr
  rcases hb : readByte s with ⟨e | b0, s1⟩
  · rw [hb] at hr
    cases hr
  · obtain ⟨hf, htake, rfl⟩ := (readByte_eq_ok_iff h).mp hb
    have hb0 := b0.toNat_lt
    rw [hb] at hr
    dsimp only at hr
    split_ifs at hr with h1 h2 h3 h4
    · cases hr
      exact ⟨[b0], b0, .byte h1, hf, htake, rfl⟩
    · generalize hm : b0.toNat - 0x80 = m at hr
      cases hr
      have hhead : header 0x80 0xB7 n = [b0] := of_tag_small (by omega) (by omega)
      refine ⟨_, 0, .string (by omega), ?_⟩
      rw [hhead]
      exact ⟨hf, htake, rfl⟩
    · generalize hm : b0.toNat - 0xB7 = m at hr
      have hk := readLongSize_kind .string m s.afterTag
      rw [afterTag, hr] at hk
      obtain rfl : k = .string := hk
      obtain ⟨h56, h64, hfits, hhead, -, hs'⟩ :=
        (longSize_iff (t := 0x80) h htake hf (show b0.toNat = 0xB7 + m by omega) (by omega)).mp hr
      exact ⟨_, 0, .string h64, hfits, hhead, hs'⟩
    · generalize hm : b0.toNat - 0xC0 = m at hr
      cases hr
      have hhead : header 0xC0 0xF7 n = [b0] := of_tag_small (by omega) (by omega)
      refine ⟨_, 0, .list (by omega), ?_⟩
      rw [hhead]
      exact ⟨hf, htake, rfl⟩
    · generalize hm : b0.toNat - 0xF7 = m at hr
      have hk := readLongSize_kind .list m s.afterTag
      rw [afterTag, hr] at hk
      obtain rfl : k = .list := hk
      obtain ⟨h56, h64, hfits, hhead, -, hs'⟩ :=
        (longSize_iff (t := 0xC0) h htake hf (show b0.toNat = 0xF7 + m by omega) (by omega)).mp hr
      exact ⟨_, 0, .list h64, hfits, hhead, hs'⟩

/-- The head of a value within the limits is found. -/
theorem readKind_of_head (h : s.Synced) {k : Kind} {b : UInt8} {hd : Bytes}
    (hhd : IsHead k n b hd) (hf : s.Fits hd.length) (htake : s.r.take hd.length = hd) :
    readKind s = ((k, n, none), { s.consume hd.length with byteval := b }) := by
  have hpos := hhd.length_pos
  have hf1 : s.Fits 1 := by
    rw [← Nat.add_sub_cancel' hpos] at hf
    exact hf.of_add.1
  obtain ⟨b0, r, hr, hb⟩ := readByte_of_fits h hf1
  have hone : s.r.take 1 = [b0] := by
    rw [hr]
    rfl
  have hb0 : ∀ c t, hd = c :: t → c = b0 := by
    rintro c t rfl
    rw [List.length_cons, take_succ_of_take_one hone] at htake
    exact (List.cons.inj htake).1.symm
  rw [readKind, hb]
  dsimp only
  cases hhd with
  | byte hlt =>
    obtain rfl := hb0 _ _ rfl
    exact if_pos hlt
  | string h64 =>
    by_cases h56 : n < 56
    · have hhead : header 0x80 0xB7 n = [UInt8.ofNat (0x80 + n)] := header_small h56
      have htag : b0.toNat = 0x80 + n := by
        rw [← hb0 _ _ hhead, toNat_ofNat_of_lt (by omega)]
      rw [hhead, htag, if_neg (by omega), if_pos (by omega), Nat.add_sub_cancel_left]
      rfl
    · have hlen := size_length (not_lt.mp h56) h64
      have htag : b0.toNat = 0xB7 + (minimal n).length := by
        rw [← hb0 _ _ (header_large (not_lt.mp h56)), toNat_ofNat_of_lt (by omega)]
      rw [htag, if_neg (by omega), if_neg (by omega), if_pos (by omega), Nat.add_sub_cancel_left]
      exact (longSize_iff h hone hf1 htag hlen).mpr ⟨not_lt.mp h56, h64, hf, htake, rfl, rfl⟩
  | list h64 =>
    by_cases h56 : n < 56
    · have hhead : header 0xC0 0xF7 n = [UInt8.ofNat (0xC0 + n)] := header_small h56
      have htag : b0.toNat = 0xC0 + n := by
        rw [← hb0 _ _ hhead, toNat_ofNat_of_lt (by omega)]
      rw [hhead, htag, if_neg (by omega), if_neg (by omega), if_neg (by omega), if_pos (by omega),
        Nat.add_sub_cancel_left]
      rfl
    · have hlen := size_length (not_lt.mp h56) h64
      have htag : b0.toNat = 0xF7 + (minimal n).length := by
        rw [← hb0 _ _ (header_large (not_lt.mp h56)), toNat_ofNat_of_lt (by omega)]
      rw [htag, if_neg (by omega), if_neg (by omega), if_neg (by omega), if_neg (by omega),
        Nat.add_sub_cancel_left]
      exact (longSize_iff h hone hf1 htag hlen).mpr ⟨not_lt.mp h56, h64, hf, htake, rfl, rfl⟩

/-- The state when a value of this kind and size is ahead. -/
def ahead (k : Kind) (n : Nat) (b : UInt8) (s : Stream) : Stream :=
  { s with kind := some k, size := n, kinderr := none, byteval := b }

theorem getKind_ahead (k : Kind) (n : Nat) (b : UInt8) (s : Stream) :
    getKind (s.ahead k n b) = (.ok (k, n), s.ahead k n b) := rfl

theorem checkSize_eq_none_iff {outer : Option Nat} (h : s.limited = true) :
    checkSize outer n s = none ↔ outer.all (n ≤ ·) = true ∧ n ≤ s.remaining := by
  unfold checkSize
  rw [h]
  cases outer with
  | none => simp
  | some l =>
    by_cases hl : n ≤ l
    · simp [hl, not_lt.mpr hl]
    · simp [hl, not_le.mp hl]

/-- What `Kind` finds: the head of a value, and a size within the limits; the list limit is the
    one before the head. -/
theorem getKind_eq_ok_iff (h : s.Synced) (hk : s.kind = none) {k : Kind} :
    getKind s = (.ok (k, n), s') ↔ ∃ hd b, IsHead k n b hd ∧ s.Fits hd.length ∧
      s.r.take hd.length = hd ∧ s.stack.head?.all (n ≤ ·) = true ∧
      n ≤ s.remaining - hd.length ∧ s' = (s.consume hd.length).ahead k n b := by
  have hsome : ¬ s.kind.isSome = true := by
    rw [hk]
    exact Bool.false_ne_true
  unfold getKind
  rw [if_neg hsome]
  constructor
  · intro hg
    split at hg
    · cases hg
    · rcases hr : readKind s with ⟨⟨k1, n1, err⟩, s1⟩
      rw [hr] at hg
      dsimp only at hg
      cases err with
      | some e => cases hg
      | none =>
        obtain ⟨hd, b, hhd, hf, htake, rfl⟩ := of_readKind h hr
        rcases hcheck : checkSize s.stack.head? n1 { s.consume hd.length with byteval := b }
          with _ | e
        · rw [hcheck] at hg
          cases hg
          obtain ⟨hlist, hrem⟩ := (checkSize_eq_none_iff
            (s := { s.consume hd.length with byteval := b }) h.limited).mp hcheck
          exact ⟨hd, b, hhd, hf, htake, hlist, hrem, rfl⟩
        · rw [hcheck] at hg
          cases hg
  · rintro ⟨hd, b, hhd, hf, htake, hlist, hrem, rfl⟩
    have hpos := hhd.length_pos
    have h0 : ¬ s.stack.head? = some 0 := by
      intro h0
      have hle := hf.1
      rw [h0] at hle
      have := of_decide_eq_true hle
      omega
    rw [if_neg h0, readKind_of_head h hhd hf htake]
    dsimp only
    have hcheck : checkSize s.stack.head? n { s.consume hd.length with byteval := b } = none :=
      (checkSize_eq_none_iff (s := { s.consume hd.length with byteval := b }) h.limited).mpr
        ⟨hlist, hrem⟩
    rw [hcheck]
    rfl

/-- What a failed `readKind` leaves: up to nine bytes have been read, and the next ones may have
    been refused. -/
def Broke (s s' : Stream) : Prop :=
  ∃ t b, s.Fits t ∧ (s' = { s.consume t with byteval := b } ∨
    ∃ m, 1 ≤ m ∧ m ≤ 8 ∧ Refused m { s.consume t with byteval := b } s')

theorem consume_zero (s : Stream) : s.consume 0 = s.rearm := by
  obtain ⟨r, remaining, size, kinderr, stack, kind, byteval, limited⟩ := s
  cases stack <;> rfl

theorem fits_zero (s : Stream) : s.Fits 0 := by
  refine ⟨?_, Nat.zero_le _⟩
  cases s.stack.head? <;> simp

theorem Refused.broke {m : Nat} (h : Refused m s s') (hm : 1 ≤ m ∧ m ≤ 8) : Broke s s' := by
  refine ⟨0, s.byteval, s.fits_zero, .inr ⟨m, hm.1, hm.2, ?_⟩⟩
  rw [consume_zero]
  exact h

theorem readLongSize_error (h : s.Synced) {m : Nat} (hm : 1 ≤ m ∧ m ≤ 8) {k k' : Kind} {e : Err}
    (hf : s.Fits 1) (hr : readLongSize k m s.afterTag = ((k', n, some e), s')) :
    e.Proper ∧ Broke s s' := by
  unfold readLongSize at hr
  rcases hu : readUint m s.afterTag with ⟨e' | size, s1⟩
  · obtain ⟨hne, hor⟩ := readUint_error h.afterTag hm.1 hu
    rw [hu] at hr
    cases hr
    refine ⟨hne, ?_⟩
    rcases hor with href | ⟨hfits, rfl⟩
    · exact ⟨1, 0, hf, .inr ⟨m, hm.1, hm.2, href⟩⟩
    · exact ⟨1 + m, 0, hf.add hfits, .inl (by rw [afterTag_consume, Nat.add_comm])⟩
  · obtain ⟨hfits, -, rfl, -⟩ := (readUint_eq_ok_iff h.afterTag hm.1).mp hu
    rw [hu] at hr
    dsimp only at hr
    split at hr
    · cases hr
      exact ⟨⟨by simp, by simp⟩, 1 + m, 0, hf.add hfits,
        .inl (by rw [afterTag_consume, Nat.add_comm])⟩
    · cases hr

theorem readKind_error (h : s.Synced) {k : Kind} {e : Err}
    (hr : readKind s = ((k, n, some e), s')) : e.Proper ∧ Broke s s' := by
  unfold readKind at hr
  rcases hb : readByte s with ⟨e' | b0, s1⟩
  · obtain ⟨hne, href⟩ := readByte_error h hb
    rw [hb] at hr
    dsimp only at hr
    cases hr
    refine ⟨?_, href.broke ⟨Nat.le_refl 1, by decide⟩⟩
    split
    · exact ⟨by simp, by simp⟩
    · exact hne
  · obtain ⟨hf, -, rfl⟩ := (readByte_eq_ok_iff h).mp hb
    have hb0 := b0.toNat_lt
    rw [hb] at hr
    dsimp only at hr
    split_ifs at hr with h1 h2 h3 h4
    · cases hr
    · generalize b0.toNat - 0x80 = m at hr
      cases hr
    · generalize hm : b0.toNat - 0xB7 = m at hr
      exact readLongSize_error h (by omega) hf hr
    · generalize b0.toNat - 0xC0 = m at hr
      cases hr
    · generalize hm : b0.toNat - 0xF7 = m at hr
      exact readLongSize_error h (by omega) hf hr

theorem checkSize_proper {outer : Option Nat} {e : Err} (h : checkSize outer n s = some e) :
    e.Proper := by
  unfold checkSize at h
  split_ifs at h
  all_goals
    cases h
    exact ⟨by simp, by simp⟩

/-- What a failed `Kind` leaves: nothing has happened at the end of a list; otherwise the error is
    kept with a kind. -/
theorem getKind_error (h : s.Synced) (hk : s.kind = none) {e : Err}
    (hg : getKind s = (.error e, s')) :
    e = .eol ∧ s.stack.head? = some 0 ∧ s' = s ∨
    e.Proper ∧ s.stack.head? ≠ some 0 ∧ ∃ k n s1, Broke s s1 ∧
      s' = { s1 with kind := some k, size := n, kinderr := some e } := by
  have hsome : ¬ s.kind.isSome = true := by
    rw [hk]
    exact Bool.false_ne_true
  unfold getKind at hg
  rw [if_neg hsome] at hg
  split at hg
  · rename_i h0
    cases hg
    exact .inl ⟨rfl, h0, rfl⟩
  · rename_i h0
    rcases hr : readKind s with ⟨⟨k, n, err⟩, s1⟩
    rw [hr] at hg
    dsimp only at hg
    cases err with
    | some e' =>
      obtain ⟨hne, hbroke⟩ := readKind_error h hr
      cases hg
      exact .inr ⟨hne, h0, k, n, s1, hbroke, rfl⟩
    | none =>
      obtain ⟨hd, b, -, hf, -, rfl⟩ := of_readKind h hr
      rcases hcheck : checkSize s.stack.head? n { s.consume hd.length with byteval := b }
        with _ | e'
      · rw [hcheck] at hg
        cases hg
      · rw [hcheck] at hg
        cases hg
        exact .inr ⟨checkSize_proper hcheck, h0, k, n, _, ⟨hd.length, b, hf, .inl rfl⟩, rfl⟩

end Stream

end ZipoLogger.Rlp
