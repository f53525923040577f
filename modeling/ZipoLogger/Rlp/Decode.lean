/-
  decode.go: `DecodeBytes` into an `interface{}`.

  A string becomes a byte slice and a list a slice of what its elements become, so the result is an
  item of the format. The recursion is bounded by fuel, four times the length of the input; it never
  runs out (`decode_total`). The limits are 64-bit numbers, and `List` takes the size of an
  inner list off the outer one without a check that it fits. What carries the proof is that a
  decoded value of `n` bytes takes `n` off the limit modulo 2^64 (`Passed`): at the end of a list
  the limit is zero, and since fewer than 2^64 bytes have been read, exactly its size has been
  read. So what is accepted is the encoding of an item, byte for byte (`decodeBytes_canonical`).
-/
import ZipoLogger.Rlp.Values

namespace ZipoLogger.Rlp

open BigEndian
open ZipoLogger.Rlp.Stream

mutual

/-- `decodeInterface`. -/
def decodeInterface : Nat → Op Item
  | 0 => throw .outOfFuel
  | fuel + 1 => do
    let (kind, _) ← getKind
    if kind = .list then
      let elems ← decodeListSlice fuel
      return .list elems
    else
      let b ← bytes
      return .str b

/-- `decodeListSlice` with `decodeInterface` for the elements. -/
def decodeListSlice : Nat → Op (List Item)
  | 0 => throw .outOfFuel
  | fuel + 1 => do
    let size ← Stream.list
    if size = 0 then
      listEnd
      return []
    else
      let elems ← decodeSliceElems fuel
      listEnd
      return elems

/-- `decodeSliceElems`: one element after another, up to the end of the list. -/
def decodeSliceElems : Nat → Op (List Item)
  | 0 => throw .outOfFuel
  | fuel + 1 => fun s =>
    match decodeInterface fuel s with
    | (.error .eol, s) => (.ok [], s)
    | (.error e, s) => (.error e, s)
    | (.ok x, s) => (do
        let xs ← decodeSliceElems fuel
        return x :: xs : Op (List Item)) s

end

/-- `DecodeBytes` into an `interface{}`. -/
def decodeBytes (b : Bytes) : Except Err Item :=
  match decodeInterface (4 * b.length + 4) (reset b b.length) with
  | (.error e, _) => .error e
  | (.ok x, s) => if s.r ≠ [] then .error .moreThanOneValue else .ok x

variable {s s1 s2 s' : Stream} {m n fuel : Nat}

/-! ## Lists -/

/-- A list of `n` bytes has been entered. -/
def entered (n : Nat) (s : Stream) : Stream :=
  { s with stack := n :: settle n s.stack, kind := none, size := 0 }

theorem list_ahead (n : Nat) (b : UInt8) (s : Stream) :
    Stream.list (s.ahead .list n b) = (.ok n, entered n (s.ahead .list n b)) := by
  obtain ⟨r, remaining, size, kinderr, stack, kind, byteval, limited⟩ := s
  cases stack <;> rfl

theorem ready_entered (hs : Ready s) (hn : n < 2 ^ 64) (b : UInt8) :
    Ready (entered n (s.ahead .list n b)) where
  limited := hs.limited
  le_length := hs.le_length
  kind_none := rfl
  remaining_lt := hs.remaining_lt
  limits_lt := by
    intro l hl
    cases hl with
    | head => exact hn
    | tail _ hl => exact hs.settle_lt n l hl

/-- The elements of a list fill it exactly when its end is met: the limit has come down to zero. -/
theorem listEnd_read (hs : Ready s) {b : UInt8} {c : Bytes} (hn : n < 2 ^ 63)
    (hc : Read c (entered n (s.ahead .list n b)) s1) (hend : listEnd s1 = (.ok (), s')) :
    c.length = n ∧ Read c s s' := by
  obtain ⟨htake, hp⟩ := hc
  have hst : s1.stack = sub64 n c.length :: settle n s.stack := hp.stack_eq
  have hle : c.length ≤ s.remaining := hp.le
  have hlt := hs.remaining_lt
  unfold listEnd at hend
  rw [hst] at hend
  dsimp only at hend
  split at hend
  · cases hend
  · rename_i h0
    cases hend
    have hlen : c.length = n := by
      unfold sub64 at h0
      omega
    refine ⟨hlen, htake, ⟨hle, hp.r_eq, hp.remaining_eq, ?_, rfl, hp.limited_eq⟩⟩
    rw [hlen]

/-! ## Accepted input -/

theorem elems_of_eol (h : decodeInterface fuel s = (.error .eol, s1)) :
    decodeSliceElems (fuel + 1) s = (.ok [], s1) := by
  rw [decodeSliceElems]
  dsimp only
  rw [h]

theorem elems_of_error {e : Err} (h : decodeInterface fuel s = (.error e, s1)) (hne : e ≠ .eol) :
    decodeSliceElems (fuel + 1) s = (.error e, s1) := by
  rw [decodeSliceElems]
  dsimp only
  rw [h]
  cases e <;> first | exact absurd rfl hne | rfl

theorem elems_of_ok {x : Item} (h : decodeInterface fuel s = (.ok x, s1)) :
    decodeSliceElems (fuel + 1) s = (decodeSliceElems fuel >>= fun xs => pure (x :: xs)) s1 := by
  rw [decodeSliceElems]
  dsimp only
  rw [h]

theorem bytes_error (h : s.Synced) {k : Kind} {b : UInt8} {e : Err}
    (he : bytes (s.ahead k n b) = (.error e, s')) : e.Proper := by
  cases k with
  | byte => cases he
  | string =>
    have hsynced : (s.ahead .string n b).Synced := h.of_eq rfl rfl rfl
    have he' : (readFull n >>= fun b =>
        if n = 1 ∧ b.head?.any (· < 128) = true then throw .canonSize else pure b)
        (s.ahead .string n b) = (.error e, s') := he
    rcases StateOp.bind_eq_error_iff.mp he' with hr | ⟨c, s1, -, hc⟩
    · exact (readFull_error hsynced hr).1
    · split at hc
      · cases hc
        exact ⟨by simp, by simp⟩
      · cases hc
  | list =>
    cases he
    exact ⟨by simp, by simp⟩

theorem decodeSliceElems_ne_eol : decodeSliceElems fuel s ≠ (.error .eol, s') := by
  induction fuel generalizing s with
  | zero =>
    intro he
    cases he
  | succ fuel ih =>
    intro he
    rcases hx : decodeInterface fuel s with ⟨e | x, s1⟩
    · by_cases hne : e = .eol
      · rw [hne] at hx
        rw [elems_of_eol hx] at he
        cases he
      · rw [elems_of_error hx hne] at he
        cases he
        exact hne rfl
    · rw [elems_of_ok hx] at he
      rcases StateOp.bind_eq_error_iff.mp he with hr | ⟨xs, s2, -, he⟩
      · exact ih hr
      · cases he

theorem listEnd_error {e : Err} (h : listEnd s = (.error e, s')) : e.Proper := by
  unfold listEnd at h
  split at h
  · cases h
    exact ⟨by simp, by simp⟩
  · split at h
    · cases h
      exact ⟨by simp, by simp⟩
    · cases h

/-- What is left to do once a list has been entered. -/
theorem decodeListSlice_ahead (fuel n : Nat) (b : UInt8) (s : Stream) :
    decodeListSlice (fuel + 1) (s.ahead .list n b) =
      ((if n = 0 then pure [] else decodeSliceElems fuel) >>= fun xs =>
        listEnd >>= fun _ => pure xs)
        (entered n (s.ahead .list n b)) := by
  rw [decodeListSlice, StateOp.bind_of_ok (list_ahead n b s)]
  split <;> rfl

/-- An error inside a list comes from its elements or from its end. -/
theorem decodeListSlice_error {b : UInt8} {e : Err}
    (h : decodeListSlice (fuel + 1) (s.ahead .list n b) = (.error e, s')) :
    decodeSliceElems fuel (entered n (s.ahead .list n b)) = (.error e, s') ∨ e.Proper := by
  rw [decodeListSlice_ahead] at h
  rcases StateOp.bind_eq_error_iff.mp h with hr | ⟨xs, s1, -, h⟩
  · split at hr
    · cases hr
    · exact .inl hr
  · rcases StateOp.bind_eq_error_iff.mp h with hl | ⟨u, s2, -, h⟩
    · exact .inr (listEnd_error hl)
    · cases h

theorem decodeListSlice_ne_eol {b : UInt8} :
    decodeListSlice fuel (s.ahead .list n b) ≠ (.error .eol, s') := by
  intro he
  cases fuel with
  | zero => cases he
  | succ fuel =>
    rcases decodeListSlice_error he with hr | hp
    · exact decodeSliceElems_ne_eol hr
    · exact hp.1 rfl

/-- What follows `Kind`. -/
def decodeKind (fuel : Nat) (k : Kind) : Op Item :=
  if k = .list then decodeListSlice fuel >>= fun xs => pure (.list xs)
  else bytes >>= fun b => pure (.str b)

theorem decodeInterface_of_error {e : Err} (h : getKind s = (.error e, s1)) :
    decodeInterface (fuel + 1) s = (.error e, s1) := by
  rw [decodeInterface, StateOp.bind_of_error h]

theorem decodeInterface_of_ok {k : Kind} (h : getKind s = (.ok (k, n), s1)) :
    decodeInterface (fuel + 1) s = decodeKind fuel k s1 := by
  rw [decodeInterface, StateOp.bind_of_ok h]
  rfl

theorem decodeKind_error (h : s.Synced) {k : Kind} {b : UInt8} {e : Err}
    (he : decodeKind fuel k (s.ahead k n b) = (.error e, s')) :
    k = .list ∧ decodeListSlice fuel (s.ahead k n b) = (.error e, s') ∨ e.Proper := by
  unfold decodeKind at he
  split at he
  · rename_i hk
    rcases StateOp.bind_eq_error_iff.mp he with hr | ⟨xs, s1, -, he⟩
    · exact .inl ⟨hk, hr⟩
    · cases he
  · rcases StateOp.bind_eq_error_iff.mp he with hr | ⟨c, s1, -, he⟩
    · exact .inr (bytes_error h hr)
    · cases he

/-- The end of a list is all that `EOL` stands for. -/
theorem decodeInterface_eol (hs : Ready s) (h : decodeInterface fuel s = (.error .eol, s')) :
    s.stack.head? = some 0 ∧ s' = s := by
  cases fuel with
  | zero => cases h
  | succ fuel =>
    rcases hg : getKind s with ⟨e | ⟨k, n⟩, s1⟩
    · rw [decodeInterface_of_error hg] at h
      cases h
      obtain ⟨-, h0, rfl⟩ | ⟨hne, -⟩ := getKind_error hs.toSynced hs.kind_none hg
      · exact ⟨h0, rfl⟩
      · exact absurd rfl hne.1
    · rw [decodeInterface_of_ok hg] at h
      obtain ⟨hd, b, -, -, -, -, -, rfl⟩ := (getKind_eq_ok_iff hs.toSynced hs.kind_none).mp hg
      rcases decodeKind_error (hs.consume hd.length) h with ⟨rfl, hl⟩ | hp
      · exact absurd hl decodeListSlice_ne_eol
      · exact absurd rfl hp.1

/-- What is decoded as an item stood ahead in its encoding. -/
def ItemRead (fuel : Nat) : Prop :=
  ∀ s x s', Ready s → decodeInterface fuel s = (.ok x, s') → Read x.enc s s'

/-- What is decoded as a list of `n` bytes stood ahead, and had this size. -/
def ListRead (fuel : Nat) : Prop :=
  ∀ n b s xs s', Ready s → n < 2 ^ 63 → decodeListSlice fuel (s.ahead .list n b) = (.ok xs, s') →
    (Item.encAll xs).length = n ∧ Read (Item.encAll xs) s s'

/-- What is decoded as elements up to the end of a list stood ahead. -/
def ElemsRead (fuel : Nat) : Prop :=
  ∀ s xs s', Ready s → decodeSliceElems fuel s = (.ok xs, s') → Read (Item.encAll xs) s s'

theorem ItemRead.succ (ih : ListRead fuel) : ItemRead (fuel + 1) := by
  intro s x s' hs h
  rcases hg : getKind s with ⟨e | ⟨k, n⟩, s1⟩
  · rw [decodeInterface_of_error hg] at h
    cases h
  · rw [decodeInterface_of_ok hg] at h
    obtain ⟨hd, b, hhd, hf, htake, -, hrem, rfl⟩ :=
      (getKind_eq_ok_iff hs.toSynced hs.kind_none).mp hg
    have hread := Read.head hs hf htake
    have hready := hread.2.ready hs
    have hlt := hs.remaining_lt
    unfold decodeKind at h
    split at h
    · rename_i hk
      subst hk
      obtain ⟨xs, s2, hxs, h⟩ := StateOp.bind_eq_ok_iff.mp h
      cases h
      obtain ⟨hlen, hcontent⟩ := ih _ _ _ _ _ hready (by omega) hxs
      cases hhd with
      | list h64 =>
        have henc : (Item.list xs).enc = header 0xC0 0xF7 n ++ Item.encAll xs := by
          rw [Item.enc, Value.enc, Value.head, hlen]
        rw [henc]
        exact hread.append hs hcontent
    · obtain ⟨c, s2, hc, h⟩ := StateOp.bind_eq_ok_iff.mp h
      cases h
      rw [bytes_cached hs hg] at hc
      exact (bytes_accepts.sound hs hc).2.2

theorem ListRead.succ (ih : ElemsRead fuel) : ListRead (fuel + 1) := by
  intro n b s xs s' hs hn h
  rw [decodeListSlice_ahead] at h
  obtain ⟨xs', s1, hxs, h⟩ := StateOp.bind_eq_ok_iff.mp h
  obtain ⟨u, s2, hend, h⟩ := StateOp.bind_eq_ok_iff.mp h
  cases h
  have hready := ready_entered hs (hn.trans (by norm_num)) b
  have hcontent : Read (Item.encAll xs) (entered n (s.ahead .list n b)) s1 := by
    split at hxs
    · cases hxs
      exact ⟨rfl, Passed.zero hready⟩
    · exact ih _ _ _ hready hxs
  exact listEnd_read hs hn hcontent hend

theorem ElemsRead.succ (ihItem : ItemRead fuel) (ihElems : ElemsRead fuel) :
    ElemsRead (fuel + 1) := by
  intro s xs s' hs h
  rcases hx : decodeInterface fuel s with ⟨e | x, s1⟩
  · by_cases hne : e = .eol
    · rw [hne] at hx
      obtain ⟨-, rfl⟩ := decodeInterface_eol hs hx
      rw [elems_of_eol hx] at h
      cases h
      exact ⟨rfl, Passed.zero hs⟩
    · rw [elems_of_error hx hne] at h
      cases h
  · rw [elems_of_ok hx] at h
    obtain ⟨xs', s2, hxs, h⟩ := StateOp.bind_eq_ok_iff.mp h
    cases h
    have hread := ihItem _ _ _ hs hx
    exact hread.append hs (ihElems _ _ _ (hread.2.ready hs) hxs)

theorem decode_read (fuel : Nat) : ItemRead fuel ∧ ListRead fuel ∧ ElemsRead fuel := by
  induction fuel with
  | zero =>
    refine ⟨?_, ?_, ?_⟩
    · intro s x s' _ h
      cases h
    · intro n b s xs s' _ _ h
      cases h
    · intro s xs s' _ h
      cases h
  | succ fuel ih =>
    obtain ⟨ihItem, ihList, ihElems⟩ := ih
    exact ⟨ItemRead.succ ihList, ListRead.succ ihElems, ElemsRead.succ ihItem ihElems⟩

/-! ## Enough fuel -/

theorem decodeSliceElems_error {e : Err}
    (h : decodeSliceElems (fuel + 1) s = (.error e, s')) :
    decodeInterface fuel s = (.error e, s') ∨
      ∃ x s1, decodeInterface fuel s = (.ok x, s1) ∧ decodeSliceElems fuel s1 = (.error e, s') := by
  rcases hx : decodeInterface fuel s with ⟨e' | x, s1⟩
  · by_cases he : e' = .eol
    · rw [he] at hx
      rw [elems_of_eol hx] at h
      cases h
    · rw [elems_of_error hx he] at h
      cases h
      exact .inl rfl
  · rw [elems_of_ok hx] at h
    rcases StateOp.bind_eq_error_iff.mp h with hr | ⟨xs, s2, -, h⟩
    · exact .inr ⟨x, s1, rfl, hr⟩
    · cases h

theorem enc_length_pos (x : Item) (h : x.value.content.length < 2 ^ 64) : 1 ≤ x.enc.length := by
  rw [Item.enc_eq]
  exact List.length_pos_of_ne_nil (Value.enc_ne_nil (Item.value_valid h))

/-- Every value takes a byte at least, and four turns of the recursion at most for each. -/
theorem decode_total (fuel : Nat) :
    (∀ s s', Ready s → 4 * s.remaining + 4 ≤ fuel →
      decodeInterface fuel s ≠ (.error .outOfFuel, s')) ∧
    (∀ n b s s', Ready s → n < 2 ^ 64 → 4 * s.remaining + 6 ≤ fuel →
      decodeListSlice fuel (s.ahead .list n b) ≠ (.error .outOfFuel, s')) ∧
    (∀ s s', Ready s → 4 * s.remaining + 5 ≤ fuel →
      decodeSliceElems fuel s ≠ (.error .outOfFuel, s')) := by
  induction fuel with
  | zero => exact ⟨fun _ _ _ h => by omega, fun _ _ _ _ _ _ h => by omega, fun _ _ _ h => by omega⟩
  | succ fuel ih =>
    obtain ⟨ihItem, ihList, ihElems⟩ := ih
    refine ⟨?_, ?_, ?_⟩
    · intro s s' hs hfuel h
      rcases hg : getKind s with ⟨e | ⟨k, n⟩, s1⟩
      · rw [decodeInterface_of_error hg] at h
        cases h
        obtain ⟨he, -⟩ | ⟨hp, -⟩ := getKind_error hs.toSynced hs.kind_none hg
        · cases he
        · exact hp.2 rfl
      · rw [decodeInterface_of_ok hg] at h
        obtain ⟨hd, b, hhd, hf, htake, -, hrem, rfl⟩ :=
          (getKind_eq_ok_iff hs.toSynced hs.kind_none).mp hg
        have hpos := hhd.length_pos
        have hready := (Read.head hs hf htake).2.ready hs
        rcases decodeKind_error (hs.consume hd.length) h with ⟨rfl, hl⟩ | hp
        · cases hhd with
          | list h64 =>
            refine ihList _ _ _ _ hready h64 ?_ hl
            have hle := hf.2
            change 4 * (s.remaining - (header 0xC0 0xF7 n).length) + 6 ≤ fuel
            omega
        · exact hp.2 rfl
    · intro n b s s' hs hn hfuel h
      rcases decodeListSlice_error h with hr | hp
      · exact ihElems _ _ (ready_entered hs hn b) (by change 4 * s.remaining + 5 ≤ fuel; omega) hr
      · exact hp.2 rfl
    · intro s s' hs hfuel h
      rcases decodeSliceElems_error h with hx | ⟨x, s1, hx, hr⟩
      · exact ihItem _ _ hs (by omega) hx
      · have hread := (decode_read fuel).1 _ _ _ hs hx
        have hle := hread.2.le
        have hlt := hs.remaining_lt
        have hpos := enc_length_pos x (by have := Item.content_length_le x; omega)
        refine ihElems _ _ (hread.2.ready hs) ?_ hr
        rw [hread.2.remaining_eq]
        omega

/-! ## Encodings are accepted -/

/-- A string that stands ahead is read. -/
theorem decode_string (hs : Ready s) {c : Bytes} (h : Ahead (Value.ofString c).enc s)
    (hfuel : 1 ≤ fuel) : ∃ s', decodeInterface fuel s = (.ok (.str c), s') := by
  obtain ⟨fuel, rfl⟩ : ∃ f, fuel = f + 1 := ⟨fuel - 1, by omega⟩
  obtain ⟨s', hb⟩ := bytes_accepts.complete hs trivial h
  obtain ⟨⟨k, n⟩, s1, hg, hf⟩ := StateOp.bind_eq_ok_iff.mp hb
  have hk : k ≠ .list := by
    rintro rfl
    cases hf
  rw [decodeInterface_of_ok hg, decodeKind, if_neg hk]
  rw [← bytes_cached hs hg] at hb
  exact ⟨s', StateOp.bind_of_ok hb⟩

/-- The elements of a list are read up to its end. -/
theorem listEnd_of_zero {outer : List Nat} (h : s.stack = 0 :: outer) :
    ∃ s', listEnd s = (.ok (), s') := by
  rw [listEnd, h]
  exact ⟨_, rfl⟩

theorem eol_of_zero (hs : Ready s) (h : s.stack.head? = some 0) :
    decodeInterface (fuel + 1) s = (.error .eol, s) := by
  refine decodeInterface_of_error ?_
  unfold getKind
  rw [hs.kind_none, if_neg (by simp), if_pos h]

theorem eq_nil_of_encAll {xs : List Item} (h : (Item.encAll xs).length = 0) : xs = [] := by
  cases xs with
  | nil => rfl
  | cons x xs =>
    rw [Item.encAll, List.length_append] at h
    have hle := x.content_length_le
    have hpos := enc_length_pos x (by omega)
    omega

/-- A list that stands ahead is read where its elements are. -/
theorem decode_list (hs : Ready s) {xs : List Item} (h : Ahead (Item.list xs).enc s)
    (helems : ∀ t, Ready t → Ahead (Item.encAll xs) t →
      t.stack.head? = some (Item.encAll xs).length →
      ∃ t', decodeSliceElems fuel t = (.ok xs, t')) :
    ∃ s', decodeInterface (fuel + 2) s = (.ok (.list xs), s') := by
  have henc : (Item.list xs).enc = header 0xC0 0xF7 (Item.encAll xs).length ++ Item.encAll xs := rfl
  have hle := h.fits.2
  have hlt := hs.remaining_lt
  rw [henc, List.length_append] at hle
  rw [henc] at h
  generalize hn : (Item.encAll xs).length = n at h hle helems
  have hg := getKind_of_ahead hs (.list (by omega)) h hn.ge
  have hready := (Passed.consume hs h.left.fits).ready hs
  have hentered := ready_entered hready (n := n) (by omega) 0
  have hahead : Ahead (Item.encAll xs)
      (entered n ((s.consume (header 0xC0 0xF7 n).length).ahead .list n 0)) :=
    ⟨⟨decide_eq_true hn.le, h.right.fits.2⟩, h.right.take_eq⟩
  have hxs : ∃ s1, (if n = 0 then pure [] else decodeSliceElems fuel)
      (entered n ((s.consume (header 0xC0 0xF7 n).length).ahead .list n 0)) = (.ok xs, s1) ∧
      s1.stack.head? = some 0 := by
    by_cases h0 : n = 0
    · rw [if_pos h0, eq_nil_of_encAll (hn.trans h0)]
      exact ⟨_, rfl, congrArg some h0⟩
    · obtain ⟨s1, hs1⟩ := helems _ hentered hahead rfl
      have hread := (decode_read fuel).2.2 _ _ _ hentered hs1
      rw [if_neg h0]
      exact ⟨s1, hs1, hread.2.head? hentered (congrArg some hn.symm)⟩
  obtain ⟨s1, hs1, hend⟩ := hxs
  obtain ⟨outer, hst⟩ := List.head?_eq_some_iff.mp hend
  obtain ⟨s2, hs2⟩ := listEnd_of_zero hst
  have hslice := decodeListSlice_ahead fuel n 0 (s.consume (header 0xC0 0xF7 n).length)
  rw [StateOp.bind_of_ok hs1, StateOp.bind_of_ok hs2] at hslice
  refine ⟨s2, ?_⟩
  rw [decodeInterface_of_ok hg, decodeKind, if_pos rfl, StateOp.bind_of_ok hslice]
  rfl

mutual

theorem Item.decode (x : Item) (fuel : Nat) {s : Stream} (hs : Ready s) (h : Ahead x.enc s)
    (hfuel : 4 * x.enc.length ≤ fuel) : ∃ s', decodeInterface fuel s = (.ok x, s') := by
  have hle := h.fits.2
  have hlt := hs.remaining_lt
  have hpos := enc_length_pos x (by have := x.content_length_le; omega)
  cases x with
  | str c => exact decode_string hs h (by omega)
  | list xs =>
    obtain ⟨fuel, rfl⟩ : ∃ f, fuel = f + 2 := ⟨fuel - 2, by omega⟩
    have hlen : (Item.encAll xs).length < (Item.list xs).enc.length := by
      have hhead := List.length_pos_of_ne_nil (header_ne_nil 0xC0 0xF7 (Item.encAll xs).length)
      rw [Item.enc, Value.enc, List.length_append]
      exact Nat.lt_add_of_pos_left hhead
    exact decode_list hs h fun t ht hahead hlimit =>
      Item.decodeAll xs fuel ht hahead hlimit (by omega)

theorem Item.decodeAll (xs : List Item) (fuel : Nat) {s : Stream} (hs : Ready s)
    (h : Ahead (Item.encAll xs) s) (hlimit : s.stack.head? = some (Item.encAll xs).length)
    (hfuel : 4 * (Item.encAll xs).length + 2 ≤ fuel) :
    ∃ s', decodeSliceElems fuel s = (.ok xs, s') := by
  obtain ⟨fuel, rfl⟩ : ∃ f, fuel = f + 2 := ⟨fuel - 2, by omega⟩
  cases xs with
  | nil => exact ⟨s, elems_of_eol (eol_of_zero hs hlimit)⟩
  | cons x xs =>
    rw [Item.encAll] at h hlimit hfuel
    rw [List.length_append] at hlimit hfuel
    have hle := h.left.fits.2
    have hlt := hs.remaining_lt
    have hpos := enc_length_pos x (by have := x.content_length_le; omega)
    obtain ⟨s1, hx⟩ := Item.decode x (fuel + 1) hs h.left (by omega)
    have hread := (decode_read (fuel + 1)).1 _ _ _ hs hx
    obtain ⟨s2, hxs⟩ := Item.decodeAll xs (fuel + 1) (hread.2.ready hs) (hread.ahead hs h)
      (hread.2.head? hs hlimit) (by omega)
    exact ⟨s2, by rw [elems_of_ok hx, StateOp.bind_of_ok hxs]; rfl⟩

end

/-! ## `DecodeBytes` -/

theorem ready_reset {b : Bytes} (hne : b ≠ []) (hlt : b.length < 2 ^ 63) :
    Ready (reset b b.length) where
  limited := decide_eq_true (List.length_pos_of_ne_nil hne)
  le_length := Nat.le_refl _
  kind_none := rfl
  remaining_lt := hlt
  limits_lt := by
    intro l hl
    cases hl

theorem ahead_reset (b : Bytes) : Ahead b (reset b b.length) :=
  ⟨⟨rfl, Nat.le_refl _⟩, List.take_length⟩

theorem decodeBytes_eq_ok_iff {b : Bytes} {x : Item} : decodeBytes b = .ok x ↔
    ∃ s, decodeInterface (4 * b.length + 4) (reset b b.length) = (.ok x, s) ∧ s.r = [] := by
  unfold decodeBytes
  rcases hx : decodeInterface (4 * b.length + 4) (reset b b.length) with ⟨e | y, s⟩
  · exact iff_of_false (fun h => by cases h) fun ⟨s, h, _⟩ => by cases h
  · dsimp only
    constructor
    · intro h
      split at h
      · cases h
      · rename_i hr
        cases h
        exact ⟨s, rfl, not_not.mp hr⟩
    · rintro ⟨s, h, hr⟩
      cases h
      rw [if_neg (not_not.mpr hr)]

theorem decodeBytes_nil : decodeBytes [] = .error .eof := rfl

theorem Item.enc_ne_nil (x : Item) : x.enc ≠ [] := by
  intro h
  have hle := x.content_length_le
  rw [h, List.length_nil] at hle
  have hpos := enc_length_pos x (by omega)
  rw [h] at hpos
  exact absurd hpos (by simp)

theorem decodeBytes_iff {b : Bytes} (hb : b.length < 2 ^ 63) {x : Item} :
    decodeBytes b = .ok x ↔ b = x.enc := by
  by_cases hne : b = []
  · subst hne
    rw [decodeBytes_nil]
    exact iff_of_false (fun h => by cases h) fun h => x.enc_ne_nil h.symm
  · have hs := ready_reset hne hb
    rw [decodeBytes_eq_ok_iff]
    constructor
    · rintro ⟨s, hx, hr⟩
      obtain ⟨htake, hp⟩ := (decode_read _).1 _ _ _ hs hx
      have hdrop := hp.r_eq
      rw [hr] at hdrop
      have hlen : b.length ≤ x.enc.length := List.drop_eq_nil_iff.mp hdrop.symm
      rw [← htake]
      exact (List.take_of_length_le hlen).symm
    · rintro rfl
      obtain ⟨s, hx⟩ := Item.decode x (4 * x.enc.length + 4) hs (ahead_reset _)
        (Nat.le_add_right _ _)
      refine ⟨s, hx, ?_⟩
      have hdrop := ((decode_read _).1 _ _ _ hs hx).2.r_eq
      rw [hdrop]
      exact List.drop_length

theorem decodeBytes_total {b : Bytes} (hb : b.length < 2 ^ 63) :
    decodeBytes b ≠ .error .outOfFuel := by
  intro h
  by_cases hne : b = []
  · subst hne
    rw [decodeBytes_nil] at h
    cases h
  · unfold decodeBytes at h
    rcases hx : decodeInterface (4 * b.length + 4) (reset b b.length) with ⟨e | y, s⟩
    · rw [hx] at h
      cases h
      exact (decode_total _).1 _ _ (ready_reset hne hb) (Nat.le_refl _) hx
    · rw [hx] at h
      dsimp only at h
      split at h <;> cases h

/-- `DecodeBytes` accepts the encodings of items and nothing else, however the sizes in the input
    are chosen. -/
theorem decodeBytes_canonical (b : Bytes) (hb : b.length < 2 ^ 63) :
    decodeBytes b ≠ .error .outOfFuel ∧ ∀ x, decodeBytes b = .ok x ↔ b = x.enc :=
  ⟨decodeBytes_total hb, fun _ => decodeBytes_iff hb⟩

theorem decodeBytes_canonical_nested :
    decodeBytes [0xC3, 0x01, 0xC0, 0x80] = .ok (.list [.str [1], .list [], .str []]) :=
  ((decodeBytes_canonical _ (by decide)).2 _).mpr rfl

/-- The inner list takes more off the outer one than that has. -/
example : (decodeBytes [0xC1, 0xC1, 0x01]).isOk = false := by decide +kernel

end ZipoLogger.Rlp
