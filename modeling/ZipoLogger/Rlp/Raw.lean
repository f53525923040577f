/-
  raw.go, iterator.go and the header functions of encode.go: values written to and split off a
  byte slice.

  Sizes and integers are natural numbers; `AppendUint64` and `SplitUint64` hold to 64 bits. A
  length is below 2^63 in Go, so `uint64(len(buf))` is the length here. `split_reads`: `Split`
  reads exactly the values of the format, whatever follows them, and nothing inside a list is
  looked at. From it every other reader of the file: what `SplitUint64` accepts is what
  `AppendUint64` writes (`splitUint64_canonical`), `CountValues` and the list iterator see the
  values a list was put together from (`countValues_eq_ok_iff`, `iterator_loop`).
-/
import ZipoLogger.Rlp.Format

namespace ZipoLogger.Rlp

open BigEndian PrefixReader

/-- The errors of the package and those of `io`. -/
inductive Err
  | eol
  | expectedString
  | expectedList
  | canonInt
  | canonSize
  | elemTooLarge
  | valueTooLarge
  | moreThanOneValue
  | notInList
  | notAtEOL
  | uintOverflow
  | uint256Large
  | negativeBigInt
  | eof
  | unexpectedEOF
  /-- `"input value has wrong size %d, want %d"` -/
  | wrongSize (size want : Nat)
  /-- `"rlp: invalid boolean value: %d"` -/
  | invalidBool (num : Nat)
  /-- `"rlp: type %v is not RLP-serializable"`, or what is wrong with a field's tag -/
  | notSerializable
  /-- `"rlp: unaddressable value of type %v, EncodeRLP is pointer method"` -/
  | unaddressable
  /-- what an `EncodeRLP` returns -/
  | encoder (text : String)
  /-- no error of the package: the bound on a recursion of the model -/
  | outOfFuel
  deriving DecidableEq, Repr

/-! ## Headers -/

/-- `putint`: the bytes it writes. -/
def putint (i : Nat) : Bytes :=
  if i < 1 <<< 8 then fixed 1 i
  else if i < 1 <<< 16 then fixed 2 i
  else if i < 1 <<< 24 then fixed 3 i
  else if i < 1 <<< 32 then fixed 4 i
  else if i < 1 <<< 40 then fixed 5 i
  else if i < 1 <<< 48 then fixed 6 i
  else if i < 1 <<< 56 then fixed 7 i
  else fixed 8 i

/-- The loop of `intsize`; a 64-bit number leaves it after eight turns at most. -/
def intsizeLoop : Nat → Nat → Nat → Nat
  | 0, size, _ => size
  | n + 1, size, i => if i >>> 8 = 0 then size else intsizeLoop n (size + 1) (i >>> 8)

def intsize (i : Nat) : Nat := intsizeLoop 8 1 i

def headsize (size : Nat) : Nat := if size < 56 then 1 else 1 + intsize size

/-- `puthead`: the bytes it writes. -/
def puthead (smalltag largetag size : Nat) : Bytes :=
  if size < 56 then [UInt8.ofNat (smalltag + size)]
  else UInt8.ofNat (largetag + (putint size).length) :: putint size

def bytesSize (b : Bytes) : Nat :=
  match b with
  | [] => 1
  | [x] => if x ≤ 0x7f then 1 else 2
  | b => headsize b.length + b.length

def listSize (contentSize : Nat) : Nat := headsize contentSize + contentSize

def intSize (x : Nat) : Nat := if x < 0x80 then 1 else 1 + intsize x

def appendUint64 (b : Bytes) (i : UInt64) : Bytes :=
  let i := i.toNat
  if i = 0 then b ++ [0x80]
  else if i < 128 then b ++ [UInt8.ofNat i]
  else if i < 1 <<< 8 then b ++ 0x81 :: fixed 1 i
  else if i < 1 <<< 16 then b ++ 0x82 :: fixed 2 i
  else if i < 1 <<< 24 then b ++ 0x83 :: fixed 3 i
  else if i < 1 <<< 32 then b ++ 0x84 :: fixed 4 i
  else if i < 1 <<< 40 then b ++ 0x85 :: fixed 5 i
  else if i < 1 <<< 48 then b ++ 0x86 :: fixed 6 i
  else if i < 1 <<< 56 then b ++ 0x87 :: fixed 7 i
  else b ++ 0x88 :: fixed 8 i

/-! ## Splitting -/

def readSize (b : Bytes) (slen : Nat) : Except Err Nat :=
  if slen > b.length then .error .unexpectedEOF
  else
    let s := if 1 ≤ slen ∧ slen ≤ 8 then ofBytes (b.take slen) else 0
    -- no sizes below 56, no leading zero bytes
    if s < 56 ∨ b.head? = some 0 then .error .canonSize else .ok s

/-- The switch of `readKind` on the tag. -/
def readTag (b0 : UInt8) (rest : Bytes) : Except Err (Kind × Nat × Nat) :=
  let b := b0.toNat
  if b < 0x80 then .ok (.byte, 0, 1)
  else if b < 0xB8 then
    -- a string that should have been a single byte
    if b - 0x80 = 1 ∧ rest.head?.any (· < 128) then .error .canonSize
    else .ok (.string, 1, b - 0x80)
  else if b < 0xC0 then (readSize rest (b - 0xB7)).map fun size => (.string, b - 0xB7 + 1, size)
  else if b < 0xF8 then .ok (.list, 1, b - 0xC0)
  else (readSize rest (b - 0xF7)).map fun size => (.list, b - 0xF7 + 1, size)

def readKind : Bytes → Except Err (Kind × Nat × Nat)
  | [] => .error .unexpectedEOF
  | b :: rest => do
    let (k, tagsize, contentsize) ← readTag b rest
    if contentsize > (b :: rest).length - tagsize then .error .valueTooLarge
    else .ok (k, tagsize, contentsize)

def split (b : Bytes) : Except Err (Value × Bytes) := do
  let (k, ts, cs) ← readKind b
  return (⟨k, (b.drop ts).take cs⟩, b.drop (ts + cs))

def splitString (b : Bytes) : Except Err (Bytes × Bytes) := do
  let (v, rest) ← split b
  if v.kind = .list then .error .expectedString else .ok (v.content, rest)

def splitList (b : Bytes) : Except Err (Bytes × Bytes) := do
  let (v, rest) ← split b
  if v.kind ≠ .list then .error .expectedList else .ok (v.content, rest)

/-- The integer in the content of a string, as `SplitUint64` reads it. -/
def contentUint64 (content : Bytes) : Except Err UInt64 :=
  match content with
  | [] => .ok 0
  | [x] => if x = 0 then .error .canonInt else .ok x.toUInt64
  | content =>
    if content.length > 8 then .error .uintOverflow
    else match readSize content content.length with
      | .error _ => .error .canonInt
      | .ok x => .ok (UInt64.ofNat x)

def splitUint64 (b : Bytes) : Except Err (UInt64 × Bytes) := do
  let (content, rest) ← splitString b
  let x ← contentUint64 content
  return (x, rest)

/-- The loop of `CountValues`; every turn takes a byte at least. -/
def countLoop : Nat → Nat → Bytes → Except Err Nat
  | _, i, [] => .ok i
  | 0, i, _ :: _ => .ok i
  | n + 1, i, x :: xs => do
    let (_, tagsize, size) ← readKind (x :: xs)
    countLoop n (i + 1) ((x :: xs).drop (tagsize + size))

def countValues (b : Bytes) : Except Err Nat := countLoop b.length 0 b

structure ListIterator where
  data : Bytes
  next : Bytes := []
  err : Option Err := none

def newListIterator (data : Bytes) : Except Err ListIterator := do
  let (k, t, c) ← readKind data
  if k ≠ .list then .error .expectedList else .ok { data := (data.drop t).take c }

/-- `Next`: after an error of `readKind` the sizes are zero, and the data stays where it is. -/
def ListIterator.Next (it : ListIterator) : Bool × ListIterator :=
  if it.data = [] then (false, it)
  else match readKind it.data with
    | .ok (_, t, c) => (true, ⟨it.data.drop (t + c), it.data.take (t + c), none⟩)
    | .error e => (true, ⟨it.data, [], some e⟩)

/-- What `n` calls of `Next` give, each followed by `Value` and `Err`. -/
def ListIterator.calls : Nat → ListIterator → List (Bool × Bytes × Option Err)
  | 0, _ => []
  | n + 1, it =>
    let (more, it') := it.Next
    (more, it'.next, it'.err) :: it'.calls n

/-! ## What the header functions write -/

theorem putint_eq {i : Nat} (h0 : 0 < i) (h : i < 2 ^ 64) : putint i = minimal i := by
  unfold putint
  split_ifs with h1 h2 h3 h4 h5 h6 h7
  all_goals
    simp only [Nat.one_shiftLeft] at *
    refine (minimal_eq_fixed ?_ ?_).symm <;> norm_num at * <;> omega

theorem intsizeLoop_le (n size i : Nat) : intsizeLoop n size i ≤ size + n := by
  induction n generalizing size i with
  | zero => exact Nat.le_refl _
  | succ n ih =>
    rw [intsizeLoop]
    split
    · omega
    · have hle := ih (size + 1) (i >>> 8)
      omega

theorem intsizeLoop_eq (n size : Nat) {i : Nat} (h0 : 0 < i) (h : i < 256 ^ (n + 1)) :
    intsizeLoop n size i + 1 = size + (minimal i).length := by
  induction n generalizing size i with
  | zero =>
    have hm := minimal_length_eq (k := 0) (Nat.succ_le_of_lt h0) h
    rw [intsizeLoop, hm]
  | succ n ih =>
    rw [intsizeLoop, Nat.shiftRight_eq_div_pow, minimal_div h0, List.length_append,
      List.length_singleton]
    split
    · rename_i hz
      rw [hz, minimal_zero, List.length_nil]
    · rename_i hz
      have hlt : i / 2 ^ 8 < 256 ^ (n + 1) := by
        rw [pow_succ] at h
        omega
      rw [ih _ (Nat.pos_of_ne_zero hz) hlt]
      exact Nat.add_right_comm ..

theorem intsize_eq {i : Nat} (h0 : 0 < i) (h : i < 2 ^ 64) : intsize i = (minimal i).length := by
  have := intsizeLoop_eq 8 1 h0 (h.trans (by norm_num))
  unfold intsize
  omega

theorem puthead_eq {size : Nat} (s l : Nat) (h : size < 2 ^ 64) :
    puthead s l size = header s l size := by
  unfold puthead header
  split
  · rfl
  · rw [putint_eq (by omega) h]

theorem headsize_eq {size : Nat} (s l : Nat) (h : size < 2 ^ 64) :
    headsize size = (header s l size).length := by
  unfold headsize header
  split
  · rfl
  · rw [intsize_eq (by omega) h, List.length_cons, Nat.add_comm]

namespace Value

theorem ofString_enc_small {b : Bytes} (hb : isByte b = false) (h : b.length < 56) :
    (ofString b).enc = UInt8.ofNat (0x80 + b.length) :: b := by
  simp [enc, head, ofString, hb, header_small h]

theorem ofString_enc_of_not_byte {b : Bytes} (hb : isByte b = false) :
    (ofString b).enc = header 0x80 0xB7 b.length ++ b := by
  rw [enc, head, ofString, hb]
  rfl

theorem ofString_enc_byte {b : Bytes} (hb : isByte b = true) : (ofString b).enc = b := by
  simp [enc, head, ofString, hb]

end Value

theorem isByte_of_length {b : Bytes} (h : b.length ≠ 1) : isByte b = false := by
  by_contra hb
  obtain ⟨x, -, rfl⟩ := isByte_iff.mp (eq_true_of_ne_false hb)
  exact h rfl

theorem isByte_minimal {i : Nat} (h : 128 ≤ i) : isByte (minimal i) = false := by
  by_contra hb
  obtain ⟨x, hx, hm⟩ := isByte_iff.mp (eq_true_of_ne_false hb)
  have hval := ofBytes_minimal i
  rw [hm, ofBytes_singleton] at hval
  omega

/-- A number below 128 is one byte, its own encoding. -/
theorem ofString_minimal_small {i : Nat} (h0 : 0 < i) (h : i < 128) :
    (Value.ofString (minimal i)).enc = [UInt8.ofNat i] := by
  have hbyte : isByte [UInt8.ofNat i] = true := by
    refine isByte_iff.mpr ⟨_, ?_, rfl⟩
    rwa [toNat_ofNat_of_lt (by omega)]
  rw [minimal_singleton h0 (by omega), Value.ofString_enc_byte hbyte]

/-- What an integer of `k + 1` bytes is written as. -/
theorem ofString_minimal {i k : Nat} (hlo : 256 ^ k ≤ i) (hhi : i < 256 ^ (k + 1))
    (h128 : 128 ≤ i) (hk : k < 55) : (Value.ofString (minimal i)).enc =
      UInt8.ofNat (0x80 + (k + 1)) :: fixed (k + 1) i := by
  have hlen := minimal_length_eq hlo hhi
  rw [Value.ofString_enc_small (isByte_minimal h128) (by omega), hlen, minimal_eq_fixed hlo hhi]

theorem appendUint64_eq (b : Bytes) (i : UInt64) :
    appendUint64 b i = b ++ (Value.ofString (minimal i.toNat)).enc := by
  have hi := i.toNat_lt
  unfold appendUint64
  dsimp only
  split_ifs with h0 h1 h2 h3 h4 h5 h6 h7 h8
  · rw [h0]
    rfl
  · rw [ofString_minimal_small (by omega) h1]
  · rw [ofString_minimal (k := 0) (by omega) (by omega) (by omega) (by decide)]
    rfl
  · rw [ofString_minimal (k := 1) (by omega) (by omega) (by omega) (by decide)]
    rfl
  · rw [ofString_minimal (k := 2) (by omega) (by omega) (by omega) (by decide)]
    rfl
  · rw [ofString_minimal (k := 3) (by omega) (by omega) (by omega) (by decide)]
    rfl
  · rw [ofString_minimal (k := 4) (by omega) (by omega) (by omega) (by decide)]
    rfl
  · rw [ofString_minimal (k := 5) (by omega) (by omega) (by omega) (by decide)]
    rfl
  · rw [ofString_minimal (k := 6) (by omega) (by omega) (by omega) (by decide)]
    rfl
  · rw [ofString_minimal (k := 7) (by omega) (by omega) (by omega) (by decide)]
    rfl

/-! ## What `Split` reads -/

theorem readSize_eq {b : Bytes} {slen : Nat} (h : 1 ≤ slen ∧ slen ≤ 8) (hlen : slen ≤ b.length) :
    readSize b slen = if ofBytes (b.take slen) < 56 ∨ b.head? = some 0 then .error .canonSize
      else .ok (ofBytes (b.take slen)) := by
  rw [readSize, if_neg (by omega), if_pos h]

theorem readSize_append {n : Nat} (hlo : 56 ≤ n) (hhi : n < 2 ^ 64) (r : Bytes) :
    readSize (minimal n ++ r) (minimal n).length = .ok n := by
  have hlen := size_length hlo hhi
  have hhead : (minimal n ++ r).head? ≠ some 0 := by
    rw [List.head?_append_of_ne_nil _ (List.ne_nil_of_length_pos hlen.1)]
    exact minimal_head? n
  rw [readSize_eq hlen (by rw [List.length_append]; omega), List.take_left, ofBytes_minimal]
  exact if_neg fun h => h.elim (by omega) hhead

theorem of_readSize {b : Bytes} {slen n : Nat} (hslen : 1 ≤ slen ∧ slen ≤ 8)
    (h : readSize b slen = .ok n) :
    56 ≤ n ∧ n < 2 ^ 64 ∧ (minimal n).length = slen ∧ b = minimal n ++ b.drop slen := by
  by_cases hle : slen ≤ b.length
  · rw [readSize_eq hslen hle] at h
    split at h
    · cases h
    · rename_i hn
      cases h
      have hlen : (b.take slen).length = slen := List.length_take_of_le hle
      have hhead : (b.take slen).head? ≠ some 0 := by
        rw [List.head?_take, if_neg (by omega)]
        exact fun h0 => hn (Or.inr h0)
      have hlt := ofBytes_lt (b.take slen)
      have hpow : 256 ^ slen ≤ 256 ^ 8 := Nat.pow_le_pow_right (by decide) hslen.2
      have hsize : ofBytes (b.take slen) < 2 ^ 64 := by
        rw [hlen] at hlt
        exact hlt.trans_le hpow
      rw [minimal_ofBytes hhead, List.take_append_drop]
      exact ⟨not_lt.mp fun h56 => hn (Or.inl h56), hsize, hlen, rfl⟩
  · rw [readSize, if_pos (not_le.mp hle)] at h
    cases h

theorem of_tag_small {b : UInt8} {s l n : Nat} (h : b.toNat = s + n) (hn : n < 56) :
    header s l n = [b] := by
  rw [header_small hn, ofNat_toNat_of_eq h]

theorem of_tag_large {b : UInt8} {s l n : Nat} (h : b.toNat = l + (minimal n).length)
    (hn : 56 ≤ n) : header s l n = b :: minimal n := by
  rw [header_large hn, ofNat_toNat_of_eq h]

/-- A header and enough bytes after it are a value. -/
theorem value_of_header {k : Kind} {s l n : Nat} {b r : Bytes}
    (hk : ∀ c : Bytes, (Value.mk k c).head = header s l c.length) (hb : b = header s l n ++ r)
    (hle : n ≤ b.length - (header s l n).length) :
    b = (Value.mk k (r.take n)).enc ++ r.drop n ∧
      (Value.mk k (r.take n)).head.length = (header s l n).length ∧ (r.take n).length = n := by
  have hlen : (r.take n).length = n := by
    rw [hb, List.length_append, Nat.add_sub_cancel_left] at hle
    exact List.length_take_of_le hle
  rw [Value.enc, hk, hlen, List.append_assoc, List.take_append_drop]
  exact ⟨hb, rfl, rfl⟩

/-- A tag with the size in it. -/
theorem value_of_smallTag {k : Kind} {s l n : Nat} {b : UInt8} {rest : Bytes}
    (hk : ∀ c : Bytes, (Value.mk k c).head = header s l c.length) (htag : b.toNat = s + n)
    (h56 : n < 56) (hle : n ≤ (b :: rest).length - 1) :
    b :: rest = (Value.mk k (rest.take n)).enc ++ rest.drop n ∧
      (Value.mk k (rest.take n)).head.length = 1 ∧ (rest.take n).length = n := by
  have hhead : header s l n = [b] := of_tag_small htag h56
  have hb : b :: rest = header s l n ++ rest := by
    rw [hhead]
    rfl
  have h := value_of_header hk hb (by rwa [hhead])
  rwa [hhead] at h

/-- A tag with the size after it. -/
theorem value_of_largeTag {k : Kind} {s l m n : Nat} {b : UInt8} {rest : Bytes}
    (hk : ∀ c : Bytes, (Value.mk k c).head = header s l c.length) (htag : b.toNat = l + m)
    (hm : 1 ≤ m ∧ m ≤ 8) (hn : readSize rest m = .ok n) (hle : n ≤ (b :: rest).length - (m + 1)) :
    56 ≤ n ∧ n < 2 ^ 64 ∧
      b :: rest = (Value.mk k ((rest.drop m).take n)).enc ++ (rest.drop m).drop n ∧
      (Value.mk k ((rest.drop m).take n)).head.length = m + 1 ∧
      ((rest.drop m).take n).length = n := by
  obtain ⟨h56, h64, hmin, hrest⟩ := of_readSize hm hn
  have hhead : header s l n = b :: minimal n := of_tag_large (by rw [htag, hmin]) h56
  have hb : b :: rest = header s l n ++ rest.drop m := by
    rw [hhead, List.cons_append, ← hrest]
  have hlen : (header s l n).length = m + 1 := by rw [hhead, List.length_cons, hmin]
  have h := value_of_header hk hb (by rwa [hlen])
  rw [hlen] at h
  exact ⟨h56, h64, h⟩

/-- What `readTag` has found: a value begins here if its content is all there. -/
theorem of_readTag {b : UInt8} {rest : Bytes} {k : Kind} {ts cs : Nat}
    (h : readTag b rest = .ok (k, ts, cs)) (hle : cs ≤ (b :: rest).length - ts) :
    ∃ (v : Value) (r : Bytes), v.Valid ∧ b :: rest = v.enc ++ r ∧ v.kind = k ∧
      v.head.length = ts ∧ v.content.length = cs := by
  have hb := b.toNat_lt
  unfold readTag at h
  dsimp only at h
  split_ifs at h with h1 h2 h3 h4 h5
  · -- a byte that is its own encoding
    cases h
    have hbyte : isByte [b] = true := isByte_iff.mpr ⟨b, h1, rfl⟩
    exact ⟨⟨.byte, [b]⟩, rest, Value.byte_valid hbyte, rfl, rfl, rfl, rfl⟩
  · cases h
    generalize hn : b.toNat - 0x80 = n at *
    obtain ⟨he, hh, hc⟩ := value_of_smallTag (k := .string) (fun c => rfl)
      (show b.toNat = 0x80 + n by omega) (by omega) hle
    have hbyte : isByte (rest.take n) = false := by
      by_contra hbyte
      obtain ⟨x, hx, hxs⟩ := isByte_iff.mp (eq_true_of_ne_false hbyte)
      rw [hxs, List.length_singleton] at hc
      rw [← hc] at hxs h3
      have hx0 : rest.head? = some x := by
        have := congrArg List.head? hxs
        rwa [List.head?_take, if_neg (by decide)] at this
      rw [hx0] at h3
      exact h3 ⟨rfl, decide_eq_true (UInt8.lt_iff_toNat_lt.mpr hx)⟩
    have hsize : (rest.take n).length < 2 ^ 64 := by omega
    exact ⟨⟨.string, _⟩, _, Value.string_valid hbyte hsize, he, rfl, hh, hc⟩
  · obtain ⟨n, hn, hcs⟩ := map_eq_ok_iff.mp h
    cases hcs
    obtain ⟨h56, h64, he, hh, hc⟩ := value_of_largeTag (k := .string) (fun c => rfl)
      (show b.toNat = 0xB7 + (b.toNat - 0xB7) by omega) (by omega) hn hle
    have hbyte : isByte ((rest.drop (b.toNat - 0xB7)).take cs) = false :=
      isByte_of_length (by omega)
    rw [← hc] at h64
    exact ⟨⟨.string, _⟩, _, Value.string_valid hbyte h64, he, rfl, hh, hc⟩
  · cases h
    generalize hn : b.toNat - 0xC0 = n at *
    obtain ⟨he, hh, hc⟩ := value_of_smallTag (k := .list) (fun c => rfl)
      (show b.toNat = 0xC0 + n by omega) (by omega) hle
    have hsize : (rest.take n).length < 2 ^ 64 := by omega
    exact ⟨⟨.list, _⟩, _, Value.list_valid hsize, he, rfl, hh, hc⟩
  · obtain ⟨n, hn, hcs⟩ := map_eq_ok_iff.mp h
    cases hcs
    obtain ⟨h56, h64, he, hh, hc⟩ := value_of_largeTag (k := .list) (fun c => rfl)
      (show b.toNat = 0xF7 + (b.toNat - 0xF7) by omega) (by omega) hn hle
    rw [← hc] at h64
    exact ⟨⟨.list, _⟩, _, Value.list_valid h64, he, rfl, hh, hc⟩

theorem of_readKind {b : Bytes} {k : Kind} {ts cs : Nat} (h : readKind b = .ok (k, ts, cs)) :
    ∃ (v : Value) (r : Bytes), v.Valid ∧ b = v.enc ++ r ∧ v.kind = k ∧ v.head.length = ts ∧
      v.content.length = cs := by
  cases b with
  | nil => cases h
  | cons b rest =>
    obtain ⟨⟨k', ts', cs'⟩, htag, h⟩ := bind_eq_ok_iff.mp h
    dsimp only at h
    split at h
    · cases h
    · rename_i hle
      cases h
      exact of_readTag htag (not_lt.mp hle)

section Tags

variable {b : UInt8} {rest : Bytes} {n m : Nat}

theorem readTag_string (hb : b.toNat = 0x80 + n) (hn : n < 56)
    (hx : ¬ (n = 1 ∧ rest.head?.any (· < 128) = true)) : readTag b rest = .ok (.string, 1, n) := by
  unfold readTag
  rw [hb]
  dsimp only
  rw [if_neg (by omega), if_pos (by omega), Nat.add_sub_cancel_left, if_neg hx]

theorem readTag_string_large (hb : b.toNat = 0xB7 + m) (hm : 1 ≤ m ∧ m ≤ 8)
    (h : readSize rest m = .ok n) : readTag b rest = .ok (.string, m + 1, n) := by
  unfold readTag
  rw [hb]
  dsimp only
  rw [if_neg (by omega), if_neg (by omega), if_pos (by omega), Nat.add_sub_cancel_left, h]
  rfl

theorem readTag_list (hb : b.toNat = 0xC0 + n) (hn : n < 56) :
    readTag b rest = .ok (.list, 1, n) := by
  unfold readTag
  rw [hb]
  dsimp only
  rw [if_neg (by omega), if_neg (by omega), if_neg (by omega), if_pos (by omega),
    Nat.add_sub_cancel_left]

theorem readTag_list_large (hb : b.toNat = 0xF7 + m) (hm : 1 ≤ m ∧ m ≤ 8)
    (h : readSize rest m = .ok n) : readTag b rest = .ok (.list, m + 1, n) := by
  unfold readTag
  rw [hb]
  dsimp only
  rw [if_neg (by omega), if_neg (by omega), if_neg (by omega), if_neg (by omega),
    Nat.add_sub_cancel_left, h]
  rfl

end Tags

/-- A tag for content that is all there. -/
theorem readKind_of_readTag {b : UInt8} {rest : Bytes} {k : Kind} {ts cs : Nat}
    (h : readTag b rest = .ok (k, ts, cs)) (hle : ts + cs ≤ (b :: rest).length) :
    readKind (b :: rest) = .ok (k, ts, cs) :=
  bind_eq_ok_iff.mpr ⟨_, h, if_neg (by omega)⟩

theorem readKind_enc {v : Value} (hv : v.Valid) (r : Bytes) :
    readKind (v.enc ++ r) = .ok (v.kind, v.head.length, v.content.length) := by
  obtain ⟨k, c⟩ := v
  have hsize := hv.size_lt
  simp only at hsize
  cases k with
  | byte =>
    obtain ⟨x, hx, hc⟩ := isByte_iff.mp ((hv.byte_iff (by simp)).mp rfl)
    simp only at hc
    subst hc
    exact readKind_of_readTag (if_pos hx) (by simp [Value.head])
  | string =>
    have hbyte : isByte c = false := by
      by_contra hb
      have := (hv.byte_iff (by simp)).mpr (eq_true_of_ne_false hb)
      cases this
    rw [Value.enc, Value.head]
    dsimp only
    by_cases hn : c.length < 56
    · rw [header_small hn, List.append_assoc]
      refine readKind_of_readTag (readTag_string (toNat_ofNat_of_lt (by omega)) hn ?_)
        (by simp; omega)
      rintro ⟨h1, hany⟩
      obtain ⟨x, rfl⟩ := List.length_eq_one_iff.mp h1
      have hx : x.toNat < 0x80 := UInt8.lt_iff_toNat_lt.mp (by simpa using hany)
      rw [isByte_iff.mpr ⟨x, hx, rfl⟩] at hbyte
      cases hbyte
    · have hlen := size_length (by omega) hsize
      rw [header_large (by omega), List.append_assoc, List.cons_append]
      refine readKind_of_readTag (readTag_string_large (toNat_ofNat_of_lt (by omega)) hlen
        (readSize_append (by omega) hsize _)) (by simp; omega)
  | list =>
    rw [Value.enc, Value.head]
    dsimp only
    by_cases hn : c.length < 56
    · rw [header_small hn, List.append_assoc]
      exact readKind_of_readTag (readTag_list (toNat_ofNat_of_lt (by omega)) hn)
        (by simp; omega)
    · have hlen := size_length (by omega) hsize
      rw [header_large (by omega), List.append_assoc, List.cons_append]
      refine readKind_of_readTag (readTag_list_large (toNat_ofNat_of_lt (by omega)) hlen
        (readSize_append (by omega) hsize _)) (by simp; omega)

/-- `Split` reads the values of the format. -/
theorem split_reads : Reads split Value.enc Value.Valid := by
  intro b v r
  constructor
  · intro h
    obtain ⟨⟨k, ts, cs⟩, hk, h⟩ := bind_eq_ok_iff.mp h
    obtain ⟨v', r', hv, rfl, rfl, rfl, rfl⟩ := of_readKind hk
    cases h
    refine ⟨?_, ?_⟩
    · rwa [Value.enc, List.append_assoc, List.drop_left, List.take_left]
    · rw [Value.enc, List.append_assoc, List.drop_left, List.take_left, ← List.length_append,
        ← List.append_assoc, List.drop_left]
      rfl
  · rintro ⟨hv, rfl⟩
    refine bind_eq_ok_iff.mpr ⟨_, readKind_enc hv r, ?_⟩
    dsimp only
    rw [Value.enc, List.append_assoc, List.drop_left, List.take_left, ← List.length_append,
      ← List.append_assoc, List.drop_left]
    rfl

theorem splitString_reads :
    Reads splitString (fun c => (Value.ofString c).enc) fun c => c.length < 2 ^ 64 := by
  refine split_reads.refine (Q := fun v c => v.kind ≠ .list ∧ v.content = c) ?_ ?_
    fun c => Value.ofString_valid
  · intro b c r
    refine bind_eq_ok_iff.trans ⟨?_, ?_⟩
    · rintro ⟨⟨v, r'⟩, hs, h⟩
      dsimp only at h
      split at h
      · cases h
      · rename_i hk
        cases h
        exact ⟨v, hs, hk, rfl⟩
    · rintro ⟨v, hs, hk, rfl⟩
      exact ⟨(v, r), hs, if_neg hk⟩
  · intro v c hv
    constructor
    · rintro ⟨hk, rfl⟩
      exact ⟨hv.size_lt, Value.eq_ofString hv hk⟩
    · rintro ⟨-, rfl⟩
      exact ⟨by unfold Value.ofString; cases isByte c <;> simp, rfl⟩

theorem splitList_reads :
    Reads splitList (fun c => (Value.mk .list c).enc) fun c => c.length < 2 ^ 64 := by
  refine split_reads.refine (Q := fun v c => v.kind = .list ∧ v.content = c) ?_ ?_
    fun c => Value.list_valid
  · intro b c r
    refine bind_eq_ok_iff.trans ⟨?_, ?_⟩
    · rintro ⟨⟨v, r'⟩, hs, h⟩
      dsimp only at h
      split at h
      · cases h
      · rename_i hk
        cases h
        exact ⟨v, hs, not_not.mp hk, rfl⟩
    · rintro ⟨v, hs, hk, rfl⟩
      exact ⟨(v, r), hs, if_neg (not_not.mpr hk)⟩
  · rintro ⟨k, c'⟩ c hv
    constructor
    · rintro ⟨rfl, rfl⟩
      exact ⟨hv.size_lt, rfl⟩
    · rintro ⟨-, h⟩
      cases h
      exact ⟨rfl, rfl⟩

/-- The content is the integer, big endian, without leading zeros. -/
theorem contentUint64_eq_ok_iff {c : Bytes} {x : UInt64} :
    contentUint64 c = .ok x ↔ c = minimal x.toNat := by
  have hx := x.toNat_lt
  constructor
  · intro h
    unfold contentUint64 at h
    split at h
    · cases h
      rfl
    · rename_i y
      split at h
      · cases h
      · rename_i hy
        cases h
        have hm := minimal_ofBytes (b := [y]) (fun h0 => hy (Option.some.inj h0))
        rw [ofBytes_singleton] at hm
        rw [UInt8.toNat_toUInt64, hm]
    · rename_i hnil hone
      split at h
      · cases h
      · rename_i hle
        split at h
        · cases h
        · rename_i n hn
          cases h
          have hlen : 1 ≤ c.length := List.length_pos_of_ne_nil hnil
          obtain ⟨-, h64, -, hc⟩ := of_readSize ⟨hlen, not_lt.mp hle⟩ hn
          rw [List.drop_length, List.append_nil] at hc
          rw [UInt64.toNat_ofNat', Nat.mod_eq_of_lt h64]
          exact hc
  · rintro rfl
    have hhead := minimal_head? x.toNat
    have hval := ofBytes_minimal x.toNat
    have hlen : (minimal x.toNat).length ≤ 8 := minimal_length_le (by simpa using hx)
    unfold contentUint64
    split
    · rename_i hm
      rw [hm, ofBytes_nil] at hval
      rw [UInt64.toNat_inj.mp (hval.symm.trans UInt64.toNat_zero.symm)]
    · rename_i y hm
      rw [hm] at hval hhead
      rw [ofBytes_singleton] at hval
      rw [if_neg fun h0 => hhead (by rw [h0]; rfl)]
      exact congrArg _ (UInt64.toNat_inj.mp (by rw [UInt8.toNat_toUInt64, hval]))
    · rename_i hnil hone
      have h56 : 56 ≤ x.toNat := by
        by_contra h56
        have hdiv := minimal_div (n := x.toNat)
        rw [show x.toNat / 256 = 0 by omega, minimal_zero] at hdiv
        by_cases h0 : 0 < x.toNat
        · exact hone _ (hdiv h0)
        · exact hnil (by rw [show x.toNat = 0 by omega, minimal_zero])
      have hread := readSize_append h56 hx []
      rw [List.append_nil] at hread
      rw [if_neg (not_lt.mpr hlen), hread]
      dsimp only
      rw [UInt64.ofNat_toNat]

theorem splitUint64_reads :
    Reads splitUint64 (fun x => (Value.ofString (minimal x.toNat)).enc) fun _ => True := by
  refine splitString_reads.refine (Q := fun c x => contentUint64 c = .ok x)
    (g := fun x => minimal x.toNat) ?_ ?_ ?_
  · intro b x r
    refine bind_eq_ok_iff.trans ⟨?_, ?_⟩
    · rintro ⟨⟨c, r'⟩, hs, h⟩
      obtain ⟨x', hx, h⟩ := bind_eq_ok_iff.mp h
      cases h
      exact ⟨c, hs, hx⟩
    · rintro ⟨c, hs, hx⟩
      exact ⟨(c, r), hs, bind_eq_ok_iff.mpr ⟨x, hx, rfl⟩⟩
  · intro c x _
    rw [contentUint64_eq_ok_iff]
    exact (true_and _).symm.to_iff
  · intro x _
    have hle : (minimal x.toNat).length ≤ 8 := minimal_length_le (by simpa using x.toNat_lt)
    exact hle.trans_lt (by norm_num)

theorem intSize_eq (x : UInt64) :
    intSize x.toNat = (Value.ofString (minimal x.toNat)).enc.length := by
  have hx := x.toNat_lt
  unfold intSize
  split
  · rename_i h
    rcases Nat.eq_zero_or_pos x.toNat with h0 | h0
    · rw [h0]
      rfl
    · rw [ofString_minimal_small h0 h]
      rfl
  · rename_i h
    have hlen : (minimal x.toNat).length ≤ 8 := minimal_length_le (by simpa using hx)
    have hbyte := isByte_minimal (not_lt.mp h |>.trans' (by decide))
    rw [intsize_eq (by omega) hx, Value.ofString_enc_small hbyte (by omega), List.length_cons,
      Nat.add_comm]

/-! ## The values of a list -/

theorem readKind_cons_of_split {b r : Bytes} {v : Value} (h : split b = .ok (v, r)) :
    b ≠ [] ∧ readKind b = .ok (v.kind, v.head.length, v.content.length) ∧
      b.take (v.head.length + v.content.length) = v.enc ∧
      b.drop (v.head.length + v.content.length) = r := by
  obtain ⟨hv, rfl⟩ := (split_reads b v r).mp h
  refine ⟨by simp [Value.enc_ne_nil hv], readKind_enc hv r, ?_, ?_⟩
  · exact List.take_left' (by rw [Value.enc, List.length_append])
  · exact List.drop_left' (by rw [Value.enc, List.length_append])

theorem countLoop_eq (n i : Nat) (b : Bytes) :
    countLoop n i b = (readAll split n b).map fun vs => i + vs.length := by
  induction n generalizing i b with
  | zero => cases b <;> rfl
  | succ n ih =>
    cases b with
    | nil => rfl
    | cons x xs =>
      cases hs : split (x :: xs) with
      | error e =>
        have hk : readKind (x :: xs) = .error e := by
          cases hk : readKind (x :: xs) with
          | error e' =>
            rw [split, hk] at hs
            cases hs
            rfl
          | ok p =>
            rw [split, hk] at hs
            cases hs
        rw [countLoop, readAll, hk, hs]
        rfl
      | ok p =>
        obtain ⟨v, r⟩ := p
        obtain ⟨-, hk, -, hdrop⟩ := readKind_cons_of_split hs
        rw [countLoop, readAll, hk, hs]
        change countLoop n (i + 1) (List.drop _ (x :: xs)) = (readAll split n r >>= _).map _
        rw [hdrop, ih]
        cases readAll split n r with
        | error e => rfl
        | ok vs =>
          exact congrArg Except.ok (Nat.add_right_comm i 1 vs.length)

theorem countValues_eq_ok_iff {b : Bytes} {n : Nat} : countValues b = .ok n ↔
    ∃ vs : List Value, (∀ v ∈ vs, v.Valid) ∧ b = vs.flatMap Value.enc ∧ vs.length = n := by
  rw [countValues, countLoop_eq, map_eq_ok_iff]
  constructor
  · rintro ⟨vs, h, rfl⟩
    obtain ⟨hvs, hb⟩ := (split_reads.readAll_iff fun _ => Value.enc_ne_nil).mp h
    exact ⟨vs, hvs, hb, (Nat.zero_add _).symm⟩
  · rintro ⟨vs, hvs, hb, rfl⟩
    exact ⟨vs, (split_reads.readAll_iff fun _ => Value.enc_ne_nil).mpr ⟨hvs, hb⟩, Nat.zero_add _⟩

theorem countValues_error_iff {b : Bytes} : (∃ e, countValues b = .error e) ↔
    ¬ ∃ vs : List Value, (∀ v ∈ vs, v.Valid) ∧ b = vs.flatMap Value.enc := by
  constructor
  · rintro ⟨e, he⟩ ⟨vs, hvs, hb⟩
    rw [countValues_eq_ok_iff.mpr ⟨vs, hvs, hb, rfl⟩] at he
    cases he
  · intro h
    cases hc : countValues b with
    | error e => exact ⟨e, rfl⟩
    | ok n =>
      obtain ⟨vs, hvs, hb, -⟩ := countValues_eq_ok_iff.mp hc
      exact absurd ⟨vs, hvs, hb⟩ h

theorem countValues_cons {v : Value} (hv : v.Valid) {r : Bytes} {n : Nat} :
    countValues (v.enc ++ r) = .ok (n + 1) ↔ countValues r = .ok n := by
  rw [countValues_eq_ok_iff, countValues_eq_ok_iff]
  constructor
  · rintro ⟨vs, hvs, he, hn⟩
    cases vs with
    | nil => cases hn
    | cons v' vs =>
      obtain ⟨rfl, rfl⟩ := split_reads.cancel hv (hvs v' List.mem_cons_self) he
      exact ⟨vs, fun w hw => hvs w (List.mem_cons_of_mem _ hw), rfl, Nat.succ.inj hn⟩
  · rintro ⟨vs, hvs, rfl, rfl⟩
    refine ⟨v :: vs, ?_, rfl, rfl⟩
    intro w hw
    cases hw with
    | head => exact hv
    | tail _ hw => exact hvs w hw

namespace ListIterator

variable {it : ListIterator}

theorem calls_nil (n : Nat) (h : it.data = []) :
    it.calls n = List.replicate n (false, it.next, it.err) := by
  induction n with
  | zero => rfl
  | succ n ih =>
    rw [calls, Next, if_pos h, List.replicate_succ, ← ih]

theorem calls_value (n : Nat) {v : Value} {r : Bytes} (hv : v.Valid) (h : it.data = v.enc ++ r) :
    it.calls (n + 1) = (true, v.enc, none) :: (ListIterator.mk r v.enc none).calls n := by
  obtain ⟨hne, hk, htake, hdrop⟩ := readKind_cons_of_split (split_reads.append hv r)
  rw [calls, Next, if_neg (by rwa [h]), h, hk]
  dsimp only
  rw [htake, hdrop]

/-- Data that does not begin with a value keeps the iterator where it is. -/
theorem calls_error (n : Nat) {e : Err} (hne : it.data ≠ []) (h : readKind it.data = .error e) :
    it.calls n = List.replicate n (true, [], some e) := by
  induction n generalizing it with
  | zero => rfl
  | succ n ih =>
    rw [calls, Next, if_neg hne, h, List.replicate_succ]
    dsimp only
    rw [@ih ⟨it.data, [], some e⟩ hne h]

end ListIterator

/-- A list is at its end, goes on with a value, or goes wrong. -/
theorem content_cases (b : Bytes) : b = [] ∨ (∃ (v : Value) (r : Bytes), v.Valid ∧ b = v.enc ++ r) ∨
    b ≠ [] ∧ (∃ e, readKind b = .error e) ∧ ∀ n, countValues b ≠ .ok n := by
  by_cases hb : b = []
  · exact .inl hb
  · cases hk : readKind b with
    | ok p =>
      obtain ⟨v, r, hv, he, -⟩ := of_readKind hk
      exact .inr (.inl ⟨v, r, hv, he⟩)
    | error e =>
      refine .inr (.inr ⟨hb, ⟨e, rfl⟩, ?_⟩)
      intro n hn
      obtain ⟨vs, hvs, rfl, -⟩ := countValues_eq_ok_iff.mp hn
      cases vs with
      | nil => exact hb rfl
      | cons v vs =>
        rw [List.flatMap_cons, readKind_enc (hvs v List.mem_cons_self)] at hk
        cases hk

theorem countValues_nil {n : Nat} : countValues [] = .ok n ↔ n = 0 := by
  change Except.ok 0 = Except.ok n ↔ n = 0
  rw [Except.ok.injEq, eq_comm]

theorem countValues_ne_zero {v : Value} (hv : v.Valid) (r : Bytes) :
    countValues (v.enc ++ r) ≠ .ok 0 := by
  intro h
  obtain ⟨vs, -, he, h0⟩ := countValues_eq_ok_iff.mp h
  rw [List.eq_nil_of_length_eq_zero h0, List.flatMap_nil] at he
  exact Value.enc_ne_nil hv (List.append_eq_nil_iff.mp he).1

namespace ListIterator

/-- Whether the calls of `Next` said that there was a value. -/
def flags (n : Nat) (it : ListIterator) : List Bool := (it.calls n).map (·.1)

theorem flags_eq_iff (b next : Bytes) (n : Nat) :
    flags (n + 1) ⟨b, next, none⟩ = List.replicate n true ++ [false] ↔ countValues b = .ok n := by
  induction n generalizing b next with
  | zero =>
    obtain rfl | ⟨v, r, hv, rfl⟩ | ⟨hb, ⟨e, he⟩, hcount⟩ := content_cases b
    · exact iff_of_true rfl (countValues_nil.mpr rfl)
    · rw [flags, calls_value 0 hv rfl]
      exact iff_of_false (by simp) (countValues_ne_zero hv r)
    · rw [flags, calls_error 1 hb he]
      exact iff_of_false (by simp) (hcount 0)
  | succ n ih =>
    obtain rfl | ⟨v, r, hv, rfl⟩ | ⟨hb, ⟨e, he⟩, hcount⟩ := content_cases b
    · rw [flags, calls_nil _ rfl]
      exact iff_of_false (by simp [List.replicate_succ]) (by simp [countValues_nil])
    · rw [countValues_cons hv, ← ih r v.enc, flags, calls_value _ hv rfl, List.map_cons,
        List.replicate_succ, List.cons_append, List.cons_inj_right]
      rfl
    · rw [flags, calls_error _ hb he]
      refine iff_of_false ?_ (hcount _)
      rw [List.map_replicate, List.replicate_succ', List.append_right_inj]
      simp

theorem calls_values {vs : List Value} (hvs : ∀ v ∈ vs, v.Valid) (next : Bytes) :
    calls vs.length ⟨vs.flatMap Value.enc, next, none⟩ = vs.map fun v => (true, v.enc, none) := by
  induction vs generalizing next with
  | nil => rfl
  | cons v vs ih =>
    rw [List.length_cons, calls_value _ (hvs v List.mem_cons_self) List.flatMap_cons,
      ih fun w hw => hvs w (List.mem_cons_of_mem _ hw)]
    rfl

theorem flags_of_error {b : Bytes} (h : ∀ n, countValues b ≠ .ok n) (next : Bytes) (n : Nat) :
    flags n ⟨b, next, none⟩ = List.replicate n true := by
  induction n generalizing b next with
  | zero => rfl
  | succ n ih =>
    obtain rfl | ⟨v, r, hv, rfl⟩ | ⟨hb, ⟨e, he⟩, -⟩ := content_cases b
    · exact absurd (countValues_nil.mpr rfl) (h 0)
    · have hr : ∀ k, countValues r ≠ .ok k := fun k hk => h (k + 1) ((countValues_cons hv).mpr hk)
      have hflags := ih hr v.enc
      rw [flags] at hflags
      rw [flags, calls_value n hv rfl, List.map_cons, hflags, List.replicate_succ]
    · rw [flags, calls_error _ hb he, List.map_replicate]

end ListIterator

/-- The iterator of a list is at its content. -/
theorem newListIterator_eq_ok_iff {data : Bytes} {it : ListIterator} :
    newListIterator data = .ok it ↔ ∃ c r, c.length < 2 ^ 64 ∧
      data = (Value.mk .list c).enc ++ r ∧ it = ⟨c, [], none⟩ := by
  have hsplit : newListIterator data = .ok it ↔
      ∃ c r, splitList data = .ok (c, r) ∧ it = ⟨c, [], none⟩ := by
    unfold newListIterator splitList split
    cases hk : readKind data with
    | error e =>
      refine iff_of_false (fun h => by cases h) ?_
      rintro ⟨c, r, h, -⟩
      cases h
    | ok p =>
      obtain ⟨k, t, n⟩ := p
      change (if k ≠ Kind.list then Except.error Err.expectedList else _) = _ ↔
        ∃ c r, (if k ≠ Kind.list then Except.error Err.expectedList else _) = _ ∧ _
      by_cases hl : k ≠ .list
      · rw [if_pos hl]
        refine iff_of_false (fun h => by cases h) ?_
        rintro ⟨c, r, h, -⟩
        rw [if_pos hl] at h
        cases h
      · rw [if_neg hl]
        constructor
        · intro h
          cases h
          exact ⟨_, _, if_neg hl, rfl⟩
        · rintro ⟨c, r, h, rfl⟩
          rw [if_neg hl] at h
          cases h
          rfl
  rw [hsplit]
  constructor
  · rintro ⟨c, r, h, rfl⟩
    obtain ⟨hc, hd⟩ := (splitList_reads _ _ _).mp h
    exact ⟨c, r, hc, hd, rfl⟩
  · rintro ⟨c, r, hc, hd, rfl⟩
    exact ⟨c, r, (splitList_reads _ _ _).mpr ⟨hc, hd⟩, rfl⟩

/-- The iterator of a list starts at its content. A loop over it ends after `n` turns exactly when
    `CountValues` counts `n` values, and its turns see the values the list was put together from.
    Over content that is not put together from values it fails, and `Next` never says that the
    list is at its end. -/
theorem iterator_loop (b next : Bytes) :
    (∀ data it, newListIterator data = .ok it ↔ ∃ c r, c.length < 2 ^ 64 ∧
      data = (Value.mk .list c).enc ++ r ∧ it = ⟨c, [], none⟩) ∧
    (∀ n, ListIterator.flags (n + 1) ⟨b, next, none⟩ = List.replicate n true ++ [false] ↔
      countValues b = .ok n) ∧
    (∀ vs : List Value, (∀ v ∈ vs, v.Valid) → b = vs.flatMap Value.enc →
      countValues b = .ok vs.length ∧
      ListIterator.calls vs.length ⟨b, next, none⟩ = vs.map fun v => (true, v.enc, none)) ∧
    ((∃ e, countValues b = .error e) ↔
      ¬ ∃ vs : List Value, (∀ v ∈ vs, v.Valid) ∧ b = vs.flatMap Value.enc) ∧
    ((∃ e, countValues b = .error e) → ∀ n,
      ListIterator.flags n ⟨b, next, none⟩ = List.replicate n true) := by
  refine ⟨fun _ _ => newListIterator_eq_ok_iff, ListIterator.flags_eq_iff b next, ?_,
    countValues_error_iff, ?_⟩
  · rintro vs hvs rfl
    exact ⟨countValues_eq_ok_iff.mpr ⟨vs, hvs, rfl, rfl⟩, ListIterator.calls_values hvs next⟩
  · rintro ⟨e, he⟩ n
    refine ListIterator.flags_of_error ?_ next n
    intro k hk
    rw [he] at hk
    cases hk

/-! ## Sizes and integers -/

theorem bytesSize_eq {b : Bytes} (h : b.length < 2 ^ 64) :
    bytesSize b = (Value.ofString b).enc.length := by
  by_cases hb : isByte b = true
  · obtain ⟨x, hx, rfl⟩ := isByte_iff.mp hb
    have hle : x ≤ 0x7f := UInt8.le_iff_toNat_le.mpr (Nat.le_of_lt_succ hx)
    rw [Value.ofString_enc_byte hb, bytesSize, if_pos hle]
    rfl
  · have hb := eq_false_of_ne_true hb
    rw [Value.ofString_enc_of_not_byte hb, List.length_append, ← headsize_eq 0x80 0xB7 h]
    match b, hb with
    | [], _ => rfl
    | [x], hb =>
      have hle : ¬ x ≤ 0x7f := by
        intro hle
        rw [isByte_iff.mpr ⟨x, Nat.lt_succ_of_le (UInt8.le_iff_toNat_le.mp hle), rfl⟩] at hb
        cases hb
      rw [bytesSize, if_neg hle]
      rfl
    | x :: y :: r, _ => rfl

theorem listSize_eq {c : Bytes} (h : c.length < 2 ^ 64) :
    listSize c.length = (Value.mk .list c).enc.length := by
  rw [listSize, Value.enc, Value.head, List.length_append, headsize_eq 0xC0 0xF7 h]

theorem listSize_lt {n : Nat} (h : n < 2 ^ 63) : listSize n < 2 ^ 64 := by
  have hint : intsize n ≤ 9 := intsizeLoop_le 8 1 n
  unfold listSize headsize
  split <;> omega

/-- `SplitUint64` accepts what `AppendUint64` writes, whatever follows it, and no other form of an
    integer; the size functions say the sizes of the encodings. A length is below 2^63, where no
    size wraps around in the 64 bits of `ListSize`. -/
theorem splitUint64_canonical :
    (∀ (b r : Bytes) (x : UInt64), splitUint64 b = .ok (x, r) ↔ b = appendUint64 [] x ++ r) ∧
    (∀ x : UInt64, (appendUint64 [] x).length = intSize x.toNat) ∧
    (∀ c : Bytes, c.length < 2 ^ 63 → bytesSize c = (Value.ofString c).enc.length ∧
      listSize c.length = (Value.mk .list c).enc.length ∧ listSize c.length < 2 ^ 64) := by
  refine ⟨?_, ?_, ?_⟩
  · intro b r x
    rw [appendUint64_eq, List.nil_append]
    exact (splitUint64_reads b x r).trans (and_iff_right trivial)
  · intro x
    rw [appendUint64_eq, List.nil_append, intSize_eq]
  · intro c h
    have hlt : c.length < 2 ^ 64 := h.trans (by norm_num)
    exact ⟨bytesSize_eq hlt, listSize_eq hlt, listSize_lt h⟩

end ZipoLogger.Rlp
