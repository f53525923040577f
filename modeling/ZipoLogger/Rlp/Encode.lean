/-
  encode.go: the encoding of a value.

  `Val` is a value of any Go type, and `encode` what the writer of that type does to the buffer. The
  types themselves are not modelled, and so neither are the cache of writers and the tags' texts: a
  value of a type for which there is no writer is `noWriter`, a struct has the fields that are
  written. A value that writes itself (`Encoder`) puts values into the buffer one after the other
  and returns an error or none; an `EncodeRLP` that leaves a list open is not modelled. `Val.enc`
  says what the encoding is, from the rules of the package: a list is a header with the size of what
  follows, and the encodings of the elements. The writers never know that size before they are done
  (`Val.encode_appends`), and all ways out of the buffer give these bytes (`encode_canonical`).
-/
import ZipoLogger.Rlp.EncBuffer

namespace ZipoLogger.Rlp

open BigEndian

inductive Val
  /-- a `RawValue` -/
  | rawValue (b : Bytes)
  /-- a `*big.Int`, or a `big.Int` that is not nil -/
  | bigInt (i : Option Int)
  /-- a `*uint256.Int`, or a `uint256.Int` that is not nil -/
  | uint256 (z : Option (BitVec 256))
  | uint (n : UInt64)
  | bool (b : Bool)
  | string (s : Bytes)
  /-- a slice of bytes -/
  | bytes (b : Bytes)
  /-- an array of bytes -/
  | byteArray (b : Bytes)
  /-- a slice or an array of anything else -/
  | slice (elems : List Val)
  /-- the exported fields of a struct, without the `optional` ones at its end that are all zero -/
  | struct (fields : List Val)
  /-- a field with the tag `tail` -/
  | tail (elems : List Val)
  /-- a nil pointer, with `typeNilKind` of its type -/
  | nilPtr (nilKind : Kind)
  | nilInterface
  /-- an `Encoder`: what `EncodeRLP` writes, bytes (`rawValue`) or values that it has encoded, and
      the error it returns of its own -/
  | encoder (writes : List Val) (err : Option String)
  /-- an `Encoder` with a pointer method that cannot be addressed -/
  | unaddressable
  /-- a value of a type without a writer: a signed integer, a float, a map, a channel, a function, a
      type with such a part, or a struct with a bad tag. It is the whole value or in an
      interface. -/
  | noWriter

/-! ## The writers -/

/-- `makeByteArrayWriter`. -/
def writeByteArray (b : Bytes) (buf : EncBuffer) : EncBuffer :=
  match b with
  | [] => buf.write [0x80]
  | [x] => if x ≤ 0x7f then buf.write [x] else buf.write [0x81, x]
  | b => (buf.encodeStringHeader b.length).write b

def writeString (s : Bytes) (buf : EncBuffer) : EncBuffer :=
  match s with
  | [x] => if x ≤ 0x7f then buf.write [x] else (buf.encodeStringHeader 1).write [x]
  | s => (buf.encodeStringHeader s.length).write s

mutual

/-- The writer of the value's type. -/
def Val.encode : Val → EncBuffer → Except Err EncBuffer
  | .rawValue b, buf => .ok (buf.write b)
  | .bigInt none, buf => .ok (buf.write [0x80])
  | .bigInt (some i), buf => if i < 0 then .error .negativeBigInt else .ok (buf.writeBigInt i)
  | .uint256 none, buf => .ok (buf.write [0x80])
  | .uint256 (some z), buf => .ok (buf.writeUint256 z)
  | .uint n, buf => .ok (buf.writeUint64 n)
  | .bool b, buf => .ok (buf.writeBool b)
  | .string s, buf => .ok (writeString s buf)
  | .bytes b, buf => .ok (buf.writeBytes b)
  | .byteArray b, buf => .ok (writeByteArray b buf)
  | .slice elems, buf =>
    if elems.length = 0 then .ok (buf.write [0xC0])
    else do
      let (buf, listOffset) := buf.list
      let buf ← Val.encodeAll elems buf
      return buf.listEnd listOffset
  | .struct fields, buf => do
    let (buf, lh) := buf.list
    let buf ← Val.encodeAll fields buf
    return buf.listEnd lh
  | .tail elems, buf => Val.encodeAll elems buf
  | .nilPtr nilKind, buf => .ok (buf.write [if nilKind = .string then 0x80 else 0xC0])
  | .nilInterface, buf => .ok (buf.write [0xC0])
  | .encoder writes err, buf => do
    let buf ← Val.encodeAll writes buf
    match err with
    | none => return buf
    | some text => .error (.encoder text)
  | .unaddressable, _ => .error .unaddressable
  | .noWriter, _ => .error .notSerializable

/-- One element after another, up to the first error. -/
def Val.encodeAll : List Val → EncBuffer → Except Err EncBuffer
  | [], buf => .ok buf
  | v :: vs, buf => do
    let buf ← v.encode buf
    Val.encodeAll vs buf

end

/-- `EncodeToBytes`; `none` would be a panic in `copyTo`. -/
def encodeToBytes (v : Val) : Except Err (Option Bytes) := do
  let buf ← v.encode {}
  return buf.makeBytes

/-- `Encode` to a writer that is no buffer: what the writer has taken, and the error. -/
def encode {ε : Type} (w : EncBuffer.Writer ε) (v : Val) : Except Err (Bytes × Option ε) := do
  let buf ← v.encode {}
  return buf.writeTo w

/-! ## The encoding -/

mutual

def Val.enc : Val → Bytes
  | .rawValue b => b
  | .bigInt none => (Value.ofString []).enc
  | .bigInt (some i) => (Value.ofString (minimal i.natAbs)).enc
  | .uint256 none => (Value.ofString []).enc
  | .uint256 (some z) => (Value.ofString (minimal z.toNat)).enc
  | .uint n => (Value.ofString (minimal n.toNat)).enc
  | .bool b => (Value.ofString (if b then [1] else [])).enc
  | .string s => (Value.ofString s).enc
  | .bytes b => (Value.ofString b).enc
  | .byteArray b => (Value.ofString b).enc
  | .slice elems => (Value.mk .list (Val.encAll elems)).enc
  | .struct fields => (Value.mk .list (Val.encAll fields)).enc
  | .nilPtr nilKind =>
    if nilKind = .string then (Value.ofString []).enc else (Value.mk .list []).enc
  | .tail elems => Val.encAll elems
  | .nilInterface => (Value.mk .list []).enc
  | .encoder writes _ => Val.encAll writes
  | .unaddressable => []
  | .noWriter => []

def Val.encAll : List Val → Bytes
  | [] => []
  | v :: vs => v.enc ++ Val.encAll vs

end

mutual

/-- The first thing in the value that cannot be encoded: a negative `big.Int`, something without a
    writer or without an address, or an `Encoder` that returns an error. -/
def Val.fault : Val → Option Err
  | .bigInt (some i) => if i < 0 then some .negativeBigInt else none
  | .slice elems => Val.firstFault elems
  | .struct fields => Val.firstFault fields
  | .tail elems => Val.firstFault elems
  | .encoder writes err => (Val.firstFault writes).or (err.map .encoder)
  | .unaddressable => some .unaddressable
  | .noWriter => some .notSerializable
  | _ => none

def Val.firstFault : List Val → Option Err
  | [] => none
  | v :: vs => v.fault.or (Val.firstFault vs)

end

/-! ## The writers append the encoding -/

open EncBuffer

/-- Whatever is in the buffer, `f` puts a closed buffer with the output `b` after it. -/
def Appends (f : EncBuffer → Except Err EncBuffer) (b : Bytes) : Prop :=
  ∃ p : EncBuffer, p.Closed ∧ p.output = b ∧ ∀ buf, f buf = .ok (buf ++ p)

theorem appends_data {f : EncBuffer → Except Err EncBuffer} {b : Bytes}
    (h : ∀ buf, f buf = .ok (buf ++ data b)) : Appends f b :=
  ⟨data b, closed_data b, output_data b, h⟩

theorem appends_list {f : EncBuffer → Except Err EncBuffer} {b : Bytes} (h : Appends f b)
    (hb : b.length < 2 ^ 64) :
    Appends (fun buf => f buf.list.1 >>= fun b => .ok (b.listEnd buf.list.2))
      (Value.mk .list b).enc := by
  obtain ⟨p, hp, rfl, hf⟩ := h
  rw [length_output hp] at hb
  refine ⟨p.wrap, hp.wrap hb, output_wrap hp hb, ?_⟩
  intro buf
  dsimp only
  rw [hf]
  exact congrArg Except.ok listEnd_list

theorem appends_append {f g : EncBuffer → Except Err EncBuffer} {a b : Bytes} (hf : Appends f a)
    (hg : Appends g b) : Appends (fun buf => f buf >>= g) (a ++ b) := by
  obtain ⟨p, hp, rfl, hf⟩ := hf
  obtain ⟨q, hq, rfl, hg⟩ := hg
  refine ⟨p ++ q, hp.append hq, output_append hp, ?_⟩
  intro buf
  dsimp only
  rw [hf, ← append_assoc]
  exact hg _

theorem length_lt_of_ofString {b : Bytes} (h : (Value.ofString b).enc.length < 2 ^ 64) :
    b.length < 2 ^ 64 := by
  rw [Value.enc, List.length_append] at h
  exact (Nat.le_add_left _ _).trans_lt h

theorem length_lt_of_list {b : Bytes} (h : (Value.mk .list b).enc.length < 2 ^ 64) :
    b.length < 2 ^ 64 := by
  rw [Value.enc, List.length_append] at h
  exact (Nat.le_add_left _ _).trans_lt h

theorem writeByteArray_eq {b : Bytes} (h : b.length < 2 ^ 64) (buf : EncBuffer) :
    writeByteArray b buf = buf ++ data (Value.ofString b).enc := by
  match b, h with
  | [], _ => exact write_eq _
  | [x], h =>
    rw [← writeBytes_eq h, writeByteArray, writeBytes]
    split
    · rfl
    · rw [write_eq, write_eq, encodeStringHeader, if_pos (by decide), write_eq, data_append]
      rfl
  | x :: y :: r, h => exact writeBytes_eq h

mutual

theorem Val.encode_appends (v : Val) (hn : v.fault = none) (hs : v.enc.length < 2 ^ 64) :
    Appends v.encode v.enc := by
  cases v with
  | rawValue b => exact appends_data fun buf => congrArg Except.ok (write_eq b)
  | bigInt i =>
    cases i with
    | none => exact appends_data fun buf => congrArg Except.ok (write_eq _)
    | some i =>
      refine appends_data fun buf => ?_
      rw [encode, if_neg (by simpa [fault] using hn),
        writeBigInt_eq (length_lt_of_ofString hs), enc]
  | uint256 z =>
    cases z with
    | none => exact appends_data fun buf => congrArg Except.ok (write_eq _)
    | some z => exact appends_data fun buf => congrArg Except.ok (writeUint256_eq z)
  | uint n => exact appends_data fun buf => congrArg Except.ok (writeUint64_eq n)
  | bool b =>
    refine appends_data fun buf => congrArg Except.ok ?_
    cases b <;> exact write_eq _
  | string s =>
    have hb := length_lt_of_ofString hs
    exact appends_data fun buf => congrArg Except.ok (writeBytes_eq hb)
  | bytes b =>
    have hb := length_lt_of_ofString hs
    exact appends_data fun buf => congrArg Except.ok (writeBytes_eq hb)
  | byteArray b =>
    have hb := length_lt_of_ofString hs
    exact appends_data fun buf => congrArg Except.ok (writeByteArray_eq hb buf)
  | slice elems =>
    cases elems with
    | nil => exact appends_data fun buf => congrArg Except.ok (write_eq _)
    | cons v vs =>
      have hb := length_lt_of_list hs
      exact appends_list (Val.encodeAll_appends (v :: vs) hn hb) hb
  | struct fields =>
    have hb := length_lt_of_list hs
    exact appends_list (Val.encodeAll_appends fields hn hb) hb
  | tail elems => exact Val.encodeAll_appends elems hn hs
  | nilPtr nilKind =>
    refine appends_data fun buf => congrArg Except.ok ?_
    rw [enc]
    split <;> exact write_eq _
  | nilInterface => exact appends_data fun buf => congrArg Except.ok (write_eq _)
  | encoder writes err =>
    rw [fault, Option.or_eq_none_iff, Option.map_eq_none_iff] at hn
    obtain ⟨hw, rfl⟩ := hn
    obtain ⟨p, hp, ho, he⟩ := Val.encodeAll_appends writes hw hs
    refine ⟨p, hp, ho, fun buf => ?_⟩
    rw [encode, he]
    rfl
  | unaddressable => cases hn
  | noWriter => cases hn

theorem Val.encodeAll_appends (vs : List Val) (hn : Val.firstFault vs = none)
    (hs : (Val.encAll vs).length < 2 ^ 64) : Appends (Val.encodeAll vs) (Val.encAll vs) := by
  cases vs with
  | nil => exact ⟨{}, closed_empty, rfl, fun buf => by rw [append_empty]; rfl⟩
  | cons v vs =>
    rw [Val.firstFault, Option.or_eq_none_iff] at hn
    rw [Val.encAll, List.length_append] at hs
    exact appends_append (Val.encode_appends v hn.1 (by omega))
      (Val.encodeAll_appends vs hn.2 (by omega))

end

/-! ## Errors -/

/-- The writer stops at the fault, if there is one. -/
def Stops (fault : Option Err) (r : Except Err EncBuffer) : Prop :=
  match fault with
  | some e => r = .error e
  | none => ∃ buf, r = .ok buf

theorem stops_bind {fault : Option Err} {r : Except Err EncBuffer}
    {g : EncBuffer → Except Err EncBuffer} {n : Option Err} (h : Stops fault r)
    (hg : ∀ buf, Stops n (g buf)) : Stops (fault.or n) (r >>= g) := by
  cases fault with
  | some e =>
    obtain rfl : r = _ := h
    exact rfl
  | none =>
    obtain ⟨b, rfl⟩ : ∃ buf, r = .ok buf := h
    exact hg b

theorem stops_list {fault : Option Err} {r : Except Err EncBuffer} {index : Nat}
    (h : Stops fault r) : Stops fault (r >>= fun b => .ok (b.listEnd index)) := by
  have hb := stops_bind h (n := none) fun b => ⟨b.listEnd index, rfl⟩
  rwa [Option.or_none] at hb

mutual

theorem Val.encode_stops (v : Val) (buf : EncBuffer) : Stops v.fault (v.encode buf) := by
  cases v with
  | bigInt i =>
    cases i with
    | none => exact ⟨_, rfl⟩
    | some i =>
      rw [encode, fault]
      by_cases hi : i < 0
      · rw [if_pos hi, if_pos hi]
        exact rfl
      · rw [if_neg hi, if_neg hi]
        exact ⟨_, rfl⟩
  | uint256 z => cases z <;> exact ⟨_, rfl⟩
  | slice elems =>
    cases elems with
    | nil => exact ⟨_, rfl⟩
    | cons v vs => exact stops_list (Val.encodeAll_stops (v :: vs) buf.list.1)
  | struct fields => exact stops_list (Val.encodeAll_stops fields buf.list.1)
  | tail elems => exact Val.encodeAll_stops elems buf
  | encoder writes err =>
    refine stops_bind (Val.encodeAll_stops writes buf) fun b => ?_
    cases err with
    | none => exact ⟨b, rfl⟩
    | some text => exact rfl
  | unaddressable => exact rfl
  | noWriter => exact rfl
  | _ => exact ⟨_, rfl⟩

theorem Val.encodeAll_stops (vs : List Val) (buf : EncBuffer) :
    Stops (Val.firstFault vs) (Val.encodeAll vs buf) := by
  cases vs with
  | nil => exact ⟨_, rfl⟩
  | cons v vs => exact stops_bind (Val.encode_stops v buf) fun b => Val.encodeAll_stops vs b

end

theorem encode_fault {v : Val} {e : Err} (h : v.fault = some e) : v.encode {} = .error e := by
  have hs := Val.encode_stops v {}
  rwa [h] at hs

/-- The buffer after the writers. -/
theorem encode_closed {v : Val} (hn : v.fault = none) (hs : v.enc.length < 2 ^ 64) :
    ∃ p : EncBuffer, p.Closed ∧ p.output = v.enc ∧ v.encode {} = .ok p := by
  obtain ⟨p, hp, ho, he⟩ := Val.encode_appends v hn hs
  refine ⟨p, hp, ho, ?_⟩
  rw [he, empty_append]

theorem encodeToBytes_eq {v : Val} (hn : v.fault = none) (hs : v.enc.length < 2 ^ 64) :
    encodeToBytes v = .ok (some v.enc) := by
  obtain ⟨p, hp, ho, he⟩ := encode_closed hn hs
  rw [encodeToBytes, he, ← ho]
  exact congrArg Except.ok (makeBytes_eq hp)

end ZipoLogger.Rlp
