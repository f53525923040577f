/-
  internal/crypto/crypto.go: the addresses of contracts.

  `CreateAddress` hashes the encoding of a list of the creator and its nonce, `CreateAddress2` the
  byte 0xff, the creator, a salt and a hash of the code; an address is the last 20 bytes of the
  hash. Keccak-256 is outside the repository (`Keccak`). What the two functions hash determines
  which of them was called, and its arguments: two contracts share an address only where Keccak
  gives different inputs the same last 20 bytes (`address_collision`).
-/
import ZipoLogger.Rlp.RoundTrip

namespace ZipoLogger.Rlp

open BigEndian

/-- An array of `n` bytes. -/
abbrev FixedBytes (n : Nat) := { b : Bytes // b.length = n }

/-- `common.Address`. -/
abbrev Address := FixedBytes 20

/-- Keccak-256. -/
structure Keccak where
  sum : Bytes → Bytes
  length_sum : ∀ b, (sum b).length = 32

/-- `Keccak256`: the slices are hashed one after the other. -/
def keccak256 (K : Keccak) (data : List Bytes) : Bytes := K.sum data.flatten

/-- `common.BytesToAddress`: the last 20 bytes, with zeros in front of fewer. -/
def bytesToAddress (b : Bytes) : Address :=
  ⟨List.replicate (20 - b.length) 0 ++ b.drop (b.length - 20), by
    rw [List.length_append, List.length_replicate, List.length_drop]
    omega⟩

theorem bytesToAddress_val {b : Bytes} (h : b.length = 20) : (bytesToAddress b).val = b := by
  change List.replicate (20 - b.length) 0 ++ b.drop (b.length - 20) = b
  rw [h]
  rfl

/-- The `data` of `CreateAddress`; the error of `EncodeToBytes` is dropped. -/
def createData (b : Address) (nonce : UInt64) : Bytes :=
  match encodeToBytes (.slice [.byteArray b.val, .uint nonce]) with
  | .ok data => data.getD []
  | .error _ => []

def createAddress (K : Keccak) (b : Address) (nonce : UInt64) : Address :=
  bytesToAddress ((keccak256 K [createData b nonce]).drop 12)

/-- What `CreateAddress2` hashes. -/
def create2Data (b : Address) (salt : FixedBytes 32) (inithash : Bytes) : List Bytes :=
  [[0xff], b.val, salt.val, inithash]

def createAddress2 (K : Keccak) (b : Address) (salt : FixedBytes 32) (inithash : Bytes) : Address :=
  bytesToAddress ((keccak256 K (create2Data b salt inithash)).drop 12)

/-- A call of one of the two. -/
inductive Creation
  | create (b : Address) (nonce : UInt64)
  | create2 (b : Address) (salt : FixedBytes 32) (inithash : Bytes)

namespace Creation

/-- The input of Keccak. -/
def preimage : Creation → Bytes
  | .create b nonce => createData b nonce
  | .create2 b salt inithash => (create2Data b salt inithash).flatten

def address (K : Keccak) : Creation → Address
  | .create b nonce => createAddress K b nonce
  | .create2 b salt inithash => createAddress2 K b salt inithash

/-- The item that `CreateAddress` encodes. -/
def item (b : Address) (nonce : UInt64) : Item := .list [.str b.val, .str (minimal nonce.toNat)]

theorem ofString_enc_length_le {c : Bytes} (h : c.length < 56) :
    (Value.ofString c).enc.length ≤ c.length + 1 := by
  cases hc : isByte c with
  | true =>
    rw [Value.ofString_enc_byte hc]
    exact Nat.le_succ _
  | false =>
    rw [Value.ofString_enc_small hc h]
    exact Nat.le_refl _

/-- The encoding is short, so its tag holds the size. -/
theorem item_enc (b : Address) (nonce : UInt64) : ∃ content : Bytes, content.length ≤ 30 ∧
    (item b nonce).enc = UInt8.ofNat (0xC0 + content.length) :: content := by
  have hnonce : (minimal nonce.toNat).length ≤ 8 :=
    minimal_length_le (nonce.toNat_lt.trans_eq (by norm_num))
  have hb := b.property
  have hb1 := ofString_enc_length_le (c := b.val) (by omega)
  have hn1 := ofString_enc_length_le (c := minimal nonce.toNat) (by omega)
  have hlen : (Item.encAll [.str b.val, .str (minimal nonce.toNat)]).length ≤ 30 := by
    rw [Item.encAll, Item.encAll, Item.encAll, List.append_nil, List.length_append, Item.enc,
      Item.enc]
    omega
  refine ⟨_, hlen, ?_⟩
  exact congrArg (· ++ _) (header_small (hlen.trans_lt (by decide)))

theorem item_enc_length (b : Address) (nonce : UInt64) : (item b nonce).enc.length < 2 ^ 63 := by
  obtain ⟨content, hlen, henc⟩ := item_enc b nonce
  rw [henc, List.length_cons]
  omega

theorem createData_eq (b : Address) (nonce : UInt64) : createData b nonce = (item b nonce).enc := by
  have hdenotes : (Val.slice [.byteArray b.val, .uint nonce]).Denotes (item b nonce) :=
    ⟨_, ⟨_, _, rfl, ⟨_, _, rfl, rfl, rfl⟩, rfl⟩, rfl⟩
  have hs : (Val.slice [.byteArray b.val, .uint nonce]).enc.length < 2 ^ 63 := by
    rw [(Val.enc_of_denotes _ hdenotes).2]
    exact item_enc_length b nonce
  rw [createData, encodeToBytes_of_denotes hdenotes hs]
  rfl

theorem createData_inj {b b' : Address} {nonce nonce' : UInt64}
    (h : createData b nonce = createData b' nonce') : b = b' ∧ nonce = nonce' := by
  rw [createData_eq, createData_eq] at h
  have hitem := Item.enc_inj (item_enc_length b nonce) h
  rw [item, item, Item.list.injEq, List.cons.injEq, List.cons.injEq, Item.str.injEq,
    Item.str.injEq] at hitem
  obtain ⟨hb, hn, -⟩ := hitem
  have hval := congrArg ofBytes hn
  rw [ofBytes_minimal, ofBytes_minimal] at hval
  exact ⟨Subtype.ext hb, UInt64.toNat_inj.mp hval⟩

theorem create2Data_inj {b b' : Address} {salt salt' : FixedBytes 32} {inithash inithash' : Bytes}
    (h : (create2Data b salt inithash).flatten = (create2Data b' salt' inithash').flatten) :
    b = b' ∧ salt = salt' ∧ inithash = inithash' := by
  simp only [create2Data, List.flatten_cons, List.flatten_nil, List.append_nil] at h
  obtain ⟨-, h⟩ := List.append_inj h rfl
  obtain ⟨hb, h⟩ := List.append_inj h (b.property.trans b'.property.symm)
  obtain ⟨hs, hi⟩ := List.append_inj h (salt.property.trans salt'.property.symm)
  exact ⟨Subtype.ext hb, Subtype.ext hs, hi⟩

/-- A list of this size does not begin with 0xff. -/
theorem createData_ne {b b' : Address} {nonce : UInt64} {salt : FixedBytes 32} {inithash : Bytes} :
    createData b nonce ≠ (create2Data b' salt inithash).flatten := by
  intro h
  obtain ⟨content, hlen, henc⟩ := item_enc b nonce
  rw [createData_eq, henc, create2Data, List.flatten_cons, List.singleton_append] at h
  have htag := congrArg UInt8.toNat (List.cons.inj h).1
  rw [toNat_ofNat_of_lt (by omega)] at htag
  have hff : (0xff : UInt8).toNat = 255 := rfl
  omega

theorem preimage_inj {c d : Creation} (h : c.preimage = d.preimage) : c = d := by
  cases c with
  | create b nonce =>
    cases d with
    | create b' nonce' =>
      obtain ⟨rfl, rfl⟩ := createData_inj h
      rfl
    | create2 => exact absurd h createData_ne
  | create2 b salt inithash =>
    cases d with
    | create => exact absurd h.symm createData_ne
    | create2 b' salt' inithash' =>
      obtain ⟨rfl, rfl, rfl⟩ := create2Data_inj h
      rfl

theorem address_val (K : Keccak) (c : Creation) :
    (c.address K).val = (K.sum c.preimage).drop 12 := by
  have hval := bytesToAddress_val (b := (K.sum c.preimage).drop 12)
    (by rw [List.length_drop, K.length_sum])
  cases c with
  | create b nonce =>
    rw [address, createAddress, keccak256, List.flatten_singleton]
    exact hval
  | create2 b salt inithash => exact hval

end Creation

/-- Contracts share an address exactly where the hashes of what their creations hash end alike, and
    different creations never hash the same bytes. -/
theorem address_collision (K : Keccak) (c d : Creation) :
    (c.address K = d.address K ↔ (K.sum c.preimage).drop 12 = (K.sum d.preimage).drop 12) ∧
    (c.preimage = d.preimage ↔ c = d) := by
  refine ⟨?_, Creation.preimage_inj, fun h => by rw [h]⟩
  rw [← Creation.address_val, ← Creation.address_val, Subtype.ext_iff]

/-! ## Two contracts of one creator -/

def creator : Address :=
  ⟨[0x97, 0x0e, 0x81, 0x28, 0xab, 0x83, 0x4e, 0x8e, 0xac, 0x17, 0xab, 0x8e, 0x38, 0x12, 0xf0,
    0x10, 0x67, 0x8c, 0xf7, 0x91], rfl⟩

/-- Keccak-256 on what is hashed for the creator's first two contracts. -/
def keccakOfTwo : Keccak where
  sum b :=
    if b = [0xd6, 0x94] ++ creator.val ++ [0x80] then
      [0x8e, 0x6e, 0x1c, 0x44, 0xe9, 0x0c, 0xa9, 0x34, 0x3a, 0xe5, 0x9b, 0xff, 0x33, 0x3c, 0x33,
       0x10, 0x82, 0x4b, 0x7c, 0x68, 0x51, 0x33, 0xf2, 0xbe, 0xdb, 0x2c, 0xa4, 0xb8, 0xb4, 0xdf,
       0x63, 0x3d]
    else if b = [0xd6, 0x94] ++ creator.val ++ [0x01] then
      [0x84, 0x41, 0xa7, 0x06, 0x13, 0x50, 0x69, 0x81, 0x89, 0xa0, 0x9f, 0x93, 0x8b, 0xda, 0x78,
       0x33, 0x1c, 0x91, 0x6a, 0x08, 0x48, 0x14, 0x28, 0xe4, 0xb0, 0x7c, 0x96, 0xd3, 0xe9, 0x16,
       0xd1, 0x65]
    else List.replicate 32 0
  length_sum b := by split_ifs <;> rfl

theorem address_collision_two :
    createAddress keccakOfTwo creator 0 ≠ createAddress keccakOfTwo creator 1 ∧
      createData creator 0 ≠ createData creator 1 := by
  obtain ⟨haddress, hdata⟩ := address_collision keccakOfTwo (.create creator 0) (.create creator 1)
  exact ⟨mt haddress.mp (by decide), mt hdata.mp (by simp)⟩

end ZipoLogger.Rlp
