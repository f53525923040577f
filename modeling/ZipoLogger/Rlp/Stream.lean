/-
  decode.go: `Stream`, which reads values one by one from a byte slice.

  `r` is what the slice reader has left, `remaining` what the input limit still allows, and `stack`
  holds for each list that has been entered what is left of it, the innermost first; it is
  arithmetic on 64 bits, and `list` can wrap around. An operation returns its result and the
  state, the state also with an error. The scratch buffer `uintbuf` is left out, and readers other
  than the one on a slice.
-/
import ZipoLogger.Rlp.Raw
import ZipoLogger.Lib.StateOp

namespace ZipoLogger.Rlp

open BigEndian

structure Stream where
  r : Bytes
  remaining : Nat := 0
  size : Nat := 0
  kinderr : Option Err := none
  stack : List Nat := []
  /-- kind of the value ahead; `none` for -1 -/
  kind : Option Kind := none
  byteval : UInt8 := 0
  limited : Bool := false
  deriving DecidableEq, Repr

/-- An operation of the stream. -/
abbrev Op (α : Type) := StateOp Stream Err α

/-- Subtraction of 64-bit numbers. -/
def sub64 (a b : Nat) : Nat := (a + 2 ^ 64 - b) % 2 ^ 64

namespace Stream

/-- `Reset` on a slice reader: no limit where none is given. -/
def reset (r : Bytes) (inputLimit : Nat) : Stream :=
  { r := r, remaining := inputLimit, limited := decide (0 < inputLimit) }

/-- The next `Kind` reads a tag again. -/
def rearm (s : Stream) : Stream := { s with kind := none }

/-! ## Reading -/

/-- What `willRead` does to the limit of the innermost list. -/
def willReadList (n : Nat) : Op Unit := fun s =>
  match s.stack with
  | [] => (.ok (), s)
  | limit :: outer =>
    if n > limit then (.error .elemTooLarge, s)
    else (.ok (), { s with stack := (limit - n) :: outer })

/-- What `willRead` does to the input limit. -/
def willReadInput (n : Nat) : Op Unit := fun s =>
  if s.limited then
    if n > s.remaining then (.error .valueTooLarge, s)
    else (.ok (), { s with remaining := s.remaining - n })
  else (.ok (), s)

def willRead (n : Nat) : Op Unit := do
  modify rearm
  willReadList n
  willReadInput n

/-- The loop of `readFull` over the slice reader: `n` bytes, or the input ends before. -/
def sliceRead (n : Nat) : Op Bytes := fun s =>
  (if n ≤ s.r.length then .ok (s.r.take n) else .error .unexpectedEOF, { s with r := s.r.drop n })

/-- `readFull` into a buffer of `n` bytes. -/
def readFull (n : Nat) : Op Bytes := do
  willRead n
  sliceRead n

/-- `ReadByte` of the slice reader. -/
def sliceReadByte : Op UInt8 := fun s =>
  match s.r with
  | [] => (.error .unexpectedEOF, s)
  | b :: r => (.ok b, { s with r := r })

def readByte : Op UInt8 := do
  willRead 1
  sliceReadByte

def readUint (size : Nat) : Op Nat :=
  match size with
  | 0 => do
    modify rearm
    return 0
  | 1 => do
    let b ← readByte
    return b.toNat
  | size => do
    let b ← readFull size
    if b.head? = some 0 then throw .canonSize else return ofBytes b

/-- The size after a tag: the kind, the size and the error. -/
def readLongSize (k : Kind) (n : Nat) (s : Stream) : (Kind × Nat × Option Err) × Stream :=
  match readUint n s with
  | (.error e, s) => ((k, 0, some e), s)
  | (.ok size, s) => ((k, size, if size < 56 then some .canonSize else none), s)

/-- `readKind`: the kind and the size with the error, which are all kept. -/
def readKind (s : Stream) : (Kind × Nat × Option Err) × Stream :=
  match readByte s with
  | (.error e, s) =>
    -- at the top level the end of the input is no error of the value
    let e := if s.stack = [] ∧ (e = .unexpectedEOF ∨ e = .valueTooLarge) then .eof else e
    ((.byte, 0, some e), s)
  | (.ok b0, s) =>
    let s := { s with byteval := 0 }
    let b := b0.toNat
    if b < 0x80 then ((.byte, 0, none), { s with byteval := b0 })
    else if b < 0xB8 then ((.string, b - 0x80, none), s)
    else if b < 0xC0 then readLongSize .string (b - 0xB7) s
    else if b < 0xF8 then ((.list, b - 0xC0, none), s)
    else readLongSize .list (b - 0xF7) s

/-- The check of `Kind` on a size; `outer` is the list limit before the tag was read. -/
def checkSize (outer : Option Nat) (size : Nat) (s : Stream) : Option Err :=
  if outer.any (size > ·) then some .elemTooLarge
  else if s.limited ∧ size > s.remaining then some .valueTooLarge
  else none

/-- What `Kind` keeps is what it returns, the error first. -/
def cached : Op (Kind × Nat) := fun s =>
  match s.kinderr with
  | some e => (.error e, s)
  | none => (.ok (s.kind.getD .byte, s.size), s)

/-- `Kind`. -/
def getKind : Op (Kind × Nat) := fun s =>
  if s.kind.isSome then cached s
  else if s.stack.head? = some 0 then (.error .eol, s)
  else
    let ((k, size, err), s') := readKind s
    let kinderr := err <|> checkSize s.stack.head? size s'
    cached { s' with kind := some k, size := size, kinderr := kinderr }

/-! ## Values -/

def bytes : Op Bytes := do
  let (kind, size) ← getKind
  match kind with
  | .byte =>
    modify rearm
    return [(← get).byteval]
  | .string =>
    let b ← readFull size
    if size = 1 ∧ b.head?.any (· < 128) then throw .canonSize else return b
  | .list => throw .expectedString

/-- `ReadBytes` into a buffer of `len` bytes. -/
def readBytes (len : Nat) : Op Bytes := do
  let (kind, size) ← getKind
  match kind with
  | .byte =>
    if len ≠ 1 then throw (.wrongSize 1 len)
    else
      modify rearm
      return [(← get).byteval]
  | .string =>
    if len ≠ size then throw (.wrongSize size len)
    else
      let b ← readFull len
      if size = 1 ∧ b.head?.any (· < 128) then throw .canonSize else return b
  | .list => throw .expectedString

/-- `Raw`: the content with a new header in front. -/
def raw : Op Bytes := do
  let (kind, size) ← getKind
  match kind with
  | .byte =>
    modify rearm
    return [(← get).byteval]
  | .string =>
    let b ← readFull size
    return puthead 0x80 0xB7 size ++ b
  | .list =>
    let b ← readFull size
    return puthead 0xC0 0xF7 size ++ b

/-- An error of `readUint` where no size is read. -/
def canonIntError : Err → Err
  | .canonSize => .canonInt
  | e => e

def uint (maxbits : Nat) : Op Nat := do
  let (kind, size) ← getKind
  match kind with
  | .byte =>
    let s ← get
    if s.byteval = 0 then throw .canonInt
    else
      modify rearm
      return s.byteval.toNat
  | .string =>
    if size > maxbits / 8 then throw .uintOverflow
    else
      let v ← tryCatch (readUint size) fun e => throw (canonIntError e)
      if 0 < size ∧ v < 128 then throw .canonSize else return v
  | .list => throw .expectedString

def bool : Op Bool := do
  match ← uint 8 with
  | 0 => return false
  | 1 => return true
  | num => throw (.invalidBool num)

/-- The bytes of an integer for `decodeBigInt` and `ReadUint256`; `large` is what becomes of a
    string above 32 bytes. -/
def intBuffer (large : Nat → Op Bytes) : Op Bytes := do
  let (kind, size) ← getKind
  match kind with
  | .list => throw .expectedString
  | .byte =>
    modify rearm
    return [(← get).byteval]
  | .string =>
    if size = 0 then
      modify rearm
      return []
    else if size ≤ 32 then
      let b ← readFull size
      if size = 1 ∧ b.head?.any (· < 128) then throw .canonSize else return b
    else large size

def readInt (large : Nat → Op Bytes) : Op Nat := do
  let buffer ← intBuffer large
  if buffer.head? = some 0 then throw .canonInt else return ofBytes buffer

/-- `BigInt`, by `decodeBigInt`. -/
def bigInt : Op Nat := readInt readFull

def readUint256 : Op Nat := readInt fun _ => throw .uint256Large

/-! ## Lists -/

/-- `List`: the size is taken off the enclosing list before it is pushed. -/
def list : Op Nat := do
  let (kind, size) ← getKind
  if kind ≠ .list then throw .expectedList
  else
    modify fun s =>
      let outer := match s.stack with
        | [] => []
        | limit :: outer => sub64 limit size :: outer
      { s with stack := size :: outer, kind := none, size := 0 }
    return size

def listEnd : Op Unit := fun s =>
  match s.stack with
  | [] => (.error .notInList, s)
  | limit :: outer =>
    if limit > 0 then (.error .notAtEOL, s)
    else (.ok (), { s with stack := outer, kind := none, size := 0 })

def moreDataInList (s : Stream) : Bool := decide (0 < s.stack.head?.getD 0)

end Stream

end ZipoLogger.Rlp
