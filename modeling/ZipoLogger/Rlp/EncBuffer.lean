/-
  encbuffer.go: the buffer an encoding is put together in.

  String data and list headers are kept apart. `list` reserves a header whose size is not known
  yet, `listEnd` computes it; the output is woven from both at the end. A buffer is read as a text
  with marks. Buffers can be put one after the other (`EncBuffer.append`), and for closed ones the
  output is put together the same way (`output_append`); wrapping one into a list is a header in
  front of its output (`output_wrap`). `makeBytes`, `AppendToBytes` and `writeTo` give that output:
  the size computed ahead is exact, the copying fills it and never runs out of it.
-/
import ZipoLogger.Rlp.Raw
import ZipoLogger.Lib.Weave
import ZipoLogger.Enc.Keys

namespace ZipoLogger.Rlp

open BigEndian Weave

/-- `offset` is the index of the header in the string data, `size` the total size of the content;
    until `listEnd`, the header bytes before it. -/
structure ListHead where
  offset : Nat
  size : Nat
  deriving DecidableEq, Repr

/-- `listhead.encode`. -/
def ListHead.encode (head : ListHead) : Bytes := puthead 0xC0 0xF7 head.size

structure EncBuffer where
  str : Bytes := []
  lheads : List ListHead := []
  lhsize : Nat := 0
  deriving DecidableEq, Repr

namespace EncBuffer

def size (buf : EncBuffer) : Nat := buf.str.length + buf.lhsize

/-! ## Writing -/

def write (buf : EncBuffer) (b : Bytes) : EncBuffer := { buf with str := buf.str ++ b }

def writeBool (buf : EncBuffer) (b : Bool) : EncBuffer := buf.write [if b then 0x01 else 0x80]

def writeUint64 (buf : EncBuffer) (i : UInt64) : EncBuffer :=
  if i = 0 then buf.write [0x80]
  else if i < 128 then buf.write [i.toUInt8]
  else
    let s := putint i.toNat
    buf.write (UInt8.ofNat (0x80 + s.length) :: s)

def encodeStringHeader (buf : EncBuffer) (size : Nat) : EncBuffer :=
  if size < 56 then buf.write [UInt8.ofNat (0x80 + size)]
  else
    let s := putint size
    buf.write (UInt8.ofNat (0xB7 + s.length) :: s)

def writeBytes (buf : EncBuffer) (b : Bytes) : EncBuffer :=
  match b with
  | [x] => if x ≤ 0x7F then buf.write [x] else (buf.encodeStringHeader 1).write [x]
  | b => (buf.encodeStringHeader b.length).write b

/-- The sign is not looked at. Above 64 bits the bytes come from the words, by the loop of
    `ReadBits`. -/
def writeBigInt (buf : EncBuffer) (i : Int) : EncBuffer :=
  let bitlen := bitLen i.natAbs
  if bitlen ≤ 64 then buf.writeUint64 (UInt64.ofNat i.natAbs)
  else
    let length := (bitlen + 7) / 8
    (buf.encodeStringHeader length).write (Enc.readBits i.natAbs (List.replicate length 0))

/-- The number is four words of 64 bits; above 64 bits its 32 bytes are cut to the length. -/
def writeUint256 (buf : EncBuffer) (z : BitVec 256) : EncBuffer :=
  let bitlen := bitLen z.toNat
  if bitlen ≤ 64 then buf.writeUint64 (UInt64.ofNat z.toNat)
  else
    let nBytes := (bitlen + 7) / 8
    buf.write (UInt8.ofNat (0x80 + nBytes) :: (fixed 32 z.toNat).drop (32 - nBytes))

/-- `list`: the buffer and the index of the new header. -/
def list (buf : EncBuffer) : EncBuffer × Nat :=
  ({ buf with lheads := buf.lheads ++ [⟨buf.str.length, buf.lhsize⟩] }, buf.lheads.length)

def listEnd (buf : EncBuffer) (index : Nat) : EncBuffer :=
  match buf.lheads[index]? with
  | none => buf
  | some lh =>
    let size := buf.size - lh.offset - lh.size
    { buf with
      lheads := buf.lheads.set index { lh with size := size }
      lhsize := buf.lhsize + if size < 56 then 1 else 1 + intsize size }

/-! ## The output -/

/-- `copy(dst[pos:], src)`. -/
def copyAt (dst : Bytes) (pos : Nat) (src : Bytes) : Bytes :=
  dst.take pos ++ (src.take (dst.length - pos) ++ dst.drop (pos + src.length))

/-- The loop of `copyTo`; `none` where writing a header runs out of the slice. -/
def copyHeads (str : Bytes) : List ListHead → Nat → Nat → Bytes → Option Bytes
  | [], strpos, pos, dst => some (copyAt dst pos (str.drop strpos))
  | head :: heads, strpos, pos, dst =>
    let src := (str.drop strpos).take (head.offset - strpos)
    let n := min (dst.length - pos) src.length
    let dst := copyAt dst pos src
    if pos + n + head.encode.length ≤ dst.length then
      copyHeads str heads (strpos + n) (pos + n + head.encode.length)
        (copyAt dst (pos + n) head.encode)
    else none

def copyTo (buf : EncBuffer) (dst : Bytes) : Option Bytes := copyHeads buf.str buf.lheads 0 0 dst

def makeBytes (buf : EncBuffer) : Option Bytes := buf.copyTo (List.replicate buf.size 0)

/-- `AppendToBytes`: `dst` and the output. -/
def appendToBytes (buf : EncBuffer) (dst : Bytes) : Option Bytes :=
  (buf.copyTo (List.replicate buf.size 0)).map (dst ++ ·)

/-- An `io.Writer`: what it takes of a chunk, and its error, when `written` is what it has taken
    so far. It takes the whole chunk or gives an error. -/
structure Writer (ε : Type) where
  write : (written chunk : Bytes) → Nat × Option ε
  le : ∀ written chunk, (write written chunk).1 ≤ chunk.length
  eq_of_none : ∀ written chunk, (write written chunk).2 = none →
    (write written chunk).1 = chunk.length

namespace Writer

variable {ε : Type}

/-- One call: how much was taken, everything taken so far, and the error. -/
def put (w : Writer ε) (written chunk : Bytes) : Nat × Bytes × Option ε :=
  let r := w.write written chunk
  (r.1, written ++ chunk.take r.1, r.2)

theorem put_prefix (w : Writer ε) (written chunk : Bytes) :
    (w.put written chunk).2.1 <+: written ++ chunk :=
  List.prefix_append_right_inj _ |>.mpr (List.take_prefix _ _)

theorem put_none {w : Writer ε} {written chunk : Bytes}
    (h : (w.put written chunk).2.2 = none) :
    w.put written chunk = (chunk.length, written ++ chunk, none) := by
  have hn : (w.write written chunk).1 = chunk.length := w.eq_of_none written chunk h
  have he : (w.write written chunk).2 = none := h
  rw [put, hn, he, List.take_length]

end Writer

/-- The loop of `writeTo`: what the writer has taken, and the error. -/
def writeHeads {ε : Type} (w : Writer ε) (str : Bytes) :
    List ListHead → Nat → Bytes → Bytes × Option ε
  | [], strpos, out =>
    if strpos < str.length then (w.put out (str.drop strpos)).2 else (out, none)
  | head :: heads, strpos, out =>
    -- string data before the header
    let r :=
      if 0 < head.offset - strpos then
        w.put out ((str.drop strpos).take (head.offset - strpos))
      else (0, out, none)
    match r.2.2 with
    | some e => (r.2.1, some e)
    | none =>
      let h := w.put r.2.1 head.encode
      match h.2.2 with
      | some e => (h.2.1, some e)
      | none => writeHeads w str heads (strpos + r.1) h.2.1

def writeTo {ε : Type} (buf : EncBuffer) (w : Writer ε) : Bytes × Option ε :=
  writeHeads w buf.str buf.lheads 0 []

/-! ## A buffer as a marked text -/

def marks (buf : EncBuffer) : List (Nat × Bytes) := buf.lheads.map fun h => (h.offset, h.encode)

/-- The string data with the headers in their places. -/
def output (buf : EncBuffer) : Bytes := weave buf.str 0 buf.marks

/-- Every header has its size. -/
structure Closed (buf : EncBuffer) : Prop where
  marked : Marked buf.str.length 0 buf.marks
  lhsize_eq : buf.lhsize = added buf.marks

/-- One buffer after another. -/
def append (p q : EncBuffer) : EncBuffer where
  str := p.str ++ q.str
  lheads := p.lheads ++ q.lheads.map fun h => { h with offset := h.offset + p.str.length }
  lhsize := p.lhsize + q.lhsize

instance : Append EncBuffer := ⟨append⟩

/-- The content of a list, with its header in front. -/
def wrap (p : EncBuffer) : EncBuffer where
  str := p.str
  lheads := ⟨0, p.size⟩ :: p.lheads
  lhsize := headsize p.size + p.lhsize

/-- String data alone. -/
def data (b : Bytes) : EncBuffer := { str := b }

variable {p q r buf : EncBuffer}

@[simp] theorem str_append : (p ++ q).str = p.str ++ q.str := rfl

@[simp] theorem size_append : (p ++ q).size = p.size + q.size := by
  change (p.str ++ q.str).length + (p.lhsize + q.lhsize) = _
  rw [List.length_append, size, size]
  omega

theorem append_assoc : p ++ q ++ r = p ++ (q ++ r) := by
  change append (append p q) r = append p (append q r)
  simp [append, Nat.add_assoc, Nat.add_comm p.str.length]

@[simp] theorem empty_append : ({} : EncBuffer) ++ p = p := by
  change append {} p = p
  simp [append]

@[simp] theorem append_empty : p ++ ({} : EncBuffer) = p := by
  change append p {} = p
  simp [append]

theorem write_eq (b : Bytes) : buf.write b = buf ++ data b := by
  change _ = append buf (data b)
  simp [append, data, write]

theorem marks_append : (p ++ q).marks = p.marks ++ shift p.str.length q.marks := by
  change (append p q).marks = _
  simp only [marks, append, shift, List.map_append, List.map_map]
  rfl

@[simp] theorem output_data (b : Bytes) : (data b).output = b := rfl

theorem output_append (hp : p.Closed) : (p ++ q).output = p.output ++ q.output := by
  rw [output, marks_append, str_append, weave_append hp.marked]
  rfl

theorem length_output (h : buf.Closed) : buf.output.length = buf.size := by
  rw [output, length_weave h.marked, Nat.sub_zero, ← h.lhsize_eq, size]

theorem headsize_eq_encode {n o : Nat} (h : n < 2 ^ 64) :
    headsize n = (ListHead.encode ⟨o, n⟩).length := by
  rw [ListHead.encode, puthead_eq _ _ h, headsize_eq 0xC0 0xF7 h]

theorem closed_empty : Closed {} := ⟨Nat.le_refl 0, rfl⟩

theorem closed_data (b : Bytes) : (data b).Closed := ⟨Nat.zero_le _, rfl⟩

theorem Closed.append (hp : p.Closed) (hq : q.Closed) : (p ++ q).Closed := by
  constructor
  · rw [marks_append, str_append, List.length_append, Nat.add_comm]
    exact hp.marked.append hq.marked
  · rw [marks_append, added_append, added_shift, ← hp.lhsize_eq, ← hq.lhsize_eq]
    rfl

theorem Closed.wrap (hp : p.Closed) (h : p.size < 2 ^ 64) : p.wrap.Closed := by
  constructor
  · exact ⟨Nat.le_refl 0, hp.marked⟩
  · change headsize p.size + p.lhsize = (ListHead.encode ⟨0, p.size⟩).length + added p.marks
    rw [← hp.lhsize_eq, headsize_eq_encode h]

/-- A list is its header and its content. -/
theorem output_wrap (hp : p.Closed) (h : p.size < 2 ^ 64) :
    p.wrap.output = (Value.mk .list p.output).enc := by
  have hw : p.wrap.output = ListHead.encode ⟨0, p.size⟩ ++ p.output := weave_cons_self
  rw [hw, ListHead.encode, puthead_eq _ _ h, ← length_output hp]
  rfl

/-- `listEnd` on what has been written since `list`. -/
theorem listEnd_list : (buf.list.1 ++ p).listEnd buf.list.2 = buf ++ p.wrap := by
  have hget : (buf.list.1 ++ p).lheads[buf.list.2]? = some ⟨buf.str.length, buf.lhsize⟩ := by
    change (buf.lheads ++ [_] ++ _)[buf.lheads.length]? = _
    simp
  have hsize : (buf.list.1 ++ p).size - buf.str.length - buf.lhsize = p.size := by
    rw [size_append, show buf.list.1.size = buf.str.length + buf.lhsize from rfl]
    omega
  have hset : (buf.list.1 ++ p).lheads.set buf.list.2 ⟨buf.str.length, p.size⟩ =
      (buf ++ p.wrap).lheads := by
    change (buf.lheads ++ [_] ++ _).set buf.lheads.length _ = buf.lheads ++ _
    rw [List.append_assoc, List.set_append_right _ _ (Nat.le_refl _), Nat.sub_self]
    simp [wrap, list]
  have hlhsize : (buf.list.1 ++ p).lhsize + headsize p.size = (buf ++ p.wrap).lhsize := by
    change buf.lhsize + p.lhsize + headsize p.size = buf.lhsize + (headsize p.size + p.lhsize)
    omega
  rw [listEnd, hget]
  dsimp only
  rw [hsize, hset]
  change EncBuffer.mk _ _ ((buf.list.1 ++ p).lhsize + headsize p.size) = _
  rw [hlhsize]
  rfl

/-! ## Copying out -/

theorem copyAt_append {done rest src : Bytes} (h : src.length ≤ rest.length) :
    copyAt (done ++ rest) done.length src = done ++ src ++ rest.drop src.length := by
  have htake : src.take ((done ++ rest).length - done.length) = src :=
    List.take_of_length_le (by rw [List.length_append]; omega)
  rw [copyAt, htake, List.take_left, List.drop_length_add_append, List.append_assoc]

theorem copyHeads_eq {str rest : Bytes} (done : Bytes) {heads : List ListHead} {strpos : Nat}
    (hm : Marked str.length strpos (heads.map fun h => (h.offset, h.encode)))
    (hlen : rest.length =
      (weave str strpos (heads.map fun h => (h.offset, h.encode))).length) :
    copyHeads str heads strpos done.length (done ++ rest) =
      some (done ++ weave str strpos (heads.map fun h => (h.offset, h.encode))) := by
  induction heads generalizing done rest strpos with
  | nil =>
    have hrest : rest.length = (str.drop strpos).length := hlen
    rw [copyHeads, copyAt_append (by omega), ← hrest, List.drop_length, List.append_nil]
    rfl
  | cons head heads ih =>
    have hle := hm.2.le
    have hoff : strpos ≤ head.offset := hm.1
    have hsrc : ((str.drop strpos).take (head.offset - strpos)).length = head.offset - strpos := by
      rw [List.length_take, List.length_drop]
      omega
    rw [List.map_cons, weave, List.length_append, List.length_append] at hlen
    rw [List.map_cons, weave, copyHeads]
    generalize hs : (str.drop strpos).take (head.offset - strpos) = src at *
    have hn : min ((done ++ rest).length - done.length) src.length = src.length := by
      rw [List.length_append]
      omega
    have hrest : head.encode.length ≤ (rest.drop src.length).length := by
      rw [List.length_drop]
      omega
    have hnext : strpos + src.length = head.offset := by omega
    rw [hn, copyAt_append (by omega), ← List.length_append, copyAt_append hrest, hnext,
      if_pos (by simp only [List.length_append, List.length_drop]; omega),
      ← List.length_append, ih _ hm.2 (by rw [List.length_drop, List.length_drop]; omega)]
    simp only [List.append_assoc]

theorem copyTo_eq (h : buf.Closed) {dst : Bytes} (hlen : dst.length = buf.size) :
    buf.copyTo dst = some buf.output :=
  copyHeads_eq [] h.marked (by rw [hlen, ← length_output h]; rfl)

theorem makeBytes_eq (h : buf.Closed) : buf.makeBytes = some buf.output :=
  copyTo_eq h List.length_replicate

theorem appendToBytes_eq (h : buf.Closed) (dst : Bytes) :
    buf.appendToBytes dst = some (dst ++ buf.output) := by
  rw [appendToBytes, copyTo_eq h List.length_replicate]
  rfl

/-- What the writer has taken of `all`: the beginning, and all of it when there was no error. -/
def Wrote {ε : Type} (r : Bytes × Option ε) (all : Bytes) : Prop :=
  r.1 <+: all ∧ (r.2 = none → r.1 = all)

theorem wrote_put {ε : Type} (w : Writer ε) (out chunk : Bytes) :
    Wrote (w.put out chunk).2 (out ++ chunk) := by
  refine ⟨w.put_prefix out chunk, ?_⟩
  intro h
  rw [Writer.put_none h]

theorem Wrote.mono {ε : Type} {r : Bytes × Option ε} {a b : Bytes} {e : ε} (h : Wrote r a) :
    Wrote (r.1, some e) (a ++ b) :=
  ⟨h.1.trans (List.prefix_append a b), fun hn => by cases hn⟩

theorem writeHeads_wrote {ε : Type} (w : Writer ε) {str : Bytes} (out : Bytes)
    {heads : List ListHead} {strpos : Nat}
    (hm : Marked str.length strpos (heads.map fun h => (h.offset, h.encode))) :
    Wrote (writeHeads w str heads strpos out)
      (out ++ weave str strpos (heads.map fun h => (h.offset, h.encode))) := by
  induction heads generalizing strpos out with
  | nil =>
    rw [writeHeads]
    split
    · exact wrote_put w out _
    · rename_i hle
      rw [List.map_nil, weave, List.drop_of_length_le (by omega), List.append_nil]
      exact ⟨List.prefix_rfl, fun _ => rfl⟩
  | cons head heads ih =>
    have hle := hm.2.le
    have hoff : strpos ≤ head.offset := hm.1
    rw [List.map_cons, weave, ← List.append_assoc, ← List.append_assoc, writeHeads]
    dsimp only
    generalize hs : (str.drop strpos).take (head.offset - strpos) = src
    generalize hr : (if 0 < head.offset - strpos then w.put out src else (0, out, none)) = r
    have hput : Wrote r.2 (out ++ src) ∧ (r.2.2 = none → strpos + r.1 = head.offset) := by
      have hsrc : src.length = head.offset - strpos := by
        rw [← hs, List.length_take, List.length_drop]
        omega
      rw [← hr]
      split
      · refine ⟨wrote_put w out src, fun hn => ?_⟩
        rw [Writer.put_none hn]
        dsimp only
        omega
      · have hnil : src = [] := List.eq_nil_of_length_eq_zero (by omega)
        rw [hnil, List.append_nil]
        exact ⟨⟨List.prefix_rfl, fun _ => rfl⟩, fun _ => by dsimp only; omega⟩
    split
    · rw [List.append_assoc]
      exact hput.1.mono
    · rename_i hnone
      rw [hput.2 hnone, hput.1.2 hnone]
      have hhead := wrote_put w (out ++ src) head.encode
      split
      · exact hhead.mono
      · rename_i hnone'
        rw [hhead.2 hnone']
        exact ih _ hm.2

theorem writeTo_wrote {ε : Type} (h : buf.Closed) (w : Writer ε) :
    Wrote (buf.writeTo w) buf.output :=
  writeHeads_wrote w [] h.marked

/-! ## What the writes append -/

theorem encodeStringHeader_eq {n : Nat} (h : n < 2 ^ 64) :
    buf.encodeStringHeader n = buf ++ data (header 0x80 0xB7 n) := by
  unfold encodeStringHeader header
  split
  · exact write_eq _
  · rw [putint_eq (by omega) h]
    exact write_eq _

theorem data_append (a b : Bytes) : buf ++ data a ++ data b = buf ++ data (a ++ b) := by
  rw [append_assoc, ← write_eq b]
  rfl

theorem writeString_eq {b : Bytes} (hb : isByte b = false) (h : b.length < 2 ^ 64) :
    (buf.encodeStringHeader b.length).write b = buf ++ data (Value.ofString b).enc := by
  rw [encodeStringHeader_eq h, write_eq, data_append, Value.enc, Value.head, Value.ofString, hb]
  rfl

theorem writeBytes_eq {b : Bytes} (h : b.length < 2 ^ 64) :
    buf.writeBytes b = buf ++ data (Value.ofString b).enc := by
  unfold writeBytes
  split
  · rename_i x
    split
    · rename_i hx
      have hbyte : isByte [x] = true :=
        isByte_iff.mpr ⟨x, Nat.lt_succ_of_le (UInt8.le_iff_toNat_le.mp hx), rfl⟩
      rw [Value.ofString_enc_byte hbyte, write_eq]
    · rename_i hx
      have hbyte : isByte [x] = false := by
        by_contra hb
        obtain ⟨y, hy, he⟩ := isByte_iff.mp (eq_true_of_ne_false hb)
        cases he
        exact hx (UInt8.le_iff_toNat_le.mpr (Nat.le_of_lt_succ hy))
      exact writeString_eq hbyte h
  · rename_i hone
    have hbyte : isByte b = false := by
      by_contra hb
      obtain ⟨x, -, rfl⟩ := isByte_iff.mp (eq_true_of_ne_false hb)
      exact hone x rfl
    exact writeString_eq hbyte h

theorem writeUint64_eq (i : UInt64) :
    buf.writeUint64 i = buf ++ data (Value.ofString (minimal i.toNat)).enc := by
  have hi := i.toNat_lt
  unfold writeUint64
  split
  · rename_i h0
    rw [h0]
    exact write_eq _
  · rename_i h0
    have hpos : 0 < i.toNat := by
      by_contra hz
      exact h0 (UInt64.toNat_inj.mp (by rw [UInt64.toNat_zero]; omega))
    split
    · rename_i h
      rw [ofString_minimal_small hpos (UInt64.lt_iff_toNat_lt.mp h)]
      exact write_eq _
    · rename_i h
      have h128 : 128 ≤ i.toNat := UInt64.le_iff_toNat_le.mp (UInt64.not_lt.mp h)
      have hlen : (minimal i.toNat).length ≤ 8 := minimal_length_le (by simpa using hi)
      rw [putint_eq hpos hi, Value.ofString_enc_small (isByte_minimal h128) (by omega)]
      exact write_eq _

theorem writeBigInt_eq {i : Int} (h : (minimal i.natAbs).length < 2 ^ 64) :
    buf.writeBigInt i = buf ++ data (Value.ofString (minimal i.natAbs)).enc := by
  unfold writeBigInt
  dsimp only
  split
  · rename_i hle
    rw [writeUint64_eq, UInt64.toNat_ofNat', Nat.mod_eq_of_lt (bitLen_le_iff.mp hle)]
  · rename_i hgt
    have h128 : 128 ≤ i.natAbs := by
      by_contra hlt
      exact hgt ((bitLen_le_iff (k := 7)).mpr (by omega) |>.trans (by decide))
    rw [Enc.readBits_eq, ← minimal, ← minimal_length]
    exact writeString_eq (isByte_minimal h128) h

theorem writeUint256_eq (z : BitVec 256) :
    buf.writeUint256 z = buf ++ data (Value.ofString (minimal z.toNat)).enc := by
  have hz : bitLen z.toNat ≤ 256 := bitLen_le_iff.mpr z.isLt
  unfold writeUint256
  dsimp only
  split
  · rename_i hle
    rw [writeUint64_eq, UInt64.toNat_ofNat', Nat.mod_eq_of_lt (bitLen_le_iff.mp hle)]
  · rename_i hgt
    have h128 : 128 ≤ z.toNat := by
      by_contra hlt
      exact hgt ((bitLen_le_iff (k := 7)).mpr (by omega) |>.trans (by decide))
    have hdrop : (fixed 32 z.toNat).drop (32 - (bitLen z.toNat + 7) / 8) = minimal z.toNat := by
      have hadd := fixed_add (32 - (bitLen z.toNat + 7) / 8) ((bitLen z.toNat + 7) / 8) z.toNat
      rw [Nat.sub_add_cancel (by omega)] at hadd
      rw [hadd, List.drop_left' (fixed_length _ _), minimal]
    rw [hdrop, ← minimal_length, Value.ofString_enc_small (isByte_minimal h128)]
    · exact write_eq _
    · rw [minimal_length]
      omega

end EncBuffer

end ZipoLogger.Rlp
