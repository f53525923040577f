/-
  decode.go: a stream in the hands of its user.

  The user calls the operations in any order, also after errors. `List` checks the size of a list
  before its head is taken off the enclosing one and never again, so the limit of the enclosing
  list can wrap around. A session keeps, beside the stream, where the lists have been entered and
  left. While both limits count the same bytes (`Live`), what is left of a list and what has been
  read of it add up to its size modulo 2^64 (`Accounted`); a read that the input limit refuses
  breaks this, but leaves an error that no call gets rid of (`Stuck`). So whatever the calls are, a
  list that `ListEnd` leaves is a list of the input, read exactly to its end (`lists_exact`).
-/
import ZipoLogger.Rlp.Values

namespace ZipoLogger.Rlp

open ZipoLogger.Rlp.Stream
open StateOp (Triple)

inductive Call
  | kind
  | bytes
  | readBytes (len : Nat)
  | raw
  | uint (maxbits : Nat)
  | bool
  | bigInt
  | readUint256
  | list
  | listEnd

/-- A list that has been entered: where its content starts, and the size from its head. -/
structure Open where
  start : Nat
  size : Nat
  deriving DecidableEq, Repr

/-- A list that has been left. -/
structure Closed extends Open where
  stop : Nat
  deriving DecidableEq, Repr

structure Session where
  stream : Stream
  opens : List Open := []
  closed : List Closed := []

/-- How much of the input has been read. -/
def position (input : Bytes) (s : Stream) : Nat := input.length - s.r.length

namespace Session

/-- An operation that enters and leaves no list. -/
def after {α : Type} (op : Op α) (x : Session) : Session := { x with stream := (op x.stream).2 }

def perform (input : Bytes) (x : Session) : Call → Session
  | .kind => x.after getKind
  | .bytes => x.after bytes
  | .readBytes len => x.after (readBytes len)
  | .raw => x.after raw
  | .uint maxbits => x.after (uint maxbits)
  | .bool => x.after Stream.bool
  | .bigInt => x.after bigInt
  | .readUint256 => x.after readUint256
  | .list =>
    match Stream.list x.stream with
    | (.ok size, s) => { x with stream := s, opens := ⟨position input s, size⟩ :: x.opens }
    | (.error _, s) => { x with stream := s }
  | .listEnd =>
    match Stream.listEnd x.stream, x.opens with
    | (.ok _, s), o :: opens => ⟨s, opens, ⟨o, position input s⟩ :: x.closed⟩
    | (_, s), _ => { x with stream := s }

def run (input : Bytes) (x : Session) (calls : List Call) : Session :=
  calls.foldl (perform input) x

end Session

/-- The head of the list stands right before its content. -/
def Open.IsHead (input : Bytes) (o : Open) : Prop :=
  ∃ before after, input = before ++ header 0xC0 0xF7 o.size ++ after ∧
    (before ++ header 0xC0 0xF7 o.size).length = o.start

/-- A list of the input, read from its start to its end. -/
def Closed.Exact (input : Bytes) (c : Closed) : Prop :=
  ∃ before content after, input = before ++ (Value.mk .list content).enc ++ after ∧
    content.length = c.size ∧ (before ++ (Value.mk .list content).head).length = c.start ∧
    (before ++ (Value.mk .list content).enc).length = c.stop

/-! ## The invariant -/

/-- What is left of each list and what has been read of it add up to its size; the enclosing list
    has been charged for the whole of the inner one. -/
def Accounted (input : Bytes) (limit : Nat) : Nat → List Open → List Nat → Prop
  | _, [], [] => True
  | p, o :: os, l :: ls => o.IsHead input ∧ o.start ≤ p ∧ o.start + o.size ≤ limit ∧ l < 2 ^ 64 ∧
      (l + (p - o.start)) % 2 ^ 64 = o.size ∧ Accounted input limit (o.start + o.size) os ls
  | _, _, _ => False

/-- Both limits have counted the bytes that have been read. -/
structure Live (input : Bytes) (limit : Nat) (opens : List Open) (s : Stream) : Prop where
  limited : s.limited = true
  suffix : s.r <:+ input
  used : s.remaining + input.length = s.r.length + limit
  accounted : Accounted input limit (position input s) opens s.stack
  size_le : s.kind ≠ none → s.kinderr = none → s.size ≤ s.remaining
  head : s.kind = some .list → s.kinderr = none →
    ∃ before, input = before ++ header 0xC0 0xF7 s.size ++ s.r

/-- An error that is kept, and a list that is not at its end. -/
structure Stuck (input : Bytes) (opens : List Open) (s : Stream) : Prop where
  kind_ne : s.kind ≠ none
  kinderr_ne : s.kinderr ≠ none
  length_eq : opens.length = s.stack.length
  head_ne : s.stack.head? ≠ some 0
  short : ∀ o ∈ opens.head?, position input s ≠ o.start + o.size

section Invariant

variable {input : Bytes} {limit : Nat} {opens : List Open} {s s' : Stream} {n : Nat}

variable (input limit opens) in
def Inv (s : Stream) : Prop := Live input limit opens s ∨ Stuck input opens s

theorem Live.of_eq (h : Live input limit opens s) (hr : s'.r = s.r)
    (hrem : s'.remaining = s.remaining) (hst : s'.stack = s.stack) (hl : s'.limited = s.limited)
    (hk : s'.kind = none ∨ s'.kinderr ≠ none) : Live input limit opens s' where
  limited := hl.trans h.limited
  suffix := by
    rw [hr]
    exact h.suffix
  used := by
    rw [hr, hrem]
    exact h.used
  accounted := by
    rw [position, hr, hst]
    exact h.accounted
  size_le := fun hkind herr => hk.elim (absurd · hkind) (absurd herr)
  head := fun hkind herr => hk.elim (fun h0 => by rw [h0] at hkind; cases hkind) (absurd herr)

theorem Live.position_add (h : Live input limit opens s) :
    position input s + s.remaining = limit := by
  have hle := h.suffix.length_le
  have hused := h.used
  unfold position
  omega

theorem Live.synced (h : Live input limit opens s) (hlimit : limit ≤ input.length) : s.Synced := by
  refine ⟨h.limited, ?_⟩
  have hused := h.used
  omega

theorem accounted_charge {p l : Nat} {os : List Open} {ls : List Nat}
    (h : Accounted input limit p os (l :: ls)) (hn : n ≤ l) :
    Accounted input limit (p + n) os ((l - n) :: ls) := by
  cases os with
  | nil => exact h.elim
  | cons o os =>
    obtain ⟨hhead, hp, hle, hlt, hsum, hrest⟩ := h
    refine ⟨hhead, hp.trans (Nat.le_add_right _ _), hle, (Nat.sub_le _ _).trans_lt hlt, ?_, hrest⟩
    rw [← hsum, show l - n + (p + n - o.start) = l + (p - o.start) by omega]

theorem accounted_length {p : Nat} {os : List Open} {ls : List Nat}
    (h : Accounted input limit p os ls) : os.length = ls.length := by
  induction os generalizing p ls with
  | nil =>
    cases ls with
    | nil => rfl
    | cons l ls => exact h.elim
  | cons o os ih =>
    cases ls with
    | nil => exact h.elim
    | cons l ls => exact congrArg (· + 1) (ih h.2.2.2.2.2)

theorem length_charge (n : Nat) (st : List Nat) : (charge n st).length = st.length := by
  cases st <;> rfl

/-- Bytes that are read are counted by both limits. -/
theorem Live.consume (hlimit : limit ≤ input.length) (h : Live input limit opens s)
    (hf : s.Fits n) : Live input limit opens (s.consume n) where
  limited := h.limited
  suffix := (List.drop_suffix n s.r).trans h.suffix
  used := by
    have hused := h.used
    have hle := (h.synced hlimit).le_length
    have hrem := hf.2
    change s.remaining - n + input.length = (s.r.drop n).length + limit
    rw [List.length_drop]
    omega
  accounted := by
    have hle := (h.synced hlimit).le_length
    have hrem := hf.2
    have hsuf := h.suffix.length_le
    have hpos : position input (s.consume n) = position input s + n := by
      change input.length - (s.r.drop n).length = input.length - s.r.length + n
      rw [List.length_drop]
      omega
    have hacc := h.accounted
    have hlist := hf.1
    rw [hpos]
    change Accounted input limit (position input s + n) opens (charge n s.stack)
    cases hst : s.stack with
    | nil =>
      rw [hst] at hacc
      cases opens with
      | nil => exact trivial
      | cons o os => exact hacc.elim
    | cons l ls =>
      rw [hst] at hacc hlist
      exact accounted_charge hacc (of_decide_eq_true hlist)
  size_le := fun hkind => absurd rfl hkind
  head := fun hkind => by cases hkind

/-- When the input limit refuses a read that the list allows, the list has wrapped around, and it
    is far from its end. -/
theorem Live.charged_head? (hlimit : limit < 2 ^ 63) {m : Nat} (h : Live input limit opens s)
    (hall : s.stack.head?.all (m ≤ ·) = true) (hlt : s.remaining < m) (hm : m ≤ 8) :
    (charge m s.stack).head? ≠ some 0 ∧
      ∀ o ∈ opens.head?, position input s ≠ o.start + o.size := by
  have hadd := h.position_add
  have hacc := h.accounted
  cases hst : s.stack with
  | nil =>
    rw [hst] at hacc
    cases opens with
    | nil => simp [charge]
    | cons o os => exact hacc.elim
  | cons l ls =>
    rw [hst] at hall hacc
    have hml : m ≤ l := of_decide_eq_true hall
    cases opens with
    | nil => exact hacc.elim
    | cons o os =>
      obtain ⟨-, hp, hle, hl64, hsum, -⟩ := hacc
      refine ⟨?_, ?_⟩
      · rw [charge, List.head?_cons, ne_eq, Option.some_inj]
        omega
      · rintro o' ⟨⟩
        omega

/-! ## The kind ahead -/

/-- A value of this kind and size is ahead. -/
structure Found (input : Bytes) (limit : Nat) (opens : List Open) (k : Kind) (n : Nat)
    (s : Stream) : Prop where
  live : Live input limit opens s
  kind_eq : s.kind = some k
  size_eq : s.size = n
  kinderr_eq : s.kinderr = none

theorem Found.size_le {k : Kind} (h : Found input limit opens k n s) : n ≤ s.remaining := by
  rw [← h.size_eq]
  exact h.live.size_le (by rw [h.kind_eq]; simp) h.kinderr_eq

theorem Found.inv {k : Kind} (h : Found input limit opens k n s) : Inv input limit opens s :=
  .inl h.live

theorem Live.found (hlimit : limit ≤ input.length) (h : Live input limit opens s) {k : Kind}
    {b : UInt8} {hd : Bytes} (hhd : IsHead k n b hd) (hf : s.Fits hd.length)
    (htake : s.r.take hd.length = hd) (hn : n ≤ s.remaining - hd.length) :
    Found input limit opens k n ((s.consume hd.length).ahead k n b) := by
  have hc := h.consume hlimit hf
  refine ⟨⟨hc.limited, hc.suffix, hc.used, hc.accounted, fun _ _ => hn, ?_⟩, rfl, rfl, rfl⟩
  intro hk _
  cases hk
  cases hhd with
  | list h64 =>
    obtain ⟨before, hb⟩ := h.suffix
    refine ⟨before, ?_⟩
    change input = before ++ header 0xC0 0xF7 n ++ s.r.drop (header 0xC0 0xF7 n).length
    conv_lhs => rw [← hb, ← List.take_append_drop (header 0xC0 0xF7 n).length s.r, htake]
    rw [List.append_assoc]

/-- What a failed `Kind` leaves. -/
theorem inv_of_broke (hlimit : limit ≤ input.length) (hlt : limit < 2 ^ 63) {k : Kind} {e : Err}
    (h : Live input limit opens s) (hb : Broke s s') :
    Inv input limit opens { s' with kind := some k, size := n, kinderr := some e } := by
  obtain ⟨t, b, hf, hs'⟩ := hb
  have hc := h.consume hlimit hf
  have herr : ∀ {s1 : Stream}, s1.r = (s.consume t).r → s1.remaining = (s.consume t).remaining →
      s1.stack = (s.consume t).stack → s1.limited = (s.consume t).limited →
      Live input limit opens { s1 with kind := some k, size := n, kinderr := some e } :=
    fun hr hrem hst hl => hc.of_eq hr hrem hst hl (.inr (by simp))
  rcases hs' with rfl | ⟨m, -, hm, rfl | ⟨hall, hrem, rfl⟩⟩
  · exact .inl (herr rfl rfl rfl rfl)
  · exact .inl (herr rfl rfl rfl rfl)
  · have hlen := (accounted_length hc.accounted).trans (length_charge m _).symm
    obtain ⟨hhead, hshort⟩ := hc.charged_head? hlt hall hrem hm
    exact .inr ⟨by simp, by simp, hlen, hhead, hshort⟩

theorem getKind_inv (hlimit : limit ≤ input.length) (hlt : limit < 2 ^ 63) :
    Triple (Inv input limit opens) getKind (fun p s => Found input limit opens p.1 p.2 s)
      (fun _ s => Inv input limit opens s) := by
  intro s hs
  by_cases hk : s.kind = none
  · rcases hs with hs | hs
    · rcases hg : getKind s with ⟨e | ⟨k, n⟩, s'⟩
      · rcases getKind_error (hs.synced hlimit) hk hg with ⟨-, -, rfl⟩ | ⟨-, -, k, n, s1, hb, rfl⟩
        · exact .inl hs
        · exact inv_of_broke hlimit hlt hs hb
      · obtain ⟨hd, b, hhd, hf, htake, -, hn, rfl⟩ :=
          (getKind_eq_ok_iff (hs.synced hlimit) hk).mp hg
        exact hs.found hlimit hhd hf htake hn
    · exact absurd hk hs.kind_ne
  · have hg : getKind s = cached s := if_pos (Option.isSome_iff_ne_none.mpr hk)
    obtain ⟨k, hk⟩ := Option.ne_none_iff_exists'.mp hk
    rw [hg, cached]
    cases herr : s.kinderr with
    | some e => exact hs
    | none =>
      rcases hs with hs | hs
      · refine ⟨hs, ?_, rfl, herr⟩
        rw [hk]
        rfl
      · exact absurd herr hs.kinderr_ne

/-! ## Operations on values -/

/-- Whatever becomes of the operation, the invariant holds after it. -/
def Keeps (input : Bytes) (limit : Nat) (opens : List Open) {α : Type} (op : Op α) : Prop :=
  Triple (Inv input limit opens) op (fun _ s => Inv input limit opens s)
    (fun _ s => Inv input limit opens s)

theorem Live.rearm (h : Live input limit opens s) : Live input limit opens s.rearm :=
  h.of_eq rfl rfl rfl rfl (.inl rfl)

/-- A refused read leaves the limits as they are when the input has that much. -/
theorem Live.refused (h : Live input limit opens s) (hn : n ≤ s.remaining) (hr : Refused n s s') :
    Live input limit opens s' := by
  rcases hr with rfl | ⟨-, hlt, -⟩
  · exact h.rearm
  · exact absurd hn (not_le.mpr hlt)

section Reads

variable (hlimit : limit ≤ input.length)

include hlimit

theorem readFull_live (n : Nat) :
    Triple (fun s => Live input limit opens s ∧ n ≤ s.remaining) (readFull n)
      (fun _ s => Live input limit opens s) (fun _ s => Live input limit opens s) := by
  refine Triple.of_cases ?_ ?_
  · rintro s c s' ⟨h, -⟩ hr
    obtain ⟨hf, -, rfl⟩ := (readFull_eq_ok_iff (h.synced hlimit)).mp hr
    exact h.consume hlimit hf
  · rintro s e s' ⟨h, hn⟩ hr
    exact h.refused hn (readFull_error (h.synced hlimit) hr).2

theorem readByte_live :
    Triple (fun s => Live input limit opens s ∧ 1 ≤ s.remaining) readByte
      (fun _ s => Live input limit opens s) (fun _ s => Live input limit opens s) := by
  refine Triple.of_cases ?_ ?_
  · rintro s c s' ⟨h, -⟩ hr
    obtain ⟨hf, -, rfl⟩ := (readByte_eq_ok_iff (h.synced hlimit)).mp hr
    exact h.consume hlimit hf
  · rintro s e s' ⟨h, hn⟩ hr
    exact h.refused hn (readByte_error (h.synced hlimit) hr).2

theorem readUint_live (n : Nat) :
    Triple (fun s => Live input limit opens s ∧ n ≤ s.remaining) (readUint n)
      (fun _ s => Live input limit opens s) (fun _ s => Live input limit opens s) := by
  match n with
  | 0 => exact fun s h => h.1.rearm
  | 1 => exact (readByte_live hlimit).bind fun _ => .pure _ fun _ h => h
  | n + 2 =>
    rw [readUint]
    · exact (readFull_live hlimit (n + 2)).bind fun _ =>
        .ite (fun _ => .throw _ fun _ h => h) fun _ => .pure _ fun _ h => h
    all_goals simp

/-- The content of a string or a list, and what is made of it. -/
theorem content_keeps {α : Type} {k : Kind} {g : Bytes → Op α}
    (hg : ∀ c, Triple (Live input limit opens) (g c) (fun _ s => Live input limit opens s)
      (fun _ s => Live input limit opens s)) :
    Triple (Found input limit opens k n) (readFull n >>= g) (fun _ s => Inv input limit opens s)
      (fun _ s => Inv input limit opens s) :=
  ((readFull_live hlimit n).bind hg).weaken (fun _ h => ⟨h.live, h.size_le⟩) (fun _ _ h => .inl h)
    fun _ _ h => .inl h

end Reads

/-- A check that leaves the stream alone. -/
theorem check_live {α : Type} {c : Prop} [Decidable c] (e : Err) (a : α) :
    Triple (Live input limit opens) (if c then throw e else pure a : Op α)
      (fun _ s => Live input limit opens s) (fun _ s => Live input limit opens s) :=
  .ite (fun _ => .throw e fun _ h => h) fun _ => .pure a fun _ h => h

theorem throw_keeps {α : Type} {k : Kind} (e : Err) :
    Triple (Found input limit opens k n) (throw e : Op α) (fun _ s => Inv input limit opens s)
      (fun _ s => Inv input limit opens s) :=
  .throw e fun _ h => h.inv

/-- A single byte. -/
theorem byte_keeps {k : Kind} : Triple (Found input limit opens k n)
    (do modify Stream.rearm; return [(← get).byteval] : Op Bytes)
    (fun _ s => Inv input limit opens s) (fun _ s => Inv input limit opens s) :=
  Triple.bind (Q := fun _ => Live input limit opens) (.modify fun _ h => h.live.rearm) fun _ =>
    .bind (Q := fun _ => Live input limit opens) (.get fun _ h => h) fun _ =>
      .pure _ fun _ h => .inl h

section Keeps

variable (hlimit : limit ≤ input.length) (hlt : limit < 2 ^ 63)

include hlimit hlt

theorem keeps_of_kind {α : Type} {f : Kind × Nat → Op α}
    (hf : ∀ k n, Triple (Found input limit opens k n) (f (k, n))
      (fun _ s => Inv input limit opens s) (fun _ s => Inv input limit opens s)) :
    Keeps input limit opens (getKind >>= f) :=
  (getKind_inv hlimit hlt).bind fun p => hf p.1 p.2

theorem bytes_keeps : Keeps input limit opens bytes := by
  refine keeps_of_kind hlimit hlt fun k n => ?_
  cases k with
  | byte => exact byte_keeps
  | string => exact content_keeps hlimit fun _ => check_live _ _
  | list => exact throw_keeps _

theorem readBytes_keeps (len : Nat) : Keeps input limit opens (readBytes len) := by
  refine keeps_of_kind hlimit hlt fun k n => ?_
  cases k with
  | byte => exact .ite (fun _ => throw_keeps _) fun _ => byte_keeps
  | string =>
    refine .ite (fun _ => throw_keeps _) fun hlen => ?_
    obtain rfl := not_not.mp hlen
    exact content_keeps hlimit fun _ => check_live _ _
  | list => exact throw_keeps _

theorem raw_keeps : Keeps input limit opens raw := by
  refine keeps_of_kind hlimit hlt fun k n => ?_
  cases k with
  | byte => exact byte_keeps
  | string => exact content_keeps hlimit fun _ => .pure _ fun _ h => h
  | list => exact content_keeps hlimit fun _ => .pure _ fun _ h => h

theorem uint_keeps (maxbits : Nat) : Keeps input limit opens (uint maxbits) := by
  refine keeps_of_kind hlimit hlt fun k n => ?_
  cases k with
  | byte =>
    refine Triple.bind (Q := fun _ => Found input limit opens .byte n) (.get fun _ h => h) ?_
    exact fun s => .ite (fun _ => throw_keeps _) fun _ => fun _ h => .inl h.live.rearm
  | string =>
    refine .ite (fun _ => throw_keeps _) fun _ => ?_
    have hread : Triple (fun s => Live input limit opens s ∧ n ≤ s.remaining)
        (tryCatch (readUint n) fun e => throw (canonIntError e))
        (fun _ s => Live input limit opens s) (fun _ s => Live input limit opens s) :=
      (readUint_live hlimit n).tryCatch fun e => .throw _ fun _ h => h
    exact (hread.bind fun v => check_live _ v).weaken (fun _ h => ⟨h.live, h.size_le⟩)
      (fun _ _ h => .inl h) fun _ _ h => .inl h
  | list => exact throw_keeps _

theorem bool_keeps : Keeps input limit opens Stream.bool := by
  refine (uint_keeps hlimit hlt 8).bind fun num => ?_
  split
  · exact .pure _ fun _ h => h
  · exact .pure _ fun _ h => h
  · exact .throw _ fun _ h => h

theorem readInt_keeps {large : Nat → Op Bytes}
    (hlarge : ∀ n, Triple (Found input limit opens .string n) (large n)
      (fun _ s => Inv input limit opens s) (fun _ s => Inv input limit opens s)) :
    Keeps input limit opens (readInt large) := by
  have hbuffer : Keeps input limit opens (intBuffer large) := by
    refine keeps_of_kind hlimit hlt fun k n => ?_
    cases k with
    | byte => exact byte_keeps
    | string =>
      refine .ite (fun _ => fun _ h => .inl h.live.rearm) fun _ => ?_
      exact .ite (fun _ => content_keeps hlimit fun _ => check_live _ _) fun _ => hlarge n
    | list => exact throw_keeps _
  exact hbuffer.bind fun _ => .ite (fun _ => .throw _ fun _ h => h) fun _ => .pure _ fun _ h => h

theorem bigInt_keeps : Keeps input limit opens bigInt :=
  readInt_keeps hlimit hlt fun n => (readFull_live hlimit n).weaken
    (fun _ h => ⟨h.live, h.size_le⟩) (fun _ _ h => .inl h) fun _ _ h => .inl h

theorem readUint256_keeps : Keeps input limit opens readUint256 :=
  readInt_keeps hlimit hlt fun _ => throw_keeps _

theorem getKind_keeps : Keeps input limit opens getKind :=
  (getKind_inv hlimit hlt).weaken (fun _ h => h) (fun _ _ h => h.inv) fun _ _ h => h

end Keeps

/-! ## Lists -/

theorem accounted_enter {p : Nat} {os : List Open} {st : List Nat}
    (h : Accounted input limit p os st) (hn : p + n < 2 ^ 64) :
    Accounted input limit (p + n) os (settle n st) := by
  cases os with
  | nil =>
    cases st with
    | nil => exact trivial
    | cons l ls => exact h.elim
  | cons o os =>
    cases st with
    | nil => exact h.elim
    | cons l ls =>
      obtain ⟨hhead, hp, hle, hlt, hsum, hrest⟩ := h
      refine ⟨hhead, hp.trans (Nat.le_add_right _ _), hle, Nat.mod_lt _ (by decide), ?_, hrest⟩
      rw [sub64]
      omega

/-- A list that is ahead is entered. -/
theorem Found.enter (hlt : limit < 2 ^ 63) (h : Found input limit opens .list n s) :
    Live input limit (⟨position input s, n⟩ :: opens)
      { s with stack := n :: settle n s.stack, kind := none, size := 0 } where
  limited := h.live.limited
  suffix := h.live.suffix
  used := h.live.used
  accounted := by
    have hadd := h.live.position_add
    have hle := h.size_le
    obtain ⟨before, hb⟩ := h.live.head h.kind_eq h.kinderr_eq
    rw [h.size_eq] at hb
    have hlen := congrArg List.length hb
    rw [List.length_append] at hlen
    have hstart : (before ++ header 0xC0 0xF7 n).length = position input s := by
      rw [position, hlen, Nat.add_sub_cancel]
    refine ⟨⟨before, s.r, hb, hstart⟩, Nat.le_refl _, ?_, ?_, ?_, ?_⟩
    · change position input s + n ≤ limit
      omega
    · omega
    · change (n + (position input s - position input s)) % 2 ^ 64 = n
      omega
    · exact accounted_enter h.live.accounted (by change position input s + n < 2 ^ 64; omega)
  size_le := fun hkind => absurd rfl hkind
  head := fun hkind => by cases hkind

theorem list_inv (hlimit : limit ≤ input.length) (hlt : limit < 2 ^ 63) :
    Triple (Inv input limit opens) Stream.list
      (fun size s => Live input limit (⟨position input s, size⟩ :: opens) s)
      (fun _ s => Inv input limit opens s) := by
  refine (getKind_inv hlimit hlt).bind fun p => ?_
  obtain ⟨k, n⟩ := p
  dsimp only
  refine .ite (fun _ => .throw _ fun _ h => h.inv) fun hk => ?_
  obtain rfl := not_not.mp hk
  intro s h
  have hlive := h.enter hlt
  cases hst : s.stack <;> rw [hst] at hlive
  all_goals
    change Live input limit (⟨position input s, n⟩ :: opens) _
    dsimp only
    rw [hst]
    exact hlive

/-- A list is left at its end only. -/
theorem listEnd_inv (hlt : limit < 2 ^ 63) : Triple (Inv input limit opens) Stream.listEnd
    (fun _ s => ∃ o os, opens = o :: os ∧ o.IsHead input ∧ position input s = o.start + o.size ∧
      Live input limit os s)
    (fun _ s => Inv input limit opens s) := by
  intro s h
  unfold Stream.listEnd
  cases hst : s.stack with
  | nil => exact h
  | cons l ls =>
    dsimp only
    by_cases hl : l > 0
    · rw [if_pos hl]
      exact h
    · rw [if_neg hl]
      obtain rfl : l = 0 := by omega
      rcases h with h | h
      · have hacc := h.accounted
        have hadd := h.position_add
        rw [hst] at hacc
        cases opens with
        | nil => exact hacc.elim
        | cons o os =>
          obtain ⟨hhead, hp, hle, -, hsum, hrest⟩ := hacc
          have hpos : position input s = o.start + o.size := by omega
          rw [← hpos] at hrest
          refine ⟨o, os, rfl, hhead, hpos, h.limited, h.suffix, h.used, hrest, ?_, ?_⟩
          · exact fun hkind => absurd rfl hkind
          · exact fun hkind => by cases hkind
      · exact absurd (by rw [hst]; rfl) h.head_ne

/-- `MoreDataInList` tells the end of the innermost list. -/
theorem Inv.moreDataInList_iff (hlt : limit < 2 ^ 63) (h : Inv input limit opens s) {o : Open}
    (ho : o ∈ opens.head?) : moreDataInList s = false ↔ position input s = o.start + o.size := by
  have hmore : moreDataInList s = false ↔ s.stack.head?.getD 0 = 0 := by
    rw [moreDataInList, decide_eq_false_iff_not, Nat.pos_iff_ne_zero, not_not]
  obtain ⟨os, rfl⟩ := List.head?_eq_some_iff.mp ho
  rw [hmore]
  rcases h with h | h
  · have hacc := h.accounted
    have hadd := h.position_add
    cases hst : s.stack with
    | nil =>
      rw [hst] at hacc
      exact hacc.elim
    | cons l ls =>
      rw [hst] at hacc
      obtain ⟨-, hp, hle, hl64, hsum, -⟩ := hacc
      change l = 0 ↔ _
      omega
  · refine iff_of_false ?_ (h.short o ho)
    have hlen := h.length_eq
    have hne := h.head_ne
    cases hst : s.stack with
    | nil =>
      rw [hst] at hlen
      cases hlen
    | cons l ls =>
      rw [hst] at hne
      exact fun h0 => hne (congrArg some h0)

theorem exact_of_isHead {o : Open} (h : o.IsHead input) (hle : o.start + o.size ≤ input.length) :
    (Closed.mk o (o.start + o.size)).Exact input := by
  obtain ⟨before, after, hinput, hstart⟩ := h
  have hlen := congrArg List.length hinput
  rw [List.length_append, hstart] at hlen
  have htake : (after.take o.size).length = o.size := List.length_take_of_le (by omega)
  refine ⟨before, after.take o.size, after.drop o.size, ?_, htake, ?_, ?_⟩
  · rw [Value.enc, Value.head, htake]
    simpa using hinput
  · rw [Value.head, htake]
    exact hstart
  · change (before ++ (header 0xC0 0xF7 (after.take o.size).length ++ after.take o.size)).length = _
    rw [← List.append_assoc, List.length_append, htake, hstart]

end Invariant

/-! ## Sessions -/

/-- The lists that have been left were read exactly; the others are on the stack. -/
structure Session.Sound (input : Bytes) (limit : Nat) (x : Session) : Prop where
  inv : Inv input limit x.opens x.stream
  closed : ∀ c ∈ x.closed, c.Exact input

section Run

variable {input : Bytes} {limit : Nat} (hlimit : limit ≤ input.length) (hlt : limit < 2 ^ 63)
variable {x : Session}

theorem Session.Sound.after (h : x.Sound input limit) {α : Type} {op : Op α}
    (hop : Keeps input limit x.opens op) : (x.after op).Sound input limit := by
  refine ⟨?_, h.closed⟩
  have hs := hop x.stream h.inv
  change Inv input limit x.opens (op x.stream).2
  revert hs
  rcases op x.stream with ⟨e | a, s⟩ <;> exact fun hs => hs

include hlimit hlt

theorem perform_sound (h : x.Sound input limit) (call : Call) :
    (x.perform input call).Sound input limit := by
  cases call with
  | kind => exact h.after (getKind_keeps hlimit hlt)
  | bytes => exact h.after (bytes_keeps hlimit hlt)
  | readBytes len => exact h.after (readBytes_keeps hlimit hlt len)
  | raw => exact h.after (raw_keeps hlimit hlt)
  | uint maxbits => exact h.after (uint_keeps hlimit hlt maxbits)
  | bool => exact h.after (bool_keeps hlimit hlt)
  | bigInt => exact h.after (bigInt_keeps hlimit hlt)
  | readUint256 => exact h.after (readUint256_keeps hlimit hlt)
  | list =>
    have hs := list_inv hlimit hlt x.stream h.inv
    rw [Session.perform]
    rcases hl : Stream.list x.stream with ⟨e | n, s⟩
    · rw [hl] at hs
      exact ⟨hs, h.closed⟩
    · rw [hl] at hs
      exact ⟨.inl hs, h.closed⟩
  | listEnd =>
    have hs := listEnd_inv hlt x.stream h.inv
    rw [Session.perform]
    rcases hl : Stream.listEnd x.stream with ⟨e | u, s⟩
    · rw [hl] at hs
      exact ⟨hs, h.closed⟩
    · rw [hl] at hs
      obtain ⟨o, os, ho, hhead, hpos, hlive⟩ := hs
      have hadd := hlive.position_add
      rw [ho]
      refine ⟨.inl hlive, ?_⟩
      intro c hc
      cases hc with
      | head =>
        rw [hpos]
        exact exact_of_isHead hhead (by omega)
      | tail _ hc => exact h.closed c hc

theorem run_sound (h : x.Sound input limit) (calls : List Call) :
    (x.run input calls).Sound input limit := by
  induction calls generalizing x with
  | nil => exact h
  | cons call calls ih => exact ih (perform_sound hlimit hlt h call)

end Run

theorem sound_reset (input : Bytes) {limit : Nat} (hpos : 0 < limit) :
    (Session.mk (reset input limit) [] []).Sound input limit := by
  refine ⟨.inl ⟨decide_eq_true hpos, List.suffix_rfl, Nat.add_comm _ _, trivial, ?_, ?_⟩, ?_⟩
  · exact fun hkind => absurd rfl hkind
  · exact fun hkind => by cases hkind
  · intro c hc
    cases hc

/-- Whatever is called in whatever order: the lists that have been entered and not left are those on
    the stack, `MoreDataInList` says no exactly at the end of the innermost one, and a list that
    has been left is a list of the input, read exactly from its start to its end. -/
theorem lists_exact (input : Bytes) (limit : Nat) (hpos : 0 < limit) (hle : limit ≤ input.length)
    (hlt : input.length < 2 ^ 63) (calls : List Call) :
    let x := Session.run input (Session.mk (reset input limit) [] []) calls
    x.opens.length = x.stream.stack.length ∧
      (∀ o ∈ x.opens.head?, moreDataInList x.stream = false ↔
        position input x.stream = o.start + o.size) ∧
      ∀ c ∈ x.closed, c.Exact input := by
  have h := run_sound hle (hle.trans_lt hlt) (sound_reset input hpos) calls
  refine ⟨?_, fun o ho => h.inv.moreDataInList_iff (hle.trans_lt hlt) ho, h.closed⟩
  rcases h.inv with h | h
  · exact accounted_length h.accounted
  · exact h.length_eq

/-- The inner list takes four bytes off the three of the outer one. -/
theorem lists_exact_wrapped : (Closed.mk ⟨2, 3⟩ 5).Exact [0xC3, 0xC3, 1, 2, 3] :=
  (lists_exact [0xC3, 0xC3, 1, 2, 3] 5 (by decide) (by decide) (by decide)
    [.list, .list, .uint 8, .uint 8, .uint 8, .listEnd, .listEnd]).2.2 _ (by decide +kernel)

end ZipoLogger.Rlp
