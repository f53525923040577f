/-
  internal/crypto/crypto.go: key files, `LoadECDSA` and `SaveECDSA`.

  A key file is 64 hexadecimal characters and at most two newline characters. `readASCII` and
  `checkKeyFileEnd` read through a `bufio.Reader`, modelled by the bytes it will still give and by
  whether the reads end in an error other than `io.EOF`. The byte `ReadByte` returns with an
  error is zero, so in `readASCII` such an error is taken for a control character: it ends the key
  as `io.EOF` does, and `LoadECDSA` reports a short file. `loadECDSA_key_file` says which files are
  accepted, and that loading undoes saving and saving undoes loading up to the case of the letters
  and the newlines.
-/
import ZipoLogger.Enc.KeyStrings

namespace ZipoLogger.Enc

open BigEndian

/-! ## The functions -/

/-- A `bufio.Reader` on an open file. -/
structure Reader where
  rest : Bytes
  /-- The reads end in an error other than `io.EOF`. -/
  broken : Bool := false

/-- The errors of `LoadECDSA`. -/
inductive KeyFileErr where
  /-- of `os.Open` -/
  | open
  /-- of a read -/
  | read
  /-- key file too short, want 64 hex characters -/
  | tooShort
  /-- invalid character at end of key file -/
  | invalidEnd (b : UInt8)
  /-- key file too long, want 64 hex characters -/
  | tooLong
  /-- invalid hex character in private key -/
  | invalidHexCharacter (b : UInt8)
  /-- invalid hex data for private key -/
  | invalidHexData
  /-- the errors of `ToECDSA` -/
  | invalidKey
  deriving DecidableEq

/-- `readASCII`: the bytes put into a buffer of length `n` and what the reader has left. -/
def readASCII : Nat → Bytes → Bytes × Bytes
  | 0, rest => ([], rest)
  | _ + 1, [] => ([], [])
  | n + 1, b :: rest =>
    if b < 33 then ([], rest)
    else (b :: (readASCII n rest).1, (readASCII n rest).2)

/-- The loop of `checkKeyFileEnd` from its round `i`. -/
def checkKeyFileEnd (broken : Bool) : Nat → Bytes → Except KeyFileErr Unit
  | _, [] => if broken then .error .read else .ok ()
  | i, b :: rest =>
    if b ≠ 10 ∧ b ≠ 13 then .error (.invalidEnd b)
    else if 2 ≤ i then .error .tooLong
    else checkKeyFileEnd broken (i + 1) rest

variable (P : Primitives)

/-- `HexToECDSA`. The first byte that is no digit is reported before the length. -/
def hexToECDSA (hexkey : Bytes) : Except KeyFileErr PrivateKey :=
  match Hex.decodeString hexkey with
  | none =>
    match hexkey.find? fun c => (Hex.fromHexChar c).isNone with
    | some c => .error (.invalidHexCharacter c)
    | none => .error .invalidHexData
  | some b =>
    match toECDSA P b with
    | none => .error .invalidKey
    | some key => .ok key

/-- `LoadECDSA`; `none` when the file does not open. -/
def loadECDSA : Option Reader → Except KeyFileErr PrivateKey
  | none => .error .open
  | some r =>
    let (buf, rest) := readASCII 64 r.rest
    if buf.length ≠ 64 then .error .tooShort
    else
      match checkKeyFileEnd r.broken 0 rest with
      | .error e => .error e
      | .ok () => hexToECDSA P buf

/-- `SaveECDSA`: the contents of the file. -/
def saveECDSA (key : PrivateKey) : Bytes := Hex.encodeToString (fromECDSA key)

/-! ## What each of them takes -/

variable {P} {rest : Bytes}

/-- The buffer is filled by printable bytes only. -/
theorem readASCII_full {n : Nat} (h : (readASCII n rest).1.length = n) :
    readASCII n rest = (rest.take n, rest.drop n) ∧ n ≤ rest.length := by
  fun_induction readASCII n rest with
  | case1 => simp
  | case2 | case3 => simp at h
  | case4 n b rest hb ih =>
    rw [List.length_cons, Nat.add_right_cancel_iff] at h
    obtain ⟨heq, hle⟩ := ih h
    refine ⟨?_, Nat.succ_le_succ hle⟩
    rw [List.take_succ_cons, List.drop_succ_cons, heq]

theorem readASCII_printable {n : Nat} (hn : n ≤ rest.length)
    (h : ∀ b ∈ rest.take n, 33 ≤ b) : readASCII n rest = (rest.take n, rest.drop n) := by
  induction n generalizing rest with
  | zero => cases rest <;> rfl
  | succ n ih =>
    cases rest with
    | nil => simp at hn
    | cons b rest =>
      rw [List.take_succ_cons, List.forall_mem_cons] at h
      rw [readASCII, if_neg (UInt8.not_lt.mpr h.1), ih (Nat.le_of_succ_le_succ hn) h.2]
      rfl

theorem checkKeyFileEnd_ok_iff {broken : Bool} {i : Nat} (hi : i ≤ 2) :
    checkKeyFileEnd broken i rest = .ok () ↔
      broken = false ∧ i + rest.length ≤ 2 ∧ ∀ b ∈ rest, b = 10 ∨ b = 13 := by
  induction rest generalizing i with
  | nil => cases broken <;> simp [checkKeyFileEnd, hi]
  | cons b rest ih =>
    rw [checkKeyFileEnd, List.forall_mem_cons, List.length_cons]
    by_cases hb : b ≠ 10 ∧ b ≠ 13
    · rw [if_pos hb]
      simp only [reduceCtorEq, false_iff]
      tauto
    · rw [if_neg hb]
      have hb : b = 10 ∨ b = 13 := by tauto
      by_cases hlong : 2 ≤ i
      · rw [if_pos hlong]
        simp only [reduceCtorEq, false_iff]
        omega
      · rw [if_neg hlong, ih (by omega), Nat.add_assoc, Nat.add_comm 1]
        simp [hb]

theorem hexToECDSA_eq_ok {hexkey : Bytes} {key : PrivateKey} : hexToECDSA P hexkey = .ok key ↔
    ∃ b, Hex.decodeString hexkey = some b ∧ toECDSA P b = some key := by
  unfold hexToECDSA
  split
  · rename_i hb
    split <;> simp [hb]
  · split <;> simp [*]

theorem hexToECDSA_ok_iff {hexkey : Bytes} {key : PrivateKey} : hexToECDSA P hexkey = .ok key ↔
    ∃ d : Scalar, Hex.lower hexkey = Hex.encodeToString (fixed 32 d.D) ∧
      key = d.privateKey P := by
  rw [hexToECDSA_eq_ok]
  constructor
  · rintro ⟨b, hb, hkey⟩
    obtain ⟨d, hd, hkd⟩ := toECDSA_eq_some_iff.mp hkey
    rw [hd] at hb
    exact ⟨d, Hex.decode_eq_some_iff.mp hb, hkd⟩
  · rintro ⟨d, hd, hkd⟩
    exact ⟨_, Hex.decode_eq_some_iff.mpr hd, toECDSA_eq_some_iff.mpr ⟨d, rfl, hkd⟩⟩

/-- The text of a scalar, in either case, is 64 printable characters. -/
theorem lower_text {text : Bytes} {d : Scalar}
    (h : Hex.lower text = Hex.encodeToString (fixed 32 d.D)) :
    text.length = 64 ∧ ∀ b ∈ text, 33 ≤ b := by
  constructor
  · have hlen := congrArg List.length h
    rwa [Hex.lower, List.length_map, Hex.encode_length, fixed_length] at hlen
  · intro b hb
    have hmem : Hex.toLower b ∈ Hex.encodeToString (fixed 32 d.D) :=
      h ▸ List.mem_map_of_mem hb
    have hrange := (Hex.encode_range hmem).1
    unfold Hex.toLower at hrange
    split at hrange
    · rename_i hupper
      exact UInt8.le_trans (by decide) hupper.1
    · exact UInt8.le_trans (by decide) hrange

/-! ## Key files -/

/-- The files `LoadECDSA` accepts: the digits of a scalar, in either case, and at most two newline
    characters. -/
def KeyFile (f : Reader) (d : Scalar) : Prop :=
  ∃ text ends, f.broken = false ∧ f.rest = text ++ ends ∧
    Hex.lower text = Hex.encodeToString (fixed 32 d.D) ∧ ends.length ≤ 2 ∧
    ∀ b ∈ ends, b = 10 ∨ b = 13

theorem loadECDSA_ok_iff {f : Reader} {key : PrivateKey} :
    loadECDSA P (some f) = .ok key ↔ ∃ d : Scalar, KeyFile f d ∧ key = d.privateKey P := by
  constructor
  · intro h
    simp only [loadECDSA] at h
    split at h
    · cases h
    · rename_i hlen
      obtain ⟨hread, hle⟩ := readASCII_full (not_not.mp hlen)
      split at h
      · cases h
      · rename_i hend
        rw [hread] at h hend
        obtain ⟨hbroken, hshort, hnewlines⟩ := (checkKeyFileEnd_ok_iff (by omega)).mp hend
        obtain ⟨d, hd, rfl⟩ := hexToECDSA_ok_iff.mp h
        rw [Nat.zero_add] at hshort
        exact ⟨d, ⟨_, _, hbroken, (List.take_append_drop 64 f.rest).symm, hd, hshort,
          hnewlines⟩, rfl⟩
  · rintro ⟨d, ⟨text, ends, hbroken, hrest, hd, hshort, hnewlines⟩, rfl⟩
    obtain ⟨hlen, hprintable⟩ := lower_text hd
    have htake : f.rest.take 64 = text := by rw [hrest, List.take_left' hlen]
    have hdrop : f.rest.drop 64 = ends := by rw [hrest, List.drop_left' hlen]
    have hread : readASCII 64 f.rest = (text, ends) := by
      rw [readASCII_printable _ (htake ▸ hprintable), htake, hdrop]
      rw [hrest, List.length_append]
      omega
    have hend := (checkKeyFileEnd_ok_iff (i := 0) (by omega)).mpr
      ⟨hbroken, by omega, hnewlines⟩
    simp only [loadECDSA, hread, hlen, hend, ne_eq, not_true_eq_false, if_false]
    exact hexToECDSA_ok_iff.mpr ⟨d, hd, rfl⟩

/-- `LoadECDSA` accepts the key files, and no other ones; it gives back the key `SaveECDSA` wrote,
    and what it has read is saved again in lower case and without the newlines. -/
theorem loadECDSA_key_file (P : Primitives) :
    (∀ f key, loadECDSA P (some f) = .ok key ↔ ∃ d, KeyFile f d ∧ key = d.privateKey P) ∧
    (∀ d : Scalar, loadECDSA P (some ⟨saveECDSA (d.privateKey P), false⟩) =
      .ok (d.privateKey P)) ∧
    ∀ f key, loadECDSA P (some f) = .ok key → saveECDSA key = Hex.lower (f.rest.take 64) := by
  refine ⟨fun f key => loadECDSA_ok_iff, fun d => ?_, fun f key h => ?_⟩
  · refine loadECDSA_ok_iff.mpr ⟨d, ⟨saveECDSA (d.privateKey P), [], rfl, ?_, ?_, ?_, ?_⟩, rfl⟩
    · exact (List.append_nil _).symm
    · rw [saveECDSA, Scalar.privateKey, fromECDSA_eq, ← Hex.decode_eq_some_iff, Hex.decode_encode]
    · exact Nat.zero_le 2
    · exact fun b hb => absurd hb List.not_mem_nil
  · obtain ⟨d, ⟨text, ends, -, hrest, hd, -, -⟩, rfl⟩ := loadECDSA_ok_iff.mp h
    rw [saveECDSA, Scalar.privateKey, fromECDSA_eq, hrest, List.take_left' (lower_text hd).1, hd]

end ZipoLogger.Enc
