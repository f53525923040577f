/-
  What the command makes of the lines of a file.

  A line is undecodable and the loop goes on, it decrypts and its text is written, or it stops
  the loop: `Decrypt` returns an error, which `log.Fatalf` reports, or panics (`line_cases`).
  Lines that do not decode change nothing wherever they are inserted; a line that decodes and is
  refused ends the program there (`insert_lines`). When the program returns, it has written the
  texts of the whole file unless a line that decrypts is too long for the scanner or stands
  behind one that is (`main_writesAll_iff`).
-/
import ZipoLogger.Decrypter.EndToEnd

namespace ZipoLogger.Decrypter

open Enc Scanner

/-! ## Lines -/

/-- The scanner delivers the line. -/
def fits (line : Bytes) : Bool := line.length < maxTokenSize

def Undecodable (line : Bytes) : Prop := Base64.decodeString line = none

variable (P : Primitives) (k : KeyDecrypt)

/-- The line is raw base64 of a ciphertext for the key. -/
def Decrypts (line : Bytes) : Prop :=
  ∃ bb b, Base64.decodeString line = some bb ∧ k.decrypt P bb = .ok b

/-- The line is raw base64, and `Decrypt` gives no text. -/
def Stops (line : Bytes) : Prop :=
  ∃ bb f, Base64.decodeString line = some bb ∧ k.decrypt P bb = .error f

/-- What is written for a line. -/
def output (line : Bytes) : Bytes :=
  match Base64.decodeString line with
  | none => []
  | some bb =>
    match k.decrypt P bb with
    | .ok b => b ++ [10]
    | .error _ => []

variable {P k} {line : Bytes} {ls ls' : List Bytes}

/-- What the loop can meet. -/
theorem line_cases (P : Primitives) (k : KeyDecrypt) (line : Bytes) : Undecodable line ∨
    ∃ bb, Base64.decodeString line = some bb ∧ ((∃ b, k.decrypt P bb = .ok b) ∨
      (∃ e, k.decrypt P bb = .error (.error e)) ∨ k.decrypt P bb = .error .panic) := by
  rcases hbb : Base64.decodeString line with _ | bb
  · exact .inl hbb
  · refine .inr ⟨bb, rfl, ?_⟩
    rcases hb : k.decrypt P bb with f | b
    · rcases f with e | _
      · exact .inr (.inl ⟨e, rfl⟩)
      · exact .inr (.inr rfl)
    · exact .inl ⟨b, rfl⟩

section Line

variable {bb b : Bytes} {e : Err}

@[simp] theorem decryptLines_nil : decryptLines P k [] = (.returns, []) := rfl

theorem decryptLines_undecodable (h : Undecodable line) :
    decryptLines P k (line :: ls) = decryptLines P k ls := by
  rw [decryptLines, h]

theorem decryptLines_ok (hbb : Base64.decodeString line = some bb) (hb : k.decrypt P bb = .ok b) :
    decryptLines P k (line :: ls) =
      ((decryptLines P k ls).1, b ++ [10] ++ (decryptLines P k ls).2) := by
  rw [decryptLines, hbb]
  simp only [hb]

theorem decryptLines_refused (hbb : Base64.decodeString line = some bb)
    (hb : k.decrypt P bb = .error (.error e)) :
    decryptLines P k (line :: ls) = (.fatal (.decryption e), []) := by
  rw [decryptLines, hbb]
  simp only [hb]

theorem decryptLines_panics (hbb : Base64.decodeString line = some bb)
    (hb : k.decrypt P bb = .error .panic) : decryptLines P k (line :: ls) = (.panics, []) := by
  rw [decryptLines, hbb]
  simp only [hb]

theorem output_undecodable (h : Undecodable line) : output P k line = [] := by
  rw [output, h]

theorem output_ok (hbb : Base64.decodeString line = some bb) (hb : k.decrypt P bb = .ok b) :
    output P k line = b ++ [10] := by
  rw [output, hbb]
  simp only [hb]

theorem stops_of_error {f : Fault} (hbb : Base64.decodeString line = some bb)
    (hb : k.decrypt P bb = .error f) : Stops P k line := ⟨bb, f, hbb, hb⟩

theorem not_stops_undecodable (h : Undecodable line) : ¬ Stops P k line := by
  intro hs
  obtain ⟨bb, f, hbb, -⟩ := hs
  cases h.symm.trans hbb

theorem not_stops_ok (hbb : Base64.decodeString line = some bb) (hb : k.decrypt P bb = .ok b) :
    ¬ Stops P k line := by
  intro hs
  obtain ⟨bb', f, hbb', hf⟩ := hs
  cases hbb.symm.trans hbb'
  cases hb.symm.trans hf

/-- Something is written exactly for the lines that decrypt. -/
theorem output_ne_nil_iff : output P k line ≠ [] ↔ Decrypts P k line := by
  unfold output
  constructor
  · intro h
    split at h
    · exact absurd rfl h
    · split at h
      · exact ⟨_, _, ‹_›, ‹_›⟩
      · exact absurd rfl h
  · intro h
    obtain ⟨bb, b, hbb, hb⟩ := h
    simp [hbb, hb]

end Line

/-! ## The loop -/

/-- The loop comes to its end when no line stops it. -/
theorem decryptLines_returns_iff :
    (decryptLines P k ls).1 = .returns ↔ ∀ line ∈ ls, ¬ Stops P k line := by
  induction ls with
  | nil => simp
  | cons line ls ih =>
    rw [List.forall_mem_cons, ← ih]
    rcases line_cases P k line with h | ⟨bb, hbb, ⟨b, hb⟩ | ⟨e, he⟩ | hp⟩
    · simp [decryptLines_undecodable h, not_stops_undecodable h]
    · simp [decryptLines_ok hbb hb, not_stops_ok hbb hb]
    · simp [decryptLines_refused hbb he, stops_of_error hbb he]
    · simp [decryptLines_panics hbb hp, stops_of_error hbb hp]

/-- Then it has written the texts of all lines. -/
theorem decryptLines_output (h : (decryptLines P k ls).1 = .returns) :
    (decryptLines P k ls).2 = ls.flatMap (output P k) := by
  induction ls with
  | nil => rfl
  | cons line ls ih =>
    rw [List.flatMap_cons]
    rcases line_cases P k line with hu | ⟨bb, hbb, ⟨b, hb⟩ | ⟨e, he⟩ | hp⟩
    · rw [decryptLines_undecodable hu] at h ⊢
      rw [ih h, output_undecodable hu, List.nil_append]
    · rw [decryptLines_ok hbb hb] at h ⊢
      rw [output_ok hbb hb, ← ih h]
    · rw [decryptLines_refused hbb he] at h
      cases h
    · rw [decryptLines_panics hbb hp] at h
      cases h

/-- The loop over two pieces: the second one is read if the first one is read through. -/
theorem decryptLines_append : decryptLines P k (ls ++ ls') =
    if (decryptLines P k ls).1 = .returns then
      ((decryptLines P k ls').1, (decryptLines P k ls).2 ++ (decryptLines P k ls').2)
    else decryptLines P k ls := by
  induction ls with
  | nil => simp
  | cons line ls ih =>
    rw [List.cons_append]
    rcases line_cases P k line with h | ⟨bb, hbb, ⟨b, hb⟩ | ⟨e, he⟩ | hp⟩
    · rw [decryptLines_undecodable h, decryptLines_undecodable h, ih]
    · rw [decryptLines_ok hbb hb, decryptLines_ok hbb hb, ih]
      split
      · simp
      · rfl
    · simp [decryptLines_refused hbb he]
    · simp [decryptLines_panics hbb hp]

/-- A piece that fits and does not stop the loop is read through. -/
theorem decryptLines_through (h : ∀ line ∈ ls, fits line = true ∧ ¬ Stops P k line) :
    decryptLines P k ((ls ++ ls').takeWhile fits) =
      ((decryptLines P k (ls'.takeWhile fits)).1,
        ls.flatMap (output P k) ++ (decryptLines P k (ls'.takeWhile fits)).2) := by
  have hret := decryptLines_returns_iff.mpr fun line hl => (h line hl).2
  rw [List.takeWhile_append_of_pos fun line hl => (h line hl).1, decryptLines_append, if_pos hret,
    decryptLines_output hret]

/-- Nothing is read behind a piece with a line that is too long or stops the loop. -/
theorem decryptLines_ends (h : ∃ line ∈ ls, fits line = false ∨ Stops P k line) :
    decryptLines P k ((ls ++ ls').takeWhile fits) = decryptLines P k (ls.takeWhile fits) := by
  by_cases hfit : ∀ line ∈ ls, fits line = true
  · obtain ⟨line, hl, hno⟩ := h
    have hstop : Stops P k line := by
      rcases hno with hno | hstop
      · rw [hfit line hl] at hno
        cases hno
      · exact hstop
    have hret : ¬ (decryptLines P k ls).1 = .returns := fun hr =>
      decryptLines_returns_iff.mp hr line hl hstop
    rw [List.takeWhile_append_of_pos hfit, decryptLines_append, if_neg hret,
      List.takeWhile_eq_self_iff.mpr hfit]
  · rw [List.takeWhile_append, if_neg]
    intro hlen
    refine hfit (List.takeWhile_eq_self_iff.mp ?_)
    exact (List.takeWhile_prefix fits).eq_of_length hlen

/-! ## Inserted lines -/

/-- The second list is the first one with lines of a kind inserted anywhere. -/
inductive Inserted (F : Bytes → Prop) : List Bytes → List Bytes → Prop
  | nil : Inserted F [] []
  | keep {a b : List Bytes} (line : Bytes) : Inserted F a b → Inserted F (line :: a) (line :: b)
  | insert {a b : List Bytes} {line : Bytes} : F line → Inserted F a b → Inserted F a (line :: b)

/-- A line the loop passes over. -/
def Passed (line : Bytes) : Prop := fits line = true ∧ Undecodable line

section Inserted

variable {F : Bytes → Prop} {a b : List Bytes} {f f' : Bytes}

theorem Inserted.refl (F : Bytes → Prop) (a : List Bytes) : Inserted F a a := by
  induction a with
  | nil => exact .nil
  | cons line a ih => exact .keep line ih

/-- A line inserted into a file, at the beginning of one of its lines. -/
theorem Inserted.file {head line rest : Bytes} (hhead : head = [] ∨ head.getLast? = some 10)
    (hn : ∀ c ∈ line, c ≠ 10) (hF : F line) :
    Inserted F (lines (head ++ rest)) (lines (head ++ (line ++ 10 :: rest))) := by
  rcases hhead with rfl | hlast
  · rw [List.nil_append, List.nil_append, lines_cons hn]
    exact .insert hF (.refl F _)
  · obtain ⟨ys, rfl⟩ := List.getLast?_eq_some_iff.mp hlast
    rw [lines, lines, linesFrom_append, linesFrom_append, lines_cons hn]
    induction linesFrom [] (ys ++ [10]) with
    | nil => exact .insert hF (.refl F _)
    | cons x xs ih => exact .keep x ih

theorem Inserted.takeWhile (h : Inserted Passed a b) :
    Inserted Passed (a.takeWhile fits) (b.takeWhile fits) := by
  induction h with
  | nil => exact .nil
  | keep line _ ih =>
    by_cases hl : fits line = true
    · rw [List.takeWhile_cons_of_pos hl, List.takeWhile_cons_of_pos hl]
      exact .keep line ih
    · rw [List.takeWhile_cons_of_neg hl, List.takeWhile_cons_of_neg hl]
      exact .nil
  | insert hF _ ih =>
    rw [List.takeWhile_cons_of_pos hF.1]
    exact .insert hF ih

/-- Lines that do not decode change nothing. -/
theorem Inserted.decryptLines (h : Inserted Passed a b) :
    Decrypter.decryptLines P k b = Decrypter.decryptLines P k a := by
  induction h with
  | nil => rfl
  | keep line _ ih =>
    rcases line_cases P k line with hu | ⟨bb, hbb, ⟨b, hb⟩ | ⟨e, he⟩ | hp⟩
    · rw [decryptLines_undecodable hu, decryptLines_undecodable hu, ih]
    · rw [decryptLines_ok hbb hb, decryptLines_ok hbb hb, ih]
    · rw [decryptLines_refused hbb he, decryptLines_refused hbb he]
    · rw [decryptLines_panics hbb hp, decryptLines_panics hbb hp]
  | insert hF _ ih => rw [decryptLines_undecodable hF.2, ih]

theorem Inserted.passes (h : Inserted Passed a b) :
    (∀ x ∈ b, fits x = true ∧ ¬ Stops P k x) ↔ ∀ x ∈ a, fits x = true ∧ ¬ Stops P k x := by
  induction h with
  | nil => rfl
  | keep line _ ih => rw [List.forall_mem_cons, List.forall_mem_cons, ih]
  | insert hF _ ih =>
    rw [List.forall_mem_cons, ih]
    exact and_iff_right ⟨hF.1, not_stops_undecodable hF.2⟩

theorem Inserted.ends (h : Inserted Passed a b) :
    (∃ x ∈ b, fits x = false ∨ Stops P k x) ↔ ∃ x ∈ a, fits x = false ∨ Stops P k x := by
  have hp := h.passes (P := P) (k := k)
  rw [← not_iff_not]
  push Not
  simpa only [Bool.not_eq_false] using hp

theorem Inserted.output (h : Inserted Passed a b) :
    b.flatMap (Decrypter.output P k) = a.flatMap (Decrypter.output P k) := by
  induction h with
  | nil => rfl
  | keep line _ ih => rw [List.flatMap_cons, List.flatMap_cons, ih]
  | insert hF _ ih => rw [List.flatMap_cons, output_undecodable hF.2, List.nil_append, ih]

end Inserted

/-- Lines that do not decode change nothing, wherever they are inserted. A line that decodes and is
    refused, behind lines that fit and do not stop the loop, ends the program with the error;
    what was written for the lines before it stays. -/
theorem insert_lines (P : Primitives) (k : KeyDecrypt) (f f' : Bytes) :
    (Inserted Passed (lines f) (lines f') → decryptFile P k f' = decryptFile P k f) ∧
    ∀ (pre post pre' post' : List Bytes) (line bb : Bytes) (e : Err),
      lines f = pre ++ post → lines f' = pre' ++ line :: post' → Inserted Passed pre pre' →
      fits line = true → Base64.decodeString line = some bb →
      k.decrypt P bb = .error (.error e) →
        ((∀ x ∈ pre, fits x = true ∧ ¬ Stops P k x) →
          decryptFile P k f' = (.fatal (.decryption e), pre.flatMap (output P k))) ∧
        ((∃ x ∈ pre, fits x = false ∨ Stops P k x) →
          decryptFile P k f' = decryptFile P k f) := by
  have heq : ∀ file, decryptFile P k file = decryptLines P k ((lines file).takeWhile fits) :=
    decryptFile_eq
  refine ⟨fun h => ?_, fun pre post pre' post' line bb e hf hf' hins hline hbb he => ?_⟩
  · rw [heq, heq, h.takeWhile.decryptLines]
  · rw [heq, heq, hf, hf']
    constructor
    · intro hpre
      rw [decryptLines_through (hins.passes.mpr hpre), List.takeWhile_cons_of_pos hline,
        decryptLines_refused hbb he, hins.output, List.append_nil]
    · intro hend
      rw [decryptLines_ends hend, decryptLines_ends (hins.ends.mpr hend),
        hins.takeWhile.decryptLines]

/-- The decryption key of the scalar 1. -/
def unitDecrypt : KeyDecrypt := ⟨⟨1, basePoint⟩⟩

/-- The line of the record of `a`. -/
def encryptedLine : Bytes := encryptedRecord.dropLast

theorem lines_encryptedRecord : lines encryptedRecord = [encryptedLine] := by decide +kernel

theorem encryptedLine_decrypts : ∃ bb, Base64.decodeString encryptedLine = some bb ∧
    unitDecrypt.decrypt unitPrimitives bb = .ok [97] := by
  have h : (Base64.decodeString encryptedLine).map (unitDecrypt.decrypt unitPrimitives) =
      some (.ok [97]) := by decide +kernel
  exact Option.map_eq_some_iff.mp h

/-- A line with a space before a record, and a blank line behind it. -/
theorem insert_lines_encryptedRecord :
    decryptFile unitPrimitives unitDecrypt ([32] ++ 10 :: encryptedRecord) =
        decryptFile unitPrimitives unitDecrypt encryptedRecord ∧
      decryptFile unitPrimitives unitDecrypt (encryptedRecord ++ [10]) =
        (.fatal (.decryption .invalidMessage), [97, 10]) := by
  constructor
  · have hins : Inserted Passed (lines ([] ++ encryptedRecord))
        (lines ([] ++ ([32] ++ 10 :: encryptedRecord))) :=
      .file (.inl rfl) (by simp) ⟨by decide, rfl⟩
    rw [List.nil_append, List.nil_append] at hins
    exact (insert_lines unitPrimitives unitDecrypt encryptedRecord
      ([32] ++ 10 :: encryptedRecord)).1 hins
  · obtain ⟨bb, hbb, hb⟩ := encryptedLine_decrypts
    have h := ((insert_lines unitPrimitives unitDecrypt encryptedRecord (encryptedRecord ++ [10])).2
      [encryptedLine] [] [encryptedLine] [] [] [] .invalidMessage lines_encryptedRecord
      (by decide +kernel) (.refl _ _) (by decide) rfl rfl).1
    rw [h]
    · simp [output_ok hbb hb]
    · intro x hx
      cases List.mem_singleton.mp hx
      exact ⟨by decide +kernel, not_stops_ok hbb hb⟩

/-- A blank line before a record: the text of the record is not written. -/
theorem blank_line_ends : ¬ ∀ (k : KeyDecrypt) (f f' : Bytes),
    Inserted (fun line => fits line = true ∧ ¬ Decrypts unitPrimitives k line)
      (lines f) (lines f') →
        (decryptFile unitPrimitives k f').2 = (decryptFile unitPrimitives k f).2 := by
  intro h
  have hno : ¬ Decrypts unitPrimitives unitDecrypt [] := by
    intro hd
    obtain ⟨bb, b, hbb, hb⟩ := hd
    cases hbb
    cases hb
  have hout := h unitDecrypt ([] ++ encryptedRecord) ([] ++ ([] ++ 10 :: encryptedRecord))
    (.file (.inl rfl) (by simp) ⟨by decide, hno⟩)
  exact absurd hout (by decide +kernel)

/-! ## The whole file -/

/-- If the command returns, it has written the texts of all lines of the file. -/
def WritesAll (P : Primitives) (k : KeyDecrypt) (infile : Bytes) (r : Exit × Option Bytes) : Prop :=
  r.1 = .returns → r.2 = some ((lines infile).flatMap (output P k))

/-- When the command returns, it has written the texts of all lines of the file exactly if a line
    before the first one that is too long stops it, or no line from that one on decrypts. -/
theorem main_writesAll_iff {file key infile : Bytes} {openFile : Bytes → Option Bytes}
    {create : Bytes → Bool} (hfile : file ≠ []) (hkey : newDecryptKey P key = some k)
    (hopen : openFile file = some infile) (hcreate : create (file ++ [46, 100, 101, 99]) = true) :
    WritesAll P k infile (main P file key openFile create) ↔
      (∃ line ∈ (lines infile).takeWhile fits, Stops P k line) ∨
        ∀ line ∈ (lines infile).dropWhile fits, ¬ Decrypts P k line := by
  have heq : decryptFile P k infile = decryptLines P k ((lines infile).takeWhile fits) :=
    decryptFile_eq infile
  have hsplit : (lines infile).flatMap (output P k) =
      ((lines infile).takeWhile fits).flatMap (output P k) ++
        ((lines infile).dropWhile fits).flatMap (output P k) := by
    rw [← List.flatMap_append, List.takeWhile_append_dropWhile]
  have hrest : (∀ line ∈ (lines infile).dropWhile fits, ¬ Decrypts P k line) ↔
      ((lines infile).dropWhile fits).flatMap (output P k) = [] := by
    rw [List.flatMap_eq_nil_iff]
    simp only [← output_ne_nil_iff, not_not]
  rw [hrest, main_opened hfile hkey hopen hcreate, WritesAll, heq, hsplit]
  by_cases hstop : ∃ line ∈ (lines infile).takeWhile fits, Stops P k line
  · have hno : ¬ (decryptLines P k ((lines infile).takeWhile fits)).1 = .returns := by
      rw [decryptLines_returns_iff]
      push Not
      exact hstop
    simp [hno, hstop]
  · have hret : (decryptLines P k ((lines infile).takeWhile fits)).1 = .returns := by
      rw [decryptLines_returns_iff]
      push Not at hstop
      exact hstop
    simp [hret, hstop, decryptLines_output hret]

theorem main_writesAll_iff_encryptedRecord :
    WritesAll unitPrimitives unitDecrypt encryptedRecord
        (main unitPrimitives [102] (Hex.encodeToString (BigEndian.fixed 32 1))
          (fun _ => some encryptedRecord) fun _ => true) ↔
      (∃ line ∈ (lines encryptedRecord).takeWhile fits, Stops unitPrimitives unitDecrypt line) ∨
        ∀ line ∈ (lines encryptedRecord).dropWhile fits,
          ¬ Decrypts unitPrimitives unitDecrypt line :=
  main_writesAll_iff (by simp) (newDecryptKey_fixed unitScalar) rfl rfl

/-- A line of 65536 bytes before a record. -/
def longLineFile : Bytes := List.replicate maxTokenSize 97 ++ 10 :: encryptedRecord

theorem lines_longLineFile :
    lines longLineFile = [List.replicate maxTokenSize 97, encryptedLine] := by
  have hn : ∀ c ∈ List.replicate maxTokenSize (97 : UInt8), c ≠ 10 := by
    intro c hc
    rw [List.eq_of_mem_replicate hc]
    decide
  rw [longLineFile, lines_cons hn, lines_encryptedRecord]

/-- The command returns, and the text of the record is missing. -/
theorem longLineFile_truncated : ¬ ∀ (file key infile : Bytes) (k : KeyDecrypt), file ≠ [] →
    newDecryptKey unitPrimitives key = some k →
      WritesAll unitPrimitives k infile
        (main unitPrimitives file key (fun _ => some infile) fun _ => true) := by
  intro h
  have hfile : ([102] : Bytes) ≠ [] := by simp
  have hlong : ¬ fits (List.replicate maxTokenSize 97) = true := by simp [fits]
  have hloop : decryptFile unitPrimitives unitDecrypt longLineFile = (.returns, []) := by
    have heq : decryptFile unitPrimitives unitDecrypt longLineFile =
        decryptLines unitPrimitives unitDecrypt ((lines longLineFile).takeWhile fits) :=
      decryptFile_eq longLineFile
    rw [heq, lines_longLineFile, List.takeWhile_cons_of_neg hlong]
    rfl
  obtain ⟨bb, hbb, hb⟩ := encryptedLine_decrypts
  have hkey : newDecryptKey unitPrimitives (Hex.encodeToString (BigEndian.fixed 32 1)) =
      some unitDecrypt := newDecryptKey_fixed unitScalar
  have hmain : main unitPrimitives [102] (Hex.encodeToString (BigEndian.fixed 32 1))
      (fun _ => some longLineFile) (fun _ => true) =
        ((decryptFile unitPrimitives unitDecrypt longLineFile).1,
          some (decryptFile unitPrimitives unitDecrypt longLineFile).2) :=
    main_opened hfile hkey rfl rfl
  rw [hloop] at hmain
  have hout := h _ _ _ _ hfile hkey (congrArg Prod.fst hmain)
  rw [hmain, lines_longLineFile, List.flatMap_cons, List.flatMap_cons, output_ok hbb hb] at hout
  simp at hout

end ZipoLogger.Decrypter
