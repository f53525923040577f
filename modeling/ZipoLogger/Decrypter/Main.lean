/-
  decrypter/main.go: the command that decrypts a log file.

  The loop reads lines with `bufio.Scanner`, skips the ones that are not base64, ends the program
  on the first ciphertext that does not decrypt, and never asks `scanner.Err`. Writes to the
  output file are taken to succeed.

  `decryptFile_records_iff`: what the loop makes of a file of the worker's records. A record of an
  empty text is an empty line, which `Decrypt` refuses; a record of more than 49038 bytes of text
  is longer than the scanner's buffer, and the loop ends as if the file did.
-/
import ZipoLogger.Lib.Scanner
import ZipoLogger.Logger.Secrecy

namespace ZipoLogger.Decrypter

open Enc Scanner

/-- The calls of `log.Fatal`. -/
inductive Fatal where
  /-- `failed to open file: %s` -/
  | openFile
  /-- `failed to create file: %s` -/
  | createFile
  /-- `incorrect key for decryption` -/
  | incorrectKey
  /-- `decryption error: %s` -/
  | decryption (e : Err)
  deriving DecidableEq

/-- How the command ends. -/
inductive Exit where
  | returns
  | fatal (f : Fatal)
  | panics
  deriving DecidableEq

variable (P : Primitives)

/-- The body of the loop over the scanned lines; what it writes to the output file. -/
def decryptLines (decryptor : KeyDecrypt) : List Bytes → Exit × Bytes
  | [] => (.returns, [])
  | text :: rest =>
    match Base64.decodeString text with
    | none => decryptLines decryptor rest
    | some bb =>
      match decryptor.decrypt P bb with
      | .error (.error e) => (.fatal (.decryption e), [])
      | .error .panic => (.panics, [])
      | .ok b =>
        let r := decryptLines decryptor rest
        (r.1, b ++ [10] ++ r.2)

/-- The loop over a file. -/
def decryptFile (decryptor : KeyDecrypt) (infile : Bytes) : Exit × Bytes :=
  decryptLines P decryptor (scanLines maxTokenSize infile).1

/-- `main` with its flags; the contents of the output file if it was created. -/
def main (file key : Bytes) (openFile : Bytes → Option Bytes) (create : Bytes → Bool) :
    Exit × Option Bytes :=
  if file = [] ∨ key.length < 10 then (.returns, none)
  else
    match openFile file with
    | none => (.fatal .openFile, none)
    | some infile =>
      if create (file ++ [46, 100, 101, 99]) then
        match newDecryptKey P key with
        | none => (.fatal .incorrectKey, some [])
        | some decryptor => ((decryptFile P decryptor infile).map id some)
      else (.fatal .createFile, none)

variable {P} {decryptor : KeyDecrypt} {c rest : Bytes}

/-- With files that open and a valid key, the command is its loop. -/
theorem main_opened {file key infile : Bytes} {openFile : Bytes → Option Bytes}
    {create : Bytes → Bool} (hfile : file ≠ []) (hkey : newDecryptKey P key = some decryptor)
    (hopen : openFile file = some infile) (hcreate : create (file ++ [46, 100, 101, 99]) = true) :
    main P file key openFile create =
      ((decryptFile P decryptor infile).1, some (decryptFile P decryptor infile).2) := by
  have hlen : ¬ key.length < 10 := by
    have := newDecryptKey_length hkey
    omega
  simp only [main, hfile, hlen, or_self, if_false, hopen, hcreate, if_true, hkey]
  rfl

/-! ## The lines of the file -/

/-- The decoder skips the carriage return anyway. -/
theorem decodeString_dropCR (line : Bytes) :
    Base64.decodeString (dropCR line) = Base64.decodeString line := by
  rcases dropCR_cases line with h | h
  · rw [h]
  · have hf : line.filter (fun c => c ≠ 10 ∧ c ≠ 13) =
        (dropCR line).filter (fun c => c ≠ 10 ∧ c ≠ 13) := by
      rw [← h, List.filter_append, h]
      simp
    rw [Base64.decodeString, Base64.decodeString, hf]

theorem decryptLines_dropCR (texts : List Bytes) :
    decryptLines P decryptor (texts.map dropCR) = decryptLines P decryptor texts := by
  induction texts with
  | nil => rfl
  | cons text texts ih => rw [List.map_cons, decryptLines, decryptLines, decodeString_dropCR, ih]

/-- The loop runs over the lines before the first one that is too long. -/
theorem decryptFile_eq (infile : Bytes) : decryptFile P decryptor infile =
    decryptLines P decryptor ((lines infile).takeWhile (·.length < maxTokenSize)) := by
  rw [decryptFile, scanLines_eq (by decide), decryptLines_dropCR]

/-! ## One record -/

/-- A line of base64 that fits the scanner's buffer is decrypted. -/
theorem decryptFile_line (hlen : (Base64.encodeToString c).length < maxTokenSize) :
    decryptFile P decryptor (Base64.encodeToString c ++ [10] ++ rest) =
      match decryptor.decrypt P c with
      | .error (.error e) => (.fatal (.decryption e), [])
      | .error .panic => (.panics, [])
      | .ok b =>
        ((decryptFile P decryptor rest).1, b ++ [10] ++ (decryptFile P decryptor rest).2) := by
  rw [decryptFile_eq, List.append_assoc, List.singleton_append,
    lines_cons fun b hb => (Base64.encode_ne b hb).1,
    List.takeWhile_cons_of_pos (by simpa using hlen), decryptLines, Base64.decode_encode,
    ← decryptFile_eq]

/-- A longer one ends the loop. -/
theorem decryptFile_long (hlen : maxTokenSize ≤ (Base64.encodeToString c).length) :
    decryptFile P decryptor (Base64.encodeToString c ++ [10] ++ rest) = (.returns, []) := by
  rw [decryptFile_eq, List.append_assoc, List.singleton_append,
    lines_cons fun b hb => (Base64.encode_ne b hb).1,
    List.takeWhile_cons_of_neg (by simpa using hlen)]
  rfl

/-- The longest text whose record the scanner delivers. -/
def maxText : Nat := 49038

/-- The worker's record of a text, read back by the loop. -/
theorem decryptFile_record {d : Scalar} {msg record : Bytes} {draws : Draws}
    (h : workerRecord P (some ⟨P.pub d.D⟩) msg draws = some record) (hok : draws.ok = true)
    (rest : Bytes) :
    decryptFile P ⟨⟨d.D, P.pub d.D⟩⟩ (record ++ rest) =
      if trimNewlines msg = [] then (.fatal (.decryption .invalidMessage), [])
      else if (trimNewlines msg).length ≤ maxText then
        ((decryptFile P ⟨⟨d.D, P.pub d.D⟩⟩ rest).1,
          trimNewlines msg ++ [10] ++ (decryptFile P ⟨⟨d.D, P.pub d.D⟩⟩ rest).2)
      else (.returns, []) := by
  obtain ⟨-, c, hc, rfl⟩ | ⟨hno, -⟩ := workerRecord_key h
  swap
  · rw [hno] at hok
    cases hok
  have hlen := encrypt_length hc
  obtain ⟨k, iv, rfl⟩ := Draws.of_ok hok
  obtain ⟨z, hz, henc⟩ := encrypt_pub P d k iv (trimNewlines msg)
  have hcipher := Except.ok.inj (henc.symm.trans hc)
  by_cases hm : trimNewlines msg = []
  · rw [if_pos hm] at hcipher ⊢
    subst hcipher
    rw [decryptFile_line (by decide)]
    rfl
  · rw [if_neg hm] at hlen hcipher ⊢
    have henclen := Base64.encode_length c
    split
    · rename_i hle
      have hdec : (⟨⟨d.D, P.pub d.D⟩⟩ : KeyDecrypt).decrypt P c = .ok (trimNewlines msg) := by
        rw [← hcipher]
        exact decrypt_sealed hm hz
      rw [decryptFile_line (by simp only [maxText, maxTokenSize] at *; omega), hdec]
    · rw [decryptFile_long (by simp only [maxText, maxTokenSize] at *; omega)]

/-- The loop gives back the texts of a file of records exactly when each of them is not empty and
    at most `maxText` bytes long. -/
theorem decryptFile_records_iff {d : Scalar} {es : List (Bytes × Bytes)}
    (hes : ∀ e ∈ es, ∃ draws : Draws, draws.ok = true ∧
      workerRecord P (some ⟨P.pub d.D⟩) e.1 draws = some e.2) :
    decryptFile P ⟨⟨d.D, P.pub d.D⟩⟩ (es.flatMap Prod.snd) =
        (.returns, es.flatMap fun e => trimNewlines e.1 ++ [10]) ↔
      ∀ e ∈ es, trimNewlines e.1 ≠ [] ∧ (trimNewlines e.1).length ≤ maxText := by
  induction es with
  | nil => simp [decryptFile_eq, decryptLines]
  | cons e es ih =>
    obtain ⟨draws, hok, hrec⟩ := hes e List.mem_cons_self
    have ih := ih fun e he => hes e (List.mem_cons_of_mem _ he)
    rw [List.flatMap_cons, decryptFile_record hrec hok, List.flatMap_cons, List.forall_mem_cons]
    split
    · rename_i hnil
      simp [hnil]
    · rename_i hne
      split
      · rename_i hle
        rw [← ih]
        simp only [hne, hle, ne_eq, not_false_eq_true, and_self, true_and, Prod.ext_iff]
        rw [List.append_cancel_left_eq]
      · rename_i hlong
        simp [hlong]

end ZipoLogger.Decrypter
