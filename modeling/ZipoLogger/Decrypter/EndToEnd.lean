/-
  From the messages of a logger to the output of the decrypter.

  A key pair of `NewKey`, its encryption key in force for every message of a logger, its
  decryption key given to the command: `file_decrypts_iff` says for which messages the command
  returns and writes every text, in order, on a line of its own.
-/
import ZipoLogger.Decrypter.Main

namespace ZipoLogger.Decrypter

open Enc BigEndian

variable {P : Primitives}

/-! ## The file of a logger -/

/-- Whenever the worker looked up the key of a message of `l` it handed over, the key was in force;
    and it skipped none of them, and all the draws succeeded. -/
structure WrittenUnder {n : Nat} (T : (machine P).Trace n) (l : Ptr) (key : Option KeyEncrypt) :
    Prop where
  inForce : ∀ m key' draws record d c, Handles T m key' draws record d c → m.log = l →
    (T.state d).sh.keyInForce l = key
  written : ∀ p ∈ (T.state n).sh.processed, p.message.log = l →
    ∃ key' draws record, p.fate = .written key' draws record ∧ draws.ok = true

/-- It is the key the worker wrote them under. -/
theorem writtenUnder_iff {n : Nat} {T : (machine P).Trace n} {l : Ptr} {key : Option KeyEncrypt} :
    WrittenUnder T l key ↔ ∀ p ∈ (T.state n).sh.processed, p.message.log = l →
      ∃ draws record, p.fate = .written key draws record ∧ draws.ok = true := by
  constructor
  · rintro h ⟨m, fate⟩ hp hl
    obtain ⟨key', draws, record, rfl, hok⟩ := h.written _ hp hl
    obtain ⟨c, -, hw⟩ := exists_writes T le_rfl hp
    obtain ⟨d, hd⟩ := exists_handling hw
    have hl : m.log = l := hl
    have hkey := hd.key_eq
    rw [hl, h.inForce _ _ _ _ _ _ hd hl] at hkey
    exact ⟨draws, record, by rw [hkey], hok⟩
  · refine fun h => ⟨fun m key' draws record d c hd hl => ?_, fun p hp hl => ?_⟩
    · have hgrow : (T.state (c + 1)).sh.processed <+: (T.state n).sh.processed :=
        (run_extends (T.run hd.writes.1 le_rfl)).processed
      have hp : (⟨m, .written key' draws record⟩ : Processed) ∈ (T.state n).sh.processed := by
        refine hgrow.subset ?_
        rw [hd.writes.2]
        exact List.mem_append_right _ (List.mem_singleton_self _)
      obtain ⟨draws', record', hf, -⟩ := h _ hp hl
      cases hf
      rw [← hl]
      exact hd.key_eq.symm
    · obtain ⟨draws, record, hf, hok⟩ := h p hp hl
      exact ⟨key, draws, record, hf, hok⟩

/-- The log file of a writer: the records passed to `log.Print`. -/
def logFile (w : Writer) : Bytes := w.records.flatMap Record.bytes

/-- The texts of `l`, in the order the worker handled them. -/
def textsOf (u : State) (l : Ptr) : List Bytes :=
  (u.sh.handled.filter (·.log = l)).map (·.msg)

theorem recordsOf_texts {ps : List Processed} {l : Ptr}
    (h : ∀ p ∈ ps, p.message.log = l → ∃ key draws record, p.fate = .written key draws record) :
    (ps.filterMap (Processed.recordOf l)).map (·.source.msg) =
      ((ps.map (·.message)).filter (·.log = l)).map (·.msg) := by
  induction ps with
  | nil => rfl
  | cons p ps ih =>
    have ih := ih fun q hq => h q (List.mem_cons_of_mem _ hq)
    rw [List.map_cons]
    by_cases hl : p.message.log = l
    · obtain ⟨key, draws, record, hf⟩ := h p List.mem_cons_self hl
      have hr : Processed.recordOf l p = some ⟨record, p.message⟩ := by
        simp [Processed.recordOf, hf, hl]
      rw [List.filterMap_cons_some hr, List.filter_cons_of_pos (by simpa using hl), List.map_cons,
        List.map_cons, ih]
    · have hr : Processed.recordOf l p = none := by
        unfold Processed.recordOf
        split
        · rfl
        · rw [if_neg hl]
      rw [List.filterMap_cons_none hr, List.filter_cons_of_neg (by simpa using hl), ih]

/-- The command run on a file with the text form of a generated decryption key. -/
theorem main_eq {draw : Option Scalar} {kp : Key} (hkp : newKey P draw = some kp) {file : Bytes}
    (hfile : file ≠ []) (infile : Bytes) :
    ∃ d : Scalar, newEncryptKey kp.keyEncrypt.encryptionKey = some ⟨P.pub d.D⟩ ∧
      main P file kp.keyDecrypt.decryptionKey (fun _ => some infile) (fun _ => true) =
        ((decryptFile P ⟨⟨d.D, P.pub d.D⟩⟩ infile).1,
          some (decryptFile P ⟨⟨d.D, P.pub d.D⟩⟩ infile).2) := by
  cases draw with
  | none => cases hkp
  | some d =>
    obtain ⟨k, hk, henc, hdec⟩ := newKey_texts (P := P) d
    cases hk.symm.trans hkp
    exact ⟨d, henc, main_opened hfile hdec rfl rfl⟩

/-- The command returns and writes each text, in order, with one newline after it. -/
def DecryptsTo (P : Primitives) (kp : Key) (file infile : Bytes) (texts : List Bytes) : Prop :=
  main P file kp.keyDecrypt.decryptionKey (fun _ => some infile) (fun _ => true) =
    (.returns, some (texts.flatMap fun text => trimNewlines text ++ [10]))

/-- In every run, the file of a logger whose messages were written under the encryption key of a
    generated pair decrypts with its decryption key to the texts of the logger exactly when none
    of them is only newlines and none is longer than `maxText`. -/
theorem file_decrypts_iff {n : Nat} (T : (machine P).Trace n) {draw : Option Scalar} {kp : Key}
    (hkp : newKey P draw = some kp) {l : Ptr} {w : Wid}
    (hlog : ((T.state n).sh.loggers l).log = some w)
    (hkey : WrittenUnder T l (newEncryptKey kp.keyEncrypt.encryptionKey)) {file : Bytes}
    (hfile : file ≠ []) :
    DecryptsTo P kp file (logFile ((T.state n).sh.writers w)) (textsOf (T.state n) l) ↔
      ∀ text ∈ textsOf (T.state n) l,
        trimNewlines text ≠ [] ∧ (trimNewlines text).length ≤ maxText := by
  have h : (machine P).Reach (T.state n) := T.reach le_rfl
  rw [writtenUnder_iff] at hkey
  generalize T.state n = u at h hlog hkey ⊢
  obtain ⟨d, henc, hmain⟩ := main_eq hkp hfile (logFile (u.sh.writers w))
  rw [henc] at hkey
  have hrecs := (reach_routed h).records l w hlog
  have htexts : (u.sh.recordsOf l).map (·.source.msg) = textsOf u l :=
    recordsOf_texts fun p hp hl =>
      let ⟨draws, record, hf, _⟩ := hkey p hp hl
      ⟨_, draws, record, hf⟩
  -- the texts with their records
  set es := (u.sh.recordsOf l).map fun r => (r.source.msg, r.bytes) with hes
  have hfst : es.map Prod.fst = textsOf u l := by
    rw [hes, List.map_map, ← htexts]
    rfl
  have hmade : ∀ e ∈ es, ∃ draws : Draws, draws.ok = true ∧
      workerRecord P (some ⟨P.pub d.D⟩) e.1 draws = some e.2 := by
    intro e he
    obtain ⟨r, hr, rfl⟩ := List.mem_map.mp he
    obtain ⟨p, hp, hpr⟩ := List.mem_filterMap.mp hr
    obtain ⟨key, draws, record, hf, hl, rfl⟩ := Processed.recordOf_eq_some hpr
    obtain ⟨draws', record', hf', hok⟩ := hkey p hp hl
    cases hf.symm.trans hf'
    exact ⟨draws, hok, reach_made h p hp _ _ _ hf⟩
  have hinfile : logFile (u.sh.writers w) = es.flatMap Prod.snd := by
    rw [logFile, hrecs, hes, List.flatMap_map]
  have hout : ((textsOf u l).flatMap fun text => trimNewlines text ++ [10]) =
      es.flatMap fun e => trimNewlines e.1 ++ [10] := by
    rw [← hfst, List.flatMap_map]
  clear_value es
  have hiff := decryptFile_records_iff hmade
  rw [DecryptsTo, hmain, hinfile, hout]
  simp only [Prod.mk.injEq, Option.some.injEq]
  rw [← Prod.mk.injEq, Prod.mk.eta, hiff, ← hfst, List.forall_mem_map]

/-- The pair of the scalar 1. -/
def unitKey : Key := ⟨⟨basePoint⟩, ⟨⟨1, basePoint⟩⟩⟩

theorem newKey_unitScalar : newKey unitPrimitives (some unitScalar) = some unitKey := rfl

theorem newEncryptKey_unitKey :
    newEncryptKey unitKey.keyEncrypt.encryptionKey = some ⟨basePoint⟩ :=
  newEncryptKey_marshal _

theorem encryptedTrace_end : encryptedTrace.state (encryptedPrint [97] unitDraws).length =
    encryptedState := Machine.Trace.ofExec_end _ _

theorem encryptedTrace_writtenUnder :
    WrittenUnder encryptedTrace 1 (newEncryptKey unitKey.keyEncrypt.encryptionKey) := by
  refine writtenUnder_iff.mpr fun p hp _ => ?_
  rw [encryptedTrace_end, encryptedState_processed, List.mem_singleton] at hp
  subst hp
  exact ⟨unitDraws, encryptedRecord, by rw [newEncryptKey_unitKey], rfl⟩

theorem file_decrypts_iff_encryptedState :
    DecryptsTo unitPrimitives unitKey [102] (logFile (encryptedState.sh.writers 0))
        (textsOf encryptedState 1) ↔
      ∀ text ∈ textsOf encryptedState 1,
        trimNewlines text ≠ [] ∧ (trimNewlines text).length ≤ maxText := by
  rw [← encryptedTrace_end]
  exact file_decrypts_iff encryptedTrace newKey_unitScalar (by decide +kernel)
    encryptedTrace_writtenUnder (by simp)

theorem newlinePrint_runs :
    ((machine unitPrimitives).exec {} (encryptedPrint [10] unitDraws)).isSome := by decide +kernel

/-- A message that is one newline. -/
def newlineTrace : (machine unitPrimitives).Trace (encryptedPrint [10] unitDraws).length :=
  .ofExec _ newlinePrint_runs

/-- The state after it. -/
def newlineState : State :=
  ((machine unitPrimitives).exec {} (encryptedPrint [10] unitDraws)).get newlinePrint_runs

theorem newlineTrace_end : newlineTrace.state (encryptedPrint [10] unitDraws).length =
    newlineState := Machine.Trace.ofExec_end _ _

theorem newlineState_processed : newlineState.sh.processed =
    [⟨⟨[10], 1, 0, 3⟩, .written (some ⟨basePoint⟩) unitDraws [10]⟩] := by
  decide +kernel

/-- The file is one empty line; the command ends with a decryption error. -/
theorem newline_text_fails : ¬ ∀ (n : Nat) (T : (machine unitPrimitives).Trace n) (l : Ptr)
    (w : Wid), ((T.state n).sh.loggers l).log = some w →
    WrittenUnder T l (newEncryptKey unitKey.keyEncrypt.encryptionKey) →
      DecryptsTo unitPrimitives unitKey [102] (logFile ((T.state n).sh.writers w))
        (textsOf (T.state n) l) := by
  intro h
  have hu : WrittenUnder newlineTrace 1 (newEncryptKey unitKey.keyEncrypt.encryptionKey) := by
    refine writtenUnder_iff.mpr fun p hp _ => ?_
    rw [newlineTrace_end, newlineState_processed, List.mem_singleton] at hp
    subst hp
    exact ⟨unitDraws, [10], by rw [newEncryptKey_unitKey], rfl⟩
  have hd := h _ newlineTrace 1 0 (by decide +kernel) hu
  rw [newlineTrace_end] at hd
  have hfatal : main unitPrimitives [102] unitKey.keyDecrypt.decryptionKey
      (fun _ => some (logFile (newlineState.sh.writers 0))) (fun _ => true) =
        (.fatal (.decryption .invalidMessage), some []) := by decide +kernel
  cases hfatal.symm.trans hd

end ZipoLogger.Decrypter
