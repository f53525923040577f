/-
  What the worker writes while an encryption key is in force.

  The worker looks up the key when it has dequeued a message: the logger's own key, or else the
  global one. It stays with that key until it hands over the record (`Handles`).

  The branch on the error of `EncryptString` has no other side: when a draw fails the text goes
  to the writer as it is. For the empty text the ciphertext is empty too. In every run a record
  shows its message exactly in these two cases (`record_hides_iff`).
-/
import ZipoLogger.Logger.Delivery
import ZipoLogger.Lib.Trace

namespace ZipoLogger

open Enc

variable {P : Primitives}

/-! ## Trimming -/

theorem trimNewlines_newline (str : Bytes) : trimNewlines (str ++ [10]) = trimNewlines str :=
  List.rdropWhile_concat_pos _ _ _ rfl

theorem trimNewlines_trimNewlines (str : Bytes) :
    trimNewlines (trimNewlines str) = trimNewlines str :=
  List.rdropWhile_idempotent _ _

theorem trimNewlines_eq_self {str : Bytes} (h : ∀ c ∈ str, c ≠ 10) : trimNewlines str = str := by
  refine List.rdropWhile_eq_self_iff.mpr fun hne => ?_
  simpa using h _ (List.getLast_mem hne)

theorem trimNewlines_base64 (c : Bytes) :
    trimNewlines (Base64.encodeToString c ++ [10]) = Base64.encodeToString c := by
  rw [trimNewlines_newline, trimNewlines_eq_self fun b hb => (Base64.encode_ne b hb).1]

/-! ## One record -/

/-- The record is the message, up to newlines at the end. -/
def Shows (record msg : Bytes) : Prop := trimNewlines record = trimNewlines msg

/-- Under a key the record is the ciphertext in base64, or the text when a draw failed. -/
theorem workerRecord_key {k : KeyEncrypt} {msg record : Bytes} {draws : Draws}
    (h : workerRecord P (some k) msg draws = some record) :
    (draws.ok = true ∧ ∃ c, k.encryptString P (trimNewlines msg) draws = .ok c ∧
      record = Base64.encodeToString c ++ [10]) ∨
    (draws.ok = false ∧ record = trimNewlines msg ++ [10]) := by
  have hok := encrypt_ok_iff (P := P) k.pub (trimNewlines msg) [] [] draws
  simp only [workerRecord] at h
  split at h
  · rename_i c hc
    cases h
    exact .inl ⟨hok.mp ⟨c, hc⟩, c, hc, rfl⟩
  · rename_i e he
    cases h
    refine .inr ⟨Bool.eq_false_iff.mpr fun hd => ?_, rfl⟩
    obtain ⟨c, hc⟩ := hok.mpr hd
    cases he.symm.trans hc
  · cases h

/-- With draws that succeed the worker has a record to write. -/
theorem workerRecord_of_draws {key : Option KeyEncrypt} {draws : Draws} (h : draws.ok = true)
    (msg : Bytes) : ∃ record, workerRecord P key msg draws = some record := by
  cases key with
  | none => exact ⟨_, rfl⟩
  | some k =>
    obtain ⟨c, hc⟩ := (encrypt_ok_iff (P := P) k.pub (trimNewlines msg) [] [] draws).mpr h
    have henc : k.encryptString P (trimNewlines msg) draws = .ok c := hc
    refine ⟨Base64.encodeToString c ++ [10], ?_⟩
    simp only [workerRecord, henc]

theorem shows_iff {k : KeyEncrypt} {msg record : Bytes} {draws : Draws}
    (h : workerRecord P (some k) msg draws = some record) :
    Shows record msg ↔ draws.ok = false ∨ trimNewlines msg = [] := by
  unfold Shows
  obtain ⟨hok, c, hc, rfl⟩ | ⟨hok, rfl⟩ := workerRecord_key h
  · have hlen := encrypt_length hc
    rw [trimNewlines_base64]
    simp only [hok, Bool.true_eq_false, false_or]
    constructor
    · intro hshow
      by_contra hne
      have := congrArg List.length hshow
      rw [Base64.encode_length, hlen, if_neg hne] at this
      omega
    · intro hnil
      rw [hnil] at hlen ⊢
      rw [List.length_eq_zero_iff.mp hlen]
      rfl
  · simp [hok, trimNewlines_newline, trimNewlines_trimNewlines]

/-! ## Every run -/

/-- A written record is what the worker makes of its message. -/
def Processed.Made (P : Primitives) (p : Processed) : Prop :=
  ∀ key draws record, p.fate = .written key draws record →
    workerRecord P key p.message.msg draws = some record

theorem reach_made {u : State} (h : (machine P).Reach u) : ∀ p ∈ u.sh.processed, p.Made P := by
  refine reach_invariant (I := fun u => ∀ p ∈ u.sh.processed, p.Made P) h (by simp)
    (fun _ _ hu => hu) ?_ ?_
  · intro u g t i pc sh _ hu _ hstep
    rw [hstep.processed]
    exact hu
  · intro u i wpc sh _ hu hstep
    generalize u.worker = wpc₀ at hstep
    cases hstep with
    | skipped =>
      intro p hp
      obtain hp | hp := List.mem_append.mp hp
      · exact hu p hp
      · cases List.mem_singleton.mp hp
        intro key draws record hf
        cases hf
    | wrote hrec =>
      intro p hp
      obtain hp | hp := List.mem_append.mp hp
      · exact hu p hp
      · cases List.mem_singleton.mp hp
        intro key draws record hf
        cases hf
        exact hrec
    | _ => exact hu

/-! ## The choice of the key -/

/-- The logger's own key, or else the global one. -/
def Shared.keyInForce (s : Shared) (l : Ptr) : Option KeyEncrypt :=
  (s.loggers l).encryptionKey.or s.encryptorKey

section Choice

variable {n : Nat}

/-- The step `c` hands the record of `m` to its writer. -/
def Writes (T : (machine P).Trace n) (m : LoggerMessage) (key : Option KeyEncrypt)
    (draws : Draws) (record : Bytes) (c : Nat) : Prop :=
  c < n ∧ (T.state (c + 1)).sh.processed =
    (T.state c).sh.processed ++ [⟨m, .written key draws record⟩]

/-- The worker chooses the key of `m` in the step `d`. -/
def Chooses (T : (machine P).Trace n) (m : LoggerMessage) (d : Nat) : Prop :=
  (T.state d).worker = .key m ∧ T.action d = .worker .tau

/-- The worker handles `m`: it chooses the key in the step `d`, stays with the message, and hands
    over its record in the step `c`. -/
structure Handles (T : (machine P).Trace n) (m : LoggerMessage) (key : Option KeyEncrypt)
    (draws : Draws) (record : Bytes) (d c : Nat) : Prop where
  lt : d < c
  chooses : Chooses T m d
  stays : ∀ i, d < i → i ≤ c → (T.state i).worker = .emit m key
  writes : Writes T m key draws record c

variable {T : (machine P).Trace n} {m : LoggerMessage} {key : Option KeyEncrypt} {draws : Draws}
  {record : Bytes} {c d i : Nat}

theorem step_worker {u v : State} {wi : WorkerInput} (hs : step P u (.worker wi) = some v) :
    WorkerStep P u.sh u.worker wi v.worker v.sh ∧ v.threads = u.threads := by
  rcases step_cases hs with ⟨hx, -⟩ | ⟨_, _, _, _, _, hx, -⟩ | ⟨wi', wpc, sh, hx, hstep, rfl⟩
  · cases hx
  · cases hx
  · cases hx
    exact ⟨hstep, rfl⟩

/-- The worker comes to the encryption of a message from the choice of its key. -/
theorem step_emit {u v : State} {x : Action} (hs : step P u x = some v)
    (hw : v.worker = .emit m key) :
    u.worker = .emit m key ∨ u.worker = .key m ∧ x = .worker .tau := by
  rcases step_cases hs with ⟨-, rfl⟩ | ⟨_, _, _, _, _, -, -, -, rfl⟩ |
    ⟨wi, wpc, sh, rfl, hstep, rfl⟩
  · exact .inl hw
  · exact .inl hw
  · have hw : wpc = .emit m key := hw
    rw [hw] at hstep
    generalize u.worker = wpc₀ at hstep ⊢
    cases hstep with
    | key => exact .inr ⟨rfl, rfl⟩

/-- A message at the encryption has had its key chosen. -/
theorem exists_choice (T : (machine P).Trace n) (hi : i ≤ n) :
    ∀ m key, (T.state i).worker = .emit m key →
      ∃ d < i, Chooses T m d ∧ ∀ j, d < j → j ≤ i → (T.state j).worker = .emit m key := by
  refine T.along (P := fun i => ∀ m key, (T.state i).worker = .emit m key →
      ∃ d < i, Chooses T m d ∧ ∀ j, d < j → j ≤ i → (T.state j).worker = .emit m key)
    (Nat.zero_le i) hi ?_ fun i _ _ hs ih m key hw => ?_
  · intro m key hw
    rw [T.start] at hw
    cases hw
  · rcases step_emit hs hw with hstay | hchoose
    · obtain ⟨d, hd, hchoose, hall⟩ := ih m key hstay
      refine ⟨d, Nat.lt_succ_of_lt hd, hchoose, fun j hj hji => ?_⟩
      rcases Nat.le_succ_iff.mp hji with hle | rfl
      · exact hall j hj hle
      · exact hw
    · refine ⟨i, Nat.lt_succ_self i, hchoose, fun j hj hji => ?_⟩
      have hj : j = i + 1 := Nat.le_antisymm hji hj
      rw [hj]
      exact hw

/-- Every record is handed over in a handling of its message. -/
theorem exists_handling (h : Writes T m key draws record c) :
    ∃ d, Handles T m key draws record d c := by
  obtain ⟨hc, hgrow⟩ := h
  have hs : step P (T.state c) (T.action c) = some (T.state (c + 1)) := T.step c hc
  have hw : (T.state c).worker = .emit m key := by
    rcases step_cases hs with ⟨-, hv⟩ | ⟨g, inp, t, pc, sh, -, -, hstep, hv⟩ |
      ⟨wi, wpc, sh, -, hstep, hv⟩
    · rw [hv] at hgrow
      simp at hgrow
    · rw [hv] at hgrow
      rw [hstep.processed] at hgrow
      simp at hgrow
    · rw [hv] at hgrow
      generalize (T.state c).worker = wpc₀ at hstep ⊢
      cases hstep with
      | @wrote elem enckey draws' record' =>
        have hp : (⟨elem, .written enckey draws' record'⟩ : Processed) =
            ⟨m, .written key draws record⟩ := by simpa [Shared.process] using hgrow
        cases hp
        rfl
      | skipped => simp [Shared.process] at hgrow
      | _ => simp [Shared.createWriter] at hgrow
  obtain ⟨d, hd, hchoose, hall⟩ := exists_choice T hc.le m key hw
  exact ⟨d, hd, hchoose, hall, hc, hgrow⟩

theorem Handles.key_eq (h : Handles T m key draws record d c) :
    key = (T.state d).sh.keyInForce m.log := by
  have hs : step P (T.state d) (T.action d) = some (T.state (d + 1)) :=
    T.step d (h.lt.trans h.writes.1)
  rw [h.chooses.2] at hs
  have hstep := (step_worker hs).1
  rw [h.chooses.1, h.stays (d + 1) (Nat.lt_succ_self d) h.lt] at hstep
  generalize (T.state (d + 1)).sh = sh at hstep
  cases hstep
  rfl

/-- What is handed over is what the worker makes of the message. -/
theorem Writes.made (h : Writes T m key draws record c) :
    workerRecord P key m.msg draws = some record := by
  have hmem : (⟨m, .written key draws record⟩ : Processed) ∈
      (T.state (c + 1)).sh.processed := by
    rw [h.2]
    exact List.mem_append_right _ (List.mem_singleton_self _)
  exact reach_made (T.reach (Nat.succ_le_of_lt h.1)) _ hmem key draws record rfl

/-- The record goes to the writer of the logger, encrypted with the draws of that step. -/
theorem Writes.handsOver (h : Writes T m key draws record c) :
    T.action c = .worker (.emit draws .ok) ∧ ∃ w, ((T.state c).sh.loggers m.log).log = some w ∧
      ((T.state (c + 1)).sh.writers w).records =
        ((T.state c).sh.writers w).records ++ [⟨record, m⟩] := by
  obtain ⟨hc, hgrow⟩ := h
  have hs : step P (T.state c) (T.action c) = some (T.state (c + 1)) := T.step c hc
  rcases step_cases hs with ⟨-, hv⟩ | ⟨g, inp, t, pc, sh, -, -, hstep, hv⟩ |
    ⟨wi, wpc, sh, hx, hstep, hv⟩
  · rw [hv] at hgrow
    simp at hgrow
  · rw [hv] at hgrow
    rw [hstep.processed] at hgrow
    simp at hgrow
  · rw [hx, hv]
    rw [hv] at hgrow
    generalize (T.state c).worker = wpc₀ at hstep
    cases hstep with
    | @wrote elem enckey draws' record' w _ hlog =>
      have hp : (⟨elem, .written enckey draws' record'⟩ : Processed) =
          ⟨m, .written key draws record⟩ := by simpa [Shared.process] using hgrow
      cases hp
      exact ⟨rfl, w, hlog, by simp [Shared.process, Shared.modifyWriter]⟩
    | skipped => simp [Shared.process] at hgrow
    | _ => simp [Shared.createWriter] at hgrow

/-- Every record among the processed messages was handed over in some step. -/
theorem exists_writes (T : (machine P).Trace n) (hi : i ≤ n)
    (hp : ⟨m, .written key draws record⟩ ∈ (T.state i).sh.processed) :
    ∃ c < i, Writes T m key draws record c := by
  revert hp
  refine T.along (P := fun i => ⟨m, .written key draws record⟩ ∈ (T.state i).sh.processed →
    ∃ c < i, Writes T m key draws record c) (Nat.zero_le i) hi ?_ fun i _ hin hs ih hp => ?_
  · intro hp
    rw [T.start] at hp
    cases hp
  · have hearlier : ⟨m, .written key draws record⟩ ∈ (T.state i).sh.processed →
        ∃ c < i + 1, Writes T m key draws record c := fun hp =>
      let ⟨c, hc, hw⟩ := ih hp
      ⟨c, Nat.lt_succ_of_lt hc, hw⟩
    have hs : step P (T.state i) (T.action i) = some (T.state (i + 1)) := hs
    generalize hv : T.state (i + 1) = v at hs hp
    have hgrows : ∀ p, v.sh.processed = (T.state i).sh.processed ++ [p] →
        ∃ c < i + 1, Writes T m key draws record c := by
      intro p hgrow
      rw [hgrow, List.mem_append, List.mem_singleton] at hp
      rcases hp with hp | rfl
      · exact hearlier hp
      · exact ⟨i, Nat.lt_succ_self i, hin.trans_le hi, by rw [hv, hgrow]⟩
    rcases step_cases hs with ⟨-, rfl⟩ | ⟨g, inp, t, pc, sh, -, -, hstep, rfl⟩ |
      ⟨wi, wpc, sh, -, hstep, rfl⟩
    · exact hearlier hp
    · exact hearlier (hstep.processed ▸ hp)
    · generalize (T.state i).worker = wpc₀ at hstep
      cases hstep with
      | skipped | wrote => exact hgrows _ rfl
      | _ => exact hearlier hp

/-- Every record is handed over in a handling of its message, and when the worker found a key in
    force at the choice, the record hides the message exactly when the draws of its encryption
    succeeded and the message is not only newlines. -/
theorem record_hides_iff (T : (machine P).Trace n) :
    (∀ m key draws record c, Writes T m key draws record c →
      ∃ d, Handles T m key draws record d c) ∧
    ∀ m key draws record d c k, Handles T m key draws record d c →
      (T.state d).sh.keyInForce m.log = some k →
      T.action c = .worker (.emit draws .ok) ∧
      (∃ w, ((T.state c).sh.loggers m.log).log = some w ∧
        ((T.state (c + 1)).sh.writers w).records =
          ((T.state c).sh.writers w).records ++ [⟨record, m⟩]) ∧
      (¬ Shows record m.msg ↔ draws.ok = true ∧ trimNewlines m.msg ≠ []) := by
  refine ⟨fun m key draws record c => exists_handling, fun m key draws record d c k h hk => ?_⟩
  refine ⟨h.writes.handsOver.1, h.writes.handsOver.2, ?_⟩
  have hrec := h.writes.made
  rw [h.key_eq, hk] at hrec
  rw [shows_iff hrec]
  simp

end Choice

/-- A message under the global key. -/
def encryptedPrint (msg : Bytes) (draws : Draws) : List Action :=
  .spawn :: newLoggerCall 0 [97] ++
    .go 0 (.call (.setGlobalEncryption (Hex.encodeToString (marshal basePoint)))) :: steps 0 2 ++
      printCall 0 1 msg ++ workerWrites draws

theorem encryptedPrint_runs :
    ((machine unitPrimitives).exec {} (encryptedPrint [97] unitDraws)).isSome := by decide +kernel

/-- The record of `a`: 152 characters and a newline. -/
def encryptedRecord : Bytes :=
  (workerRecord unitPrimitives (some ⟨basePoint⟩) [97] unitDraws).getD []

def encryptedState : State :=
  ((machine unitPrimitives).exec {} (encryptedPrint [97] unitDraws)).get encryptedPrint_runs

theorem encryptedState_processed : encryptedState.sh.processed =
    [⟨⟨[97], 1, 0, 3⟩, .written (some ⟨basePoint⟩) unitDraws encryptedRecord⟩] := by
  decide +kernel

/-- The run that ends there. -/
def encryptedTrace : (machine unitPrimitives).Trace (encryptedPrint [97] unitDraws).length :=
  .ofExec _ encryptedPrint_runs

theorem record_hides_iff_encryptedTrace : ∃ d,
    Handles encryptedTrace ⟨[97], 1, 0, 3⟩ (some ⟨basePoint⟩) unitDraws encryptedRecord d 20 ∧
    (¬ Shows encryptedRecord [97] ↔ unitDraws.ok = true ∧ trimNewlines [97] ≠ []) := by
  have hw : Writes encryptedTrace ⟨[97], 1, 0, 3⟩ (some ⟨basePoint⟩) unitDraws encryptedRecord 20 :=
    ⟨by decide, by decide +kernel⟩
  obtain ⟨d, hd⟩ := (record_hides_iff encryptedTrace).1 _ _ _ _ _ hw
  exact ⟨d, hd, ((record_hides_iff encryptedTrace).2 _ _ _ _ _ _ _ hd hd.key_eq.symm).2.2⟩

theorem encryptedPrint_fails :
    ((machine unitPrimitives).exec {} (encryptedPrint [97] ⟨none, none⟩)).isSome := by
  decide +kernel

/-- No scalar is drawn: the record is the message. -/
theorem record_shows_message : ¬ ∀ (n : Nat) (T : (machine unitPrimitives).Trace n)
    (m : LoggerMessage) (key : Option KeyEncrypt) (draws : Draws) (record : Bytes) (d c : Nat)
    (k : KeyEncrypt), Handles T m key draws record d c →
      (T.state d).sh.keyInForce m.log = some k → ¬ Shows record m.msg := by
  intro h
  have hw : Writes (Machine.Trace.ofExec _ encryptedPrint_fails) ⟨[97], 1, 0, 3⟩
      (some ⟨basePoint⟩) ⟨none, none⟩ [97, 10] 20 := ⟨by decide, by decide +kernel⟩
  obtain ⟨d, hd⟩ := exists_handling hw
  exact h _ _ _ _ _ _ d _ _ hd hd.key_eq.symm rfl

end ZipoLogger
