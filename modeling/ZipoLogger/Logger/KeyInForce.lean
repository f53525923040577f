/-
  The key a message is written under.

  The worker chooses the key when it has dequeued the message, not when `print` is called:
  `elem.log.encryptionKey`, or `mainGlobalEncryptor.key` when there is none. A message enters
  `tologCh` inside its `print` and is dequeued after that, so the choice falls after the call has
  begun (`begins_before_choice`). Each of the two fields is assigned by a successful set and by
  nothing else, and is never cleared (`own_cell`, `global_cell`), so what the worker finds is what
  was in force when the call began, or what a later set has put there. A set that reports failure
  assigns nothing, and the run goes on as if it were not made (`Without`).
-/
import ZipoLogger.Logger.KeyText
import ZipoLogger.Logger.Without
import ZipoLogger.Logger.Secrecy

namespace ZipoLogger

open Enc

section Steps

variable {P : Primitives} {g : Gid} {seq : Nat} {s s' : Shared} {pc pc' : Pc} {i : Input}
  {wpc wpc' : WorkerPc} {wi : WorkerInput}

/-- The own key of a logger is assigned by a `SetEncryptionKey` with a key, and never cleared. -/
theorem GoStep.encryptionKey (h : GoStep g seq s pc i pc' s') (hs : s.Wf) (l : Ptr) :
    (s'.loggers l).encryptionKey = (s.loggers l).encryptionKey ∨
      ∃ key k, pc = .set l (.setEncryptionKey key) true ∧ i = .tau ∧
        newEncryptKey key = some k ∧ (s'.loggers l).encryptionKey = some k := by
  have htau : ∀ x, pc = .set l x true → i = .tau := by
    rintro x rfl
    cases h
    rfl
  have ht := h.touches l
  generalize s'.loggers l = lg at ht ⊢
  cases ht with
  | locks | print | wait | close => exact .inl rfl
  | @set x =>
    cases x with
    | setEncryptionKey key =>
      cases hkey : newEncryptKey key with
      | none => exact .inl (by simp [Setter.apply, hkey])
      | some k => exact .inr ⟨key, k, rfl, htau _ rfl, hkey, by simp [Setter.apply, hkey]⟩
    | _ => exact .inl rfl
  | alloc hl => exact .inl (hs.alloc_field Logger.encryptionKey (by simp [Shared.alloc]) l)

/-- The global key is assigned by a `SetGlobalEncryption` with a key, and never cleared. -/
theorem GoStep.encryptorKey (h : GoStep g seq s pc i pc' s') :
    s'.encryptorKey = s.encryptorKey ∨
      ∃ key k, pc = .setGlobal key true ∧ i = .tau ∧
        newEncryptKey key = some k ∧ s'.encryptorKey = some k := by
  have hecho : ∀ l msg, (s.echo l msg).encryptorKey = s.encryptorKey := by
    intro l msg
    unfold Shared.echo
    split <;> rfl
  have hclose : ∀ l, (s.closeWriter l).encryptorKey = s.encryptorKey := by
    intro l
    unfold Shared.closeWriter
    split <;> rfl
  cases h with
  | @globalSet key k hkey => exact .inr ⟨key, k, rfl, rfl, hkey, rfl⟩
  | sent | full => exact .inl (hecho _ _)
  | closeDone | newEvicted => exact .inl (hclose _)
  | waitEarly | waitClear => exact .inl (by rw [afterWait_snd]; rfl)
  | @waitPanics l mark k => exact .inl (by cases k <;> rfl)
  | @setApply l x => exact .inl (by cases x <;> rfl)
  | _ => exact .inl rfl

theorem WorkerStep.keys (h : WorkerStep P s wpc wi wpc' s') (l : Ptr) :
    (s'.loggers l).encryptionKey = (s.loggers l).encryptionKey ∧
      s'.encryptorKey = s.encryptorKey :=
  ⟨h.field Logger.encryptionKey l fun _ _ _ _ _ => rfl, by cases h <;> rfl⟩

end Steps

/-! ## Moments of a run -/

section Runs

variable {P : Primitives} {n : Nat}

/-- The step `a` returns from a successful `l.SetEncryptionKey` with the key `k`. -/
def SetsKey (T : (machine P).Trace n) (l : Ptr) (k : KeyEncrypt) (a : Nat) : Prop :=
  a < n ∧ ∃ g t key, T.action a = .go g .tau ∧ (T.state a).threads[g]? = some t ∧
    t.pc = .set l (.setEncryptionKey key) true ∧ newEncryptKey key = some k

/-- The step `a` returns from a successful `SetGlobalEncryption` with the key `k`. -/
def SetsGlobal (T : (machine P).Trace n) (k : KeyEncrypt) (a : Nat) : Prop :=
  a < n ∧ ∃ g t key, T.action a = .go g .tau ∧ (T.state a).threads[g]? = some t ∧
    t.pc = .setGlobal key true ∧ newEncryptKey key = some k

/-- The step `b` begins the `print` that sends `m`. -/
def BeginsPrint (T : (machine P).Trace n) (m : LoggerMessage) (b : Nat) : Prop :=
  b < n ∧ (∃ text, T.action b = .go m.call.1 (.call (.print m.log text))) ∧
    (T.state b).callOf (T.action b) = some m.call

variable {T : (machine P).Trace n} {l : Ptr} {m : LoggerMessage} {k : KeyEncrypt}
  {key : Option KeyEncrypt} {draws : Draws} {record : Bytes} {a b c d : Nat}

/-! ## The two fields -/

theorem own_cell (T : (machine P).Trace n) (l : Ptr) (hi : i < n) :
    ((T.state (i + 1)).sh.loggers l).encryptionKey = ((T.state i).sh.loggers l).encryptionKey ∨
      ∃ k, ((T.state (i + 1)).sh.loggers l).encryptionKey = some k ∧ SetsKey T l k i := by
  have hs : step P (T.state i) (T.action i) = some (T.state (i + 1)) := T.step i hi
  have hwf := (reach_wf (T.reach hi.le)).shared
  generalize hv : T.state (i + 1) = v at hs
  rcases step_cases hs with ⟨-, rfl⟩ | ⟨g, inp, t, pc, sh, hx, ht, hstep, rfl⟩ |
    ⟨wi, wpc, sh, -, hstep, rfl⟩
  · exact .inl rfl
  · rcases hstep.encryptionKey hwf l with hsame | ⟨text, k, hpc, rfl, hkey, hk⟩
    · exact .inl hsame
    · exact .inr ⟨k, hk, hi, g, t, text, hx, ht, hpc, hkey⟩
  · exact .inl (hstep.keys l).1

theorem global_cell (T : (machine P).Trace n) (hi : i < n) :
    (T.state (i + 1)).sh.encryptorKey = (T.state i).sh.encryptorKey ∨
      ∃ k, (T.state (i + 1)).sh.encryptorKey = some k ∧ SetsGlobal T k i := by
  have hs : step P (T.state i) (T.action i) = some (T.state (i + 1)) := T.step i hi
  generalize hv : T.state (i + 1) = v at hs
  rcases step_cases hs with ⟨-, rfl⟩ | ⟨g, inp, t, pc, sh, hx, ht, hstep, rfl⟩ |
    ⟨wi, wpc, sh, -, hstep, rfl⟩
  · exact .inl rfl
  · rcases hstep.encryptorKey with hsame | ⟨text, k, hpc, rfl, hkey, hk⟩
    · exact .inl hsame
    · exact .inr ⟨k, hk, hi, g, t, text, hx, ht, hpc, hkey⟩
  · exact .inl (hstep.keys 0).2

theorem SetsKey.assigns (h : SetsKey T l k a) :
    ((T.state (a + 1)).sh.loggers l).encryptionKey = some k := by
  obtain ⟨ha, g, t, text, hx, ht, hpc, hkey⟩ := h
  have hs : step P (T.state a) (T.action a) = some (T.state (a + 1)) := T.step a ha
  rw [hx] at hs
  obtain ⟨t', pc, ht', hstep, -⟩ := step_go hs
  cases Option.some.inj (ht.symm.trans ht')
  rw [hpc] at hstep
  generalize (T.state (a + 1)).sh = sh at hstep ⊢
  cases hstep
  simp [Setter.apply, hkey]

theorem SetsGlobal.assigns (h : SetsGlobal T k a) :
    (T.state (a + 1)).sh.encryptorKey = some k := by
  obtain ⟨ha, g, t, text, hx, ht, hpc, hkey⟩ := h
  have hs : step P (T.state a) (T.action a) = some (T.state (a + 1)) := T.step a ha
  rw [hx] at hs
  obtain ⟨t', pc, ht', hstep, -⟩ := step_go hs
  cases Option.some.inj (ht.symm.trans ht')
  rw [hpc] at hstep
  generalize (T.state (a + 1)).sh = sh at hstep ⊢
  cases hstep with
  | globalReject hnone => rw [hkey] at hnone; cases hnone
  | globalSet hsome => rw [hkey] at hsome; exact hsome.symm

/-! ## Calls and choices -/

/-- A message whose key is chosen was sent in a call that has begun. -/
theorem begins_before_choice (hbegin : BeginsPrint T m b) (hd : d ≤ n)
    (hchoose : Chooses T m d) : b < d := by
  obtain ⟨hb, ⟨text, hx⟩, hcall⟩ := hbegin
  by_contra hle
  have hsent : m ∈ (T.state d).sh.sent := by
    rw [reach_fifo (T.reach hd), hchoose.1]
    simp [WorkerPc.inHand, WorkerPc.owed]
  have hpast : (T.state b).Past m.call := by
    refine T.along (P := fun i => (T.state i).Past m.call) (Nat.not_lt.mp hle) hb.le
      ((reach_sequenced (T.reach hd)).past m hsent) fun i _ _ hs hp => ?_
    have hs : step P (T.state i) (T.action i) = some (T.state (i + 1)) := hs
    rcases step_cases hs with ⟨-, hv⟩ | ⟨g, inp, t, pc, sh, -, ht, hstep, hv⟩ |
      ⟨wi, wpc, sh, -, -, hv⟩
    · rw [hv]
      exact hp.spawn
    · rw [hv]
      exact hp.go ht hstep
    · rw [hv]
      exact hp
  obtain ⟨t, ht, hseq, -⟩ := hpast
  rw [hx, State.callOf_go ht] at hcall
  have hnext : t.seq + 1 = m.call.2 := congrArg Prod.snd (Option.some.inj hcall)
  omega

/-! ## The key of a message -/

/-- The record is the ciphertext of the message under `k`, and does not show the message. -/
def Encrypted (P : Primitives) (k : KeyEncrypt) (m : LoggerMessage) (draws : Draws)
    (record : Bytes) : Prop :=
  ¬ Shows record m.msg ∧ ∃ ct, k.encryptString P (trimNewlines m.msg) draws = .ok ct ∧
    record = Base64.encodeToString ct ++ [10]

/-- `k'` is the key set in the step `a` or one set later, and it was in force in the step `b` or set
    later than that; `Sets` are the successful sets of the field. -/
structure Current (field : Nat → Option KeyEncrypt) (Sets : KeyEncrypt → Nat → Prop)
    (k : KeyEncrypt) (a b d : Nat) (k' : KeyEncrypt) : Prop where
  setOrLater : k' = k ∨ ∃ a', a < a' ∧ a' < d ∧ Sets k' a'
  notReplaced : field b = some k' ∨ ∃ a', b ≤ a' ∧ a' < d ∧ Sets k' a'
  inForce : field d = some k'

/-- Which key the messages of a run are written under. -/
structure KeyInForce (T : (machine P).Trace n) : Prop where
  /-- Every record is handed over in a handling of its message. -/
  handled : ∀ m key draws record c, Writes T m key draws record c →
    ∃ d, Handles T m key draws record d c
  /-- The `print` began after `l.SetEncryptionKey(k)` had returned. -/
  own : ∀ l k m key draws record a b c d, SetsKey T l k a → a < b → BeginsPrint T m b →
    m.log = l → Handles T m key draws record d c →
    (∀ k', key = some k' → ∃ ct, k'.encryptString P (trimNewlines m.msg) draws = .ok ct) →
    trimNewlines m.msg ≠ [] →
    ∃ k', key = some k' ∧ Encrypted P k' m draws record ∧
      Current (fun i => ((T.state i).sh.loggers l).encryptionKey) (SetsKey T l) k a b d k'
  /-- The `print` began after `SetGlobalEncryption(k)` had returned; the logger has no own key when
      the message is processed. -/
  global : ∀ k m key draws record a b c d, SetsGlobal T k a → a < b → BeginsPrint T m b →
    Handles T m key draws record d c → ((T.state d).sh.loggers m.log).encryptionKey = none →
    (∀ k', key = some k' → ∃ ct, k'.encryptString P (trimNewlines m.msg) draws = .ok ct) →
    trimNewlines m.msg ≠ [] →
    ∃ k', key = some k' ∧ Encrypted P k' m draws record ∧
      Current (fun i => (T.state i).sh.encryptorKey) (SetsGlobal T) k a b d k'
  /-- No step of a set that reports failure changes a key. -/
  failed : ∀ call i, ReportsFailure T call → i < n →
    (T.state i).callOf (T.action i) = some call →
    (∀ l, ((T.state (i + 1)).sh.loggers l).encryptionKey =
      ((T.state i).sh.loggers l).encryptionKey) ∧
    (T.state (i + 1)).sh.encryptorKey = (T.state i).sh.encryptorKey
  /-- Without that call the run goes on as it did, and writes what it wrote. -/
  without : ∀ call, ReportsFailure T call →
    ∃ v, (machine P).exec {} (labelsWithout T call) = some v ∧
      v.sh.processed = (T.state n).sh.processed.map (·.renumber (renumber call)) ∧
      ∀ w, v.sh.writers w = ((T.state n).sh.writers w).renumber (renumber call)

theorem Handles.encrypted (h : Handles T m key draws record d c) (hkey : key = some k)
    (hok : ∃ ct, k.encryptString P (trimNewlines m.msg) draws = .ok ct)
    (hmsg : trimNewlines m.msg ≠ []) : Encrypted P k m draws record := by
  have hrec := h.writes.made
  rw [hkey] at hrec
  have hdraws : draws.ok = true := (encrypt_ok_iff k.pub (trimNewlines m.msg) [] [] draws).mp hok
  refine ⟨?_, ?_⟩
  · rw [shows_iff hrec]
    simp [hdraws, hmsg]
  · rcases workerRecord_key hrec with ⟨-, hct⟩ | ⟨hno, -⟩
    · exact hct
    · rw [hdraws] at hno
      cases hno

/-- A field that a set has assigned holds a key at every later choice. -/
theorem exists_current {f : State → Option KeyEncrypt} {Sets : KeyEncrypt → Nat → Prop}
    (hcell : ∀ i < n, f (T.state (i + 1)) = f (T.state i) ∨
      ∃ k, f (T.state (i + 1)) = some k ∧ Sets k i)
    (hset : f (T.state (a + 1)) = some k) (hab : a < b) (hbd : b < d) (hd : d ≤ n) :
    ∃ k', Current (fun i => f (T.state i)) Sets k a b d k' := by
  have hsince : ∀ {i}, i ≤ d → f (T.state d) = f (T.state i) ∨
      ∃ j, i ≤ j ∧ j < d ∧ ∃ k, f (T.state d) = some k ∧ Sets k j :=
    fun hi => T.cell (E := fun o j => ∃ k, o = some k ∧ Sets k j) hcell hi hd
  obtain ⟨k', hk', hlater⟩ :
      ∃ k', f (T.state d) = some k' ∧ (k' = k ∨ ∃ a', a < a' ∧ a' < d ∧ Sets k' a') := by
    rcases hsince (show a + 1 ≤ d by omega) with hsame | ⟨j, haj, hjd, k', hk', hj⟩
    · exact ⟨k, hsame.trans hset, .inl rfl⟩
    · exact ⟨k', hk', .inr ⟨j, haj, hjd, hj⟩⟩
  refine ⟨k', hlater, ?_, hk'⟩
  rcases hsince hbd.le with hsame | ⟨j, hbj, hjd, k'', hk'', hj⟩
  · exact .inl (hsame ▸ hk')
  · rw [hk'] at hk''
    cases hk''
    exact .inr ⟨j, hbj, hjd, hj⟩

/-- In every run a message is written under the key in force. -/
theorem key_in_force (T : (machine P).Trace n) : KeyInForce T where
  handled m key draws record c h := exists_handling h
  own l k m key draws record a b c d hset hab hbegin hl h hok hmsg := by
    have hd : d < n := h.lt.trans h.writes.1
    have hbd := begins_before_choice hbegin hd.le h.chooses
    subst hl
    obtain ⟨k', hcur⟩ := exists_current (f := fun u => (u.sh.loggers m.log).encryptionKey)
      (fun i hi => own_cell T m.log hi) hset.assigns hab hbd hd.le
    have hkey : key = some k' := by
      have hin := hcur.inForce
      rw [h.key_eq, Shared.keyInForce, hin]
      rfl
    exact ⟨k', hkey, h.encrypted hkey (hok k' hkey) hmsg, hcur⟩
  global k m key draws record a b c d hset hab hbegin h hnone hok hmsg := by
    have hd : d < n := h.lt.trans h.writes.1
    have hbd := begins_before_choice hbegin hd.le h.chooses
    obtain ⟨k', hcur⟩ := exists_current (f := fun u => u.sh.encryptorKey)
      (fun i hi => global_cell T hi) hset.assigns hab hbd hd.le
    have hkey : key = some k' := by
      have hin := hcur.inForce
      rw [h.key_eq, Shared.keyInForce, hnone, hin]
      rfl
    exact ⟨k', hkey, h.encrypted hkey (hok k' hkey) hmsg, hcur⟩
  failed call i hfail hi hcall := by
    obtain ⟨t, inp, pc, -, -, -, hstep, -, hrej⟩ := hfail.rejects hi hcall
    have hpc : inp = .tau → t.pc.Rejects := by
      intro htau
      rcases hrej with hrej | hrej
      · exact hrej
      · exact hstep.rejects_back (by simp [htau]) hrej
    constructor
    · intro l
      rcases hstep.encryptionKey (reach_wf (T.reach hi.le)).shared l with
        hsame | ⟨key, k, hset, htau, hkey, -⟩
      · exact hsame
      · have hnone := hpc htau
        rw [hset] at hnone
        exact absurd (hkey.symm.trans hnone) (by simp)
    · rcases hstep.encryptorKey with hsame | ⟨key, k, hset, htau, hkey, -⟩
      · exact hsame
      · have hnone := hpc htau
        rw [hset] at hnone
        exact absurd (hkey.symm.trans hnone) (by simp)
  without call hfail := by
    obtain ⟨v, hv, hwithout⟩ := exec_without hfail
    exact ⟨v, hv, hwithout.shared.processed, hwithout.shared.writers⟩

end Runs

/-! ## A run with the three kinds of sets -/

/-- The key of the logger: what `Unmarshal` makes of a 4 and zeros. -/
def ownKey : KeyEncrypt := ⟨zeroPair⟩

/-- A message under the global key; the logger gets a key of its own, then a text that is no key;
    another message. -/
def keysRun : List Action :=
  encryptedPrint [97] unitDraws ++ [.worker .tau] ++
    .go 0 (.call (.set 1 (.setEncryptionKey (Hex.encodeToString (marshal ownKey.pub))))) ::
      steps 0 2 ++ .go 0 (.call (.set 1 (.setEncryptionKey [122]))) :: steps 0 2 ++
    printCall 0 1 [98] ++ List.replicate 6 (.worker .tau) ++ [.worker (.emit unitDraws .ok)]

theorem keysRun_runs : ((machine unitPrimitives).exec {} keysRun).isSome := by decide +kernel

def keysTrace : (machine unitPrimitives).Trace keysRun.length := .ofExec _ keysRun_runs

def globalMessage : LoggerMessage := ⟨[97], 1, 0, 3⟩

def ownMessage : LoggerMessage := ⟨[98], 1, 0, 6⟩

def ownRecord : Bytes := (workerRecord unitPrimitives (some ownKey) [98] unitDraws).getD []

theorem keysTrace_failure : ReportsFailure keysTrace (0, 5) :=
  ⟨27, by decide, by decide +kernel, by decide +kernel⟩

theorem keysTrace_global :
    Writes keysTrace globalMessage (some ⟨basePoint⟩) unitDraws encryptedRecord 20 :=
  ⟨by decide, by decide +kernel⟩

theorem keysTrace_own : Writes keysTrace ownMessage (some ownKey) unitDraws ownRecord 38 :=
  ⟨by decide, by decide +kernel⟩

theorem keysTrace_setsGlobal : SetsGlobal keysTrace ⟨basePoint⟩ 9 :=
  ⟨by decide, 0, ⟨.setGlobal (Hex.encodeToString (marshal basePoint)) true, 2⟩, _, by decide,
    by decide, rfl, by decide +kernel⟩

theorem keysTrace_setsKey : SetsKey keysTrace 1 ownKey 24 :=
  ⟨by decide, 0, ⟨.set 1 (.setEncryptionKey (Hex.encodeToString (marshal ownKey.pub))) true, 4⟩,
    _, by decide, by decide +kernel, rfl, by decide +kernel⟩

theorem keysTrace_begins : BeginsPrint keysTrace globalMessage 10 ∧
    BeginsPrint keysTrace ownMessage 28 :=
  ⟨⟨by decide, ⟨[97], by decide⟩, by decide +kernel⟩,
    ⟨by decide, ⟨[98], by decide⟩, by decide +kernel⟩⟩

/-- The logger has no key of its own when the first message is processed. -/
theorem keysTrace_unset : ∀ d < 20, (keysTrace.state d).worker = .key globalMessage →
    ((keysTrace.state d).sh.loggers 1).encryptionKey = none := by decide +kernel

/-- The draws of the run succeed. -/
theorem encrypts_unitDraws (key : Option KeyEncrypt) (m : LoggerMessage) : ∀ k, key = some k →
    ∃ ct, k.encryptString unitPrimitives (trimNewlines m.msg) unitDraws = .ok ct :=
  fun k _ => (encrypt_ok_iff k.pub (trimNewlines m.msg) [] [] unitDraws).mpr rfl

/-- The first message is written under the global key, the second one under the logger's own, the
    set that fails changes no key, and without it the run goes on to the same records. -/
theorem key_in_force_keysTrace :
    Encrypted unitPrimitives ⟨basePoint⟩ globalMessage unitDraws encryptedRecord ∧
    Encrypted unitPrimitives ownKey ownMessage unitDraws ownRecord ∧
    ((keysTrace.state (27 + 1)).sh.loggers 1).encryptionKey =
      ((keysTrace.state 27).sh.loggers 1).encryptionKey ∧
    ∃ v, (machine unitPrimitives).exec {} (labelsWithout keysTrace (0, 5)) = some v ∧
      v.sh.processed =
        (keysTrace.state keysRun.length).sh.processed.map (·.renumber (renumber (0, 5))) := by
  have hkeys := key_in_force keysTrace
  refine ⟨?_, ?_, ?_, ?_⟩
  · obtain ⟨d, hd⟩ := hkeys.handled _ _ _ _ _ keysTrace_global
    obtain ⟨k', hk', henc, -⟩ := hkeys.global _ _ _ _ _ _ _ _ _ keysTrace_setsGlobal (by decide)
      keysTrace_begins.1 hd (keysTrace_unset d hd.lt hd.chooses.1) (encrypts_unitDraws _ _)
      (by decide)
    cases hk'
    exact henc
  · obtain ⟨d, hd⟩ := hkeys.handled _ _ _ _ _ keysTrace_own
    obtain ⟨k', hk', henc, -⟩ := hkeys.own _ _ _ _ _ _ _ _ _ _ keysTrace_setsKey (by decide)
      keysTrace_begins.2 rfl hd (encrypts_unitDraws _ _) (by decide)
    cases hk'
    exact henc
  · exact (hkeys.failed (0, 5) 27 keysTrace_failure (by decide) (by decide +kernel)).1 1
  · obtain ⟨v, hv, hprocessed, -⟩ := hkeys.without (0, 5) keysTrace_failure
    exact ⟨v, hv, hprocessed⟩

end ZipoLogger
