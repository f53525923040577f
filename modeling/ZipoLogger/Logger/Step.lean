/-
  logger.go, logger_enc.go: the atomic steps.

  `goStep` is one step of a user goroutine, `workerStep` one of the goroutine started by `init`;
  `step` lets any of them move, so the runs of `machine` are all interleavings of any number of
  goroutines (`spawn`). A step that would block (a held mutex, an empty or sleeping wait) is
  undefined. What the environment decides is the step's input: the call a goroutine makes, what
  `runtime.Caller` reports, the formatted time, whether the directory of a log file can be made,
  the random draws, and where handling a message panics. The write to stdout of a `print` is part
  of its send and takes no time.

  A panic inside a user call ends the call and runs its deferred unlocks; the caller may recover
  and go on. A panic in the worker ends the worker: `HandlePanic` is deferred outside the loop.
-/
import ZipoLogger.Logger.Caller
import ZipoLogger.Logger.State
import Mathlib.Data.List.DropRight

namespace ZipoLogger

open Enc

/-! ## Inputs -/

/-- The calls of the package. -/
inductive Call where
  /-- `Print`, `Printf` or `Println` with the formatted text -/
  | print (l : Ptr) (text : Bytes)
  /-- `l.Wait` or `l.Flush` -/
  | wait (l : Ptr)
  | close (l : Ptr)
  /-- the package-level `Wait` -/
  | waitAll
  | newLogger (a : NewArgs)
  | set (l : Ptr) (x : Setter)
  | setGlobalEncryption (key : Bytes)
  | setAlsoToStdout (b : Bool)
  | depth (x : DepthCall)
  deriving DecidableEq

/-- `GetLoggerBySuffix` is the call of `NewLogger` with the joined name. -/
def getLoggerBySuffix (suffix name : Bytes) (logMaxSizeInMB maxBackups maxAgeInDays : Int)
    (writeSource : Bool) : Call :=
  .newLogger {
    filename := name ++ suffix
    logMaxSizeInMB
    maxBackups
    maxAgeInDays
    writeFileline := writeSource }

/-- What a step of a user goroutine needs from outside. -/
inductive Input where
  | tau
  | call (c : Call)
  /-- the formatted time -/
  | stamp (stamp : Bytes)
  /-- what `runtime.Caller` reports: the directory of the package's files, the frame of
      `runtime.Caller`, the frames above `formatCaller` -/
  | callers (dir : Bytes) (rt : Frame) (callers : List Frame)
  deriving DecidableEq

/-- How `newLogger` ends. -/
inductive Creation where
  | ok
  | mkdirFailed
  | panics
  deriving DecidableEq

/-- How the encryption and the write of one record end. -/
inductive Emission where
  | ok
  | encryptPanics
  | writePanics
  deriving DecidableEq

/-- What a step of the worker needs from outside. -/
inductive WorkerInput where
  | tau
  | create (r : Creation)
  | emit (draws : Draws) (r : Emission)
  deriving DecidableEq

inductive Action where
  | spawn
  | go (g : Gid) (i : Input)
  | worker (i : WorkerInput)
  deriving DecidableEq

/-! ## print -/

/-- The test for a no-op logger in `Print`, `printf` and `Println`. -/
def Shared.isNop (s : Shared) (l : Ptr) : Bool :=
  l = emptyLogger ||
    ((s.loggers l).filename = [] && (s.loggers l).log = none && (s.loggers l).zlog = none)

/-- `tologCh` has a free slot. -/
def Shared.slotFree (s : Shared) : Bool := s.tologCh.length < tologCap

/-- The logger is the one the registry holds under its file name. -/
def Shared.registered (s : Shared) (l : Ptr) : Bool :=
  s.registry.get? (s.loggers l).filename = some l

/-- The time `print` puts before the message. -/
def Logger.stamped (lg : Logger) (stamp msg : Bytes) : Bytes :=
  if lg.logDateTime then stamp ++ msg else msg

theorem Logger.suffix_stamped (lg : Logger) (stamp msg : Bytes) : msg <:+ lg.stamped stamp msg := by
  unfold Logger.stamped
  split
  · exact List.suffix_append _ _
  · exact List.suffix_rfl

/-- `fmt.Println(msg)` when asked for. -/
def Shared.echo (s : Shared) (l : Ptr) (msg : Bytes) : Shared :=
  if s.alsoToStdout || (s.loggers l).alsoToStdout then { s with stdout := s.stdout ++ [msg] }
  else s

/-- The send on `tologCh`. -/
def Shared.enqueue (s : Shared) (m : LoggerMessage) : Shared :=
  { s with
    tologCh := s.tologCh ++ [m]
    accepted := s.accepted ++ [{ message := m, registered := s.registered m.log }] }

/-- `Logger.print`, in the call number `seq` of goroutine `g`. -/
def printStep (g : Gid) (seq : Nat) (l : Ptr) (msg : Bytes) :
    PrintPhase → Input → Shared → Option (Pc × Shared)
  | .gate, .tau, s =>
    if 0 < (s.loggers l).waitStarted then
      some (.idle, s.ret (.print (g, seq) l msg false s.slotFree))
    else some (.print l msg (.add false), s)
  | .add false, .tau, s =>
    if (s.loggers l).logSourcePath then some (.print l msg (.depth .start false), s) else none
  | .depth r false, .tau, s =>
    if s.additionalCallerDepthM = none then
      some (.print l msg (.depth r true), { s with additionalCallerDepthM := some (.go g) })
    else none
  | .depth .start true, .tau, s =>
    some (.print l msg (.depth (.max s.startCallerDepth false) false),
      { s with additionalCallerDepthM := none })
  | .depth (.max add inner) true, .callers dir rt callers, s =>
    let s' := { s with additionalCallerDepthM := none }
    -- a `formatCaller` that has called itself stands on the stack of the inner one
    let callers' := if inner then fallbackFrame dir :: callers else callers
    match activation dir rt callers' s.maxCallerDepth add with
    | none => some (.print l msg (.depth (.max 0 true) false), s')
    | some ret =>
      let header := if inner then breakLine (breakLine ret) else breakLine ret
      some (.print l (header ++ msg) (.add true), s')
  | .add headed, .stamp stamp, s =>
    if headed || !(s.loggers l).logSourcePath then
      let r := (s.loggers l).logTasks.add 1
      let s' := s.modify l fun lg => { lg with logTasks := r.1 }
      let msg' := (s.loggers l).stamped stamp msg
      match r.2 with
      | .returns => some (.print l msg' .send, s')
      -- an `Add(1)` lands on zero only from a negative counter
      | .wakes w => some (.print l msg' (.wake true w), s')
      | .panics => some (.idle, s'.panic (.printAdd l))
    else none
  | .send, .tau, s =>
    if s.slotFree then
      some (.idle, ((s.echo l msg).enqueue { msg, log := l, call := (g, seq) }).ret
        (.print (g, seq) l msg true true))
    else some (.print l msg .done, { s.echo l msg with dropAlert := true })
  | .done, .tau, s =>
    let r := (s.loggers l).logTasks.done
    let s' := s.modify l fun lg => { lg with logTasks := r.1 }
    match r.2 with
    | .returns => some (.idle, s'.ret (.print (g, seq) l msg true false))
    | .wakes w => some (.print l msg (.wake false w), s')
    | .panics => some (.idle, s'.panic (.printDone l))
  | .wake added w, .tau, s =>
    if (s.loggers l).logTasks.unchanged w then some (.print l msg (.reset added w), s)
    else some (.idle, s.panic (if added then .printAdd l else .printDone l))
  | .reset true w, .tau, s =>
    some (.print l msg .send, s.modify l fun lg => { lg with logTasks := lg.logTasks.reset w })
  | .reset false w, .tau, s =>
    some (.idle, (s.modify l fun lg => { lg with logTasks := lg.logTasks.reset w }).ret
      (.print (g, seq) l msg true false))
  | _, _, _ => none

/-! ## Wait, Flush, Close -/

/-- `l.Wait` returns into its caller. -/
def afterWait (g : Gid) (l : Ptr) (mark : Nat) (k : Cont) (early : Bool) (s : Shared) :
    Pc × Shared :=
  let s' := s.ret (.wait g l mark early)
  match k with
  | .user => (.idle, s')
  | .close => (.close l mark early false, s')
  | .waitAll mark' keys => (.waitAll mark' (.next keys), s')
  | .evict a new => (.newLogger a (.evicted new l), s')

/-- `logTasks.Wait` panics: the deferred unlocks of the callers run. -/
def unwindWait (l : Ptr) (k : Cont) (s : Shared) : Pc × Shared :=
  let s' := s.panic (.wait l)
  match k with
  | .user | .close => (.idle, s')
  | .waitAll _ _ => (.idle, { s' with wMutex := none })
  | .evict _ _ => (.idle, { s' with registryLock := none, newLoggerMutex := none })

/-- `Logger.Wait`. -/
def waitStep (g : Gid) (l : Ptr) (mark : Nat) (k : Cont) :
    WaitPhase → Shared → Option (Pc × Shared)
  | .lock, s =>
    if (s.loggers l).m = none then
      some (.wait l mark k .test, s.modify l fun lg => { lg with m := some (.go g) })
    else none
  | .test, s =>
    if (s.loggers l).waitStarted = 1 then
      some (afterWait g l mark k true (s.modify l fun lg => { lg with m := none }))
    else some (.wait l mark k .tasks, s.modify l fun lg => { lg with waitStarted := 1, m := none })
  | .tasks, s =>
    match (s.loggers l).logTasks.enter with
    | none => some (.wait l mark k .relock, s)
    | some wg => some (.wait l mark k .park, s.modify l fun lg => { lg with logTasks := wg })
  | .park, s =>
    match (s.loggers l).logTasks.wake with
    | none => none
    | some (wg, true) =>
      some (.wait l mark k .relock, s.modify l fun lg => { lg with logTasks := wg })
    | some (wg, false) => some (unwindWait l k (s.modify l fun lg => { lg with logTasks := wg }))
  | .relock, s =>
    if (s.loggers l).m = none then
      some (.wait l mark k .clear, s.modify l fun lg => { lg with m := some (.go g) })
    else none
  | .clear, s =>
    some (afterWait g l mark k false
      (s.modify l fun lg => { lg with waitStarted := 0, m := none }))

/-- `l.zlog.Close()` when there is a writer. -/
def Shared.closeWriter (s : Shared) (l : Ptr) : Shared :=
  match (s.loggers l).zlog with
  | none => s
  | some w => s.modifyWriter w fun z => { z with isOpen := false }

/-- `Logger.Close` after its `l.Wait`. -/
def closeStep (g : Gid) (l : Ptr) (mark : Nat) (early : Bool) :
    Bool → Shared → Option (Pc × Shared)
  | false, s =>
    if (s.loggers l).em = none then
      some (.close l mark early true, s.modify l fun lg => { lg with em := some (.go g) })
    else none
  | true, s =>
    some (.idle, ((s.closeWriter l).modify l fun lg => { lg with zlog := none, em := none }).ret
      (.close g l mark early))

/-! ## The registry: package-level Wait and NewLogger -/

/-- The package-level `Wait`. -/
def waitAllStep (g : Gid) (mark : Nat) : WaitAllPhase → Shared → Option (Pc × Shared)
  | .lock, s =>
    if s.wMutex = none then some (.waitAll mark .keys, { s with wMutex := some (.go g) })
    else none
  | .keys, s =>
    if s.registryLock = none then some (.waitAll mark (.next s.registry.keys), s) else none
  | .next [], s => some (.idle, { s with wMutex := none }.ret (.waitAll g mark))
  | .next (w :: keys), s =>
    if s.registryLock = none then
      match s.registry.get? w with
      | none => some (.waitAll mark (.next keys), s)
      | some l => some (.wait l s.accepted.length (.waitAll mark keys) .lock,
          { s with registry := s.registry.touch w })
    else none

/-- The `&Logger{...}` of `NewLogger`. -/
def Shared.alloc (s : Shared) (a : NewArgs) : Shared :=
  { s with
    loggers := Function.update s.loggers s.nlog
      { filename := a.filename
        logMaxSizeInMB := a.logMaxSizeInMB
        maxBackups := a.maxBackups
        maxAgeInDays := a.maxAgeInDays
        logSourcePath := a.writeFileline
        logDateTime := true }
    nlog := s.nlog + 1 }

/-- `NewLogger`, with the eviction callback that `Add` runs. -/
def newLoggerStep (g : Gid) (a : NewArgs) : NewPhase → Shared → Option (Pc × Shared)
  | .get, s =>
    if s.registryLock = none then
      match s.registry.get? a.filename with
      | some l => some (.idle, { s with registry := s.registry.touch a.filename }.ret
          (.newLogger g a.filename l))
      | none => some (.newLogger a .lock, s)
    else none
  | .lock, s =>
    if s.newLoggerMutex = none then
      some (.newLogger a .get2, { s with newLoggerMutex := some (.go g) })
    else none
  | .get2, s =>
    if s.registryLock = none then
      match s.registry.get? a.filename with
      | some l => some (.idle,
          { s with registry := s.registry.touch a.filename, newLoggerMutex := none }.ret
            (.newLogger g a.filename l))
      | none => some (.newLogger a .add, s)
    else none
  | .add, s =>
    if s.registryLock = none then
      let r := s.registry.add a.filename s.nlog
      match r.2 with
      | none => some (.newLogger a (.unlock s.nlog), { s.alloc a with registry := r.1 })
      | some (_, old) => some (.wait old s.accepted.length (.evict a s.nlog) .lock,
          { s.alloc a with registry := r.1, registryLock := some (.go g) })
    else none
  | .evicted new old, s =>
    some (.newLogger a (.unlock new), { s.closeWriter old with registryLock := none })
  | .unlock new, s =>
    some (.idle, { s with newLoggerMutex := none }.ret (.newLogger g a.filename new))

/-! ## Setters -/

/-- The assignment of a method that holds `l.m`. -/
def Setter.apply (x : Setter) (lg : Logger) : Logger :=
  match x with
  | .writeSourcePath b => { lg with logSourcePath := b }
  | .writeDateTime b => { lg with logDateTime := b }
  | .setAlsoToStdout b => { lg with alsoToStdout := b }
  | .setEncryptionKey key =>
    match newEncryptKey key with
    | none => lg
    | some k => { lg with encryptionKey := some k }

/-- history: what the call reports. -/
def Setter.report (x : Setter) (g : Gid) (s : Shared) : Shared :=
  match x with
  | .setEncryptionKey key => s.ret (.setKey g (newEncryptKey key).isSome)
  | _ => s

def setStep (g : Gid) (l : Ptr) (x : Setter) : Bool → Shared → Option (Pc × Shared)
  | false, s =>
    if (s.loggers l).m = none then
      some (.set l x true, s.modify l fun lg => { lg with m := some (.go g) })
    else none
  | true, s => some (.idle, x.report g (s.modify l fun lg => { x.apply lg with m := none }))

/-- `SetGlobalEncryption`. -/
def setGlobalStep (g : Gid) (key : Bytes) : Bool → Shared → Option (Pc × Shared)
  | false, s =>
    if s.encryptorM = none then some (.setGlobal key true, { s with encryptorM := some (.go g) })
    else none
  | true, s =>
    match newEncryptKey key with
    | none => some (.idle, { s with encryptorM := none }.ret (.setKey g false))
    | some k =>
      some (.idle, { s with encryptorKey := some k, encryptorM := none }.ret (.setKey g true))

/-! ## Caller depths -/

/-- The start and the maximum depth after a call. -/
def DepthCall.apply (x : DepthCall) (start max : Int) : Int × Int :=
  match x with
  | .setStartCallerDepth a => (a, max)
  | .setMaxCallerDepth a => (start, a)
  | .getStartCallerDepth | .getMaxCallerDepth => (start, max)

def depthStep (g : Gid) (x : DepthCall) : Bool → Shared → Option (Pc × Shared)
  | false, s =>
    if s.additionalCallerDepthM = none then
      some (.depth x true, { s with additionalCallerDepthM := some (.go g) })
    else none
  | true, s =>
    let r := x.apply s.startCallerDepth s.maxCallerDepth
    some (.idle,
      { s with startCallerDepth := r.1, maxCallerDepth := r.2, additionalCallerDepthM := none })

/-! ## One step of a user goroutine -/

/-- The first place inside a call. Only allocated loggers can be called. -/
def beginCall (c : Call) (s : Shared) : Option (Pc × Shared) :=
  match c with
  | .print l text =>
    if l < s.nlog then
      if s.isNop l then some (.idle, s) else some (.print l text .gate, s)
    else none
  | .wait l => if l < s.nlog then some (.wait l s.accepted.length .user .lock, s) else none
  | .close l => if l < s.nlog then some (.wait l s.accepted.length .close .lock, s) else none
  | .waitAll => some (.waitAll s.accepted.length .lock, s)
  | .newLogger a => some (.newLogger a .get, s)
  | .set l x => if l < s.nlog then some (.set l x false, s) else none
  | .setGlobalEncryption key => some (.setGlobal key false, s)
  | .setAlsoToStdout b => some (.idle, { s with alsoToStdout := b })
  | .depth x => some (.depth x false, s)

def goStep (g : Gid) (seq : Nat) (pc : Pc) (i : Input) (s : Shared) : Option (Pc × Shared) :=
  match pc, i with
  | .idle, .call c => beginCall c s
  | .print l msg ph, i => printStep g seq l msg ph i s
  | .wait l mark k ph, .tau => waitStep g l mark k ph s
  | .close l mark early held, .tau => closeStep g l mark early held s
  | .waitAll mark ph, .tau => waitAllStep g mark ph s
  | .newLogger a ph, .tau => newLoggerStep g a ph s
  | .set l x held, .tau => setStep g l x held s
  | .setGlobal key held, .tau => setGlobalStep g key held s
  | .depth x held, .tau => depthStep g x held s
  | _, _ => none

/-! ## The worker -/

/-- The loop that trims trailing newlines. -/
def trimNewlines (str : Bytes) : Bytes := str.rdropWhile (· == 10)

/-- The record the worker makes of a message; `none` when `EncryptString` panics. When it
    returns an error the text is left as it is. -/
def workerRecord (P : Primitives) (enckey : Option KeyEncrypt) (msg : Bytes) (draws : Draws) :
    Option Bytes :=
  let str := trimNewlines msg
  match enckey with
  | none => some (str ++ [10])
  | some k =>
    match k.encryptString P str draws with
    | .ok ret => some (Base64.encodeToString ret ++ [10])
    | .error (.error _) => some (str ++ [10])
    | .error .panic => none

/-- `newLogger` gives the logger at `l` a fresh writer. -/
def Shared.createWriter (s : Shared) (l : Ptr) : Shared :=
  let lg := s.loggers l
  { s with
    writers := Function.update s.writers s.nwri
      { filename := lg.filename
        maxSize := lg.logMaxSizeInMB
        maxBackups := lg.maxBackups
        maxAge := lg.maxAgeInDays }
    nwri := s.nwri + 1
    loggers := Function.update s.loggers l
      { lg with log := some s.nwri, zlog := some s.nwri } }

/-- The worker is through with a message. -/
def Shared.process (s : Shared) (m : LoggerMessage) (f : Fate) : Shared :=
  { s with processed := s.processed ++ [{ message := m, fate := f }] }

def workerStep (P : Primitives) : WorkerPc → WorkerInput → Shared → Option (WorkerPc × Shared)
  | .recv, .tau, s =>
    match s.tologCh with
    | [] => none
    | elem :: rest => some (.lock elem, { s with tologCh := rest })
  | .lock elem, .tau, s =>
    if (s.loggers elem.log).em = none then
      some (.init elem, s.modify elem.log fun lg => { lg with em := some .worker })
    else none
  | .init elem, i, s =>
    match (s.loggers elem.log).log, i with
    | some _, .tau =>
      some (.lockEncryptor elem, s.modify elem.log fun lg => { lg with em := none })
    | none, .create .ok =>
      some (.lockEncryptor elem,
        (s.createWriter elem.log).modify elem.log fun lg => { lg with em := none })
    | none, .create .mkdirFailed =>
      some (.done elem, (s.modify elem.log fun lg =>
        { lg with log := none, zlog := none, em := none }).process elem .skipped)
    | none, .create .panics => some (.dead (some elem), s.panic (.newLogger elem.log))
    | _, _ => none
  | .lockEncryptor elem, .tau, s =>
    if s.encryptorM = none then some (.lockKey elem, { s with encryptorM := some .worker })
    else none
  | .lockKey elem, .tau, s =>
    if (s.loggers elem.log).em = none then
      some (.key elem, s.modify elem.log fun lg => { lg with em := some .worker })
    else none
  | .key elem, .tau, s =>
    some (.emit elem ((s.loggers elem.log).encryptionKey.or s.encryptorKey),
      { s.modify elem.log fun lg => { lg with em := none } with encryptorM := none })
  | .emit elem enckey, .emit draws r, s =>
    match r, workerRecord P enckey elem.msg draws, (s.loggers elem.log).log with
    | .encryptPanics, _, _ =>
      if enckey.isSome then some (.dead (some elem), s.panic (.encrypt elem.log)) else none
    | .writePanics, _, _ => some (.dead (some elem), s.panic (.write elem.log))
    | .ok, none, _ => some (.dead (some elem), s.panic (.encrypt elem.log))
    | .ok, some record, some w =>
      some (.done elem, (s.modifyWriter w fun z =>
          { z with isOpen := true, records := z.records ++ [⟨record, elem⟩] }).process elem
        (.written enckey draws record))
    | .ok, some _, none => none
  | .done elem, .tau, s =>
    let r := (s.loggers elem.log).logTasks.done
    let s' := s.modify elem.log fun lg => { lg with logTasks := r.1 }
    match r.2 with
    | .returns => some (.recv, s')
    | .wakes w => some (.wake elem.log w, s')
    | .panics => some (.dead none, s'.panic (.workerDone elem.log))
  | .wake l w, .tau, s =>
    if (s.loggers l).logTasks.unchanged w then some (.reset l w, s)
    else some (.dead none, s.panic (.workerDone l))
  | .reset l w, .tau, s =>
    some (.recv, s.modify l fun lg => { lg with logTasks := lg.logTasks.reset w })
  | _, _, _ => none

/-! ## The machine -/

/-- The number of the call a goroutine is in after the input. -/
def Thread.nextSeq (t : Thread) : Input → Nat
  | .call _ => t.seq + 1
  | _ => t.seq

def step (P : Primitives) (s : State) : Action → Option State
  | .spawn => some { s with threads := s.threads ++ [{}] }
  | .go g i =>
    match s.threads[g]? with
    | none => none
    | some t =>
      match goStep g t.seq t.pc i s.sh with
      | none => none
      | some (pc, sh) =>
        some { s with sh, threads := s.threads.set g { pc, seq := t.nextSeq i } }
  | .worker i =>
    match workerStep P s.worker i s.sh with
    | none => none
    | some (worker, sh) => some { s with sh, worker }

/-- The package: no logger but `EmptyLogger`, no user goroutine, the worker at its receive. -/
def machine (P : Primitives) : Machine State Action where
  init := {}
  step := step P

/-! ## Frame lemmas of the compound updates -/

section Frame

variable (s : Shared) (l : Ptr) (w : Wid) (m : LoggerMessage) (f : Fate) (a : NewArgs) (b : Bytes)
  (x : Setter) (g : Gid)

@[simp] theorem Shared.echo_loggers : (s.echo l b).loggers = s.loggers := by
  unfold Shared.echo; split <;> rfl
@[simp] theorem Shared.echo_nlog : (s.echo l b).nlog = s.nlog := by
  unfold Shared.echo; split <;> rfl
@[simp] theorem Shared.echo_writers : (s.echo l b).writers = s.writers := by
  unfold Shared.echo; split <;> rfl
@[simp] theorem Shared.echo_nwri : (s.echo l b).nwri = s.nwri := by
  unfold Shared.echo; split <;> rfl
@[simp] theorem Shared.echo_tologCh : (s.echo l b).tologCh = s.tologCh := by
  unfold Shared.echo; split <;> rfl
@[simp] theorem Shared.echo_registry : (s.echo l b).registry = s.registry := by
  unfold Shared.echo; split <;> rfl
@[simp] theorem Shared.echo_registryLock : (s.echo l b).registryLock = s.registryLock := by
  unfold Shared.echo; split <;> rfl
@[simp] theorem Shared.echo_wMutex : (s.echo l b).wMutex = s.wMutex := by
  unfold Shared.echo; split <;> rfl
@[simp] theorem Shared.echo_accepted : (s.echo l b).accepted = s.accepted := by
  unfold Shared.echo; split <;> rfl
@[simp] theorem Shared.echo_processed : (s.echo l b).processed = s.processed := by
  unfold Shared.echo; split <;> rfl
@[simp] theorem Shared.echo_returned : (s.echo l b).returned = s.returned := by
  unfold Shared.echo; split <;> rfl
@[simp] theorem Shared.echo_panics : (s.echo l b).panics = s.panics := by
  unfold Shared.echo; split <;> rfl

@[simp] theorem Shared.closeWriter_loggers : (s.closeWriter l).loggers = s.loggers := by
  unfold Shared.closeWriter; split <;> rfl
@[simp] theorem Shared.closeWriter_nlog : (s.closeWriter l).nlog = s.nlog := by
  unfold Shared.closeWriter; split <;> rfl
@[simp] theorem Shared.closeWriter_nwri : (s.closeWriter l).nwri = s.nwri := by
  unfold Shared.closeWriter; split <;> rfl
@[simp] theorem Shared.closeWriter_tologCh : (s.closeWriter l).tologCh = s.tologCh := by
  unfold Shared.closeWriter; split <;> rfl
@[simp] theorem Shared.closeWriter_registry : (s.closeWriter l).registry = s.registry := by
  unfold Shared.closeWriter; split <;> rfl
@[simp] theorem Shared.closeWriter_registryLock :
    (s.closeWriter l).registryLock = s.registryLock := by
  unfold Shared.closeWriter; split <;> rfl
@[simp] theorem Shared.closeWriter_accepted : (s.closeWriter l).accepted = s.accepted := by
  unfold Shared.closeWriter; split <;> rfl
@[simp] theorem Shared.closeWriter_processed : (s.closeWriter l).processed = s.processed := by
  unfold Shared.closeWriter; split <;> rfl
@[simp] theorem Shared.closeWriter_returned : (s.closeWriter l).returned = s.returned := by
  unfold Shared.closeWriter; split <;> rfl
@[simp] theorem Shared.closeWriter_panics : (s.closeWriter l).panics = s.panics := by
  unfold Shared.closeWriter; split <;> rfl

/-- Closing a writer keeps what was written to it. -/
@[simp] theorem Shared.closeWriter_records :
    ((s.closeWriter l).writers w).records = (s.writers w).records := by
  unfold Shared.closeWriter
  split
  · rfl
  · rw [Shared.modifyWriter_writers]
    split <;> simp [*]

@[simp] theorem Shared.process_loggers : (s.process m f).loggers = s.loggers := rfl
@[simp] theorem Shared.process_writers : (s.process m f).writers = s.writers := rfl

@[simp] theorem Setter.report_loggers : (x.report g s).loggers = s.loggers := by cases x <;> rfl
@[simp] theorem Setter.report_nlog : (x.report g s).nlog = s.nlog := by cases x <;> rfl
@[simp] theorem Setter.report_writers : (x.report g s).writers = s.writers := by cases x <;> rfl
@[simp] theorem Setter.report_nwri : (x.report g s).nwri = s.nwri := by cases x <;> rfl
@[simp] theorem Setter.report_tologCh : (x.report g s).tologCh = s.tologCh := by cases x <;> rfl
@[simp] theorem Setter.report_registry : (x.report g s).registry = s.registry := by cases x <;> rfl
@[simp] theorem Setter.report_registryLock :
    (x.report g s).registryLock = s.registryLock := by cases x <;> rfl
@[simp] theorem Setter.report_accepted : (x.report g s).accepted = s.accepted := by cases x <;> rfl
@[simp] theorem Setter.report_processed :
    (x.report g s).processed = s.processed := by cases x <;> rfl
@[simp] theorem Setter.report_panics : (x.report g s).panics = s.panics := by cases x <;> rfl

variable (lg : Logger)

@[simp] theorem Setter.apply_log : (x.apply lg).log = lg.log := by
  cases x <;> simp only [Setter.apply]
  split <;> rfl
@[simp] theorem Setter.apply_zlog : (x.apply lg).zlog = lg.zlog := by
  cases x <;> simp only [Setter.apply]
  split <;> rfl
@[simp] theorem Setter.apply_waitStarted : (x.apply lg).waitStarted = lg.waitStarted := by
  cases x <;> simp only [Setter.apply]
  split <;> rfl
@[simp] theorem Setter.apply_em : (x.apply lg).em = lg.em := by
  cases x <;> simp only [Setter.apply]
  split <;> rfl
@[simp] theorem Setter.apply_filename : (x.apply lg).filename = lg.filename := by
  cases x <;> simp only [Setter.apply]
  split <;> rfl
@[simp] theorem Setter.apply_logTasks : (x.apply lg).logTasks = lg.logTasks := by
  cases x <;> simp only [Setter.apply]
  split <;> rfl

end Frame

end ZipoLogger
