/-
  What a step can do, case by case.

  `GoStep` and `WorkerStep` list the ways a user goroutine and the worker can move, each with its
  guard and its result; `goStep_cases` and `workerStep_cases` say that the step functions do
  nothing else. Every invariant is proved by cases on these relations, so no later proof unfolds
  a step function.
-/
import ZipoLogger.Logger.Step

namespace ZipoLogger

open Enc

/-- One step of the goroutine `g` in its call number `seq`. -/
inductive GoStep (g : Gid) (seq : Nat) (s : Shared) : Pc → Input → Pc → Shared → Prop
  | callNop {l : Ptr} {text : Bytes} : l < s.nlog → s.isNop l = true →
      GoStep g seq s .idle (.call (.print l text)) .idle s
  | callPrint {l : Ptr} {text : Bytes} : l < s.nlog → s.isNop l = false →
      GoStep g seq s .idle (.call (.print l text)) (.print l text .gate) s
  | callWait {l : Ptr} : l < s.nlog →
      GoStep g seq s .idle (.call (.wait l)) (.wait l s.accepted.length .user .lock) s
  | callClose {l : Ptr} : l < s.nlog →
      GoStep g seq s .idle (.call (.close l)) (.wait l s.accepted.length .close .lock) s
  | callWaitAll :
      GoStep g seq s .idle (.call .waitAll) (.waitAll s.accepted.length .lock) s
  | callNew {a : NewArgs} : GoStep g seq s .idle (.call (.newLogger a)) (.newLogger a .get) s
  | callSet {l : Ptr} {x : Setter} : l < s.nlog →
      GoStep g seq s .idle (.call (.set l x)) (.set l x false) s
  | callSetGlobal {key : Bytes} :
      GoStep g seq s .idle (.call (.setGlobalEncryption key)) (.setGlobal key false) s
  | callStdout {b : Bool} :
      GoStep g seq s .idle (.call (.setAlsoToStdout b)) .idle { s with alsoToStdout := b }
  | callDepth {x : DepthCall} : GoStep g seq s .idle (.call (.depth x)) (.depth x false) s
  | gateClosed {l : Ptr} {msg : Bytes} : 0 < (s.loggers l).waitStarted →
      GoStep g seq s (.print l msg .gate) .tau .idle
        (s.ret (.print (g, seq) l msg false s.slotFree))
  | gateOpen {l : Ptr} {msg : Bytes} : (s.loggers l).waitStarted = 0 →
      GoStep g seq s (.print l msg .gate) .tau (.print l msg (.add false)) s
  | sourcePath {l : Ptr} {msg : Bytes} : (s.loggers l).logSourcePath = true →
      GoStep g seq s (.print l msg (.add false)) .tau (.print l msg (.depth .start false)) s
  | depthLock {l : Ptr} {msg : Bytes} {r : DepthRead} : s.additionalCallerDepthM = none →
      GoStep g seq s (.print l msg (.depth r false)) .tau (.print l msg (.depth r true))
        { s with additionalCallerDepthM := some (.go g) }
  | startRead {l : Ptr} {msg : Bytes} :
      GoStep g seq s (.print l msg (.depth .start true)) .tau
        (.print l msg (.depth (.max s.startCallerDepth false) false))
        { s with additionalCallerDepthM := none }
  | fallsBack {l : Ptr} {msg dir : Bytes} {add : Int} {inner : Bool} {rt : Frame}
      {callers : List Frame} :
      activation dir rt (if inner then fallbackFrame dir :: callers else callers)
        s.maxCallerDepth add = none →
      GoStep g seq s (.print l msg (.depth (.max add inner) true)) (.callers dir rt callers)
        (.print l msg (.depth (.max 0 true) false)) { s with additionalCallerDepthM := none }
  | headed {l : Ptr} {msg dir ret : Bytes} {add : Int} {inner : Bool} {rt : Frame}
      {callers : List Frame} :
      activation dir rt (if inner then fallbackFrame dir :: callers else callers)
        s.maxCallerDepth add = some ret →
      GoStep g seq s (.print l msg (.depth (.max add inner) true)) (.callers dir rt callers)
        (.print l ((if inner then breakLine (breakLine ret) else breakLine ret) ++ msg) (.add true))
        { s with additionalCallerDepthM := none }
  | added {l : Ptr} {msg stamp : Bytes} {headed : Bool} :
      ((s.loggers l).logTasks.add 1).2 = .returns →
      (headed || !(s.loggers l).logSourcePath) = true →
      GoStep g seq s (.print l msg (.add headed)) (.stamp stamp)
        (.print l ((s.loggers l).stamped stamp msg) .send)
        (s.modify l fun lg => { lg with logTasks := ((s.loggers l).logTasks.add 1).1 })
  | addWakes {l : Ptr} {msg stamp : Bytes} {headed : Bool} {w : Nat} :
      ((s.loggers l).logTasks.add 1).2 = .wakes w →
      (headed || !(s.loggers l).logSourcePath) = true →
      GoStep g seq s (.print l msg (.add headed)) (.stamp stamp)
        (.print l ((s.loggers l).stamped stamp msg) (.wake true w))
        (s.modify l fun lg => { lg with logTasks := ((s.loggers l).logTasks.add 1).1 })
  | addPanics {l : Ptr} {msg stamp : Bytes} {headed : Bool} :
      ((s.loggers l).logTasks.add 1).2 = .panics →
      (headed || !(s.loggers l).logSourcePath) = true →
      GoStep g seq s (.print l msg (.add headed)) (.stamp stamp) .idle
        ((s.modify l fun lg => { lg with logTasks := ((s.loggers l).logTasks.add 1).1 }).panic
          (.printAdd l))
  | sent {l : Ptr} {msg : Bytes} : s.slotFree = true →
      GoStep g seq s (.print l msg .send) .tau .idle
        (((s.echo l msg).enqueue { msg, log := l, call := (g, seq) }).ret
          (.print (g, seq) l msg true true))
  | full {l : Ptr} {msg : Bytes} : s.slotFree = false →
      GoStep g seq s (.print l msg .send) .tau (.print l msg .done)
        { s.echo l msg with dropAlert := true }
  | dropped {l : Ptr} {msg : Bytes} : (s.loggers l).logTasks.done.2 = .returns →
      GoStep g seq s (.print l msg .done) .tau .idle
        ((s.modify l fun lg => { lg with logTasks := (s.loggers l).logTasks.done.1 }).ret
          (.print (g, seq) l msg true false))
  | dropWakes {l : Ptr} {msg : Bytes} {w : Nat} : (s.loggers l).logTasks.done.2 = .wakes w →
      GoStep g seq s (.print l msg .done) .tau (.print l msg (.wake false w))
        (s.modify l fun lg => { lg with logTasks := (s.loggers l).logTasks.done.1 })
  | dropPanics {l : Ptr} {msg : Bytes} : (s.loggers l).logTasks.done.2 = .panics →
      GoStep g seq s (.print l msg .done) .tau .idle
        ((s.modify l fun lg => { lg with logTasks := (s.loggers l).logTasks.done.1 }).panic
          (.printDone l))
  | checked {l : Ptr} {msg : Bytes} {added : Bool} {w : Nat} :
      (s.loggers l).logTasks.unchanged w = true →
      GoStep g seq s (.print l msg (.wake added w)) .tau (.print l msg (.reset added w)) s
  | checkPanics {l : Ptr} {msg : Bytes} {added : Bool} {w : Nat} :
      (s.loggers l).logTasks.unchanged w = false →
      GoStep g seq s (.print l msg (.wake added w)) .tau .idle
        (s.panic (if added then .printAdd l else .printDone l))
  | readded {l : Ptr} {msg : Bytes} {w : Nat} :
      GoStep g seq s (.print l msg (.reset true w)) .tau (.print l msg .send)
        (s.modify l fun lg => { lg with logTasks := lg.logTasks.reset w })
  | released {l : Ptr} {msg : Bytes} {w : Nat} :
      GoStep g seq s (.print l msg (.reset false w)) .tau .idle
        ((s.modify l fun lg => { lg with logTasks := lg.logTasks.reset w }).ret
          (.print (g, seq) l msg true false))
  | waitLock {l : Ptr} {mark : Nat} {k : Cont} : (s.loggers l).m = none →
      GoStep g seq s (.wait l mark k .lock) .tau (.wait l mark k .test)
        (s.modify l fun lg => { lg with m := some (.go g) })
  | waitEarly {l : Ptr} {mark : Nat} {k : Cont} : (s.loggers l).waitStarted = 1 →
      GoStep g seq s (.wait l mark k .test) .tau
        (afterWait g l mark k true (s.modify l fun lg => { lg with m := none })).1
        (afterWait g l mark k true (s.modify l fun lg => { lg with m := none })).2
  | waitSet {l : Ptr} {mark : Nat} {k : Cont} : (s.loggers l).waitStarted ≠ 1 →
      GoStep g seq s (.wait l mark k .test) .tau (.wait l mark k .tasks)
        (s.modify l fun lg => { lg with waitStarted := 1, m := none })
  | waitThrough {l : Ptr} {mark : Nat} {k : Cont} : (s.loggers l).logTasks.enter = none →
      GoStep g seq s (.wait l mark k .tasks) .tau (.wait l mark k .relock) s
  | waitPark {l : Ptr} {mark : Nat} {k : Cont} {wg : WaitGroup} :
      (s.loggers l).logTasks.enter = some wg →
      GoStep g seq s (.wait l mark k .tasks) .tau (.wait l mark k .park)
        (s.modify l fun lg => { lg with logTasks := wg })
  | waitWake {l : Ptr} {mark : Nat} {k : Cont} {wg : WaitGroup} :
      (s.loggers l).logTasks.wake = some (wg, true) →
      GoStep g seq s (.wait l mark k .park) .tau (.wait l mark k .relock)
        (s.modify l fun lg => { lg with logTasks := wg })
  | waitPanics {l : Ptr} {mark : Nat} {k : Cont} {wg : WaitGroup} :
      (s.loggers l).logTasks.wake = some (wg, false) →
      GoStep g seq s (.wait l mark k .park) .tau
        (unwindWait l k (s.modify l fun lg => { lg with logTasks := wg })).1
        (unwindWait l k (s.modify l fun lg => { lg with logTasks := wg })).2
  | waitRelock {l : Ptr} {mark : Nat} {k : Cont} : (s.loggers l).m = none →
      GoStep g seq s (.wait l mark k .relock) .tau (.wait l mark k .clear)
        (s.modify l fun lg => { lg with m := some (.go g) })
  | waitClear {l : Ptr} {mark : Nat} {k : Cont} :
      GoStep g seq s (.wait l mark k .clear) .tau
        (afterWait g l mark k false
          (s.modify l fun lg => { lg with waitStarted := 0, m := none })).1
        (afterWait g l mark k false
          (s.modify l fun lg => { lg with waitStarted := 0, m := none })).2
  | closeLock {l : Ptr} {mark : Nat} {early : Bool} : (s.loggers l).em = none →
      GoStep g seq s (.close l mark early false) .tau (.close l mark early true)
        (s.modify l fun lg => { lg with em := some (.go g) })
  | closeDone {l : Ptr} {mark : Nat} {early : Bool} :
      GoStep g seq s (.close l mark early true) .tau .idle
        (((s.closeWriter l).modify l fun lg => { lg with zlog := none, em := none }).ret
          (.close g l mark early))
  | allLock {mark : Nat} : s.wMutex = none →
      GoStep g seq s (.waitAll mark .lock) .tau (.waitAll mark .keys)
        { s with wMutex := some (.go g) }
  | allKeys {mark : Nat} : s.registryLock = none →
      GoStep g seq s (.waitAll mark .keys) .tau (.waitAll mark (.next s.registry.keys)) s
  | allDone {mark : Nat} :
      GoStep g seq s (.waitAll mark (.next [])) .tau .idle
        ({ s with wMutex := none }.ret (.waitAll g mark))
  | allMiss {mark : Nat} {w : Bytes} {keys : List Bytes} : s.registryLock = none →
      s.registry.get? w = none →
      GoStep g seq s (.waitAll mark (.next (w :: keys))) .tau (.waitAll mark (.next keys)) s
  | allHit {mark : Nat} {w : Bytes} {keys : List Bytes} {l : Ptr} : s.registryLock = none →
      s.registry.get? w = some l →
      GoStep g seq s (.waitAll mark (.next (w :: keys))) .tau
        (.wait l s.accepted.length (.waitAll mark keys) .lock)
        { s with registry := s.registry.touch w }
  | newHit {a : NewArgs} {l : Ptr} : s.registryLock = none →
      s.registry.get? a.filename = some l →
      GoStep g seq s (.newLogger a .get) .tau .idle
        ({ s with registry := s.registry.touch a.filename }.ret (.newLogger g a.filename l))
  | newMiss {a : NewArgs} : s.registryLock = none → s.registry.get? a.filename = none →
      GoStep g seq s (.newLogger a .get) .tau (.newLogger a .lock) s
  | newLock {a : NewArgs} : s.newLoggerMutex = none →
      GoStep g seq s (.newLogger a .lock) .tau (.newLogger a .get2)
        { s with newLoggerMutex := some (.go g) }
  | newHit2 {a : NewArgs} {l : Ptr} : s.registryLock = none →
      s.registry.get? a.filename = some l →
      GoStep g seq s (.newLogger a .get2) .tau .idle
        ({ s with registry := s.registry.touch a.filename, newLoggerMutex := none }.ret
          (.newLogger g a.filename l))
  | newMiss2 {a : NewArgs} : s.registryLock = none → s.registry.get? a.filename = none →
      GoStep g seq s (.newLogger a .get2) .tau (.newLogger a .add) s
  | newAdd {a : NewArgs} : s.registryLock = none →
      (s.registry.add a.filename s.nlog).2 = none →
      GoStep g seq s (.newLogger a .add) .tau (.newLogger a (.unlock s.nlog))
        { s.alloc a with registry := (s.registry.add a.filename s.nlog).1 }
  | newEvict {a : NewArgs} {f : Bytes} {old : Ptr} : s.registryLock = none →
      (s.registry.add a.filename s.nlog).2 = some (f, old) →
      GoStep g seq s (.newLogger a .add) .tau
        (.wait old s.accepted.length (.evict a s.nlog) .lock)
        { s.alloc a with
          registry := (s.registry.add a.filename s.nlog).1, registryLock := some (.go g) }
  | newEvicted {a : NewArgs} {new old : Ptr} :
      GoStep g seq s (.newLogger a (.evicted new old)) .tau (.newLogger a (.unlock new))
        { s.closeWriter old with registryLock := none }
  | newUnlock {a : NewArgs} {new : Ptr} :
      GoStep g seq s (.newLogger a (.unlock new)) .tau .idle
        ({ s with newLoggerMutex := none }.ret (.newLogger g a.filename new))
  | setLock {l : Ptr} {x : Setter} : (s.loggers l).m = none →
      GoStep g seq s (.set l x false) .tau (.set l x true)
        (s.modify l fun lg => { lg with m := some (.go g) })
  | setApply {l : Ptr} {x : Setter} :
      GoStep g seq s (.set l x true) .tau .idle
        (x.report g (s.modify l fun lg => { x.apply lg with m := none }))
  | globalLock {key : Bytes} : s.encryptorM = none →
      GoStep g seq s (.setGlobal key false) .tau (.setGlobal key true)
        { s with encryptorM := some (.go g) }
  | globalReject {key : Bytes} : newEncryptKey key = none →
      GoStep g seq s (.setGlobal key true) .tau .idle
        ({ s with encryptorM := none }.ret (.setKey g false))
  | globalSet {key : Bytes} {k : KeyEncrypt} : newEncryptKey key = some k →
      GoStep g seq s (.setGlobal key true) .tau .idle
        ({ s with encryptorKey := some k, encryptorM := none }.ret (.setKey g true))
  | depthCallLock {x : DepthCall} : s.additionalCallerDepthM = none →
      GoStep g seq s (.depth x false) .tau (.depth x true)
        { s with additionalCallerDepthM := some (.go g) }
  | depthApply {x : DepthCall} :
      GoStep g seq s (.depth x true) .tau .idle
        { s with
          startCallerDepth := (x.apply s.startCallerDepth s.maxCallerDepth).1
          maxCallerDepth := (x.apply s.startCallerDepth s.maxCallerDepth).2
          additionalCallerDepthM := none }

/-- One step of the worker. -/
inductive WorkerStep (P : Primitives) (s : Shared) :
    WorkerPc → WorkerInput → WorkerPc → Shared → Prop
  | receive {elem : LoggerMessage} {rest : List LoggerMessage} : s.tologCh = elem :: rest →
      WorkerStep P s .recv .tau (.lock elem) { s with tologCh := rest }
  | lock {elem : LoggerMessage} : (s.loggers elem.log).em = none →
      WorkerStep P s (.lock elem) .tau (.init elem)
        (s.modify elem.log fun lg => { lg with em := some .worker })
  | ready {elem : LoggerMessage} {w : Wid} : (s.loggers elem.log).log = some w →
      WorkerStep P s (.init elem) .tau (.lockEncryptor elem)
        (s.modify elem.log fun lg => { lg with em := none })
  | created {elem : LoggerMessage} : (s.loggers elem.log).log = none →
      WorkerStep P s (.init elem) (.create .ok) (.lockEncryptor elem)
        ((s.createWriter elem.log).modify elem.log fun lg => { lg with em := none })
  | skipped {elem : LoggerMessage} : (s.loggers elem.log).log = none →
      WorkerStep P s (.init elem) (.create .mkdirFailed) (.done elem)
        ((s.modify elem.log fun lg => { lg with log := none, zlog := none, em := none }).process
          elem .skipped)
  | createPanics {elem : LoggerMessage} : (s.loggers elem.log).log = none →
      WorkerStep P s (.init elem) (.create .panics) (.dead (some elem))
        (s.panic (.newLogger elem.log))
  | lockEncryptor {elem : LoggerMessage} : s.encryptorM = none →
      WorkerStep P s (.lockEncryptor elem) .tau (.lockKey elem)
        { s with encryptorM := some .worker }
  | lockKey {elem : LoggerMessage} : (s.loggers elem.log).em = none →
      WorkerStep P s (.lockKey elem) .tau (.key elem)
        (s.modify elem.log fun lg => { lg with em := some .worker })
  | key {elem : LoggerMessage} :
      WorkerStep P s (.key elem) .tau
        (.emit elem ((s.loggers elem.log).encryptionKey.or s.encryptorKey))
        { s.modify elem.log fun lg => { lg with em := none } with encryptorM := none }
  | encryptPanics {elem : LoggerMessage} {enckey : Option KeyEncrypt} {draws : Draws}
      {r : Emission} :
      WorkerStep P s (.emit elem enckey) (.emit draws r) (.dead (some elem))
        (s.panic (.encrypt elem.log))
  | writePanics {elem : LoggerMessage} {enckey : Option KeyEncrypt} {draws : Draws} :
      WorkerStep P s (.emit elem enckey) (.emit draws .writePanics) (.dead (some elem))
        (s.panic (.write elem.log))
  | wrote {elem : LoggerMessage} {enckey : Option KeyEncrypt} {draws : Draws} {record : Bytes}
      {w : Wid} : workerRecord P enckey elem.msg draws = some record →
      (s.loggers elem.log).log = some w →
      WorkerStep P s (.emit elem enckey) (.emit draws .ok) (.done elem)
        ((s.modifyWriter w fun z =>
          { z with isOpen := true, records := z.records ++ [⟨record, elem⟩] }).process elem
            (.written enckey draws record))
  | doneReturns {elem : LoggerMessage} : (s.loggers elem.log).logTasks.done.2 = .returns →
      WorkerStep P s (.done elem) .tau .recv
        (s.modify elem.log fun lg => { lg with logTasks := (s.loggers elem.log).logTasks.done.1 })
  | doneWakes {elem : LoggerMessage} {w : Nat} :
      (s.loggers elem.log).logTasks.done.2 = .wakes w →
      WorkerStep P s (.done elem) .tau (.wake elem.log w)
        (s.modify elem.log fun lg => { lg with logTasks := (s.loggers elem.log).logTasks.done.1 })
  | donePanics {elem : LoggerMessage} : (s.loggers elem.log).logTasks.done.2 = .panics →
      WorkerStep P s (.done elem) .tau (.dead none)
        ((s.modify elem.log fun lg =>
          { lg with logTasks := (s.loggers elem.log).logTasks.done.1 }).panic
            (.workerDone elem.log))
  | checked {l : Ptr} {w : Nat} : (s.loggers l).logTasks.unchanged w = true →
      WorkerStep P s (.wake l w) .tau (.reset l w) s
  | checkPanics {l : Ptr} {w : Nat} : (s.loggers l).logTasks.unchanged w = false →
      WorkerStep P s (.wake l w) .tau (.dead none) (s.panic (.workerDone l))
  | woke {l : Ptr} {w : Nat} :
      WorkerStep P s (.reset l w) .tau .recv
        (s.modify l fun lg => { lg with logTasks := lg.logTasks.reset w })

/-! ## The step functions do nothing else -/

section Inversion

variable {g : Gid} {seq : Nat} {s s' : Shared} {pc pc' : Pc} {i : Input}

theorem beginCall_cases {c : Call} (h : beginCall c s = some (pc', s')) :
    GoStep g seq s .idle (.call c) pc' s' := by
  unfold beginCall at h
  cases c <;> simp only [Option.ite_none_right_eq_some] at h
  case print l text =>
    obtain ⟨hl, h⟩ := h
    split at h <;> cases h
    · exact .callNop hl ‹_›
    · exact .callPrint hl (Bool.eq_false_iff.mpr ‹_›)
  case wait l => obtain ⟨hl, h⟩ := h; cases h; exact .callWait hl
  case close l => obtain ⟨hl, h⟩ := h; cases h; exact .callClose hl
  case waitAll => cases h; exact .callWaitAll
  case newLogger a => cases h; exact .callNew
  case set l x => obtain ⟨hl, h⟩ := h; cases h; exact .callSet hl
  case setGlobalEncryption key => cases h; exact .callSetGlobal
  case setAlsoToStdout b => cases h; exact .callStdout
  case depth x => cases h; exact .callDepth

theorem printStep_cases {l : Ptr} {msg : Bytes} {ph : PrintPhase}
    (h : printStep g seq l msg ph i s = some (pc', s')) :
    GoStep g seq s (.print l msg ph) i pc' s' := by
  unfold printStep at h
  split at h
  · split at h <;> cases h
    · exact .gateClosed ‹_›
    · exact .gateOpen (Nat.eq_zero_of_not_pos ‹_›)
  · split at h <;> cases h
    exact .sourcePath ‹_›
  · split at h <;> cases h
    exact .depthLock ‹_›
  · cases h
    exact .startRead
  · dsimp only at h
    split at h <;> cases h
    · exact .fallsBack ‹_›
    · exact .headed ‹_›
  · split at h
    · dsimp only at h
      split at h <;> cases h
      · exact .added ‹_› ‹_›
      · exact .addWakes ‹_› ‹_›
      · exact .addPanics ‹_› ‹_›
    · cases h
  · split at h <;> cases h
    · exact .sent ‹_›
    · exact .full (Bool.eq_false_iff.mpr ‹_›)
  · dsimp only at h
    split at h <;> cases h
    · exact .dropped ‹_›
    · exact .dropWakes ‹_›
    · exact .dropPanics ‹_›
  · split at h <;> cases h
    · exact .checked ‹_›
    · exact .checkPanics (Bool.eq_false_iff.mpr ‹_›)
  · cases h
    exact .readded
  · cases h
    exact .released
  · cases h

theorem waitStep_cases {l : Ptr} {mark : Nat} {k : Cont} {ph : WaitPhase}
    (h : waitStep g l mark k ph s = some (pc', s')) :
    GoStep g seq s (.wait l mark k ph) .tau pc' s' := by
  unfold waitStep at h
  split at h
  · split at h <;> cases h
    exact .waitLock ‹_›
  · split at h
    · obtain ⟨rfl, rfl⟩ := Prod.ext_iff.mp (Option.some.inj h)
      exact .waitEarly ‹_›
    · cases h
      exact .waitSet ‹_›
  · split at h <;> cases h
    · exact .waitThrough ‹_›
    · exact .waitPark ‹_›
  · split at h
    · cases h
    · cases h
      exact .waitWake ‹_›
    · obtain ⟨rfl, rfl⟩ := Prod.ext_iff.mp (Option.some.inj h)
      exact .waitPanics ‹_›
  · split at h <;> cases h
    exact .waitRelock ‹_›
  · obtain ⟨rfl, rfl⟩ := Prod.ext_iff.mp (Option.some.inj h)
    exact .waitClear

theorem closeStep_cases {l : Ptr} {mark : Nat} {early held : Bool}
    (h : closeStep g l mark early held s = some (pc', s')) :
    GoStep g seq s (.close l mark early held) .tau pc' s' := by
  unfold closeStep at h
  split at h
  · split at h <;> cases h
    exact .closeLock ‹_›
  · cases h
    exact .closeDone

theorem waitAllStep_cases {mark : Nat} {ph : WaitAllPhase}
    (h : waitAllStep g mark ph s = some (pc', s')) :
    GoStep g seq s (.waitAll mark ph) .tau pc' s' := by
  unfold waitAllStep at h
  split at h
  · split at h <;> cases h
    exact .allLock ‹_›
  · split at h <;> cases h
    exact .allKeys ‹_›
  · cases h
    exact .allDone
  · split at h
    · split at h <;> cases h
      · exact .allMiss ‹_› ‹_›
      · exact .allHit ‹_› ‹_›
    · cases h

theorem newLoggerStep_cases {a : NewArgs} {ph : NewPhase}
    (h : newLoggerStep g a ph s = some (pc', s')) :
    GoStep g seq s (.newLogger a ph) .tau pc' s' := by
  unfold newLoggerStep at h
  split at h
  · split at h
    · split at h <;> cases h
      · exact .newHit ‹_› ‹_›
      · exact .newMiss ‹_› ‹_›
    · cases h
  · split at h <;> cases h
    exact .newLock ‹_›
  · split at h
    · split at h <;> cases h
      · exact .newHit2 ‹_› ‹_›
      · exact .newMiss2 ‹_› ‹_›
    · cases h
  · split at h
    · dsimp only at h
      split at h <;> cases h
      · exact .newAdd ‹_› ‹_›
      · exact .newEvict ‹_› ‹_›
    · cases h
  · cases h
    exact .newEvicted
  · cases h
    exact .newUnlock

theorem setStep_cases {l : Ptr} {x : Setter} {held : Bool}
    (h : setStep g l x held s = some (pc', s')) :
    GoStep g seq s (.set l x held) .tau pc' s' := by
  unfold setStep at h
  split at h
  · split at h <;> cases h
    exact .setLock ‹_›
  · cases h
    exact .setApply

theorem setGlobalStep_cases {key : Bytes} {held : Bool}
    (h : setGlobalStep g key held s = some (pc', s')) :
    GoStep g seq s (.setGlobal key held) .tau pc' s' := by
  unfold setGlobalStep at h
  split at h
  · split at h <;> cases h
    exact .globalLock ‹_›
  · split at h <;> cases h
    · exact .globalReject ‹_›
    · exact .globalSet ‹_›

theorem depthStep_cases {x : DepthCall} {held : Bool} (h : depthStep g x held s = some (pc', s')) :
    GoStep g seq s (.depth x held) .tau pc' s' := by
  unfold depthStep at h
  split at h
  · split at h <;> cases h
    exact .depthCallLock ‹_›
  · cases h
    exact .depthApply

theorem goStep_cases (h : goStep g seq pc i s = some (pc', s')) :
    GoStep g seq s pc i pc' s' := by
  unfold goStep at h
  split at h
  · exact beginCall_cases h
  · exact printStep_cases h
  · exact waitStep_cases h
  · exact closeStep_cases h
  · exact waitAllStep_cases h
  · exact newLoggerStep_cases h
  · exact setStep_cases h
  · exact setGlobalStep_cases h
  · exact depthStep_cases h
  · cases h

/-- Every case is a step. -/
theorem GoStep.goStep (h : GoStep g seq s pc i pc' s') : goStep g seq pc i s = some (pc', s') := by
  cases h <;>
    simp only [ZipoLogger.goStep, beginCall, printStep, waitStep, closeStep, waitAllStep,
      newLoggerStep, setStep, setGlobalStep, depthStep] <;>
    simp [*]

variable {P : Primitives} {wpc wpc' : WorkerPc} {wi : WorkerInput}

theorem workerStep_cases (h : workerStep P wpc wi s = some (wpc', s')) :
    WorkerStep P s wpc wi wpc' s' := by
  unfold workerStep at h
  split at h
  · split at h <;> cases h
    exact .receive ‹_›
  · split at h <;> cases h
    exact .lock ‹_›
  · split at h <;> cases h
    · exact .ready ‹_›
    · exact .created ‹_›
    · exact .skipped ‹_›
    · exact .createPanics ‹_›
  · split at h <;> cases h
    exact .lockEncryptor ‹_›
  · split at h <;> cases h
    exact .lockKey ‹_›
  · cases h
    exact .key
  · split at h
    · split at h <;> cases h
      exact .encryptPanics
    · cases h
      exact .writePanics
    · cases h
      exact .encryptPanics
    · cases h
      exact .wrote ‹_› ‹_›
    · cases h
  · dsimp only at h
    split at h <;> cases h
    · exact .doneReturns ‹_›
    · exact .doneWakes ‹_›
    · exact .donePanics ‹_›
  · split at h <;> cases h
    · exact .checked ‹_›
    · exact .checkPanics (Bool.eq_false_iff.mpr ‹_›)
  · cases h
    exact .woke
  · cases h

/-- A step of the machine: a new goroutine, a step of a goroutine, a step of the worker. -/
theorem step_cases {u v : State} {a : Action} (h : step P u a = some v) :
    (a = .spawn ∧ v = { u with threads := u.threads ++ [{}] }) ∨
    (∃ g i t pc sh, a = .go g i ∧ u.threads[g]? = some t ∧ GoStep g t.seq u.sh t.pc i pc sh ∧
      v = { u with sh, threads := u.threads.set g { pc, seq := t.nextSeq i } }) ∨
    (∃ i worker sh, a = .worker i ∧ WorkerStep P u.sh u.worker i worker sh ∧
      v = { u with sh, worker }) := by
  cases a with
  | spawn =>
    cases h
    exact .inl ⟨rfl, rfl⟩
  | go g i =>
    simp only [step] at h
    split at h
    · cases h
    · rename_i t ht
      split at h <;> cases h
      exact .inr (.inl ⟨g, i, t, _, _, rfl, ht, goStep_cases ‹_›, rfl⟩)
  | worker i =>
    simp only [step] at h
    split at h <;> cases h
    exact .inr (.inr ⟨i, _, _, rfl, workerStep_cases ‹_›, rfl⟩)

end Inversion

end ZipoLogger
