/-
  logger.go, logger_enc.go: the data of the package and the places a goroutine can be at.

  One `State` holds what the goroutines share (`Shared`), the user goroutines (`threads`) and
  the worker. A `*Logger` is an index (`Ptr`), address 0 being `EmptyLogger`; a `*zilorot.Logger`
  is an index as well (`Wid`). A mutex is its holder. `Pc` says where inside a call a goroutine
  stands; each phase is the place right before an atomic step: a lock acquisition, an atomic
  load, a step of the WaitGroup, a channel operation, a registry operation, a read of a setting.
  Code between two such places is part of the step.

  History. Fields and arguments marked `history` are read by no step. `accepted` lists the
  messages in the order they entered `tologCh`, `processed` the ones the worker is through with,
  `returned` the calls that returned, `panics` the panics so far, and a call carries the length
  `accepted` had when it began (`mark`).

  Left out: `limitedPrint` (`limitedMachine` adds it), rotation parameters of the writer beyond
  their values, `dropAlert`'s text.
-/
import ZipoLogger.Enc.Keys
import ZipoLogger.Lib.Lru
import ZipoLogger.Lib.Machine
import ZipoLogger.Lib.WaitGroup

namespace ZipoLogger

open Enc

/-- Address of a `Logger`. -/
abbrev Ptr := Nat

/-- Address of a `zilorot.Logger`. -/
abbrev Wid := Nat

/-- A user goroutine. -/
abbrev Gid := Nat

/-- A goroutine: the worker started by `init`, or a user's. -/
inductive Tid where
  | worker
  | go (g : Gid)
  deriving DecidableEq, Repr

/-- A `sync.Mutex`: its holder. -/
abbrev Mutex := Option Tid

/-- `EmptyLogger`. -/
def emptyLogger : Ptr := 0

/-- The capacity of `tologCh`. -/
def tologCap : Nat := 10000

/-- The capacity of `initializedLoggers`. -/
def registryCap : Nat := 1000

/-- `loggerMessage`. -/
structure LoggerMessage where
  msg : Bytes
  log : Ptr
  /-- history: the goroutine and the number of its call -/
  call : Gid × Nat
  deriving DecidableEq

/-- `Logger`. -/
structure Logger where
  log : Option Wid := none
  zlog : Option Wid := none
  waitStarted : Nat := 0
  m : Mutex := none
  em : Mutex := none
  encryptionKey : Option KeyEncrypt := none
  filename : Bytes := []
  logMaxSizeInMB : Int := 0
  maxBackups : Int := 0
  maxAgeInDays : Int := 0
  alsoToStdout : Bool := false
  logTasks : WaitGroup := {}
  logDateTime : Bool := false
  logSourcePath : Bool := false

/-- A record handed to a writer. -/
structure Record where
  bytes : Bytes
  /-- history: the message it was made from -/
  source : LoggerMessage
  deriving DecidableEq

/-- `zilorot.Logger`: its parameters, whether its file is open, and what was written to it. -/
structure Writer where
  filename : Bytes := []
  maxSize : Int := 0
  maxBackups : Int := 0
  maxAge : Int := 0
  isOpen : Bool := false
  records : List Record := []

/-- history: what became of a message the worker is through with. -/
inductive Fate where
  /-- `newLogger` could not open the writer. -/
  | skipped
  /-- A record was handed to the writer; the key in force and the draws it was made with. -/
  | written (key : Option KeyEncrypt) (draws : Draws) (record : Bytes)
  deriving DecidableEq

/-- history: a message the worker is through with. -/
structure Processed where
  message : LoggerMessage
  fate : Fate
  deriving DecidableEq

/-- history: a message that entered `tologCh`. -/
structure Accepted where
  message : LoggerMessage
  /-- its logger was in the registry at that moment -/
  registered : Bool
  deriving DecidableEq

/-- history: a call that returned. -/
inductive Returned where
  /-- `print`: its number, logger, returned text; whether the gate was open at its load and
      whether `tologCh` had a free slot when the call decided. -/
  | print (call : Gid × Nat) (l : Ptr) (text : Bytes) (gateOpen slotFree : Bool)
  /-- `l.Wait` or `l.Flush`; `early` when it found a Wait in progress. -/
  | wait (g : Gid) (l : Ptr) (mark : Nat) (early : Bool)
  | close (g : Gid) (l : Ptr) (mark : Nat) (early : Bool)
  /-- The package-level `Wait`. -/
  | waitAll (g : Gid) (mark : Nat)
  | newLogger (g : Gid) (filename : Bytes) (l : Ptr)
  /-- `SetEncryptionKey` or `SetGlobalEncryption` and whether the key was accepted. -/
  | setKey (g : Gid) (ok : Bool)
  deriving DecidableEq

/-- history: where a panic was raised, and on which logger's account. -/
inductive PanicSite where
  | newLogger (l : Ptr)
  | encrypt (l : Ptr)
  | write (l : Ptr)
  /-- `logTasks.Done` of the worker. -/
  | workerDone (l : Ptr)
  /-- `logTasks.Add(1)` of `print`. -/
  | printAdd (l : Ptr)
  /-- `logTasks.Done` of `print`. -/
  | printDone (l : Ptr)
  /-- `logTasks.Wait`. -/
  | wait (l : Ptr)
  deriving DecidableEq

/-- The package variables and the heap. -/
structure Shared where
  /-- The loggers below `nlog` are allocated. -/
  loggers : Ptr → Logger := fun _ => {}
  nlog : Nat := 1
  /-- The writers below `nwri` are allocated. -/
  writers : Wid → Writer := fun _ => {}
  nwri : Nat := 0
  tologCh : List LoggerMessage := []
  alsoToStdout : Bool := false
  /-- `initializedLoggers` and its internal lock. -/
  registry : Lru Bytes Ptr registryCap := .empty
  registryLock : Mutex := none
  newLoggerMutex : Mutex := none
  wMutex : Mutex := none
  /-- `mainGlobalEncryptor`. -/
  encryptorM : Mutex := none
  encryptorKey : Option KeyEncrypt := none
  startCallerDepth : Int := 0
  maxCallerDepth : Int := 7
  additionalCallerDepthM : Mutex := none
  dropAlert : Bool := false
  stdout : List Bytes := []
  accepted : List Accepted := []
  processed : List Processed := []
  returned : List Returned := []
  panics : List PanicSite := []

/-- Assign to the logger at `l`. -/
def Shared.modify (s : Shared) (l : Ptr) (f : Logger → Logger) : Shared :=
  { s with loggers := Function.update s.loggers l (f (s.loggers l)) }

/-- Assign to the writer at `w`. -/
def Shared.modifyWriter (s : Shared) (w : Wid) (f : Writer → Writer) : Shared :=
  { s with writers := Function.update s.writers w (f (s.writers w)) }

def Shared.ret (s : Shared) (r : Returned) : Shared := { s with returned := s.returned ++ [r] }

def Shared.panic (s : Shared) (p : PanicSite) : Shared := { s with panics := s.panics ++ [p] }

/-! ## Places inside the calls -/

/-- A read of a caller depth while the source-path header is made. -/
inductive DepthRead where
  /-- `GetStartCallerDepth` -/
  | start
  /-- `GetMaxCallerDepth` in `formatCaller(add)`; `inner` when `formatCaller` has called itself -/
  | max (add : Int) (inner : Bool)
  deriving DecidableEq

/-- `Logger.print`. -/
inductive PrintPhase where
  /-- load of `waitStarted` -/
  | gate
  /-- test of `logSourcePath` (`headed`: the header is there), time prefix and `logTasks.Add(1)` -/
  | add (headed : Bool)
  /-- `additionalCallerDepthM.Lock`; `held`: the read and the unlock -/
  | depth (r : DepthRead) (held : Bool)
  /-- the `select` on `tologCh` -/
  | send
  /-- `logTasks.Done` on the full-queue branch -/
  | done
  /-- the `Add(1)` (`added`) or the `Done` has reached zero with `w` waiters: the check of the
      state word -/
  | wake (added : Bool) (w : Nat)
  /-- the reset of the state word and the release of the `w` waiters -/
  | reset (added : Bool) (w : Nat)
  deriving DecidableEq

/-- `Logger.Wait`. -/
inductive WaitPhase where
  /-- first `l.m.Lock` -/
  | lock
  /-- `l.m` held: test and set of `waitStarted`, `l.m.Unlock` -/
  | test
  /-- `logTasks.Wait` -/
  | tasks
  /-- asleep in `logTasks.Wait` -/
  | park
  /-- second `l.m.Lock` -/
  | relock
  /-- `l.m` held: `waitStarted` is cleared, `l.m.Unlock` -/
  | clear
  deriving DecidableEq

/-- The arguments of `NewLogger`. -/
structure NewArgs where
  filename : Bytes
  logMaxSizeInMB : Int := 1
  maxBackups : Int := 1
  maxAgeInDays : Int := 1
  writeFileline : Bool := false
  deriving DecidableEq

/-- What a `Logger.Wait` returns into. -/
inductive Cont where
  /-- the caller of `l.Wait` or `l.Flush` -/
  | user
  /-- `Logger.Close` -/
  | close
  /-- the loop of the package-level `Wait`, with the keys still to visit -/
  | waitAll (mark : Nat) (keys : List Bytes)
  /-- the eviction callback, run by `NewLogger` while it adds `new` -/
  | evict (a : NewArgs) (new : Ptr)
  deriving DecidableEq

/-- The package-level `Wait`. -/
inductive WaitAllPhase where
  /-- `wMutex.Lock` -/
  | lock
  /-- `initializedLoggers.Keys` -/
  | keys
  /-- the loop, with the keys still to visit -/
  | next (keys : List Bytes)
  deriving DecidableEq

/-- `NewLogger`. -/
inductive NewPhase where
  /-- first `initializedLoggers.Get` -/
  | get
  /-- `newLoggerMutex.Lock` -/
  | lock
  /-- second `initializedLoggers.Get` -/
  | get2
  /-- `initializedLoggers.Add` -/
  | add
  /-- the callback has flushed `old` and closes its writer -/
  | evicted (new old : Ptr)
  /-- `newLoggerMutex.Unlock` and return -/
  | unlock (new : Ptr)
  deriving DecidableEq

/-- The methods that assign a field under `l.m`. -/
inductive Setter where
  | writeSourcePath (b : Bool)
  | writeDateTime (b : Bool)
  | setAlsoToStdout (b : Bool)
  | setEncryptionKey (key : Bytes)
  deriving DecidableEq

/-- The calls that read or assign a caller depth under `additionalCallerDepthM`. -/
inductive DepthCall where
  | setStartCallerDepth (a : Int)
  | getStartCallerDepth
  | setMaxCallerDepth (a : Int)
  | getMaxCallerDepth
  deriving DecidableEq

/-- Where a user goroutine stands. `held` is the place after the acquisition of the lock. -/
inductive Pc where
  | idle
  | print (l : Ptr) (msg : Bytes) (ph : PrintPhase)
  | wait (l : Ptr) (mark : Nat) (k : Cont) (ph : WaitPhase)
  | close (l : Ptr) (mark : Nat) (early held : Bool)
  | waitAll (mark : Nat) (ph : WaitAllPhase)
  | newLogger (a : NewArgs) (ph : NewPhase)
  | set (l : Ptr) (x : Setter) (held : Bool)
  | setGlobal (key : Bytes) (held : Bool)
  | depth (x : DepthCall) (held : Bool)
  deriving DecidableEq

/-- A user goroutine: its place and the number of calls it has begun. -/
structure Thread where
  pc : Pc := .idle
  seq : Nat := 0
  deriving DecidableEq

/-- Where the worker stands. -/
inductive WorkerPc where
  /-- receive from `tologCh` -/
  | recv
  /-- first `elem.log.em.Lock` -/
  | lock (elem : LoggerMessage)
  /-- `em` held: `newLogger` if there is no writer -/
  | init (elem : LoggerMessage)
  /-- `mainGlobalEncryptor.m.Lock` -/
  | lockEncryptor (elem : LoggerMessage)
  /-- second `elem.log.em.Lock` -/
  | lockKey (elem : LoggerMessage)
  /-- both held: the choice of the key -/
  | key (elem : LoggerMessage)
  /-- encryption and `log.Print` -/
  | emit (elem : LoggerMessage) (enckey : Option KeyEncrypt)
  /-- `logTasks.Done` -/
  | done (elem : LoggerMessage)
  /-- that `Done` has reached zero with `w` waiters: the check of the state word -/
  | wake (l : Ptr) (w : Nat)
  /-- the reset of the state word and the release of the `w` waiters -/
  | reset (l : Ptr) (w : Nat)
  /-- the goroutine has ended in `HandlePanic`; the message it was handling -/
  | dead (hand : Option LoggerMessage)
  deriving DecidableEq

structure State where
  sh : Shared := {}
  threads : List Thread := []
  worker : WorkerPc := .recv

/-! ## Frame lemmas of the assignments -/

section Frame

variable (s : Shared) (l l' : Ptr) (w w' : Wid) (f : Logger → Logger) (h : Writer → Writer)
  (r : Returned) (p : PanicSite)

@[simp] theorem Shared.modify_loggers_self : (s.modify l f).loggers l = f (s.loggers l) := by
  simp [Shared.modify]

theorem Shared.modify_loggers :
    (s.modify l f).loggers l' = if l' = l then f (s.loggers l) else s.loggers l' := by
  simp [Shared.modify, Function.update_apply]

/-- An assignment keeps what does not depend on the fields it assigns. -/
theorem Shared.modify_field {β : Type} (π : Logger → β)
    (hf : π (f (s.loggers l)) = π (s.loggers l)) :
    π ((s.modify l f).loggers l') = π (s.loggers l') := by
  rw [Shared.modify_loggers]
  split
  · rename_i h
    rw [hf, h]
  · rfl

@[simp] theorem Shared.modify_modify (f' : Logger → Logger) :
    (s.modify l f).modify l f' = s.modify l fun lg => f' (f lg) := by
  simp [Shared.modify]

theorem Shared.modify_eq_self (hf : f (s.loggers l) = s.loggers l) : s.modify l f = s := by
  simp [Shared.modify, hf]

@[simp] theorem Shared.modify_nlog : (s.modify l f).nlog = s.nlog := rfl
@[simp] theorem Shared.modify_writers : (s.modify l f).writers = s.writers := rfl
@[simp] theorem Shared.modify_nwri : (s.modify l f).nwri = s.nwri := rfl
@[simp] theorem Shared.modify_tologCh : (s.modify l f).tologCh = s.tologCh := rfl
@[simp] theorem Shared.modify_registry : (s.modify l f).registry = s.registry := rfl
@[simp] theorem Shared.modify_accepted : (s.modify l f).accepted = s.accepted := rfl
@[simp] theorem Shared.modify_processed : (s.modify l f).processed = s.processed := rfl
@[simp] theorem Shared.modify_returned : (s.modify l f).returned = s.returned := rfl
@[simp] theorem Shared.modify_panics : (s.modify l f).panics = s.panics := rfl

theorem Shared.modifyWriter_writers : (s.modifyWriter w h).writers w' =
    if w' = w then h (s.writers w) else s.writers w' := by
  simp [Shared.modifyWriter, Function.update_apply]

@[simp] theorem Shared.modifyWriter_loggers : (s.modifyWriter w h).loggers = s.loggers := rfl
@[simp] theorem Shared.modifyWriter_nlog : (s.modifyWriter w h).nlog = s.nlog := rfl
@[simp] theorem Shared.modifyWriter_nwri : (s.modifyWriter w h).nwri = s.nwri := rfl
@[simp] theorem Shared.modifyWriter_tologCh : (s.modifyWriter w h).tologCh = s.tologCh := rfl
@[simp] theorem Shared.modifyWriter_registry : (s.modifyWriter w h).registry = s.registry := rfl
@[simp] theorem Shared.modifyWriter_accepted : (s.modifyWriter w h).accepted = s.accepted := rfl
@[simp] theorem Shared.modifyWriter_processed : (s.modifyWriter w h).processed = s.processed := rfl
@[simp] theorem Shared.modifyWriter_returned : (s.modifyWriter w h).returned = s.returned := rfl
@[simp] theorem Shared.modifyWriter_panics : (s.modifyWriter w h).panics = s.panics := rfl

@[simp] theorem Shared.ret_loggers : (s.ret r).loggers = s.loggers := rfl
@[simp] theorem Shared.ret_nlog : (s.ret r).nlog = s.nlog := rfl
@[simp] theorem Shared.ret_writers : (s.ret r).writers = s.writers := rfl
@[simp] theorem Shared.ret_nwri : (s.ret r).nwri = s.nwri := rfl
@[simp] theorem Shared.ret_tologCh : (s.ret r).tologCh = s.tologCh := rfl
@[simp] theorem Shared.ret_registry : (s.ret r).registry = s.registry := rfl
@[simp] theorem Shared.ret_accepted : (s.ret r).accepted = s.accepted := rfl
@[simp] theorem Shared.ret_processed : (s.ret r).processed = s.processed := rfl
@[simp] theorem Shared.ret_returned : (s.ret r).returned = s.returned ++ [r] := rfl
@[simp] theorem Shared.ret_panics : (s.ret r).panics = s.panics := rfl

@[simp] theorem Shared.panic_loggers : (s.panic p).loggers = s.loggers := rfl
@[simp] theorem Shared.panic_nlog : (s.panic p).nlog = s.nlog := rfl
@[simp] theorem Shared.panic_writers : (s.panic p).writers = s.writers := rfl
@[simp] theorem Shared.panic_nwri : (s.panic p).nwri = s.nwri := rfl
@[simp] theorem Shared.panic_tologCh : (s.panic p).tologCh = s.tologCh := rfl
@[simp] theorem Shared.panic_registry : (s.panic p).registry = s.registry := rfl
@[simp] theorem Shared.panic_accepted : (s.panic p).accepted = s.accepted := rfl
@[simp] theorem Shared.panic_processed : (s.panic p).processed = s.processed := rfl
@[simp] theorem Shared.panic_returned : (s.panic p).returned = s.returned := rfl
@[simp] theorem Shared.panic_panics : (s.panic p).panics = s.panics ++ [p] := rfl

end Frame

end ZipoLogger
