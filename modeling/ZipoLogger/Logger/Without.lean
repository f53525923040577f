/-
  A run with one call left out.

  The call `c` of a goroutine is left out of a run when it is a `SetEncryptionKey` or a
  `SetGlobalEncryption` that reports failure. The rest of the run is a run (`exec_without`), and
  hands the same records to the same writers in the same order: nothing but the numbers of the
  later calls of that goroutine (`renumber`) and what the calls returned tells the two apart.

  `Shared.Without` and `State.Without` are the simulation. While the call holds `l.m` or the lock
  of `mainGlobalEncryptor`, the second run has that lock free; the others do not notice, for a
  step they take is a step that needs neither the lock nor its release.
-/
import ZipoLogger.Logger.Locks
import ZipoLogger.Lib.Trace

namespace ZipoLogger

open Enc

/-! ## The numbers of the calls -/

/-- The number of a call when `c` is not made. -/
def renumber (c x : Gid × Nat) : Gid × Nat :=
  if x.1 = c.1 ∧ c.2 ≤ x.2 then (x.1, x.2 - 1) else x

variable (ρ : Gid × Nat → Gid × Nat)

def LoggerMessage.renumber (m : LoggerMessage) : LoggerMessage := { m with call := ρ m.call }

def Record.renumber (r : Record) : Record := { r with source := r.source.renumber ρ }

def Writer.renumber (z : Writer) : Writer := { z with records := z.records.map (·.renumber ρ) }

def Processed.renumber (p : Processed) : Processed := { p with message := p.message.renumber ρ }

def Accepted.renumber (a : Accepted) : Accepted := { a with message := a.message.renumber ρ }

def WorkerPc.renumber : WorkerPc → WorkerPc
  | .recv => .recv
  | .lock elem => .lock (elem.renumber ρ)
  | .init elem => .init (elem.renumber ρ)
  | .lockEncryptor elem => .lockEncryptor (elem.renumber ρ)
  | .lockKey elem => .lockKey (elem.renumber ρ)
  | .key elem => .key (elem.renumber ρ)
  | .emit elem enckey => .emit (elem.renumber ρ) enckey
  | .done elem => .done (elem.renumber ρ)
  | .wake l w => .wake l w
  | .reset l w => .reset l w
  | .dead hand => .dead (hand.map (·.renumber ρ))

/-! ## The shared part -/

/-- `t` is `s` with its calls renumbered by `ρ` and the lock `L` free, returns apart. -/
structure Shared.Without (L : Option Lock) (s t : Shared) : Prop where
  loggers : ∀ l, t.loggers l =
    { s.loggers l with m := if L = some (.m l) then none else (s.loggers l).m }
  nlog : t.nlog = s.nlog
  writers : ∀ w, t.writers w = (s.writers w).renumber ρ
  nwri : t.nwri = s.nwri
  tologCh : t.tologCh = s.tologCh.map (·.renumber ρ)
  alsoToStdout : t.alsoToStdout = s.alsoToStdout
  registry : t.registry = s.registry
  registryLock : t.registryLock = s.registryLock
  newLoggerMutex : t.newLoggerMutex = s.newLoggerMutex
  wMutex : t.wMutex = s.wMutex
  encryptorM : t.encryptorM = if L = some .encryptor then none else s.encryptorM
  encryptorKey : t.encryptorKey = s.encryptorKey
  startCallerDepth : t.startCallerDepth = s.startCallerDepth
  maxCallerDepth : t.maxCallerDepth = s.maxCallerDepth
  additionalCallerDepthM : t.additionalCallerDepthM = s.additionalCallerDepthM
  dropAlert : t.dropAlert = s.dropAlert
  stdout : t.stdout = s.stdout
  accepted : t.accepted = s.accepted.map (·.renumber ρ)
  processed : t.processed = s.processed.map (·.renumber ρ)

namespace Shared.Without

variable {ρ} {L : Option Lock} {s t : Shared} {l : Ptr}

/-- The field of a logger other than its mutex. -/
theorem field {β : Type} (h : s.Without ρ L t) (π : Logger → β)
    (hπ : ∀ lg m, π { lg with m } = π lg) (l : Ptr) : π (t.loggers l) = π (s.loggers l) := by
  rw [h.loggers]
  exact hπ _ _

theorem logger (h : s.Without ρ L t) (hL : L ≠ some (.m l)) : t.loggers l = s.loggers l := by
  rw [h.loggers, if_neg hL]

theorem logTasks (h : s.Without ρ L t) (l : Ptr) :
    (t.loggers l).logTasks = (s.loggers l).logTasks := h.field Logger.logTasks (fun _ _ => rfl) l

theorem waitStarted (h : s.Without ρ L t) (l : Ptr) :
    (t.loggers l).waitStarted = (s.loggers l).waitStarted :=
  h.field Logger.waitStarted (fun _ _ => rfl) l

theorem log (h : s.Without ρ L t) (l : Ptr) : (t.loggers l).log = (s.loggers l).log :=
  h.field Logger.log (fun _ _ => rfl) l

theorem em (h : s.Without ρ L t) (l : Ptr) : (t.loggers l).em = (s.loggers l).em :=
  h.field Logger.em (fun _ _ => rfl) l

theorem isNop (h : s.Without ρ L t) (l : Ptr) : t.isNop l = s.isNop l := by
  have hf := h.field Logger.filename (fun _ _ => rfl) l
  have hz := h.field Logger.zlog (fun _ _ => rfl) l
  simp only [Shared.isNop, hf, hz, h.log]

theorem slotFree (h : s.Without ρ L t) : t.slotFree = s.slotFree := by
  simp [Shared.slotFree, h.tologCh]

theorem mark (h : s.Without ρ L t) : t.accepted.length = s.accepted.length := by
  simp [h.accepted]

theorem registered (h : s.Without ρ L t) (l : Ptr) : t.registered l = s.registered l := by
  have hf := h.field Logger.filename (fun _ _ => rfl) l
  simp only [Shared.registered, h.registry, hf]

/-! ### The assignments -/

theorem ret (h : s.Without ρ L t) (r r' : Returned) : (s.ret r).Without ρ L (t.ret r') :=
  { h with }

theorem panic (h : s.Without ρ L t) (p : PanicSite) : (s.panic p).Without ρ L (t.panic p) :=
  { h with }

theorem modify (h : s.Without ρ L t) (l : Ptr) {f : Logger → Logger}
    (hf : ∀ lg m, f { lg with m } = { f lg with m }) (hm : ∀ lg, (f lg).m = lg.m) :
    (s.modify l f).Without ρ L (t.modify l f) := by
  refine { h with loggers := fun l' => ?_ }
  rw [Shared.modify_loggers, Shared.modify_loggers]
  split
  · rename_i hl
    rw [hl, h.loggers, hf, hm]
  · exact h.loggers l'

theorem setTasks (h : s.Without ρ L t) (l : Ptr) (logTasks : WaitGroup) :
    (s.modify l fun lg => { lg with logTasks }).Without ρ L
      (t.modify l fun lg => { lg with logTasks }) :=
  h.modify l (fun _ _ => rfl) fun _ => rfl

/-- An assignment to the mutex by a goroutine other than the one that holds it in `s`. -/
theorem modify_m (h : s.Without ρ L t) (hL : L ≠ some (.m l)) (f : Logger → Logger) :
    (s.modify l f).Without ρ L (t.modify l f) := by
  refine { h with loggers := fun l' => ?_ }
  rw [Shared.modify_loggers, Shared.modify_loggers]
  split
  · rename_i hl
    rw [hl, if_neg hL, h.logger hL]
  · exact h.loggers l'

/-- The call that is left out takes `l.m`. -/
theorem take_m (h : s.Without ρ none t) (hm : (s.loggers l).m = none) (me : Mutex) :
    (s.modify l fun lg => { lg with m := me }).Without ρ (some (.m l)) t := by
  refine { h with loggers := fun l' => ?_ }
  rw [h.loggers, Shared.modify_loggers]
  by_cases hl : l' = l
  · rw [if_pos hl, hl, if_pos rfl, if_neg (by simp), hm]
  · rw [if_neg hl, if_neg (by simp), if_neg (by simp [Ne.symm hl])]

/-- The call that is left out gives `l.m` back. -/
theorem give_m (h : s.Without ρ (some (.m l)) t) :
    (s.modify l fun lg => { lg with m := none }).Without ρ none t := by
  refine { h with loggers := fun l' => ?_ }
  rw [h.loggers, Shared.modify_loggers]
  by_cases hl : l' = l
  · rw [if_pos hl, hl, if_pos rfl, if_neg (by simp)]
  · rw [if_neg hl, if_neg (by simp [Ne.symm hl]), if_neg (by simp)]

theorem modifyWriter (h : s.Without ρ L t) (w : Wid) {f f' : Writer → Writer}
    (hf : ∀ z, f' (z.renumber ρ) = (f z).renumber ρ) :
    (s.modifyWriter w f).Without ρ L (t.modifyWriter w f') := by
  refine { h with writers := fun w' => ?_ }
  rw [Shared.modifyWriter_writers, Shared.modifyWriter_writers]
  split
  · rw [h.writers, hf]
  · exact h.writers w'

theorem echo (h : s.Without ρ L t) (l : Ptr) (msg : Bytes) :
    (s.echo l msg).Without ρ L (t.echo l msg) := by
  have hl := h.field Logger.alsoToStdout (fun _ _ => rfl) l
  have hor : (t.alsoToStdout || (t.loggers l).alsoToStdout) =
      (s.alsoToStdout || (s.loggers l).alsoToStdout) := by rw [h.alsoToStdout, hl]
  unfold Shared.echo
  by_cases hs : (s.alsoToStdout || (s.loggers l).alsoToStdout) = true
  · rw [if_pos hs, if_pos (hor.trans hs)]
    exact { h with stdout := by rw [h.stdout] }
  · rw [if_neg hs, if_neg (hor ▸ hs)]
    exact h

theorem enqueue (h : s.Without ρ L t) (m : LoggerMessage) :
    (s.enqueue m).Without ρ L (t.enqueue (m.renumber ρ)) := by
  have hr : t.registered (m.renumber ρ).log = s.registered m.log := h.registered m.log
  refine { h with tologCh := ?_, accepted := ?_ }
  · simp [Shared.enqueue, h.tologCh]
  · simp [Shared.enqueue, h.accepted, hr, Accepted.renumber]

theorem closeWriter (h : s.Without ρ L t) (l : Ptr) :
    (s.closeWriter l).Without ρ L (t.closeWriter l) := by
  have hz := h.field Logger.zlog (fun _ _ => rfl) l
  unfold Shared.closeWriter
  rw [hz]
  split
  · exact h
  · exact h.modifyWriter _ fun _ => rfl

theorem alloc (h : s.Without ρ L t) (hL : L ≠ some (.m s.nlog)) (a : NewArgs) :
    (s.alloc a).Without ρ L (t.alloc a) := by
  refine { h with loggers := fun l => ?_, nlog := ?_ }
  · simp only [Shared.alloc, h.nlog, Function.update_apply]
    split
    · rename_i hl
      rw [hl, if_neg hL]
    · exact h.loggers l
  · simp only [Shared.alloc, h.nlog]

theorem createWriter (h : s.Without ρ L t) (l : Ptr) :
    (s.createWriter l).Without ρ L (t.createWriter l) := by
  refine { h with loggers := fun l' => ?_, writers := fun w => ?_, nwri := ?_ }
  · simp only [Shared.createWriter, Function.update_apply, h.nwri]
    split
    · rename_i hl
      rw [hl, h.loggers]
    · exact h.loggers l'
  · simp only [Shared.createWriter, Function.update_apply, h.nwri]
    split
    · rw [h.loggers]
      rfl
    · exact h.writers w
  · simp only [Shared.createWriter, h.nwri]

theorem process (h : s.Without ρ L t) (m : LoggerMessage) (f : Fate) :
    (s.process m f).Without ρ L (t.process (m.renumber ρ) f) := by
  refine { h with processed := ?_ }
  simp [Shared.process, h.processed, Processed.renumber]

end Shared.Without

/-! ## The steps of the others -/

section Steps

variable {ρ} {L : Option Lock} {s s' t : Shared} {g : Gid} {seq seq' : Nat} {pc pc' : Pc}
  {i : Input}

theorem afterWait_fst_eq {l : Ptr} {mark : Nat} {k : Cont} {early : Bool} (s t : Shared) :
    (afterWait g l mark k early s).1 = (afterWait g l mark k early t).1 := by
  cases k <;> rfl

theorem Shared.Without.afterWait {l : Ptr} {mark : Nat} {k : Cont} {early : Bool}
    (h : s.Without ρ L t) :
    (afterWait g l mark k early s).2.Without ρ L (afterWait g l mark k early t).2 := by
  rw [afterWait_snd, afterWait_snd]
  exact h.ret _ _

theorem Shared.Without.unwindWait {l : Ptr} {k : Cont} (h : s.Without ρ L t) :
    (unwindWait l k s).2.Without ρ L (unwindWait l k t).2 := by
  have hp := h.panic (.wait l)
  cases k with
  | user | close => exact hp
  | waitAll => exact { hp with wMutex := rfl }
  | evict => exact { hp with registryLock := rfl, newLoggerMutex := rfl }

/-- A step of a goroutine, taken where another goroutine holds `L`. -/
theorem GoStep.without (h : GoStep g seq s pc i pc' s') (hs : s.Wf) (hR : s.Without ρ L t)
    (hseq : ρ (g, seq) = (g, seq'))
    (hL : ∀ X, L = some X → s.holder X ≠ none ∧ X ∉ pc.locks) :
    ∃ t', GoStep g seq' t pc i pc' t' ∧ s'.Without ρ L t' := by
  -- a lock that is free or held here is not the one the other goroutine holds
  have hfree : ∀ X, s.holder X = none → L ≠ some X := fun X hX h => (hL X h).1 hX
  have hheld : ∀ X, X ∈ pc.locks → L ≠ some X := fun X hX h => (hL X h).2 hX
  have hmutex : ∀ l, L ≠ some (.m l) → (t.loggers l).m = (s.loggers l).m := fun l hl => by
    rw [hR.logger hl]
  cases h with
  | callNop hl hnop => exact ⟨t, .callNop (hR.nlog ▸ hl) ((hR.isNop _).trans hnop), hR⟩
  | callPrint hl hnop => exact ⟨t, .callPrint (hR.nlog ▸ hl) ((hR.isNop _).trans hnop), hR⟩
  | callWait hl => exact ⟨t, hR.mark ▸ .callWait (hR.nlog ▸ hl), hR⟩
  | callClose hl => exact ⟨t, hR.mark ▸ .callClose (hR.nlog ▸ hl), hR⟩
  | callWaitAll => exact ⟨t, hR.mark ▸ .callWaitAll, hR⟩
  | callNew => exact ⟨t, .callNew, hR⟩
  | callSet hl => exact ⟨t, .callSet (hR.nlog ▸ hl), hR⟩
  | callSetGlobal => exact ⟨t, .callSetGlobal, hR⟩
  | callStdout => exact ⟨_, .callStdout, { hR with alsoToStdout := rfl }⟩
  | callDepth => exact ⟨t, .callDepth, hR⟩
  | @gateClosed l msg hgate =>
    exact ⟨_, .gateClosed (hR.waitStarted l ▸ hgate), hR.ret _ _⟩
  | @gateOpen l msg hgate => exact ⟨t, .gateOpen (hR.waitStarted l ▸ hgate), hR⟩
  | @sourcePath l msg hpath =>
    exact ⟨t, .sourcePath ((hR.field Logger.logSourcePath (fun _ _ => rfl) l).trans hpath), hR⟩
  | depthLock hfreeM =>
    exact ⟨_, .depthLock (hR.additionalCallerDepthM.trans hfreeM),
      { hR with additionalCallerDepthM := rfl }⟩
  | @startRead l msg =>
    have hread : GoStep g seq' t (.print l msg (.depth .start true)) .tau
        (.print l msg (.depth (.max s.startCallerDepth false) false))
        { t with additionalCallerDepthM := none } := hR.startCallerDepth ▸ .startRead
    exact ⟨_, hread, { hR with additionalCallerDepthM := rfl }⟩
  | fallsBack hret =>
    rw [← hR.maxCallerDepth] at hret
    exact ⟨_, .fallsBack hret, { hR with additionalCallerDepthM := rfl }⟩
  | headed hret =>
    rw [← hR.maxCallerDepth] at hret
    exact ⟨_, .headed hret, { hR with additionalCallerDepthM := rfl }⟩
  | @added l msg stamp headed hret hready =>
    have hp : (t.loggers l).stamped stamp msg = (s.loggers l).stamped stamp msg :=
      hR.field (fun lg => lg.stamped stamp msg) (fun _ _ => rfl) l
    rw [← hR.field Logger.logSourcePath (fun _ _ => rfl) l] at hready
    rw [← hR.logTasks l] at hret ⊢
    exact ⟨_, hp ▸ .added hret hready, hR.setTasks l _⟩
  | @addWakes l msg stamp headed w hret hready =>
    have hp : (t.loggers l).stamped stamp msg = (s.loggers l).stamped stamp msg :=
      hR.field (fun lg => lg.stamped stamp msg) (fun _ _ => rfl) l
    rw [← hR.field Logger.logSourcePath (fun _ _ => rfl) l] at hready
    rw [← hR.logTasks l] at hret ⊢
    exact ⟨_, hp ▸ .addWakes hret hready, hR.setTasks l _⟩
  | @addPanics l msg stamp headed hret hready =>
    rw [← hR.field Logger.logSourcePath (fun _ _ => rfl) l] at hready
    rw [← hR.logTasks l] at hret ⊢
    exact ⟨_, .addPanics hret hready, (hR.setTasks l _).panic _⟩
  | @sent l msg hslot =>
    refine ⟨_, .sent (hR.slotFree.trans hslot), Shared.Without.ret ?_ _ _⟩
    have hm := (hR.echo l msg).enqueue { msg, log := l, call := (g, seq) }
    rwa [LoggerMessage.renumber, hseq] at hm
  | @full l msg hslot =>
    exact ⟨_, .full (hR.slotFree.trans hslot), { hR.echo l msg with dropAlert := rfl }⟩
  | @dropped l msg hret =>
    rw [← hR.logTasks l] at hret ⊢
    exact ⟨_, .dropped hret, (hR.setTasks l _).ret _ _⟩
  | @dropWakes l msg w hret =>
    rw [← hR.logTasks l] at hret ⊢
    exact ⟨_, .dropWakes hret, hR.setTasks l _⟩
  | @dropPanics l msg hret =>
    rw [← hR.logTasks l] at hret ⊢
    exact ⟨_, .dropPanics hret, (hR.setTasks l _).panic _⟩
  | @checked l msg added w hcheck => exact ⟨t, .checked (hR.logTasks l ▸ hcheck), hR⟩
  | @checkPanics l msg added w hcheck =>
    exact ⟨_, .checkPanics (hR.logTasks l ▸ hcheck), hR.panic _⟩
  | @readded l msg w =>
    exact ⟨_, .readded, hR.modify l (fun _ _ => rfl) fun _ => rfl⟩
  | @released l msg w =>
    refine ⟨_, .released, Shared.Without.ret ?_ _ _⟩
    exact hR.modify l (fun _ _ => rfl) fun _ => rfl
  | @waitLock l mark k hm =>
    have hl := hfree (.m l) hm
    exact ⟨_, .waitLock ((hmutex l hl).trans hm), hR.modify_m hl _⟩
  | @waitEarly l mark k hw =>
    have hl := hheld (.m l) List.mem_cons_self
    rw [afterWait_fst_eq _ (t.modify l fun lg => { lg with m := none })]
    exact ⟨_, .waitEarly (hR.waitStarted l ▸ hw), (hR.modify_m hl _).afterWait⟩
  | @waitSet l mark k hw =>
    have hl := hheld (.m l) List.mem_cons_self
    exact ⟨_, .waitSet (hR.waitStarted l ▸ hw), hR.modify_m hl _⟩
  | @waitThrough l mark k henter =>
    exact ⟨t, .waitThrough (hR.logTasks l ▸ henter), hR⟩
  | @waitPark l mark k wg henter =>
    exact ⟨_, .waitPark (hR.logTasks l ▸ henter), hR.setTasks l _⟩
  | @waitWake l mark k wg hwake =>
    exact ⟨_, .waitWake (hR.logTasks l ▸ hwake), hR.setTasks l _⟩
  | @waitPanics l mark k wg hwake =>
    have hstep : GoStep g seq' t (.wait l mark k .park) .tau _ _ :=
      .waitPanics (hR.logTasks l ▸ hwake)
    rw [unwindWait_fst] at hstep ⊢
    exact ⟨_, hstep, (hR.setTasks l wg).unwindWait⟩
  | @waitRelock l mark k hm =>
    have hl := hfree (.m l) hm
    exact ⟨_, .waitRelock ((hmutex l hl).trans hm), hR.modify_m hl _⟩
  | @waitClear l mark k =>
    have hl := hheld (.m l) List.mem_cons_self
    rw [afterWait_fst_eq _ (t.modify l fun lg => { lg with waitStarted := 0, m := none })]
    exact ⟨_, .waitClear, (hR.modify_m hl _).afterWait⟩
  | @closeLock l mark early hem =>
    exact ⟨_, .closeLock (hR.em l ▸ hem), hR.modify l (fun _ _ => rfl) fun _ => rfl⟩
  | @closeDone l mark early =>
    have hm : Shared.Without ρ L
        ((s.closeWriter l).modify l fun lg => { lg with zlog := none, em := none })
        ((t.closeWriter l).modify l fun lg => { lg with zlog := none, em := none }) :=
      (hR.closeWriter l).modify l (fun _ _ => rfl) fun _ => rfl
    exact ⟨_, .closeDone, hm.ret _ _⟩
  | allLock hw => exact ⟨_, .allLock (hR.wMutex ▸ hw), { hR with wMutex := rfl }⟩
  | allKeys hlock => exact ⟨t, hR.registry ▸ .allKeys (hR.registryLock ▸ hlock), hR⟩
  | allDone => exact ⟨_, .allDone, { hR with wMutex := rfl }⟩
  | allMiss hlock hget =>
    exact ⟨t, .allMiss (hR.registryLock ▸ hlock) (hR.registry ▸ hget), hR⟩
  | allHit hlock hget =>
    rw [← hR.mark]
    refine ⟨_, .allHit (hR.registryLock ▸ hlock) (hR.registry ▸ hget), ?_⟩
    exact { hR with registry := by rw [hR.registry] }
  | newHit hlock hget =>
    refine ⟨_, .newHit (hR.registryLock ▸ hlock) (hR.registry ▸ hget), ?_⟩
    exact { hR with registry := by simp [hR.registry] }
  | newMiss hlock hget =>
    exact ⟨t, .newMiss (hR.registryLock ▸ hlock) (hR.registry ▸ hget), hR⟩
  | newLock hlock =>
    exact ⟨_, .newLock (hR.newLoggerMutex ▸ hlock), { hR with newLoggerMutex := rfl }⟩
  | newHit2 hlock hget =>
    refine ⟨_, .newHit2 (hR.registryLock ▸ hlock) (hR.registry ▸ hget), ?_⟩
    exact { hR with registry := by simp [hR.registry], newLoggerMutex := rfl }
  | newMiss2 hlock hget =>
    exact ⟨t, .newMiss2 (hR.registryLock ▸ hlock) (hR.registry ▸ hget), hR⟩
  | @newAdd a hlock hadd =>
    have ha := hR.alloc (hfree (.m s.nlog) (by simp [Shared.holder, hs.fresh])) a
    rw [← hR.registry, ← hR.nlog] at hadd ⊢
    exact ⟨_, .newAdd (hR.registryLock ▸ hlock) hadd, { ha with registry := rfl }⟩
  | @newEvict a f old hlock hadd =>
    have ha := hR.alloc (hfree (.m s.nlog) (by simp [Shared.holder, hs.fresh])) a
    rw [← hR.registry, ← hR.nlog] at hadd ⊢
    rw [← hR.mark]
    exact ⟨_, .newEvict (hR.registryLock ▸ hlock) hadd,
      { ha with registry := rfl, registryLock := rfl }⟩
  | @newEvicted a new old =>
    exact ⟨_, .newEvicted, { hR.closeWriter old with registryLock := rfl }⟩
  | newUnlock => exact ⟨_, .newUnlock, { hR with newLoggerMutex := rfl }⟩
  | @setLock l x hm =>
    have hl := hfree (.m l) hm
    exact ⟨_, .setLock ((hmutex l hl).trans hm), hR.modify_m hl _⟩
  | @setApply l x =>
    have hm := hR.modify_m (hheld (.m l) List.mem_cons_self) fun lg => { x.apply lg with m := none }
    refine ⟨_, .setApply, ?_⟩
    cases x <;> exact { hm with }
  | globalLock hfreeM =>
    have hl := hfree .encryptor hfreeM
    refine ⟨_, .globalLock ((hR.encryptorM.trans (if_neg hl)).trans hfreeM), ?_⟩
    exact { hR with encryptorM := (if_neg hl).symm }
  | globalReject hkey =>
    have hl := hheld .encryptor List.mem_cons_self
    exact ⟨_, .globalReject hkey, { hR with encryptorM := (if_neg hl).symm }⟩
  | globalSet hkey =>
    have hl := hheld .encryptor List.mem_cons_self
    exact ⟨_, .globalSet hkey, { hR with encryptorKey := rfl, encryptorM := (if_neg hl).symm }⟩
  | depthCallLock hfreeM =>
    exact ⟨_, .depthCallLock (hR.additionalCallerDepthM.trans hfreeM),
      { hR with additionalCallerDepthM := rfl }⟩
  | depthApply =>
    refine ⟨_, .depthApply, ?_⟩
    rw [hR.startCallerDepth, hR.maxCallerDepth]
    exact { hR with startCallerDepth := rfl, maxCallerDepth := rfl, additionalCallerDepthM := rfl }

variable {P : Primitives} {wpc wpc' : WorkerPc} {wi : WorkerInput}

/-- The record does not depend on the number of the call. -/
theorem workerStep_emit {elem : LoggerMessage} {enckey : Option KeyEncrypt}
    (h : workerStep P (.emit elem enckey) wi s = some (wpc', s')) (hR : s.Without ρ L t) :
    ∃ t', workerStep P (.emit (elem.renumber ρ) enckey) wi t = some (wpc'.renumber ρ, t') ∧
      s'.Without ρ L t' := by
  cases wi with
  | tau | create => cases h
  | emit draws r =>
    simp only [workerStep] at h ⊢
    split at h
    · split at h <;> cases h
      exact ⟨_, if_pos ‹_›, hR.panic _⟩
    · cases h
      exact ⟨_, rfl, hR.panic _⟩
    · rename_i hrec
      cases h
      have hrec' : workerRecord P enckey (elem.renumber ρ).msg draws = none := hrec
      exact ⟨_, by rw [hrec']; rfl, hR.panic _⟩
    · rename_i record w hrec hw
      cases h
      have hrec' : workerRecord P enckey (elem.renumber ρ).msg draws = some record := hrec
      have hw' : (t.loggers (elem.renumber ρ).log).log = some w := (hR.log elem.log).trans hw
      refine ⟨_, by rw [hrec', hw']; rfl, ?_⟩
      refine Shared.Without.process (hR.modifyWriter w fun z => ?_) elem _
      simp [Writer.renumber, Record.renumber]
    · cases h

/-- A step of the worker, taken where a goroutine holds `L`. -/
theorem workerStep_without (h : workerStep P wpc wi s = some (wpc', s')) (hR : s.Without ρ L t)
    (hL : ∀ X, L = some X → s.holder X ≠ none ∧ X ∉ wpc.locks) :
    ∃ t', workerStep P (wpc.renumber ρ) wi t = some (wpc'.renumber ρ, t') ∧
      s'.Without ρ L t' := by
  have hstep := workerStep_cases h
  cases hstep with
  | encryptPanics | writePanics | wrote => exact workerStep_emit h hR
  | @receive elem rest hq =>
    refine ⟨{ t with tologCh := rest.map (·.renumber ρ) }, ?_, { hR with tologCh := rfl }⟩
    simp [workerStep, WorkerPc.renumber, hR.tologCh, hq]
  | @lock elem hem =>
    refine ⟨_, ?_, hR.modify elem.log (fun _ _ => rfl) fun _ => rfl⟩
    simp [workerStep, WorkerPc.renumber, LoggerMessage.renumber, hR.em, hem]
  | @ready elem w hlog =>
    refine ⟨_, ?_, hR.modify elem.log (fun _ _ => rfl) fun _ => rfl⟩
    simp [workerStep, WorkerPc.renumber, LoggerMessage.renumber, hR.log, hlog]
  | @created elem hlog =>
    refine ⟨_, ?_, (hR.createWriter elem.log).modify elem.log (fun _ _ => rfl) fun _ => rfl⟩
    simp [workerStep, WorkerPc.renumber, LoggerMessage.renumber, hR.log, hlog]
  | @skipped elem hlog =>
    have hm : Shared.Without ρ L
        (s.modify elem.log fun lg => { lg with log := none, zlog := none, em := none })
        (t.modify elem.log fun lg => { lg with log := none, zlog := none, em := none }) :=
      hR.modify elem.log (fun _ _ => rfl) fun _ => rfl
    refine ⟨_, ?_, hm.process elem _⟩
    simp [workerStep, WorkerPc.renumber, LoggerMessage.renumber, hR.log, hlog]
  | @createPanics elem hlog =>
    refine ⟨_, ?_, hR.panic _⟩
    simp [workerStep, WorkerPc.renumber, LoggerMessage.renumber, hR.log, hlog]
  | @lockEncryptor elem hfree =>
    have hl : L ≠ some .encryptor := fun h => (hL _ h).1 hfree
    refine ⟨{ t with encryptorM := some .worker }, ?_,
      { hR with encryptorM := (if_neg hl).symm }⟩
    simp [workerStep, WorkerPc.renumber, hR.encryptorM, hfree]
  | @lockKey elem hem =>
    refine ⟨_, ?_, hR.modify elem.log (fun _ _ => rfl) fun _ => rfl⟩
    simp [workerStep, WorkerPc.renumber, LoggerMessage.renumber, hR.em, hem]
  | @key elem =>
    have hl : L ≠ some .encryptor := fun h => (hL _ h).2 (by simp [WorkerPc.locks])
    have hk := hR.field Logger.encryptionKey (fun _ _ => rfl) elem.log
    have hm : Shared.Without ρ L (s.modify elem.log fun lg => { lg with em := none })
        (t.modify elem.log fun lg => { lg with em := none }) :=
      hR.modify elem.log (fun _ _ => rfl) fun _ => rfl
    refine ⟨{ t.modify elem.log fun lg => { lg with em := none } with encryptorM := none }, ?_,
      { hm with encryptorM := (if_neg hl).symm }⟩
    simp [workerStep, WorkerPc.renumber, LoggerMessage.renumber, hk, hR.encryptorKey]
  | @doneReturns elem hret =>
    rw [← hR.logTasks elem.log] at hret ⊢
    refine ⟨_, ?_, hR.setTasks elem.log _⟩
    simp [workerStep, WorkerPc.renumber, LoggerMessage.renumber, hret]
  | @doneWakes elem w hret =>
    rw [← hR.logTasks elem.log] at hret ⊢
    refine ⟨_, ?_, hR.setTasks elem.log _⟩
    simp [workerStep, WorkerPc.renumber, LoggerMessage.renumber, hret]
  | @donePanics elem hret =>
    rw [← hR.logTasks elem.log] at hret ⊢
    refine ⟨_, ?_, (hR.setTasks elem.log _).panic _⟩
    simp [workerStep, WorkerPc.renumber, LoggerMessage.renumber, hret]
  | @checked l w hcheck =>
    rw [← hR.logTasks l] at hcheck
    refine ⟨_, ?_, hR⟩
    simp [workerStep, WorkerPc.renumber, hcheck]
  | @checkPanics l w hcheck =>
    rw [← hR.logTasks l] at hcheck
    refine ⟨_, ?_, hR.panic _⟩
    simp [workerStep, WorkerPc.renumber, hcheck]
  | @woke l w => exact ⟨_, rfl, hR.modify l (fun _ _ => rfl) fun _ => rfl⟩

end Steps

/-! ## The machine -/

/-- The call a step belongs to. -/
def State.callOf (u : State) : Action → Option (Gid × Nat)
  | .go g i => (u.threads[g]?).map fun t => (g, t.nextSeq i)
  | .spawn | .worker _ => none

/-- The lock held inside the call. -/
def State.heldIn (u : State) (c : Gid × Nat) : Option Lock :=
  (u.threads[c.1]?).bind fun t => if t.seq = c.2 then t.pc.locks.head? else none

/-- The goroutine `g` when `c` is not made. -/
def Thread.without (c : Gid × Nat) (g : Gid) (t : Thread) : Thread :=
  if g = c.1 ∧ c.2 ≤ t.seq then { pc := if t.seq = c.2 then .idle else t.pc, seq := t.seq - 1 }
  else t

/-- `v` is `u` when `c` is not made. -/
structure State.Without (c : Gid × Nat) (u v : State) : Prop where
  shared : u.sh.Without (renumber c) (u.heldIn c) v.sh
  threads : v.threads = u.threads.mapIdx (Thread.without c)
  worker : v.worker = u.worker.renumber (renumber c)

/-- Inside a `SetEncryptionKey` or a `SetGlobalEncryption` with a text that is no key. -/
def Pc.Rejects : Pc → Prop
  | .set _ (.setEncryptionKey key) _ | .setGlobal key _ => newEncryptKey key = none
  | _ => False

section Machine

variable {P : Primitives} {c : Gid × Nat} {u u' v : State} {x : Action} {g : Gid} {t : Thread}

theorem Thread.without_other (hg : g ≠ c.1) (t : Thread) : t.without c g = t :=
  if_neg fun h => hg h.1

theorem Thread.without_before (h : t.seq < c.2) : t.without c g = t :=
  if_neg fun hn => absurd hn.2 (Nat.not_le.mpr h)

theorem Thread.without_in (h : t.seq = c.2) :
    t.without c c.1 = { pc := .idle, seq := c.2 - 1 } := by
  simp [Thread.without, h]

theorem Thread.without_after (h : c.2 < t.seq) : t.without c c.1 = { t with seq := t.seq - 1 } := by
  simp [Thread.without, h.le, h.ne']

theorem Thread.without_next {i : Input} {pc : Pc} (hother : (g, t.nextSeq i) ≠ c) (hc : 0 < c.2) :
    Thread.without c g { pc, seq := t.nextSeq i } = { pc, seq := (t.without c g).nextSeq i } := by
  by_cases hg : g = c.1
  · subst hg
    have hne : t.nextSeq i ≠ c.2 := fun h => hother (Prod.ext rfl h)
    have hle : t.seq ≤ t.nextSeq i ∧ t.nextSeq i ≤ t.seq + 1 := by
      cases i <;> simp [Thread.nextSeq]
    by_cases hseq : t.seq < c.2
    · rw [Thread.without_before hseq, Thread.without_before]
      show t.nextSeq i < c.2
      omega
    · have hin : (t.without c c.1).seq = t.seq - 1 := by
        simp [Thread.without, Nat.not_lt.mp hseq]
      rw [Thread.without_after (show c.2 < t.nextSeq i by omega)]
      have hnext : t.nextSeq i - 1 = (t.without c c.1).nextSeq i := by
        cases i <;> simp only [Thread.nextSeq, hin]
        omega
      rw [hnext]
  · rw [Thread.without_other hg, Thread.without_other hg]

theorem Thread.renumber_seq : renumber c (g, t.seq) = (g, (t.without c g).seq) := by
  unfold renumber Thread.without
  split <;> rfl

theorem State.heldIn_eq (h : u.threads[c.1]? = some t) :
    u.heldIn c = if t.seq = c.2 then t.pc.locks.head? else none := by
  simp [State.heldIn, h]

/-- The lock belongs to the goroutine of the call. -/
theorem State.heldIn_holder {L : Lock} (hu : u.Owned) (h : u.heldIn c = some L) :
    u.sh.holder L = some (.go c.1) := by
  obtain ⟨t, ht, hL⟩ := Option.bind_eq_some_iff.mp h
  split at hL
  · exact hu.threads c.1 t ht L (List.mem_of_head? hL)
  · cases hL

theorem State.heldIn_spawn (u : State) (c : Gid × Nat) :
    State.heldIn { u with threads := u.threads ++ [{}] } c = u.heldIn c := by
  cases ht : u.threads[c.1]? with
  | some t =>
    have hlt := (List.getElem?_eq_some_iff.mp ht).1
    rw [State.heldIn_eq ht, State.heldIn_eq (t := t)]
    exact (List.getElem?_append_left hlt).trans ht
  | none =>
    have hnone : u.heldIn c = none := by simp [State.heldIn, ht]
    rw [hnone]
    refine Option.bind_eq_none_iff.mpr fun t hnew => ?_
    rcases threads_spawn hnew with rfl | hold
    · simp [Pc.locks]
    · rw [ht] at hold
      cases hold

theorem State.Without.spawn (h : u.Without c v) (hc : 0 < c.2) :
    State.Without c { u with threads := u.threads ++ [{}] }
      { v with threads := v.threads ++ [{}] } := by
  refine ⟨?_, ?_, h.worker⟩
  · rw [u.heldIn_spawn]
    exact h.shared
  · show v.threads ++ [({} : Thread)] = (u.threads ++ [({} : Thread)]).mapIdx (Thread.without c)
    rw [List.mapIdx_concat, h.threads, Thread.without_before hc]

variable {i : Input} {pc : Pc} {sh : Shared}

/-- A goroutine begins a call where it is in none. -/
theorem GoStep.idle_of_call {call : Call} {seq : Nat} {s : Shared} {pc' : Pc}
    (h : GoStep g seq s pc (.call call) pc' sh) : pc = .idle := by
  cases h <;> rfl

/-- A step of another call leaves the lock held inside `c` alone. -/
theorem State.heldIn_go (ht : u.threads[g]? = some t) (hother : (g, t.nextSeq i) ≠ c)
    (hidle : g = c.1 → t.seq = c.2 → t.pc = .idle) :
    State.heldIn { u with sh, threads := u.threads.set g { pc, seq := t.nextSeq i } } c =
      u.heldIn c := by
  by_cases hg : g = c.1
  · subst hg
    have hne : t.nextSeq i ≠ c.2 := fun h => hother (Prod.ext rfl h)
    have hset := List.getElem?_set_self (a := (⟨pc, t.nextSeq i⟩ : Thread))
      (List.getElem?_eq_some_iff.mp ht).1
    rw [State.heldIn_eq hset, if_neg hne, State.heldIn_eq ht]
    split
    · rw [hidle rfl ‹_›]
      rfl
    · rfl
  · unfold State.heldIn
    rw [List.getElem?_set_ne hg]

theorem State.Without.go (h : u.Without c v) (hr : (machine P).Reach u)
    (ht : u.threads[g]? = some t) (hstep : GoStep g t.seq u.sh t.pc i pc sh)
    (hother : (g, t.nextSeq i) ≠ c) (hc : 0 < c.2) :
    ∃ v', step P v (.go g i) = some v' ∧ State.Without c
      { u with sh, threads := u.threads.set g { pc, seq := t.nextSeq i } } v' := by
  have hidle : g = c.1 → t.seq = c.2 → t.pc = .idle := by
    intro hg hseq
    cases i with
    | call call => exact hstep.idle_of_call
    | tau | stamp | callers => exact absurd (Prod.ext hg hseq) hother
  have hpc : (t.without c g).pc = t.pc := by
    unfold Thread.without
    split
    · rename_i hin
      by_cases hseq : t.seq = c.2
      · rw [if_pos hseq, hidle hin.1 hseq]
      · rw [if_neg hseq]
    · rfl
  have hL : ∀ X, u.heldIn c = some X → u.sh.holder X ≠ none ∧ X ∉ t.pc.locks := by
    intro X hX
    have hown := State.heldIn_holder (reach_owned hr) hX
    refine ⟨by rw [hown]; simp, fun hmem => ?_⟩
    have hg : c.1 = g := by simpa [hown] using (reach_owned hr).threads g t ht X hmem
    subst hg
    rw [State.heldIn_eq ht] at hX
    split at hX
    · rw [hidle rfl ‹_›] at hX
      cases hX
    · cases hX
  obtain ⟨sh', hstep', hsh⟩ :=
    hstep.without (reach_wf hr).shared h.shared Thread.renumber_seq hL
  have hv : v.threads[g]? = some (t.without c g) := by
    rw [h.threads, List.getElem?_mapIdx, ht]
    rfl
  refine ⟨{ v with sh := sh', threads := v.threads.set g ⟨pc, (t.without c g).nextSeq i⟩ },
    ?_, ?_, ?_, h.worker⟩
  · rw [← hpc] at hstep'
    simp only [step, hv, hstep'.goStep]
  · rw [State.heldIn_go ht hother hidle]
    exact hsh
  · show v.threads.set g _ = (u.threads.set g _).mapIdx (Thread.without c)
    rw [List.mapIdx_set, h.threads, Thread.without_next hother hc]

/-- The steps of the call itself: it takes its lock, finds no key and gives the lock back. -/
theorem GoStep.rejected {ρ : Gid × Nat → Gid × Nat} {seq : Nat} {s s' r : Shared} {pc' : Pc}
    (h : GoStep g seq s pc i pc' s') (hrej : pc.Rejects ∨ pc'.Rejects)
    (hR : s.Without ρ pc.locks.head? r) : s'.Without ρ pc'.locks.head? r := by
  cases h with
  | callSet | callSetGlobal => exact hR
  | setLock hm => exact hR.take_m hm _
  | @setApply l x =>
    have hx : Pc.Rejects (.set l x true) := by simpa [Pc.Rejects] using hrej
    unfold Pc.Rejects at hx
    split at hx
    · rename_i hset
      cases hset
      simp only [Setter.report, Setter.apply, hx]
      exact { hR.give_m with }
    · rename_i hset
      cases hset
    · exact hx.elim
  | globalLock hfree => exact { hR with encryptorM := by simp [hR.encryptorM, Pc.locks, hfree] }
  | globalReject => exact { hR with encryptorM := hR.encryptorM }
  | globalSet hkey => simp [Pc.Rejects, hkey] at hrej
  | @waitEarly l mark k | @waitClear l mark k => cases k <;> simp [afterWait, Pc.Rejects] at hrej
  | waitPanics =>
    rw [unwindWait_fst] at hrej
    simp [Pc.Rejects] at hrej
  | _ => simp [Pc.Rejects] at hrej

/-- The second run stands still while the call takes its steps. -/
theorem State.Without.skip (h : u.Without c v) (ht : u.threads[g]? = some t)
    (hstep : GoStep g t.seq u.sh t.pc i pc sh) (hc : (g, t.nextSeq i) = c)
    (hrej : t.pc.Rejects ∨ pc.Rejects) : State.Without c
      { u with sh, threads := u.threads.set g { pc, seq := t.nextSeq i } } v := by
  subst hc
  have hlt := (List.getElem?_eq_some_iff.mp ht).1
  have hheld : u.heldIn (g, t.nextSeq i) = t.pc.locks.head? := by
    rw [State.heldIn_eq ht]
    cases i with
    | call call =>
      rw [hstep.idle_of_call]
      simp [Thread.nextSeq, Pc.locks]
    | tau | stamp | callers => exact if_pos rfl
  have hnew := State.heldIn_eq (c := (g, t.nextSeq i))
    (u := { u with sh, threads := u.threads.set g { pc, seq := t.nextSeq i } })
    (List.getElem?_set_self hlt)
  refine ⟨?_, ?_, h.worker⟩
  · rw [hnew, if_pos rfl]
    exact hstep.rejected hrej (hheld ▸ h.shared)
  · have hsame : Thread.without (g, t.nextSeq i) g ⟨pc, t.nextSeq i⟩ =
        t.without (g, t.nextSeq i) g := by
      cases i with
      | call call =>
        rw [Thread.without_in rfl, Thread.without_before (Nat.lt_succ_self _)]
        have hidle := hstep.idle_of_call
        obtain ⟨tpc, seq⟩ := t
        cases hidle
        rfl
      | tau | stamp | callers =>
        rw [Thread.without_in rfl, Thread.without_in rfl]
    show v.threads = (u.threads.set g _).mapIdx (Thread.without _)
    rw [List.mapIdx_set, hsame, h.threads]
    refine List.ext_getElem? fun j => ?_
    rw [List.getElem?_set]
    split
    · rename_i hj
      subst hj
      rw [if_pos (by simpa using hlt), List.getElem?_mapIdx, ht]
      rfl
    · rfl

theorem State.Without.worker_step {wi : WorkerInput} {wpc : WorkerPc} (h : u.Without c v)
    (hr : (machine P).Reach u) (hstep : workerStep P u.worker wi u.sh = some (wpc, sh)) :
    ∃ v', step P v (.worker wi) = some v' ∧
      State.Without c { u with sh, worker := wpc } v' := by
  have hL : ∀ X, u.heldIn c = some X → u.sh.holder X ≠ none ∧ X ∉ u.worker.locks := by
    intro X hX
    have hown := State.heldIn_holder (reach_owned hr) hX
    refine ⟨by rw [hown]; simp, fun hmem => ?_⟩
    have hworker := (reach_owned hr).worker X hmem
    rw [hown] at hworker
    cases hworker
  obtain ⟨sh', hstep', hsh⟩ := workerStep_without hstep h.shared hL
  rw [← h.worker] at hstep'
  exact ⟨{ v with sh := sh', worker := wpc.renumber (renumber c) },
    by simp only [step, hstep'], hsh, h.threads, rfl⟩

/-- The second run follows every step of another call. -/
theorem State.Without.other (h : u.Without c v) (hr : (machine P).Reach u)
    (hs : step P u x = some u') (hother : u.callOf x ≠ some c) (hc : 0 < c.2) :
    ∃ v', step P v x = some v' ∧ u'.Without c v' := by
  cases x with
  | spawn =>
    cases hs
    exact ⟨_, rfl, h.spawn hc⟩
  | go g i =>
    rcases step_cases hs with ⟨hx, -⟩ | ⟨g', i', t, pc, sh, hx, ht, hstep, rfl⟩ | ⟨_, _, _, hx, -⟩
    · cases hx
    · cases hx
      refine h.go hr ht hstep (fun heq => hother ?_) hc
      simp [State.callOf, ht, heq]
    · cases hx
  | worker i =>
    simp only [step] at hs
    split at hs
    · cases hs
    · cases hs
      exact h.worker_step hr ‹_›

end Machine

/-! ## The call that reports failure -/

/-- The goroutine has not come to the call. -/
def State.Before (u : State) (c : Gid × Nat) : Prop :=
  ∀ t, u.threads[c.1]? = some t → t.seq < c.2

/-- The goroutine is inside the call, with a text that is no key. -/
def State.Rejecting (u : State) (c : Gid × Nat) : Prop :=
  ∃ t, u.threads[c.1]? = some t ∧ t.seq = c.2 ∧ t.pc.Rejects

/-- The call has returned. -/
def State.Over (u : State) (c : Gid × Nat) : Prop :=
  ∃ t, u.threads[c.1]? = some t ∧ (c.2 < t.seq ∨ t.seq = c.2 ∧ t.pc = .idle)

section Calls

variable {P : Primitives} {c : Gid × Nat} {u v : State} {x : Action} {g : Gid} {seq : Nat}
  {s s' : Shared} {pc pc' : Pc} {i : Input}

theorem GoStep.call_of_idle (h : GoStep g seq s .idle i pc' s') : ∃ call, i = .call call := by
  cases h <;> exact ⟨_, rfl⟩

/-- Only a call begins with a text that is no key. -/
theorem GoStep.rejects_back (h : GoStep g seq s pc i pc' s') (hi : ∀ call, i ≠ .call call)
    (hpc : pc'.Rejects) : pc.Rejects := by
  cases h with
  | callSet | callSetGlobal => exact absurd rfl (hi _)
  | @setLock l x => cases x <;> exact hpc
  | globalLock => exact hpc
  | @waitEarly l mark k | @waitClear l mark k => cases k <;> exact hpc.elim
  | waitPanics =>
    rw [unwindWait_fst] at hpc
    exact hpc.elim
  | _ => exact hpc.elim

/-- A failure is reported where the text is no key. -/
theorem GoStep.rejects_of_report (h : GoStep g seq s pc i pc' s')
    (hr : s'.returned = s.returned ++ [.setKey g false]) :
    pc.Rejects ∧ pc' = .idle ∧ i = .tau := by
  rcases h.returned with hsame | ⟨r, hnew, hret⟩
  · rw [hsame] at hr
    simp at hr
  · have hrr : .setKey g false = r := by simpa [hr] using hnew
    subst hrr
    cases h with
    | @setApply l x =>
      cases x with
      | setEncryptionKey key =>
        have hkey : newEncryptKey key = none := by simpa [Setter.report] using hr
        exact ⟨hkey, rfl, rfl⟩
      | _ => simp [Setter.report] at hr
    | globalReject hkey => exact ⟨hkey, rfl, rfl⟩
    | globalSet => simp at hr
    | waitEarly | waitClear => simp [afterWait_snd] at hr
    | @waitPanics l mark k => cases k <;> simp [unwindWait] at hr
    | _ => simp [Shared.enqueue, Shared.alloc] at hr

theorem State.callOf_go {t : Thread} (ht : u.threads[g]? = some t) :
    u.callOf (.go g i) = some (g, t.nextSeq i) := by
  simp [State.callOf, ht]

/-- The step of a call. -/
theorem step_call (hs : step P u x = some v) (hc : u.callOf x = some c) :
    ∃ t i pc, x = .go c.1 i ∧ u.threads[c.1]? = some t ∧ t.nextSeq i = c.2 ∧
      GoStep c.1 t.seq u.sh t.pc i pc v.sh ∧
      v = { u with sh := v.sh, threads := u.threads.set c.1 { pc, seq := t.nextSeq i } } := by
  rcases step_cases hs with ⟨rfl, rfl⟩ | ⟨g, i, t, pc, sh, rfl, ht, hstep, rfl⟩ |
    ⟨i, wpc, sh, rfl, -, rfl⟩
  · cases hc
  · rw [State.callOf_go ht] at hc
    cases hc
    exact ⟨t, i, pc, rfl, ht, rfl, hstep, rfl⟩
  · cases hc

theorem step_back (hs : step P u x = some v) (hv : v.Before c ∨ v.Rejecting c) :
    u.Before c ∨ u.Rejecting c := by
  by_cases hu : u.Before c
  · exact .inl hu
  · obtain ⟨t, ht, hle⟩ : ∃ t, u.threads[c.1]? = some t ∧ c.2 ≤ t.seq := by
      simpa [State.Before] using hu
    right
    rcases step_thread hs ht with ⟨i, pc, -, hstep, ht'⟩ | ⟨-, ht'⟩
    · have hnext : t.seq ≤ t.nextSeq i := by cases i <;> simp [Thread.nextSeq]
      rcases hv with hbefore | ⟨t', hv, hseq, hrej⟩
      · have hlt : t.nextSeq i < c.2 := hbefore _ ht'
        omega
      · cases Option.some.inj (ht'.symm.trans hv)
        have hseq : t.nextSeq i = c.2 := hseq
        refine ⟨t, ht, by omega, hstep.rejects_back ?_ hrej⟩
        rintro call rfl
        have hcall : t.nextSeq (.call call) = t.seq + 1 := rfl
        omega
    · rcases hv with hbefore | ⟨t', hv, hseq, hrej⟩
      · exact absurd (hbefore t ht') (Nat.not_lt.mpr hle)
      · cases Option.some.inj (ht'.symm.trans hv)
        exact ⟨t, ht, hseq, hrej⟩

/-- A goroutine that stands between two calls goes on with the next. -/
theorem GoStep.over {t : Thread} (hstep : GoStep c.1 t.seq s t.pc i pc s')
    (ht : c.2 < t.seq ∨ t.seq = c.2 ∧ t.pc = .idle) : c.2 < t.nextSeq i := by
  have hnext : t.seq ≤ t.nextSeq i := by cases i <;> simp [Thread.nextSeq]
  rcases ht with hlt | ⟨hseq, hidle⟩
  · omega
  · rw [hidle] at hstep
    obtain ⟨call, rfl⟩ := hstep.call_of_idle
    have hcall : t.nextSeq (.call call) = t.seq + 1 := rfl
    omega

theorem step_over (hs : step P u x = some v) (hu : u.Over c) : v.Over c := by
  obtain ⟨t, ht, hover⟩ := hu
  rcases step_thread hs ht with ⟨i, pc, -, hstep, ht'⟩ | ⟨-, ht'⟩
  · exact ⟨_, ht', .inl (hstep.over hover)⟩
  · exact ⟨t, ht', hover⟩

end Calls

/-! ## Every run -/

section Runs

variable {P : Primitives} {n : Nat} {T : (machine P).Trace n} {c : Gid × Nat} {k : Nat}

/-- The call reports failure in the run. -/
def ReportsFailure (T : (machine P).Trace n) (c : Gid × Nat) : Prop :=
  ∃ j < n, (T.state j).callOf (T.action j) = some c ∧
    (T.state (j + 1)).sh.returned = (T.state j).sh.returned ++ [.setKey c.1 false]

/-- The labels of the run without those of the call. -/
def labelsWithout (T : (machine P).Trace n) (c : Gid × Nat) : List Action :=
  T.labels (fun k => (T.state k).callOf (T.action k) ≠ some c) n

/-- Every step of a call that reports failure is one of a `Set` with a text that is no key. -/
theorem ReportsFailure.rejects (h : ReportsFailure T c) (hk : k < n)
    (hc : (T.state k).callOf (T.action k) = some c) :
    ∃ t i pc, T.action k = .go c.1 i ∧ (T.state k).threads[c.1]? = some t ∧ t.nextSeq i = c.2 ∧
      GoStep c.1 t.seq (T.state k).sh t.pc i pc (T.state (k + 1)).sh ∧
      T.state (k + 1) = { T.state k with
        sh := (T.state (k + 1)).sh
        threads := (T.state k).threads.set c.1 { pc, seq := t.nextSeq i } } ∧
      (t.pc.Rejects ∨ pc.Rejects) := by
  obtain ⟨j, hj, hcj, hret⟩ := h
  obtain ⟨t, i, pc, hx, ht, hseq, hstep, hnext⟩ := step_call (T.step k hk) hc
  refine ⟨t, i, pc, hx, ht, hseq, hstep, hnext, ?_⟩
  have hmem : (T.state (k + 1)).threads[c.1]? = some { pc, seq := t.nextSeq i } := by
    rw [hnext]
    exact List.getElem?_set_self (List.getElem?_eq_some_iff.mp ht).1
  obtain ⟨tj, ij, pcj, hxj, htj, hseqj, hstepj, hnextj⟩ := step_call (T.step j hj) hcj
  obtain ⟨hrej, rfl, rfl⟩ := hstepj.rejects_of_report hret
  rcases lt_trichotomy k j with hlt | rfl | hlt
  · -- before the report the goroutine is on its way to it
    have hback : (T.state (k + 1)).Before c ∨ (T.state (k + 1)).Rejecting c :=
      T.back (P := fun m => (T.state m).Before c ∨ (T.state m).Rejecting c)
        (Nat.succ_le_of_lt hlt) hj.le (.inr ⟨tj, htj, hseqj, hrej⟩)
        fun m _ _ hs hv => step_back hs hv
    rcases hback with hbefore | ⟨t', ht', -, hrej'⟩
    · exact absurd (hbefore _ hmem) (by simp [hseq])
    · cases Option.some.inj (hmem.symm.trans ht')
      exact .inr hrej'
  · cases Option.some.inj (ht.symm.trans htj)
    exact .inl hrej
  · -- after the report the call is over
    have hover : (T.state (j + 1)).Over c := by
      refine ⟨⟨.idle, tj.seq⟩, ?_, .inr ⟨hseqj, rfl⟩⟩
      rw [hnextj]
      exact List.getElem?_set_self (List.getElem?_eq_some_iff.mp htj).1
    obtain ⟨t', ht', hlater⟩ := T.along (P := fun m => (T.state m).Over c)
      (Nat.succ_le_of_lt hlt) hk.le hover fun m _ _ hs hu => step_over hs hu
    cases Option.some.inj (ht.symm.trans ht')
    exact absurd (hstep.over hlater) (by simp [hseq])

theorem seq_pos {u : State} (h : (machine P).Reach u) :
    ∀ (g : Gid) (t : Thread), u.threads[g]? = some t → t.pc ≠ .idle → 0 < t.seq := by
  refine reach_invariant (I := fun u => ∀ (g : Gid) (t : Thread), u.threads[g]? = some t →
    t.pc ≠ .idle → 0 < t.seq) h (by simp) ?_ ?_ (fun _ _ _ _ _ hu _ => hu)
  · intro u _ hu g t ht hpc
    rcases threads_spawn ht with rfl | ht
    · exact absurd rfl hpc
    · exact hu g t ht hpc
  · intro u g t i pc sh _ hu ht hstep g' t' ht' hpc
    rcases threads_set ht' with ⟨rfl, rfl⟩ | ⟨-, ht'⟩
    · show 0 < t.nextSeq i
      have hnext : t.seq ≤ t.nextSeq i := by cases i <;> simp [Thread.nextSeq]
      by_cases hidle : t.pc = .idle
      · rw [hidle] at hstep
        obtain ⟨call, rfl⟩ := hstep.call_of_idle
        exact Nat.succ_pos _
      · exact (hu g' t ht hidle).trans_le hnext
    · exact hu g' t' ht' hpc

/-- A call that reports failure can be left out of the run: the rest is a run, and its last state
    is the one of the run when the call is not made. -/
theorem exec_without (h : ReportsFailure T c) :
    ∃ v, (machine P).exec {} (labelsWithout T c) = some v ∧ (T.state n).Without c v := by
  have hc : 0 < c.2 := by
    obtain ⟨j, hj, hcj, hret⟩ := h
    obtain ⟨t, i, pc, -, ht, hseq, hstep, -⟩ := step_call (T.step j hj) hcj
    obtain ⟨hrej, -, rfl⟩ := hstep.rejects_of_report hret
    have hpos := seq_pos (T.reach hj.le) c.1 t ht fun hidle => by
      rw [hidle] at hrej
      exact hrej
    exact hseq ▸ hpos
  refine T.exec_labels (R := fun k v => (T.state k).Without c v) ?_ ?_ ?_
  · rw [T.start]
    refine ⟨?_, rfl, rfl⟩
    constructor <;> first | rfl | exact fun _ => rfl
  · intro k hk hkeep v hv
    have hother : (T.state k).callOf (T.action k) ≠ some c := by simpa using hkeep
    have hs : step P (T.state k) (T.action k) = some (T.state (k + 1)) := T.step k hk
    exact hv.other (T.reach hk.le) hs hother hc
  · intro k hk hskip v hv
    have hcall : (T.state k).callOf (T.action k) = some c := by simpa using hskip
    obtain ⟨t, i, pc, -, ht, hseq, hstep, hnext, hrej⟩ := h.rejects hk hcall
    rw [hnext]
    exact hv.skip ht hstep (Prod.ext rfl hseq) hrej

end Runs

end ZipoLogger
