/-
  Who holds which lock.

  `Pc.locks` lists the locks a goroutine holds at a place, the last one taken first. A step takes
  one free lock, gives locks back, or leaves them (`LockStep`), so over a run the field of a
  mutex names the goroutine that stands where the lock is held (`reach_owned`), and no lock is
  held twice. The worker keeps its locks when it dies.
-/
import ZipoLogger.Logger.WellFormed

namespace ZipoLogger

open Enc

/-- The mutexes. -/
inductive Lock where
  | m (l : Ptr)
  | em (l : Ptr)
  /-- the internal lock of `initializedLoggers` -/
  | registry
  /-- `newLoggerMutex` -/
  | newLogger
  /-- `wMutex` -/
  | wait
  /-- `mainGlobalEncryptor.m` -/
  | encryptor
  /-- `additionalCallerDepthM` -/
  | callerDepth
  deriving DecidableEq

def Shared.holder (s : Shared) : Lock → Mutex
  | .m l => (s.loggers l).m
  | .em l => (s.loggers l).em
  | .registry => s.registryLock
  | .newLogger => s.newLoggerMutex
  | .wait => s.wMutex
  | .encryptor => s.encryptorM
  | .callerDepth => s.additionalCallerDepthM

/-- The locks held by the callers a `Wait` returns into. -/
def Cont.locks : Cont → List Lock
  | .waitAll _ _ => [.wait]
  | .evict _ _ => [.registry, .newLogger]
  | .user | .close => []

def Pc.locks : Pc → List Lock
  | .wait l _ k .test | .wait l _ k .clear => .m l :: k.locks
  | .wait _ _ k _ => k.locks
  | .close l _ _ true => [.em l]
  | .waitAll _ .keys | .waitAll _ (.next _) => [.wait]
  | .newLogger _ .get2 | .newLogger _ .add | .newLogger _ (.unlock _) => [.newLogger]
  | .newLogger _ (.evicted _ _) => [.registry, .newLogger]
  | .set l _ true => [.m l]
  | .setGlobal _ true => [.encryptor]
  | .print _ _ (.depth _ true) | .depth _ true => [.callerDepth]
  | _ => []

def WorkerPc.locks : WorkerPc → List Lock
  | .init elem => [.em elem.log]
  | .lockKey _ => [.encryptor]
  | .key elem => [.em elem.log, .encryptor]
  | _ => []

/-- What a step of `me` does to a lock: nothing, take it when it is free, give it back. -/
def LockStep (me : Tid) (held : Prop) (o : Mutex) (held' : Prop) (o' : Mutex) : Prop :=
  (o' = o ∧ (held' ↔ held)) ∨ (o = none ∧ o' = some me ∧ held') ∨ (held ∧ o' = none ∧ ¬ held')

section Steps

variable {s s' : Shared} {l : Ptr} {L : Lock} {g : Gid} {seq : Nat} {pc pc' : Pc} {i : Input}

@[simp] theorem Shared.holder_ret {r : Returned} : (s.ret r).holder L = s.holder L := by
  cases L <;> rfl

@[simp] theorem Shared.holder_panic {p : PanicSite} : (s.panic p).holder L = s.holder L := by
  cases L <;> rfl

@[simp] theorem Shared.holder_echo {b : Bytes} : (s.echo l b).holder L = s.holder L := by
  unfold Shared.echo
  split <;> cases L <;> rfl

@[simp] theorem Shared.holder_enqueue {m : LoggerMessage} :
    (s.enqueue m).holder L = s.holder L := by
  cases L <;> rfl

@[simp] theorem Shared.holder_closeWriter : (s.closeWriter l).holder L = s.holder L := by
  unfold Shared.closeWriter
  split <;> cases L <;> rfl

@[simp] theorem Setter.holder_report {x : Setter} : (x.report g s).holder L = s.holder L := by
  cases x <;> cases L <;> rfl

theorem Shared.holder_alloc {a : NewArgs} (hs : s.Wf) : (s.alloc a).holder L = s.holder L := by
  cases L
  case m l => exact hs.alloc_field Logger.m (by simp [Shared.alloc]) l
  case em l => exact hs.alloc_field Logger.em (by simp [Shared.alloc]) l
  all_goals rfl

theorem Shared.holder_modify {f : Logger → Logger} (hm : (f (s.loggers l)).m = (s.loggers l).m)
    (he : (f (s.loggers l)).em = (s.loggers l).em) : (s.modify l f).holder L = s.holder L := by
  cases L
  case m l' => exact Shared.modify_field s l l' f Logger.m hm
  case em l' => exact Shared.modify_field s l l' f Logger.em he
  all_goals rfl

theorem Shared.holder_modify_m {f : Logger → Logger} {o : Mutex} (hm : (f (s.loggers l)).m = o)
    (he : (f (s.loggers l)).em = (s.loggers l).em) :
    (s.modify l f).holder L = if L = .m l then o else s.holder L := by
  cases L
  case m l' =>
    simp only [Shared.holder, Shared.modify_loggers, Lock.m.injEq]
    split
    · exact hm
    · rfl
  case em l' => exact (Shared.modify_field s l l' f Logger.em he).trans (if_neg (by simp)).symm
  all_goals rfl

theorem Shared.holder_modify_em {f : Logger → Logger} {o : Mutex}
    (hm : (f (s.loggers l)).m = (s.loggers l).m) (he : (f (s.loggers l)).em = o) :
    (s.modify l f).holder L = if L = .em l then o else s.holder L := by
  cases L
  case em l' =>
    simp only [Shared.holder, Shared.modify_loggers, Lock.em.injEq]
    split
    · exact he
    · rfl
  case m l' => exact (Shared.modify_field s l l' f Logger.m hm).trans (if_neg (by simp)).symm
  all_goals rfl

/-! ## A step and a lock -/

theorem LockStep.keep {me : Tid} {held held' : Prop} {o o' : Mutex} (ho : o' = o)
    (hh : held' ↔ held) : LockStep me held o held' o' :=
  .inl ⟨ho, hh⟩

/-- The lock `X` is taken. -/
theorem LockStep.take {me : Tid} {X : Lock} {ls : List Lock} (hfree : s.holder X = none)
    (ho : s'.holder L = if L = X then some me else s.holder L) :
    LockStep me (L ∈ ls) (s.holder L) (L ∈ X :: ls) (s'.holder L) := by
  by_cases h : L = X
  · subst h
    exact .inr (.inl ⟨hfree, by simpa using ho, List.mem_cons_self⟩)
  · exact .inl ⟨by simpa [h] using ho, by simp [h]⟩

/-- The lock `X` is given back. -/
theorem LockStep.give {me : Tid} {X : Lock} {ls : List Lock} (hX : X ∉ ls)
    (ho : s'.holder L = if L = X then none else s.holder L) :
    LockStep me (L ∈ X :: ls) (s.holder L) (L ∈ ls) (s'.holder L) := by
  by_cases h : L = X
  · subst h
    exact .inr (.inr ⟨List.mem_cons_self, by simpa using ho, hX⟩)
  · exact .inl ⟨by simpa [h] using ho, by simp [h]⟩

theorem Cont.m_not_mem_locks (k : Cont) : Lock.m l ∉ k.locks := by
  cases k <;> simp [Cont.locks]

theorem afterWait_fst_locks {mark : Nat} {k : Cont} {early : Bool} :
    (afterWait g l mark k early s).1.locks = k.locks := by
  cases k <;> rfl

/-- A step of a goroutine and a lock. -/
theorem GoStep.locks (h : GoStep g seq s pc i pc' s') (hs : s.Wf) (L : Lock) :
    LockStep (.go g) (L ∈ pc.locks) (s.holder L) (L ∈ pc'.locks) (s'.holder L) := by
  cases h with
  | callNop | callPrint | callWait | callClose | callWaitAll | callNew | callSet | callSetGlobal
  | callDepth | gateOpen | sourcePath | checked | waitThrough | allKeys | allMiss | newMiss
  | newMiss2 =>
    exact .keep rfl Iff.rfl
  | callStdout | allHit | newHit => exact .keep (by cases L <;> rfl) Iff.rfl
  | gateClosed | checkPanics => exact .keep (by simp) Iff.rfl
  | depthLock hfree | depthCallLock hfree => exact .take hfree (by cases L <;> rfl)
  | startRead | fallsBack | headed | depthApply => exact .give (by simp) (by cases L <;> rfl)
  | added | addWakes | dropWakes | readded | waitPark | waitWake =>
    exact .keep (Shared.holder_modify rfl rfl) Iff.rfl
  | addPanics | dropPanics =>
    exact .keep (Shared.holder_panic.trans (Shared.holder_modify rfl rfl)) Iff.rfl
  | dropped | released =>
    exact .keep (Shared.holder_ret.trans (Shared.holder_modify rfl rfl)) Iff.rfl
  | sent => exact .keep (by simp) Iff.rfl
  | @full l msg =>
    refine .keep (Eq.trans ?_ (Shared.holder_echo (l := l) (b := msg))) Iff.rfl
    cases L <;> rfl
  | waitLock hfree | waitRelock hfree => exact .take hfree (Shared.holder_modify_m rfl rfl)
  | @waitEarly l mark k | @waitClear l mark k =>
    rw [afterWait_snd, afterWait_fst_locks]
    exact .give k.m_not_mem_locks (Shared.holder_ret.trans (Shared.holder_modify_m rfl rfl))
  | @waitSet l mark k =>
    exact .give k.m_not_mem_locks (Shared.holder_modify_m rfl rfl)
  | @waitPanics l mark k wg =>
    have hm : (s.modify l fun lg => { lg with logTasks := wg }).holder L = s.holder L :=
      Shared.holder_modify rfl rfl
    rw [← hm]
    cases k with
    | user | close => exact .keep (by cases L <;> rfl) Iff.rfl
    | waitAll mark' keys => exact .give (by simp) (by cases L <;> rfl)
    | evict a new =>
      by_cases hL : L = .registry ∨ L = .newLogger
      · refine .inr (.inr ⟨?_, ?_, by simp [unwindWait, Pc.locks]⟩)
        · simpa [Pc.locks, Cont.locks] using hL
        obtain rfl | rfl := hL <;> rfl
      · refine .keep ?_ (by simp [unwindWait, Pc.locks, Cont.locks] at hL ⊢; exact hL)
        cases L <;> first | rfl | simp at hL
  | closeLock hfree => exact .take hfree (Shared.holder_modify_em rfl rfl)
  | closeDone =>
    refine .give (by simp) ?_
    rw [Shared.holder_ret, Shared.holder_modify_em rfl rfl, Shared.holder_closeWriter]
  | allLock hfree => exact .take hfree (by cases L <;> rfl)
  | allDone => exact .give (by simp) (by cases L <;> rfl)
  | newLock hfree => exact .take hfree (by cases L <;> rfl)
  | newHit2 | newUnlock => exact .give (by simp) (by cases L <;> rfl)
  | @newAdd a =>
    refine .keep (Eq.trans ?_ (Shared.holder_alloc (a := a) hs)) Iff.rfl
    cases L <;> rfl
  | @newEvict a f old hfree =>
    refine .take hfree ?_
    rw [← Shared.holder_alloc (a := a) (L := L) hs]
    cases L <;> rfl
  | @newEvicted a new old =>
    refine .give (by simp) ?_
    have hc := Shared.holder_closeWriter (s := s) (l := old) (L := L)
    rw [← hc]
    cases L <;> rfl
  | setLock hfree => exact .take hfree (Shared.holder_modify_m rfl rfl)
  | @setApply l x =>
    refine .give (by simp) ?_
    rw [Setter.holder_report, Shared.holder_modify_m rfl (by simp)]
  | globalLock hfree => exact .take hfree (by cases L <;> rfl)
  | globalReject | globalSet => exact .give (by simp) (by cases L <;> rfl)

/-- A step of the worker and a lock; when the worker dies it keeps what it holds. -/
theorem WorkerStep.locks {P : Primitives} {wpc wpc' : WorkerPc} {wi : WorkerInput}
    (h : WorkerStep P s wpc wi wpc' s') (L : Lock) :
    LockStep .worker (L ∈ wpc.locks) (s.holder L) (L ∈ wpc'.locks) (s'.holder L) ∨
      ((∃ m, wpc' = .dead m) ∧ s'.holder L = s.holder L) := by
  cases h with
  | receive => exact .inl (.keep (by cases L <;> rfl) Iff.rfl)
  | lock hfree => exact .inl (.take hfree (Shared.holder_modify_em rfl rfl))
  | ready => exact .inl (.give (by simp) (Shared.holder_modify_em rfl rfl))
  | @created elem hlog =>
    have hc : (s.createWriter elem.log).holder L = s.holder L :=
      Eq.trans (by cases L <;> rfl) (Shared.holder_modify (s := s) (l := elem.log)
        (f := fun lg => { lg with log := some s.nwri, zlog := some s.nwri }) rfl rfl)
    refine .inl (.give (by simp) ?_)
    rw [Shared.holder_modify_em rfl rfl, hc]
  | @skipped elem hlog =>
    refine .inl (.give (by simp) ?_)
    exact Eq.trans (by cases L <;> rfl) (Shared.holder_modify_em (s := s) (l := elem.log)
      (f := fun lg => { lg with log := none, zlog := none, em := none }) rfl rfl)
  | createPanics | encryptPanics | writePanics | checkPanics =>
    exact .inr ⟨⟨_, rfl⟩, Shared.holder_panic⟩
  | donePanics =>
    exact .inr ⟨⟨_, rfl⟩, Shared.holder_panic.trans (Shared.holder_modify rfl rfl)⟩
  | lockEncryptor hfree => exact .inl (.take hfree (by cases L <;> rfl))
  | lockKey hfree => exact .inl (.take hfree (Shared.holder_modify_em rfl rfl))
  | @key elem =>
    refine .inl ?_
    by_cases hL : L = .em elem.log ∨ L = .encryptor
    · refine .inr (.inr ⟨by simpa [WorkerPc.locks] using hL, ?_, by simp [WorkerPc.locks]⟩)
      obtain rfl | rfl := hL
      · simp [Shared.holder]
      · rfl
    · have hm := Shared.holder_modify_em (s := s) (l := elem.log) (L := L)
        (f := fun lg => { lg with em := none }) rfl rfl
      rw [if_neg fun h => hL (.inl h)] at hm
      refine .keep ?_ (by simpa [WorkerPc.locks] using hL)
      rw [← hm]
      cases L <;> first | rfl | simp at hL
  | wrote => exact .inl (.keep (by cases L <;> rfl) Iff.rfl)
  | checked => exact .inl (.keep rfl Iff.rfl)
  | doneReturns | doneWakes | woke =>
    exact .inl (.keep (Shared.holder_modify rfl rfl) Iff.rfl)

theorem WorkerStep.callerDepth {P : Primitives} {wpc wpc' : WorkerPc} {wi : WorkerInput}
    (h : WorkerStep P s wpc wi wpc' s') :
    s'.additionalCallerDepthM = s.additionalCallerDepthM := by
  cases h <;> rfl

section LockStep

variable {me τ : Tid} {held held' : Prop} {o o' : Mutex}

theorem LockStep.holds (h : LockStep me held o held' o') (hown : held → o = some me)
    (hh : held') : o' = some me := by
  obtain ⟨rfl, hiff⟩ | ⟨-, ho, -⟩ | ⟨-, -, hno⟩ := h
  · exact hown (hiff.mp hh)
  · exact ho
  · exact absurd hh hno

theorem LockStep.owner (h : LockStep me held o held' o') (hown : o = some me → held)
    (ho : o' = some me) : held' := by
  obtain ⟨rfl, hiff⟩ | ⟨-, -, hh⟩ | ⟨-, hnone, -⟩ := h
  · exact hiff.mpr (hown ho)
  · exact hh
  · rw [hnone] at ho
    cases ho

/-- A step of `me` leaves the locks of the others alone. -/
theorem LockStep.other (h : LockStep me held o held' o') (hown : held → o = some me)
    (hτ : τ ≠ me) : o' = some τ ↔ o = some τ := by
  obtain ⟨rfl, -⟩ | ⟨hnone, ho, -⟩ | ⟨hh, hnone, -⟩ := h
  · rfl
  · simp [hnone, ho, Ne.symm hτ]
  · simp [hown hh, hnone, Ne.symm hτ]

/-- A step of a goroutine takes no lock for the worker. -/
theorem LockStep.not_worker {g : Gid} {held held' : Prop} {o o' : Mutex}
    (h : LockStep (.go g) held o held' o') (ho : o ≠ some .worker) : o' ≠ some .worker := by
  rcases h with ⟨rfl, -⟩ | ⟨-, rfl, -⟩ | ⟨-, rfl, -⟩
  · exact ho
  · simp
  · simp

end LockStep

end Steps

/-! ## Every run -/

/-- The mutexes name their holders. -/
structure State.Owned (s : State) : Prop where
  threads : ∀ (g : Gid) (t : Thread), s.threads[g]? = some t →
    ∀ L ∈ t.pc.locks, s.sh.holder L = some (.go g)
  worker : ∀ L ∈ s.worker.locks, s.sh.holder L = some .worker
  ofGoroutine : ∀ (L : Lock) (g : Gid), s.sh.holder L = some (.go g) →
    ∃ t, s.threads[g]? = some t ∧ L ∈ t.pc.locks
  ofWorker : ∀ L, s.sh.holder L = some .worker → L ∈ s.worker.locks ∨ ∃ m, s.worker = .dead m

/-- The lock of the caller depths is never the worker's. -/
theorem reach_callerDepth {P : Primitives} {s : State} (h : (machine P).Reach s) :
    s.sh.additionalCallerDepthM ≠ some .worker := by
  refine reach_invariant (I := fun s => s.sh.additionalCallerDepthM ≠ some .worker) h
    (by simp) (fun u _ hu => hu) ?_ ?_
  · intro u g t i pc sh hr hu ht hstep
    exact (hstep.locks (reach_wf hr).shared .callerDepth).not_worker hu
  · intro u i wpc sh hr hu hstep
    rw [hstep.callerDepth]
    exact hu

theorem reach_owned {P : Primitives} {s : State} (h : (machine P).Reach s) : s.Owned := by
  refine reach_invariant (I := State.Owned) h ?_ ?_ ?_ ?_
  · refine ⟨by simp, by simp [WorkerPc.locks], fun L => ?_, fun L => ?_⟩ <;>
      cases L <;> simp [Shared.holder]
  · intro u _ hu
    refine ⟨fun g t ht => ?_, hu.worker, fun L g hL => ?_, hu.ofWorker⟩
    · obtain rfl | ht := threads_spawn ht
      · simp [Pc.locks]
      · exact hu.threads g t ht
    · obtain ⟨t, ht, hmem⟩ := hu.ofGoroutine L g hL
      exact ⟨t, by rw [List.getElem?_append_left (List.getElem?_eq_some_iff.mp ht).1, ht], hmem⟩
  · intro u g t i pc sh hr hu ht hstep
    have hlock := hstep.locks (reach_wf hr).shared
    have hown : ∀ L, L ∈ t.pc.locks → u.sh.holder L = some (.go g) := hu.threads g t ht
    refine ⟨fun g' t' ht' L hL => ?_, fun L hL => ?_, fun L g' hL => ?_, fun L hL => ?_⟩
    · obtain ⟨rfl, rfl⟩ | ⟨hne, ht'⟩ := threads_set ht'
      · exact (hlock L).holds (hown L) hL
      · exact ((hlock L).other (hown L) (by simpa using hne)).mpr (hu.threads g' t' ht' L hL)
    · exact ((hlock L).other (hown L) (by simp)).mpr (hu.worker L hL)
    · by_cases hg : g' = g
      · subst hg
        refine ⟨_, List.getElem?_set_self (List.getElem?_eq_some_iff.mp ht).1, ?_⟩
        refine (hlock L).owner (fun ho => ?_) hL
        obtain ⟨t', ht', hmem⟩ := hu.ofGoroutine L g' ho
        cases Option.some.inj (ht.symm.trans ht')
        exact hmem
      · have ho := ((hlock L).other (hown L) (by simpa using hg)).mp hL
        obtain ⟨t', ht', hmem⟩ := hu.ofGoroutine L g' ho
        exact ⟨t', by rw [List.getElem?_set_ne (Ne.symm hg), ht'], hmem⟩
    · exact hu.ofWorker L (((hlock L).other (hown L) (by simp)).mp hL)
  · intro u i wpc sh _ hu hstep
    refine ⟨fun g t ht L hL => ?_, fun L hL => ?_, fun L g hL => ?_, fun L hL => ?_⟩
    · obtain hl | ⟨-, ho⟩ := hstep.locks L
      · exact (hl.other (hu.worker L) (by simp)).mpr (hu.threads g t ht L hL)
      · rw [ho]
        exact hu.threads g t ht L hL
    · obtain hl | ⟨⟨m, rfl⟩, -⟩ := hstep.locks L
      · exact hl.holds (hu.worker L) hL
      · exact absurd hL (by simp [WorkerPc.locks])
    · obtain hl | ⟨-, ho⟩ := hstep.locks L
      · exact hu.ofGoroutine L g ((hl.other (hu.worker L) (by simp)).mp hL)
      · exact hu.ofGoroutine L g (ho ▸ hL)
    · obtain hl | ⟨hdead, -⟩ := hstep.locks L
      · refine .inl (hl.owner (fun ho => ?_) hL)
        obtain hmem | ⟨m, hm⟩ := hu.ofWorker L ho
        · exact hmem
        · rw [hm] at hstep
          cases hstep
      · exact .inr hdead

end ZipoLogger
