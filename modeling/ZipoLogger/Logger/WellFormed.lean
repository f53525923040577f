/-
  Addresses in range, and histories that only grow.

  `State.Wf`: every logger a goroutine, the queue, the worker or the registry refers to is
  allocated, the unallocated ones are as `&Logger{}` leaves them, and the registry holds every
  logger under its own file name. `Extends` orders the states of a run.
-/
import ZipoLogger.Logger.Cases

namespace ZipoLogger

open Enc

/-! ## The machine's own induction -/

variable {P : Primitives}

/-- What the shared part, the goroutines and the worker satisfy apart, kept by every step. -/
theorem reach_invariant {I : State → Prop} {s : State} (h : (machine P).Reach s) (h0 : I {})
    (hspawn : ∀ u, (machine P).Reach u → I u → I { u with threads := u.threads ++ [{}] })
    (hgo : ∀ u g t i pc sh, (machine P).Reach u → I u → u.threads[g]? = some t →
      GoStep g t.seq u.sh t.pc i pc sh →
      I { u with sh, threads := u.threads.set g { pc, seq := t.nextSeq i } })
    (hworker : ∀ u i wpc sh, (machine P).Reach u → I u → WorkerStep P u.sh u.worker i wpc sh →
      I { u with sh, worker := wpc }) : I s := by
  refine h.invariant h0 fun u a v hr hu hs => ?_
  obtain ⟨-, rfl⟩ | ⟨g, i, t, pc, sh, -, ht, hstep, rfl⟩ | ⟨i, wpc, sh, -, hstep, rfl⟩ :=
    step_cases hs
  · exact hspawn u hr hu
  · exact hgo u g t i pc sh hr hu ht hstep
  · exact hworker u i wpc sh hr hu hstep

theorem reach_step {u v : State} {a : Action} (h : (machine P).Reach u)
    (hs : step P u a = some v) : (machine P).Reach v :=
  Machine.Reach.tail h hs

/-- The goroutines after one of them moved: it, or one of the others. -/
theorem threads_set {ts : List Thread} {g g' : Gid} {t t' : Thread}
    (h : (ts.set g t)[g']? = some t') : (g' = g ∧ t' = t) ∨ (g' ≠ g ∧ ts[g']? = some t') := by
  rw [List.getElem?_set] at h
  split at h
  · rename_i hg
    split at h
    · exact .inl ⟨hg.symm, (Option.some.inj h).symm⟩
    · cases h
  · exact .inr ⟨fun hg => ‹¬g = g'› hg.symm, h⟩

theorem threads_spawn {ts : List Thread} {g : Gid} {t new : Thread}
    (h : (ts ++ [new])[g]? = some t) : t = new ∨ ts[g]? = some t := by
  rw [List.getElem?_append] at h
  split at h
  · exact .inr h
  · exact .inl (List.mem_singleton.mp (List.mem_of_getElem? h))

/-- A step of a goroutine. -/
theorem step_go {u v : State} {g : Gid} {i : Input} (hs : step P u (.go g i) = some v) :
    ∃ t pc, u.threads[g]? = some t ∧ GoStep g t.seq u.sh t.pc i pc v.sh ∧
      v.threads[g]? = some { pc, seq := t.nextSeq i } := by
  rcases step_cases hs with ⟨hx, -⟩ | ⟨g', i', t, pc, sh, hx, ht, hstep, rfl⟩ | ⟨i', _, _, hx, -⟩
  · cases hx
  · cases hx
    exact ⟨t, pc, ht, hstep, List.getElem?_set_self (List.getElem?_eq_some_iff.mp ht).1⟩
  · cases hx

/-- A step and a goroutine: it is the one that moves, or it stays where it is. -/
theorem step_thread {u v : State} {x : Action} {g : Gid} {t : Thread}
    (hs : step P u x = some v) (ht : u.threads[g]? = some t) :
    (∃ i pc, x = .go g i ∧ GoStep g t.seq u.sh t.pc i pc v.sh ∧
      v.threads[g]? = some { pc, seq := t.nextSeq i }) ∨
    ((∀ i, x ≠ .go g i) ∧ v.threads[g]? = some t) := by
  obtain ⟨hlt, hgt⟩ := List.getElem?_eq_some_iff.mp ht
  rcases step_cases hs with ⟨rfl, rfl⟩ | ⟨g', i, t', pc, sh, rfl, ht', hstep, rfl⟩ |
    ⟨i, wpc, sh, rfl, -, rfl⟩
  · exact .inr ⟨by simp, by rw [List.getElem?_append_left hlt, ht]⟩
  · by_cases hg : g' = g
    · subst hg
      cases Option.some.inj (ht'.symm.trans ht)
      exact .inl ⟨i, pc, rfl, hstep, List.getElem?_set_self hlt⟩
    · exact .inr ⟨by simp [hg], by rw [List.getElem?_set_ne hg, ht]⟩
  · exact .inr ⟨by simp, ht⟩

/-! ## Addresses -/

/-- The loggers a place refers to. -/
def Cont.refs : Cont → List Ptr
  | .evict _ new => [new]
  | _ => []

def Pc.refs : Pc → List Ptr
  | .print l _ _ => [l]
  | .wait l _ k _ => l :: k.refs
  | .close l _ _ _ => [l]
  | .newLogger _ (.evicted new old) => [new, old]
  | .newLogger _ (.unlock new) => [new]
  | .set l _ _ => [l]
  | _ => []

/-- The message the worker has received and for which it has not called `Done`. -/
def WorkerPc.owed : WorkerPc → Option LoggerMessage
  | .lock elem | .init elem | .lockEncryptor elem | .lockKey elem | .key elem | .emit elem _
  | .done elem => some elem
  | .dead hand => hand
  | .recv | .wake _ _ | .reset _ _ => none

def WorkerPc.refs : WorkerPc → List Ptr
  | .wake l _ | .reset l _ => [l]
  | w => w.owed.toList.map LoggerMessage.log

structure Shared.Wf (s : Shared) : Prop where
  nlog_pos : 0 < s.nlog
  empty : (s.loggers emptyLogger).filename = []
  fresh : ∀ l, s.nlog ≤ l → s.loggers l = {}
  queued : ∀ m ∈ s.tologCh, m.log < s.nlog
  registered : ∀ e ∈ s.registry.entries,
    0 < e.2 ∧ e.2 < s.nlog ∧ (s.loggers e.2).filename = e.1

structure State.Wf (s : State) : Prop where
  shared : s.sh.Wf
  threads : ∀ (g : Gid) (t : Thread), s.threads[g]? = some t → ∀ l ∈ t.pc.refs, l < s.sh.nlog
  worker : ∀ l ∈ s.worker.refs, l < s.sh.nlog

section Steps

variable {g : Gid} {seq : Nat} {s s' : Shared} {pc pc' : Pc} {i : Input}

theorem Shared.Wf.congr (hs : s.Wf) (hl : s'.loggers = s.loggers) (hn : s'.nlog = s.nlog)
    (hq : ∀ m ∈ s'.tologCh, m.log < s.nlog)
    (hr : ∀ e ∈ s'.registry.entries, e ∈ s.registry.entries) : s'.Wf where
  nlog_pos := hn ▸ hs.nlog_pos
  empty := by rw [hl]; exact hs.empty
  fresh l h := by rw [hl]; exact hs.fresh l (hn ▸ h)
  queued m h := hn ▸ hq m h
  registered e h := by rw [hl, hn]; exact hs.registered e (hr e h)

theorem Shared.Wf.ret {r : Returned} (hs : s.Wf) : (s.ret r).Wf :=
  hs.congr rfl rfl hs.queued fun _ h => h

theorem Shared.Wf.panic {p : PanicSite} (hs : s.Wf) : (s.panic p).Wf :=
  hs.congr rfl rfl hs.queued fun _ h => h

theorem Shared.Wf.modify {l : Ptr} {f : Logger → Logger} (hs : s.Wf) (hl : l < s.nlog)
    (hf : (f (s.loggers l)).filename = (s.loggers l).filename) : (s.modify l f).Wf where
  nlog_pos := hs.nlog_pos
  empty := (Shared.modify_field s l emptyLogger f Logger.filename hf).trans hs.empty
  fresh l' h := by
    rw [Shared.modify_loggers, if_neg (hl.trans_le h).ne']
    exact hs.fresh l' h
  queued := hs.queued
  registered e h := by
    obtain ⟨h0, hlt, hname⟩ := hs.registered e h
    exact ⟨h0, hlt, (Shared.modify_field s l e.2 f Logger.filename hf).trans hname⟩

theorem Shared.Wf.alloc {a : NewArgs} {r : Lru Bytes Ptr registryCap} (hs : s.Wf)
    (hr : r = (s.registry.add a.filename s.nlog).1) :
    ({ s.alloc a with registry := r } : Shared).Wf where
  nlog_pos := Nat.succ_pos _
  empty := by
    show (Function.update s.loggers s.nlog _ emptyLogger).filename = []
    have hne : emptyLogger ≠ s.nlog := hs.nlog_pos.ne
    rw [Function.update_of_ne hne]
    exact hs.empty
  fresh l h := by
    have hl : s.nlog + 1 ≤ l := h
    show Function.update s.loggers s.nlog _ l = {}
    rw [Function.update_of_ne (Nat.lt_of_succ_le hl).ne']
    exact hs.fresh l (Nat.le_of_succ_le hl)
  queued m h := Nat.lt_succ_of_lt (hs.queued m h)
  registered e h := by
    show 0 < e.2 ∧ e.2 < s.nlog + 1 ∧ (Function.update s.loggers s.nlog _ e.2).filename = e.1
    subst hr
    obtain rfl | ⟨he, -⟩ := Lru.mem_add h
    · exact ⟨hs.nlog_pos, Nat.lt_succ_self _, by rw [Function.update_self]⟩
    · obtain ⟨h0, hlt, hname⟩ := hs.registered e he
      refine ⟨h0, Nat.lt_succ_of_lt hlt, ?_⟩
      rw [Function.update_of_ne hlt.ne, hname]

/-- What holds of `&Logger{}` and of the new logger alike is not changed by its allocation. -/
theorem Shared.Wf.alloc_field {β : Type} {a : NewArgs} (hs : s.Wf) (π : Logger → β)
    (hπ : π ((s.alloc a).loggers s.nlog) = π {}) (l : Ptr) :
    π ((s.alloc a).loggers l) = π (s.loggers l) := by
  by_cases h : l = s.nlog
  · rw [h, hπ, hs.fresh s.nlog le_rfl]
  · simp only [Shared.alloc, Function.update_of_ne h]

theorem afterWait_fst_refs {l : Ptr} {mark : Nat} {k : Cont} {early : Bool} :
    ∀ p ∈ (afterWait g l mark k early s).1.refs, p ∈ l :: k.refs := by
  cases k <;> simp [afterWait, Pc.refs, Cont.refs]

theorem afterWait_snd {l : Ptr} {mark : Nat} {k : Cont} {early : Bool} :
    (afterWait g l mark k early s).2 = s.ret (.wait g l mark early) := by
  cases k <;> rfl

/-- Unwinding changes locks and `panics` only. -/
theorem Shared.Wf.unwindWait {l : Ptr} {k : Cont} (hs : s.Wf) : (unwindWait l k s).2.Wf := by
  cases k <;> exact hs.congr rfl rfl hs.queued fun _ h => h

theorem unwindWait_fst {l : Ptr} {k : Cont} : (unwindWait l k s).1 = .idle := by
  cases k <;> rfl

theorem GoStep.wf (h : GoStep g seq s pc i pc' s') (hs : s.Wf)
    (hpc : ∀ l ∈ pc.refs, l < s.nlog) : s'.Wf ∧ ∀ l ∈ pc'.refs, l < s'.nlog := by
  -- most steps leave the loggers, the queue and the registry's entries alone
  have self : ∀ {r : Shared}, r.loggers = s.loggers → r.nlog = s.nlog → r.tologCh = s.tologCh →
      r.registry = s.registry → r.Wf := fun hl hn hq hr =>
    hs.congr hl hn (hq ▸ hs.queued) (hr ▸ fun _ h => h)
  have touched : ∀ {r : Shared} {w : Bytes}, r.loggers = s.loggers → r.nlog = s.nlog →
      r.tologCh = s.tologCh → r.registry = s.registry.touch w → r.Wf := fun hl hn hq hr =>
    hs.congr hl hn (hq ▸ hs.queued) (hr ▸ fun _ h => Lru.mem_touch.mp h)
  cases h with
  | callNop | callWaitAll | callNew | callSetGlobal | callDepth | allKeys | allMiss | newMiss
  | newMiss2 =>
    exact ⟨hs, by simp [Pc.refs]⟩
  | callPrint hl | callWait hl | callClose hl | callSet hl =>
    exact ⟨hs, by simpa [Pc.refs, Cont.refs] using hl⟩
  | gateOpen | sourcePath | checked | waitThrough => exact ⟨hs, hpc⟩
  | depthLock | startRead | fallsBack | headed => exact ⟨self rfl rfl rfl rfl, hpc⟩
  | callStdout | gateClosed | checkPanics | allLock | allDone | newLock | newUnlock | globalLock
  | globalReject | globalSet | depthCallLock | depthApply =>
    exact ⟨self rfl rfl rfl rfl, by simp [Pc.refs]⟩
  | added | addWakes | dropWakes | readded | waitLock | waitSet | waitPark | waitWake | waitRelock
  | closeLock | setLock => exact ⟨hs.modify (hpc _ List.mem_cons_self) rfl, hpc⟩
  | addPanics | dropPanics =>
    exact ⟨(hs.modify (hpc _ List.mem_cons_self) rfl).panic, by simp [Pc.refs]⟩
  | dropped | released =>
    exact ⟨(hs.modify (hpc _ List.mem_cons_self) rfl).ret, by simp [Pc.refs]⟩
  | @sent l msg =>
    refine ⟨hs.congr (by simp [Shared.enqueue]) (by simp [Shared.enqueue]) ?_ ?_, by simp [Pc.refs]⟩
    · intro m hm
      simp only [Shared.ret_tologCh, Shared.enqueue, Shared.echo_tologCh, List.mem_append,
        List.mem_singleton] at hm
      obtain hm | rfl := hm
      · exact hs.queued m hm
      · exact hpc l List.mem_cons_self
    · simp [Shared.enqueue]
  | full => exact ⟨self (by simp) (by simp) (by simp) (by simp), by simpa [Pc.refs] using hpc⟩
  | waitEarly | waitClear =>
    rw [afterWait_snd]
    exact ⟨(hs.modify (hpc _ List.mem_cons_self) rfl).ret,
      fun p hp => hpc p (afterWait_fst_refs p hp)⟩
  | waitPanics =>
    rw [unwindWait_fst]
    exact ⟨(hs.modify (hpc _ List.mem_cons_self) rfl).unwindWait, by simp [Pc.refs]⟩
  | @closeDone l mark early =>
    have hc : (s.closeWriter l).Wf := self (by simp) (by simp) (by simp) (by simp)
    have hm := hc.modify (f := fun lg => { lg with zlog := none, em := none })
      (by simpa using hpc l List.mem_cons_self) rfl
    exact ⟨hm.congr rfl rfl hm.queued fun _ h => h, by simp [Pc.refs]⟩
  | allHit hlock hget =>
    refine ⟨touched rfl rfl rfl rfl, ?_⟩
    simpa [Pc.refs, Cont.refs] using (hs.registered _ (Lru.get?_eq_some_iff.mp hget)).2.1
  | newHit | newHit2 => exact ⟨touched rfl rfl rfl rfl, by simp [Pc.refs]⟩
  | newAdd => exact ⟨hs.alloc rfl, by simp [Pc.refs, Shared.alloc]⟩
  | @newEvict a f old hlock hadd =>
    have hw := hs.alloc (a := a) rfl
    refine ⟨hw.congr rfl rfl hw.queued fun _ h => h, ?_⟩
    have hold : old < s.nlog + 1 := by
      obtain he | ⟨he, -⟩ := Lru.mem_of_add_dropped hadd
      · cases he
        exact Nat.lt_succ_self _
      · exact Nat.lt_succ_of_lt (hs.registered _ he).2.1
    simpa [Pc.refs, Cont.refs, Shared.alloc] using hold
  | newEvicted =>
    refine ⟨self (by simp) (by simp) (by simp) (by simp), ?_⟩
    simpa [Pc.refs] using hpc _ (by simp [Pc.refs])
  | @setApply l x =>
    have hm := hs.modify (f := fun lg => { x.apply lg with m := none })
      (hpc l List.mem_cons_self) (x.apply_filename _)
    exact ⟨hm.congr (by simp) (by simp) (by simpa using hm.queued) (by simp), by simp [Pc.refs]⟩

variable {wpc wpc' : WorkerPc} {wi : WorkerInput}

theorem Shared.Wf.createWriter {l : Ptr} (hs : s.Wf) (hl : l < s.nlog) :
    (s.createWriter l).Wf := by
  have hm := hs.modify (f := fun lg => { lg with log := some s.nwri, zlog := some s.nwri }) hl rfl
  exact hm.congr rfl rfl hm.queued fun _ h => h

theorem WorkerStep.wf (h : WorkerStep P s wpc wi wpc' s') (hs : s.Wf)
    (hpc : ∀ l ∈ wpc.refs, l < s.nlog) : s'.Wf ∧ ∀ l ∈ wpc'.refs, l < s'.nlog := by
  cases h with
  | receive hq =>
    refine ⟨hs.congr rfl rfl (fun m hm => hs.queued m (by simp [hq, hm])) fun _ h => h, ?_⟩
    simpa [WorkerPc.refs, WorkerPc.owed] using hs.queued _ (hq ▸ List.mem_cons_self)
  | lock | ready | lockKey | doneWakes =>
    exact ⟨hs.modify (hpc _ List.mem_cons_self) rfl, hpc⟩
  | doneReturns | woke =>
    exact ⟨hs.modify (hpc _ List.mem_cons_self) rfl, by simp [WorkerPc.refs, WorkerPc.owed]⟩
  | created =>
    have hl := hpc _ List.mem_cons_self
    exact ⟨(hs.createWriter hl).modify hl rfl, hpc⟩
  | @skipped elem hlog =>
    have hm := hs.modify (f := fun lg => { lg with log := none, zlog := none, em := none })
      (hpc elem.log List.mem_cons_self) rfl
    exact ⟨hm.congr rfl rfl hm.queued fun _ h => h, hpc⟩
  | createPanics | encryptPanics | writePanics => exact ⟨hs.panic, hpc⟩
  | checked => exact ⟨hs, hpc⟩
  | lockEncryptor | wrote => exact ⟨hs.congr rfl rfl hs.queued fun _ h => h, hpc⟩
  | @key elem =>
    have hm := hs.modify (f := fun lg => { lg with em := none })
      (hpc elem.log List.mem_cons_self) rfl
    exact ⟨hm.congr rfl rfl hm.queued fun _ h => h, hpc⟩
  | donePanics =>
    exact ⟨(hs.modify (hpc _ List.mem_cons_self) rfl).panic,
      by simp [WorkerPc.refs, WorkerPc.owed]⟩
  | checkPanics => exact ⟨hs.panic, by simp [WorkerPc.refs, WorkerPc.owed]⟩

/-! ## What a step leaves of a logger -/

/-- What a step of a goroutine at a place makes of the logger `l`. -/
inductive Touches (s : Shared) (l : Ptr) : Pc → Logger → Prop
  | locks {pc : Pc} (m em : Mutex) : Touches s l pc { s.loggers l with m, em }
  | print {msg : Bytes} {ph : PrintPhase} (logTasks : WaitGroup) :
      Touches s l (.print l msg ph) { s.loggers l with logTasks }
  | wait {mark : Nat} {k : Cont} {ph : WaitPhase} (m : Mutex) (waitStarted : Nat)
      (logTasks : WaitGroup) :
      Touches s l (.wait l mark k ph) { s.loggers l with m, waitStarted, logTasks }
  | close {mark : Nat} {early : Bool} :
      Touches s l (.close l mark early true) { s.loggers l with zlog := none, em := none }
  | set {x : Setter} : Touches s l (.set l x true) { x.apply (s.loggers l) with m := none }
  | alloc {a : NewArgs} : l = s.nlog → Touches s l (.newLogger a .add) ((s.alloc a).loggers l)

theorem Touches.keep {l : Ptr} : Touches s l pc (s.loggers l) := .locks _ _

theorem Touches.modify {l l' : Ptr} {f : Logger → Logger}
    (hf : Touches s l' pc (f (s.loggers l'))) : Touches s l pc ((s.modify l' f).loggers l) := by
  rw [Shared.modify_loggers]
  split
  · rename_i hl
    subst hl
    exact hf
  · exact .keep

theorem Touches.ofAlloc {l : Ptr} {a : NewArgs} :
    Touches s l (.newLogger a .add) ((s.alloc a).loggers l) := by
  by_cases hl : l = s.nlog
  · exact .alloc hl
  · have hsame : (s.alloc a).loggers l = s.loggers l := Function.update_of_ne hl _ _
    rw [hsame]
    exact .keep

theorem GoStep.touches (h : GoStep g seq s pc i pc' s') (l : Ptr) :
    Touches s l pc (s'.loggers l) := by
  cases h with
  | added | addWakes | dropWakes | readded => exact .modify (.print _)
  | addPanics | dropPanics =>
    rw [Shared.panic_loggers]
    exact .modify (.print _)
  | dropped | released =>
    rw [Shared.ret_loggers]
    exact .modify (.print _)
  | waitLock | waitRelock | setLock | closeLock => exact .modify (.locks _ _)
  | waitSet | waitPark | waitWake => exact .modify (.wait _ _ _)
  | waitEarly | waitClear =>
    rw [afterWait_snd, Shared.ret_loggers]
    exact .modify (.wait _ _ _)
  | @waitPanics l' mark k wg =>
    have hm : Touches s l (.wait l' mark k .park)
        ((s.modify l' fun lg => { lg with logTasks := wg }).loggers l) := .modify (.wait _ _ _)
    cases k <;> exact hm
  | closeDone =>
    rw [Shared.ret_loggers, Shared.modify_loggers, Shared.closeWriter_loggers]
    split
    · rename_i hl
      subst hl
      exact .close
    · exact .keep
  | newAdd | newEvict => exact .ofAlloc
  | setApply =>
    rw [Setter.report_loggers]
    exact .modify .set
  | sent | full | newEvicted => simpa [Shared.enqueue] using Touches.keep
  | _ => exact .keep

/-- User goroutines assign nothing but the mutexes, the flag, the counter, `zlog` and the
    settings of a logger. -/
theorem GoStep.field {β : Type} (h : GoStep g seq s pc i pc' s') (π : Logger → β) (l : Ptr)
    (hπ : ∀ lg m em waitStarted zlog logTasks,
      π { lg with m, em, waitStarted, zlog, logTasks } = π lg)
    (hset : ∀ (x : Setter) lg, π (x.apply lg) = π lg)
    (halloc : ∀ a, π ((s.alloc a).loggers l) = π (s.loggers l)) :
    π (s'.loggers l) = π (s.loggers l) := by
  have ht := h.touches l
  generalize s'.loggers l = lg at ht ⊢
  cases ht with
  | locks | print | wait | close => exact hπ _ _ _ _ _ _
  | set => exact (hπ _ _ _ _ _ _).trans (hset _ _)
  | alloc => exact halloc _

/-- What a step of the worker makes of the logger `l`. -/
inductive WorkerTouches (s : Shared) (l : Ptr) : Logger → Prop
  | tasks (em : Mutex) (logTasks : WaitGroup) :
      WorkerTouches s l { s.loggers l with em, logTasks }
  | writer (w : Option Wid) (em : Mutex) : (s.loggers l).log = none →
      WorkerTouches s l { s.loggers l with log := w, zlog := w, em }

theorem WorkerTouches.keep {l : Ptr} : WorkerTouches s l (s.loggers l) := .tasks _ _

theorem WorkerTouches.modify {l l' : Ptr} {f : Logger → Logger}
    (hf : WorkerTouches s l' (f (s.loggers l'))) :
    WorkerTouches s l ((s.modify l' f).loggers l) := by
  rw [Shared.modify_loggers]
  split
  · rename_i hl
    subst hl
    exact hf
  · exact .keep

theorem WorkerStep.touches (h : WorkerStep P s wpc wi wpc' s') (l : Ptr) :
    WorkerTouches s l (s'.loggers l) := by
  cases h with
  | receive | createPanics | lockEncryptor | encryptPanics | writePanics | wrote | checked
  | checkPanics => exact .keep
  | lock | ready | lockKey | doneReturns | doneWakes | woke => exact .modify (.tasks _ _)
  | @created elem hlog =>
    have hm : WorkerTouches s l ((s.modify elem.log fun lg =>
        { lg with log := some s.nwri, zlog := some s.nwri, em := none }).loggers l) :=
      .modify (.writer _ _ hlog)
    rw [Shared.modify_loggers] at hm ⊢
    split at hm
    · rename_i hl
      simpa [hl, Shared.createWriter] using hm
    · rename_i hl
      simpa [hl, Shared.createWriter] using hm
  | @skipped elem hlog =>
    rw [Shared.process_loggers]
    exact .modify (.writer none none hlog)
  | @key elem =>
    have hm : WorkerTouches s l ((s.modify elem.log fun lg => { lg with em := none }).loggers l) :=
      .modify (.tasks _ _)
    exact hm
  | donePanics =>
    rw [Shared.panic_loggers]
    exact .modify (.tasks _ _)

/-- The worker assigns nothing but `em`, the writers and the counter of a logger. -/
theorem WorkerStep.field {β : Type} (h : WorkerStep P s wpc wi wpc' s') (π : Logger → β) (l : Ptr)
    (hπ : ∀ lg em log zlog logTasks, π { lg with em, log, zlog, logTasks } = π lg) :
    π (s'.loggers l) = π (s.loggers l) := by
  have ht := h.touches l
  generalize s'.loggers l = lg at ht ⊢
  cases ht with
  | tasks | writer => exact hπ _ _ _ _ _

/-! ## Histories grow -/

/-- `s'` comes after `s`. -/
structure Extends (s s' : Shared) : Prop where
  nlog : s.nlog ≤ s'.nlog
  accepted : s.accepted <+: s'.accepted
  processed : s.processed <+: s'.processed
  returned : s.returned <+: s'.returned
  panics : s.panics <+: s'.panics

theorem Extends.refl (s : Shared) : Extends s s :=
  ⟨le_rfl, List.prefix_rfl, List.prefix_rfl, List.prefix_rfl, List.prefix_rfl⟩

theorem Extends.trans {r : Shared} (h : Extends r s) (h' : Extends s s') : Extends r s' :=
  ⟨h.nlog.trans h'.nlog, h.accepted.trans h'.accepted, h.processed.trans h'.processed,
    h.returned.trans h'.returned, h.panics.trans h'.panics⟩

theorem GoStep.extends (h : GoStep g seq s pc i pc' s') : Extends s s' := by
  cases h with
  | waitEarly | waitClear => constructor <;> simp [afterWait_snd]
  | @waitPanics l mark k => cases k <;> constructor <;> simp [unwindWait]
  | @setApply l x => cases x <;> constructor <;> simp [Setter.report]
  | _ => constructor <;> simp [Shared.enqueue, Shared.alloc]

/-- The calls that return in a step from a place. -/
inductive Returns (g : Gid) (seq : Nat) (s : Shared) : Pc → Returned → Prop
  | gated {l : Ptr} {msg : Bytes} :
      Returns g seq s (.print l msg .gate) (.print (g, seq) l msg false s.slotFree)
  | sent {l : Ptr} {msg : Bytes} :
      Returns g seq s (.print l msg .send) (.print (g, seq) l msg true true)
  | dropped {l : Ptr} {msg : Bytes} :
      Returns g seq s (.print l msg .done) (.print (g, seq) l msg true false)
  | released {l : Ptr} {msg : Bytes} {w : Nat} :
      Returns g seq s (.print l msg (.reset false w)) (.print (g, seq) l msg true false)
  | waitEarly {l : Ptr} {mark : Nat} {k : Cont} :
      Returns g seq s (.wait l mark k .test) (.wait g l mark true)
  | wait {l : Ptr} {mark : Nat} {k : Cont} :
      Returns g seq s (.wait l mark k .clear) (.wait g l mark false)
  | close {l : Ptr} {mark : Nat} {early : Bool} :
      Returns g seq s (.close l mark early true) (.close g l mark early)
  | waitAll {mark : Nat} : Returns g seq s (.waitAll mark (.next [])) (.waitAll g mark)
  | newLogger {a : NewArgs} {ph : NewPhase} {l : Ptr} :
      Returns g seq s (.newLogger a ph) (.newLogger g a.filename l)
  | setKey {pc : Pc} {ok : Bool} : Returns g seq s pc (.setKey g ok)

theorem GoStep.returned (h : GoStep g seq s pc i pc' s') :
    s'.returned = s.returned ∨
      ∃ r, s'.returned = s.returned ++ [r] ∧ Returns g seq s pc r := by
  cases h with
  | gateClosed => exact .inr ⟨_, rfl, .gated⟩
  | sent => exact .inr ⟨_, by simp [Shared.enqueue], .sent⟩
  | dropped => exact .inr ⟨_, rfl, .dropped⟩
  | released => exact .inr ⟨_, rfl, .released⟩
  | waitEarly => exact .inr ⟨_, by rw [afterWait_snd]; rfl, .waitEarly⟩
  | waitClear => exact .inr ⟨_, by rw [afterWait_snd]; rfl, .wait⟩
  | @waitPanics l mark k => exact .inl (by cases k <;> rfl)
  | closeDone => exact .inr ⟨_, by simp, .close⟩
  | allDone => exact .inr ⟨_, rfl, .waitAll⟩
  | newHit | newHit2 | newUnlock => exact .inr ⟨_, rfl, .newLogger⟩
  | globalReject | globalSet => exact .inr ⟨_, rfl, .setKey⟩
  | @setApply l x =>
    cases x
    case setEncryptionKey key => exact .inr ⟨_, rfl, .setKey⟩
    all_goals exact .inl rfl
  | full | newEvicted => exact .inl (by simp)
  | _ => exact .inl rfl

theorem WorkerStep.returned (h : WorkerStep P s wpc wi wpc' s') : s'.returned = s.returned := by
  cases h <;> rfl

theorem WorkerStep.extends (h : WorkerStep P s wpc wi wpc' s') : Extends s s' := by
  cases h <;> constructor <;> simp [Shared.createWriter, Shared.process]

end Steps

/-- Every reachable state is well formed. -/
theorem reach_wf {s : State} (h : (machine P).Reach s) : s.Wf := by
  refine reach_invariant (I := State.Wf) h ?_ ?_ ?_ ?_
  · exact ⟨⟨Nat.one_pos, rfl, fun _ _ => rfl, by simp, by simp [Lru.empty]⟩, by simp,
      by simp [WorkerPc.refs, WorkerPc.owed]⟩
  · intro u _ hu
    refine ⟨hu.shared, fun g t ht => ?_, hu.worker⟩
    obtain rfl | ht := threads_spawn ht
    · simp [Pc.refs]
    · exact hu.threads g t ht
  · intro u g t i pc sh _ hu ht hstep
    obtain ⟨hsh, hpc⟩ := hstep.wf hu.shared (hu.threads g t ht)
    have hle := hstep.extends.nlog
    refine ⟨hsh, fun g' t' ht' => ?_, fun l hl => (hu.worker l hl).trans_le hle⟩
    obtain ⟨-, rfl⟩ | ⟨-, ht'⟩ := threads_set ht'
    · exact hpc
    · exact fun l hl => (hu.threads g' t' ht' l hl).trans_le hle
  · intro u i wpc sh _ hu hstep
    obtain ⟨hsh, hpc⟩ := hstep.wf hu.shared hu.worker
    exact ⟨hsh, fun g t ht l hl => (hu.threads g t ht l hl).trans_le hstep.extends.nlog, hpc⟩

/-- Across a run the histories grow. -/
theorem run_extends {s s' : State} (h : (machine P).Run s s') : Extends s.sh s'.sh := by
  have htrans : ∀ u v w : State, Extends u.sh v.sh → Extends v.sh w.sh → Extends u.sh w.sh :=
    fun _ _ _ h h' => h.trans h'
  refine Machine.RunIf.rel (R := fun u v => Extends u.sh v.sh) h (fun u => .refl u.sh) htrans
    fun u a v hs => ?_
  obtain ⟨-, rfl⟩ | ⟨g, i, t, pc, sh, -, -, hstep, rfl⟩ | ⟨i, wpc, sh, -, hstep, rfl⟩ :=
    step_cases hs
  · exact .refl _
  · exact hstep.extends
  · exact hstep.extends

end ZipoLogger
