/-
  The calls that have begun come to an end.

  `State.work` counts the steps that the calls in progress, the messages in `tologCh` and the
  worker have left at most. Every step that begins no new call lowers it (`step_work`), in any
  order of steps and with or without panics, so such runs are finite. Without a panic they stop
  only when everything is done (`State.Done`): then nobody is inside a call, no lock is held, every
  gate is open and every accepted message has been processed (`calls_end`).

  A `print` waits for nobody but the holder of `additionalCallerDepthM`, who gives it back in the
  next step; it is through after fifteen steps of its own (`print_waits`). As everywhere, the write
  to stdout is part of a step.
-/
import ZipoLogger.Logger.Deadlock
import ZipoLogger.Lib.Measure
import ZipoLogger.Lib.Count

namespace ZipoLogger

open Enc

/-! ## The work that is left -/

def WaitPhase.work : WaitPhase → Nat
  | .lock => 6
  | .test => 5
  | .tasks => 4
  | .park => 3
  | .relock => 2
  | .clear => 1

/-- The loop of the package-level `Wait`: a `Logger.Wait` for each key. -/
def loopWork (keys : List Bytes) : Nat := 1 + 7 * keys.length

def Cont.work : Cont → Nat
  | .user => 0
  | .close => 2
  | .waitAll _ keys => loopWork keys
  | .evict _ _ => 2

/-- The steps a place has left at most; a message counts ten, the steps the worker needs for it. -/
def Pc.work : Pc → Nat
  | .idle => 0
  | .print _ _ .gate => 22
  | .print _ _ (.add false) => 21
  | .print _ _ (.depth .start held) => if held then 19 else 20
  | .print _ _ (.depth (.max add _) held) =>
    if 0 < add then if held then 17 else 18 else if held then 15 else 16
  | .print _ _ (.add true) => 14
  | .print _ _ (.wake true _) => 13
  | .print _ _ (.reset true _) => 12
  | .print _ _ .send => 11
  | .print _ _ .done => 3
  | .print _ _ (.wake false _) => 2
  | .print _ _ (.reset false _) => 1
  | .wait _ _ k ph => ph.work + k.work
  | .close _ _ _ held | .set _ _ held | .setGlobal _ held | .depth _ held => if held then 1 else 2
  | .waitAll _ .lock => 3 + 7 * registryCap
  | .waitAll _ .keys => 2 + 7 * registryCap
  | .waitAll _ (.next keys) => loopWork keys
  | .newLogger _ .get => 12
  | .newLogger _ .lock => 11
  | .newLogger _ .get2 => 10
  | .newLogger _ .add => 9
  | .newLogger _ (.evicted _ _) => 2
  | .newLogger _ (.unlock _) => 1

def WorkerPc.work : WorkerPc → Nat
  | .lock _ => 9
  | .init _ => 8
  | .lockEncryptor _ => 7
  | .lockKey _ => 6
  | .key _ => 5
  | .emit _ _ => 4
  | .done _ => 3
  | .wake _ _ => 2
  | .reset _ _ => 1
  | .recv | .dead _ => 0

def State.work (u : State) : Nat :=
  (u.threads.map fun t => t.pc.work).sum + 10 * u.sh.tologCh.length + u.worker.work

/-- The step begins no call and starts no goroutine. -/
def Action.quiet : Action → Bool
  | .spawn | .go _ (.call _) => false
  | _ => true

/-! ## Every step lowers it -/

section Steps

variable {P : Primitives} {g : Gid} {seq : Nat} {s s' : Shared} {pc pc' : Pc} {i : Input}
  {wpc wpc' : WorkerPc} {wi : WorkerInput}

theorem afterWait_fst_work {l : Ptr} {mark : Nat} {k : Cont} {early : Bool} :
    (afterWait g l mark k early s).1.work = k.work := by
  cases k <;> rfl

theorem WaitPhase.work_pos (ph : WaitPhase) : 0 < ph.work := by
  cases ph <;> exact Nat.succ_pos _

/-- A place of a call, by the steps to the next one. -/
theorem GoStep.pc_work (h : GoStep g seq s pc i pc' s') (hi : ∀ c, i ≠ .call c) :
    pc'.work < pc.work := by
  cases h with
  | callNop | callPrint | callWait | callClose | callWaitAll | callNew | callSet | callSetGlobal
  | callStdout | callDepth => exact absurd rfl (hi _)
  | waitEarly | waitClear =>
    rw [afterWait_fst_work]
    exact Nat.lt_add_of_pos_left (WaitPhase.work_pos _)
  | waitPanics =>
    rw [unwindWait_fst]
    exact Nat.lt_add_right _ (WaitPhase.work_pos _)
  | waitLock | waitSet | waitThrough | waitPark | waitWake | waitRelock =>
    exact Nat.add_lt_add_right (by decide) _
  | allKeys =>
    have hlen : s.registry.keys.length ≤ registryCap := by
      rw [Lru.keys, List.length_reverse, List.length_map]
      exact s.registry.length_le
    simp only [Pc.work, loopWork]
    omega
  | allMiss | allHit =>
    simp only [Pc.work, Cont.work, loopWork, WaitPhase.work, List.length_cons]
    omega
  | allDone => exact Nat.succ_pos _
  | allLock => exact Nat.add_lt_add_right (by decide) _
  | @checked l msg added w | @checkPanics l msg added w => cases added <;> simp [Pc.work]
  | @added l msg stamp headed | @addWakes l msg stamp headed | @addPanics l msg stamp headed =>
    cases headed <;> simp [Pc.work]
  | @depthLock l msg r =>
    cases r with
    | start => simp [Pc.work]
    | max add inner => by_cases hpos : 0 < add <;> simp [Pc.work, hpos]
  | startRead => by_cases hpos : 0 < s.startCallerDepth <;> simp [Pc.work, hpos]
  | @fallsBack l msg dir add inner rt callers hnone =>
    have hpos := pos_of_activation hnone
    simp [Pc.work, hpos]
  | @headed l msg dir ret add => by_cases hpos : 0 < add <;> simp [Pc.work, hpos]
  | _ => simp [Pc.work, Cont.work, WaitPhase.work]

theorem GoStep.work (h : GoStep g seq s pc i pc' s') (hi : ∀ c, i ≠ .call c) :
    pc'.work + 10 * s'.tologCh.length < pc.work + 10 * s.tologCh.length := by
  rcases h.queue with ⟨-, hq⟩ | ⟨l, msg, rfl, rfl, -, hq, -⟩
  · rw [hq]
    exact Nat.add_lt_add_right (h.pc_work hi) _
  · -- the message is left to the worker
    rw [hq, List.length_append, List.length_singleton]
    simp only [Pc.work]
    omega

theorem WorkerStep.work (h : WorkerStep P s wpc wi wpc' s') :
    10 * s'.tologCh.length + wpc'.work < 10 * s.tologCh.length + wpc.work := by
  cases h with
  | receive hq =>
    rw [hq, List.length_cons]
    simp only [WorkerPc.work]
    omega
  | _ => exact Nat.add_lt_add_left (Nat.lt_of_sub_pos (by simp [WorkerPc.work])) _

/-- In any order of steps, with or without panics. -/
theorem step_work : (machine P).Lowers (fun _ a => a.quiet = true) State.work := by
  intro u a v hquiet hs
  rcases step_cases hs with ⟨rfl, -⟩ | ⟨g, i, t, pc, sh, rfl, ht, hstep, rfl⟩ |
    ⟨i, wpc, sh, rfl, hstep, rfl⟩
  · cases hquiet
  · have hi : ∀ c, i ≠ .call c := by
      rintro c rfl
      cases hquiet
    have hsum := List.sum_map_set_add (f := fun t : Thread => t.pc.work) ht ⟨pc, t.nextSeq i⟩
    have hlt := hstep.work hi
    simp only [State.work] at hsum ⊢
    omega
  · have hlt := hstep.work
    simp only [State.work]
    omega

end Steps

/-! ## Where such runs stop -/

/-- Everything is done. -/
structure State.Done (u : State) : Prop where
  idle : ∀ t ∈ u.threads, t.pc = .idle
  worker : u.worker = .recv
  queue : u.sh.tologCh = []
  locks : ∀ L, u.sh.holder L = none
  counters : ∀ l, u.sh.counter l = 0
  gates : ∀ l, (u.sh.loggers l).waitStarted = 0
  /-- Every accepted message has been processed. -/
  processed : u.sh.handled = u.sh.sent

section Runs

variable {P : Primitives} {u v : State} {τ : Tid}

/-- A step of somebody inside a call begins no call. -/
theorem State.Busy.quiet (hbusy : u.Busy τ) {x : Action} (hx : x.mover = some τ)
    (hs : step P u x = some v) : x.quiet = true := by
  cases x with
  | spawn => cases hx
  | worker i => rfl
  | go g i =>
    cases hx
    obtain ⟨t, ht, hidle⟩ := hbusy
    obtain ⟨t', pc, ht', hstep, -⟩ := step_go hs
    cases Option.some.inj (ht.symm.trans ht')
    cases i with
    | call c =>
      generalize t.pc = pc₀ at hstep hidle
      generalize v.sh = sh at hstep
      cases hstep <;> exact absurd rfl hidle
    | _ => rfl

/-- A step that begins no call and does not panic. -/
def smooth (P : Primitives) (u : State) (a : Action) : Prop :=
  a.quiet = true ∧ ∀ v, step P u a = some v → v.sh.panics = u.sh.panics

theorem not_busy_of_stuck (hr : (machine P).Reach u) (halive : u.sh.panics = [])
    (hstuck : (machine P).Stuck (smooth P) u) (τ : Tid) : ¬ u.Busy τ := by
  intro hbusy
  obtain ⟨τ', hbusy', x, v, hx, hs, hp⟩ := busy_moves hr halive hbusy
  have hnone : step P u x = none := hstuck x ⟨hbusy'.quiet hx hs, fun v' hs' => by
    rw [hs] at hs'
    rw [← Option.some.inj hs', hp]⟩
  rw [hs] at hnone
  cases hnone

/-- With nobody inside a call everything is done. -/
theorem done_of_not_busy (hr : (machine P).Reach u) (halive : u.sh.panics = [])
    (hfree : ∀ τ, ¬ u.Busy τ) : u.Done := by
  have hidle : ∀ t ∈ u.threads, t.pc = .idle := by
    intro t ht
    obtain ⟨g, hg⟩ := List.mem_iff_getElem?.mp ht
    by_contra hpc
    exact hfree (.go g) ⟨t, hg, hpc⟩
  have hworker : u.worker = .recv := by
    by_contra hrecv
    exact hfree .worker (.inl hrecv)
  have hqueue : u.sh.tologCh = [] := by
    by_contra hnil
    exact hfree .worker (.inr hnil)
  have hcount : ∀ p : Pc → Bool, p .idle = false → u.threads.countP (fun t => p t.pc) = 0 := by
    intro p hp
    refine List.countP_eq_zero.mpr fun t ht hpc => ?_
    rw [hidle t ht, hp] at hpc
    cases hpc
  refine ⟨hidle, hworker, hqueue, fun L => ?_, fun l => ?_, fun l => ?_, ?_⟩
  · rcases hL : u.sh.holder L with _ | τ
    · rfl
    · exact absurd (holder_busy hr halive hL) (hfree τ)
  · have hprinting : u.printing l = 0 := hcount (Pc.printing l) rfl
    have hqueued : u.sh.queued l = 0 := by
      rw [Shared.queued, hqueue]
      rfl
    have hholds : u.worker.holds l = false := by
      rw [hworker]
      rfl
    rw [(balanced_of_alive hr halive l).counter, hprinting, hqueued, hholds]
    rfl
  · have hwaiting : u.waiting l = 0 := hcount (Pc.waiting l) rfl
    have hgate := (reach_gated hr l).gate
    rwa [hwaiting, halive, List.count_nil] at hgate
  · have hfifo := reach_fifo hr
    rw [hworker, hqueue] at hfifo
    simpa [WorkerPc.inHand, WorkerPc.owed] using hfifo.symm

/-- The calls that have begun come to an end. In any order of steps in which no new call begins
    there are at most `u.work` of them; if no step has panicked, they stop only when everything is
    done; and from every state of a run without a panic they get there without one. -/
theorem calls_end (hr : (machine P).Reach u) :
    (∀ as v, (machine P).execIf (fun _ a => a.quiet) u as = some v → as.length ≤ u.work) ∧
    (∀ v, (machine P).RunIf (fun _ a => a.quiet = true) u v → v.sh.panics = [] →
      (machine P).Stuck (fun _ a => a.quiet = true) v → v.Done) ∧
    (u.sh.panics = [] → ∃ v, (machine P).RunIf (fun _ a => a.quiet = true) u v ∧
      v.sh.panics = [] ∧ v.Done) := by
  have hreach : ∀ {C : State → Action → Prop} {v}, (machine P).RunIf C u v →
      (machine P).Reach v := fun hrun =>
    Machine.RunIf.trans hr (hrun.mono fun _ _ _ => trivial)
  refine ⟨fun as v hrun => step_work.length_le hrun, fun v hrun halive hstuck => ?_,
    fun halive => ?_⟩
  · refine done_of_not_busy (hreach hrun) halive (not_busy_of_stuck (hreach hrun) halive ?_)
    exact fun a ha => hstuck a ha.1
  · have hlowers : (machine P).Lowers (smooth P) State.work := step_work.mono fun _ _ h => h.1
    obtain ⟨v, hrun, hstuck⟩ := hlowers.exists_stuck u
    have halive' : v.sh.panics = [] := by
      refine Machine.RunIf.invariant (P := fun v => v.sh.panics = []) hrun halive ?_
      intro w a w' _ hw hsmooth hs
      rw [hsmooth.2 w' hs, hw]
    exact ⟨v, hrun.mono fun _ _ h => h.1, halive', done_of_not_busy (hreach hrun) halive'
      (not_busy_of_stuck (hreach hrun) halive' hstuck)⟩

/-- A message is in `tologCh` and a `Wait` sleeps. -/
theorem calls_end_sleepingWait : ∃ v, (machine unitPrimitives).RunIf (fun _ a => a.quiet = true)
    (((machine unitPrimitives).exec {} sleepingWait).get sleepingWait_runs) v ∧
      v.sh.panics = [] ∧ v.Done :=
  (calls_end (reach_exec sleepingWait_runs)).2.2 (by decide)

end Runs

/-! ## Printing waits for the caller depths only -/

/-- The steps of its own that a `print` has left at most. -/
def PrintPhase.left : PrintPhase → Nat
  | .gate => 15
  | .add false => 14
  | .depth .start held => if held then 12 else 13
  | .depth (.max a _) held =>
    if 0 < a then if held then 10 else 11 else if held then 8 else 9
  | .add true => 7
  | .wake true _ => 6
  | .reset true _ => 5
  | .send => 4
  | .done => 3
  | .wake false _ => 2
  | .reset false _ => 1

def Pc.left : Pc → Nat
  | .print _ _ ph => ph.left
  | _ => 0

/-- A step of goroutine `g`. -/
def Action.own (g : Gid) (a : Action) : Bool := a.mover = some (.go g)

/-- At the lock of a getter of the caller depths. -/
def Pc.atDepthLock : Pc → Bool
  | .print _ _ (.depth _ false) => true
  | _ => false

section Print

variable {P : Primitives} {u v : State} {g : Gid} {t : Thread}

theorem GoStep.left {seq : Nat} {s s' : Shared} {pc pc' : Pc} {i : Input}
    (h : GoStep g seq s pc i pc' s') (hpc : pc.inPrint = true) : pc'.left < pc.left := by
  unfold Pc.inPrint at hpc
  split at hpc
  · cases h with
    | @checked l msg added w | @checkPanics l msg added w =>
      cases added <;> simp [Pc.left, PrintPhase.left]
    | @added l msg stamp headed | @addWakes l msg stamp headed | @addPanics l msg stamp headed =>
      cases headed <;> simp [Pc.left, PrintPhase.left]
    | @depthLock l msg r =>
      cases r with
      | start => simp [Pc.left, PrintPhase.left]
      | max add inner => by_cases hpos : 0 < add <;> simp [Pc.left, PrintPhase.left, hpos]
    | startRead => by_cases hpos : 0 < s.startCallerDepth <;> simp [Pc.left, PrintPhase.left, hpos]
    | @fallsBack l msg dir add inner rt callers hnone =>
      have hpos := pos_of_activation hnone
      simp [Pc.left, PrintPhase.left, hpos]
    | @headed l msg dir ret add =>
      by_cases hpos : 0 < add <;> simp [Pc.left, PrintPhase.left, hpos]
    | _ => simp [Pc.left, PrintPhase.left]
  · cases hpc

theorem Pc.left_pos {pc : Pc} (h : pc.inPrint = true) : 0 < pc.left ∧ pc.left ≤ 15 := by
  unfold Pc.inPrint at h
  split at h
  · rename_i ph
    cases ph with
    | add headed => cases headed <;> simp [Pc.left, PrintPhase.left]
    | depth r held =>
      cases r with
      | start => cases held <;> simp [Pc.left, PrintPhase.left]
      | max add inner =>
        by_cases hpos : 0 < add <;> cases held <;> simp [Pc.left, PrintPhase.left, hpos]
    | wake added w | reset added w => cases added <;> simp [Pc.left, PrintPhase.left]
    | _ => simp [Pc.left, PrintPhase.left]
  · cases h

/-- Whatever the others do, and whatever has panicked. -/
theorem print_enabled (ht : u.threads[g]? = some t) (hprint : t.pc.inPrint = true)
    (hlock : t.pc.atDepthLock = true → u.sh.additionalCallerDepthM = none) :
    u.Enabled P (.go g) := by
  unfold Pc.inPrint at hprint
  split at hprint
  · rename_i l msg ph hpc
    rw [hpc] at hlock
    cases ph with
    | gate =>
      refine enabled_go (i := .tau) ht ?_
      rw [hpc]
      by_cases hflag : 0 < (u.sh.loggers l).waitStarted
      · exact ⟨_, if_pos hflag⟩
      · exact ⟨_, if_neg hflag⟩
    | add headed =>
      by_cases hready : (headed || !(u.sh.loggers l).logSourcePath) = true
      · refine enabled_go (i := .stamp []) ht ?_
        rw [hpc]
        rcases hadd : ((u.sh.loggers l).logTasks.add 1).2 <;>
          simp [goStep, printStep, hadd, hready]
      · obtain ⟨rfl, hpath⟩ : headed = false ∧ (u.sh.loggers l).logSourcePath = true := by
          simpa using hready
        refine enabled_go (i := .tau) ht ?_
        rw [hpc]
        simp [goStep, printStep, hpath]
    | depth r held =>
      cases held with
      | true =>
        obtain ⟨i, r', hr', -⟩ := depth_step g t.seq u.sh l msg r
        refine enabled_go (i := i) ht ⟨r', ?_⟩
        rw [hpc]
        exact hr'
      | false =>
        refine enabled_go (i := .tau) ht ?_
        rw [hpc]
        cases r <;> exact ⟨_, if_pos (hlock rfl)⟩
    | send =>
      refine enabled_go (i := .tau) ht ?_
      rw [hpc]
      by_cases hslot : u.sh.slotFree = true
      · exact ⟨_, if_pos hslot⟩
      · exact ⟨_, if_neg hslot⟩
    | done =>
      refine enabled_go (i := .tau) ht ?_
      rw [hpc]
      rcases hdone : (u.sh.loggers l).logTasks.done.2 <;> simp [goStep, printStep, hdone]
    | wake added w =>
      refine enabled_go (i := .tau) ht ?_
      rw [hpc]
      rcases hcheck : (u.sh.loggers l).logTasks.unchanged w <;> simp [goStep, printStep, hcheck]
    | reset added w =>
      refine enabled_go (i := .tau) ht ?_
      rw [hpc]
      cases added <;> exact ⟨_, rfl⟩
  · cases hprint

/-- Whoever holds the lock of the caller depths gives it back in its next step. -/
theorem depth_released (hr : (machine P).Reach u) (hheld : u.sh.additionalCallerDepthM ≠ none) :
    ∃ g' x v, u.sh.additionalCallerDepthM = some (.go g') ∧ x.mover = some (.go g') ∧
      step P u x = some v ∧ v.sh.additionalCallerDepthM = none := by
  rcases hm : u.sh.additionalCallerDepthM with _ | _ | g'
  · exact absurd hm hheld
  · exact absurd hm (reach_callerDepth hr)
  · obtain ⟨t', ht', hmem⟩ := (reach_owned hr).ofGoroutine .callerDepth g' hm
    obtain ⟨i, r, hstep, hfree⟩ : ∃ i r, goStep g' t'.seq t'.pc i u.sh = some r ∧
        r.2.additionalCallerDepthM = none := by
      unfold Pc.locks at hmem
      split at hmem
      case h_13 l msg r hpc =>
        obtain ⟨i, r', hr', -, hfree⟩ := depth_step g' t'.seq u.sh l msg r
        exact ⟨i, r', by rw [hpc]; exact hr', hfree⟩
      case h_14 x hpc => exact ⟨.tau, _, by rw [hpc]; rfl, rfl⟩
      case h_3 l mark k ph _ _ _ =>
        cases k <;> simp [Cont.locks] at hmem
      case h_1 l mark k _ => cases k <;> simp [Cont.locks] at hmem
      case h_2 l mark k _ => cases k <;> simp [Cont.locks] at hmem
      all_goals simp at hmem
    exact ⟨g', .go g' i, _, rfl, rfl, by simp only [step, ht', hstep]; rfl, hfree⟩

/-- A goroutine that is inside the same `print` at both ends of a run has been in it all along,
    and its own steps have used up what was left. -/
theorem own_steps_left {as : List Action} (ht : u.threads[g]? = some t)
    (hrun : (machine P).exec u as = some v) :
    ∃ t', v.threads[g]? = some t' ∧ t.seq ≤ t'.seq ∧
      (t'.seq = t.seq → t'.pc.inPrint = true →
        t.pc.inPrint = true ∧ as.countP (Action.own g) + t'.pc.left ≤ t.pc.left) := by
  induction as generalizing u t with
  | nil =>
    cases hrun
    exact ⟨t, ht, le_rfl, fun _ hin => ⟨hin, by simp⟩⟩
  | cons a as ih =>
    obtain ⟨w, hw, hrest⟩ := Option.bind_eq_some_iff.mp hrun
    rcases step_thread hw ht with ⟨i, pc, rfl, hstep, ht₁⟩ | ⟨hne, ht₁⟩
    · obtain ⟨t', ht', hle, hleft⟩ := ih ht₁ hrest
      rw [List.countP_cons_of_pos (by simp [Action.own, Action.mover])]
      rcases hstep.nextSeq with hnext | ⟨hsame, hin⟩
      · -- the next call has begun
        exact ⟨t', ht', (hnext.trans_le hle).le,
          fun hseq => absurd (hnext.trans_le hle) (by rw [hseq]; exact lt_irrefl _)⟩
      · refine ⟨t', ht', hsame ▸ hle, fun hseq hin' => ?_⟩
        obtain ⟨hin₁, hcount⟩ := hleft (hseq.trans hsame.symm) hin'
        have hlower := hstep.left (hin hin₁)
        exact ⟨hin hin₁, by simp only at hcount; omega⟩
    · have hother : Action.own g a = false := by
        cases a <;> simp_all [Action.own, Action.mover]
      rw [List.countP_cons_of_neg (by simp [hother])]
      exact ih ht₁ hrest

/-- A `print` waits for the caller depths only. At each of its places the goroutine has an enabled
    step, whatever the others do and whatever has panicked before, unless it stands at the lock of
    a caller depth; then the holder is a goroutine that can give it back in one step. And in any
    run it is still inside the call only while it has made at most fourteen steps of its own. -/
theorem print_waits (hr : (machine P).Reach u) (ht : u.threads[g]? = some t)
    (hprint : t.pc.inPrint = true) :
    (u.Enabled P (.go g) ∨ (t.pc.atDepthLock = true ∧ ∃ g' x v,
      u.sh.additionalCallerDepthM = some (.go g') ∧ x.mover = some (.go g') ∧
        step P u x = some v ∧ v.sh.additionalCallerDepthM = none)) ∧
    ∀ as v t', (machine P).exec u as = some v → v.threads[g]? = some t' → t'.seq = t.seq →
      t'.pc.inPrint = true → as.countP (Action.own g) ≤ 14 := by
  refine ⟨?_, fun as v t' hrun ht' hseq hprint' => ?_⟩
  · by_cases hlock : t.pc.atDepthLock = true → u.sh.additionalCallerDepthM = none
    · exact .inl (print_enabled ht hprint hlock)
    · push Not at hlock
      exact .inr ⟨hlock.1, depth_released hr hlock.2⟩
  · obtain ⟨t₁, ht₁, -, hleft⟩ := own_steps_left ht hrun
    cases Option.some.inj (ht₁.symm.trans ht')
    have hused := (hleft hseq hprint').2
    have hpos := (Pc.left_pos hprint').1
    have hle := (Pc.left_pos hprint).2
    omega

/-- A `print` right before its `select`, with the worker dead. -/
def deadWorkerPrint : List Action :=
  [.spawn] ++ newLoggerCall 0 [65] ++ printCall 0 1 [66] ++
    [.worker .tau, .worker .tau, .worker (.create .panics)] ++ printAdd 0 1 [67]

theorem deadWorkerPrint_runs : ((machine unitPrimitives).exec {} deadWorkerPrint).isSome := by
  decide

theorem print_waits_deadWorker :
    (((machine unitPrimitives).exec {} deadWorkerPrint).get deadWorkerPrint_runs).Enabled
      unitPrimitives (.go 0) :=
  (print_waits (t := ⟨.print 1 [67] .send, 3⟩) (reach_exec deadWorkerPrint_runs)
    (by decide) rfl).1.resolve_right fun h => Bool.false_ne_true h.1

end Print

end ZipoLogger
