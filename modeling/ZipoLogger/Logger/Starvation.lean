/-
  A `Wait` in progress comes to its end.

  While the flag of a logger is set no `print` of it passes the gate, so what is in flight for
  the logger never grows, and each of its messages the worker is through with makes it less
  (`step_inFlight`). With no `print` left behind the gate, its messages only move forward: `ahead`
  counts the messages up to the last one of the logger, what is sent behind that one does not
  count, and each iteration of the worker takes one away (`step_ahead`). The queue bounds it, so
  after `tologCap + 1` iterations the counter is zero, whatever the other loggers send.
-/
import ZipoLogger.Logger.Parked
import ZipoLogger.Logger.Delivery
import ZipoLogger.Lib.Trace
import Mathlib.Data.List.DropRight

namespace ZipoLogger

open Enc

/-! ## The list up to its last element of a kind -/

theorem rdropWhile_cons_length {α : Type} (p : α → Bool) (x : α) (xs : List α) :
    (xs.rdropWhile p).length ≤ ((x :: xs).rdropWhile p).length - 1 := by
  induction xs using List.reverseRecOn with
  | nil => simp
  | append_singleton xs y ih =>
    rw [← List.cons_append]
    by_cases hy : p y = true
    · rw [List.rdropWhile_concat_pos _ _ _ hy, List.rdropWhile_concat_pos _ _ _ hy]
      exact ih
    · rw [List.rdropWhile_concat_neg _ _ _ hy, List.rdropWhile_concat_neg _ _ _ hy]
      simp

/-! ## What is in flight -/

/-- A `print` of `l` behind the gate that has neither sent nor given up. -/
def Pc.passed (l : Ptr) : Pc → Bool
  | .print l' _ (.add _) | .print l' _ (.depth _ _) | .print l' _ .send | .print l' _ .done
  | .print l' _ (.wake true _) | .print l' _ (.reset true _) => l' = l
  | _ => false

theorem Pc.passed_of_printing {l : Ptr} {pc : Pc} (h : pc.printing l = true) :
    pc.passed l = true := by
  unfold Pc.printing at h
  split at h
  case h_5 => cases h
  all_goals exact h

def State.passed (u : State) (l : Ptr) : Nat := u.threads.countP fun t => t.pc.passed l

/-- The `print`s of `l` behind the gate, its messages in `tologCh`, and the one the worker holds. -/
def State.inFlight (u : State) (l : Ptr) : Nat :=
  u.passed l + u.sh.queued l + (u.worker.holds l).toNat

/-- The message the worker holds, then the queue. -/
def State.line (u : State) : List LoggerMessage := u.worker.owed.toList ++ u.sh.tologCh

/-- The messages up to the last one of `l`. -/
def State.ahead (u : State) (l : Ptr) : Nat := (u.line.rdropWhile fun m => m.log ≠ l).length

/-- The message an iteration of the worker ends with, in the step of its `logTasks.Done`. -/
def finishes (u : State) : Action → Option LoggerMessage
  | .worker _ =>
    match u.worker with
    | .done elem => some elem
    | _ => none
  | _ => none

theorem finishes_eq_some {u : State} {x : Action} {m : LoggerMessage} (h : finishes u x = some m) :
    (∃ i, x = .worker i) ∧ u.worker = .done m := by
  unfold finishes at h
  split at h
  · split at h
    · cases h
      exact ⟨⟨_, rfl⟩, ‹_›⟩
    · cases h
  · cases h

section Steps

variable {P : Primitives} {g : Gid} {seq : Nat} {s s' : Shared} {pc pc' : Pc} {i : Input} {l : Ptr}
  {wpc wpc' : WorkerPc} {wi : WorkerInput}

theorem afterWait_fst_passed {l' : Ptr} {mark : Nat} {k : Cont} {early : Bool} :
    (afterWait g l' mark k early s).1.passed l = false := by
  cases k <;> rfl

/-- With the flag set nobody passes the gate. -/
theorem GoStep.passed (h : GoStep g seq s pc i pc' s') (hflag : 0 < (s.loggers l).waitStarted)
    (hpc : pc'.passed l = true) : pc.passed l = true := by
  cases h with
  | @gateOpen l' msg hopen =>
    have hl : l' = l := of_decide_eq_true hpc
    rw [hl] at hopen
    omega
  | sourcePath | depthLock | startRead | fallsBack | headed | added | addWakes | full
  | readded => exact hpc
  | @checked l' msg added w => cases added <;> exact hpc
  | waitEarly | waitClear =>
    rw [afterWait_fst_passed] at hpc
    cases hpc
  | waitPanics =>
    rw [unwindWait_fst] at hpc
    cases hpc
  | _ => cases hpc

/-- A step of a goroutine that has passed no gate adds nothing to what is in flight. -/
theorem GoStep.inFlight (h : GoStep g seq s pc i pc' s') (hflag : 0 < (s.loggers l).waitStarted) :
    (pc'.passed l).toNat + s'.queued l ≤ (pc.passed l).toNat + s.queued l := by
  rcases h.queue with ⟨-, hq⟩ | ⟨l', msg, rfl, rfl, -, hq, -⟩
  · have hp := h.passed hflag
    rw [Shared.queued, Shared.queued, hq]
    cases hpc' : pc'.passed l with
    | false => simp
    | true => rw [hp hpc']
  · rw [Shared.queued, Shared.queued, hq, List.countP_append, List.countP_singleton]
    by_cases hl : l' = l <;> simp [Pc.passed, hl]

/-- A step of the worker adds nothing; its `Done` takes the message away. -/
theorem WorkerStep.inFlight (h : WorkerStep P s wpc wi wpc' s') (l : Ptr) :
    (wpc'.holds l).toNat + s'.queued l ≤ (wpc.holds l).toNat + s.queued l ∧
      ∀ elem, wpc = .done elem → elem.log = l →
        (wpc'.holds l).toNat + s'.queued l < (wpc.holds l).toNat + s.queued l := by
  cases h with
  | @receive elem rest hq =>
    refine ⟨?_, by simp⟩
    simp only [Shared.queued, hq, List.countP_cons, WorkerPc.holds, WorkerPc.owed]
    by_cases hl : elem.log = l <;> simp [hl]
    omega
  | doneReturns | doneWakes | donePanics =>
    refine ⟨by simp [WorkerPc.holds, WorkerPc.owed, Shared.queued], ?_⟩
    intro elem he hl
    cases he
    simp [WorkerPc.holds, WorkerPc.owed, Shared.queued, hl]
  | checked | woke | checkPanics =>
    exact ⟨by simp [WorkerPc.holds, WorkerPc.owed, Shared.queued], by simp⟩
  | _ => exact ⟨le_rfl, by simp⟩

/-- A message the worker holds or takes out of the queue was ahead. -/
theorem WorkerStep.line (h : WorkerStep P s wpc wi wpc' s') (halive : s'.panics = []) :
    (wpc'.owed.toList ++ s'.tologCh = wpc.owed.toList ++ s.tologCh ∧ ∀ elem, wpc ≠ .done elem) ∨
      ∃ elem, wpc = .done elem ∧
        elem :: (wpc'.owed.toList ++ s'.tologCh) = wpc.owed.toList ++ s.tologCh := by
  cases h with
  | receive hq => exact .inl ⟨by simp [WorkerPc.owed, hq], by simp⟩
  | doneReturns | doneWakes => exact .inr ⟨_, rfl, rfl⟩
  | donePanics | checkPanics => simp at halive
  | woke => exact .inl ⟨rfl, by simp⟩
  | _ => exact .inl ⟨rfl, by simp⟩

/-- The worker puts nothing into the queue. -/
theorem WorkerStep.queue_le (h : WorkerStep P s wpc wi wpc' s') :
    s'.tologCh.length ≤ s.tologCh.length := by
  cases h with
  | receive hq => simp [hq]
  | _ => exact le_rfl

end Steps

section Machine

variable {P : Primitives} {u v : State} {x : Action} {l : Ptr}

/-- While the flag is set nothing is added to what is in flight, and the worker takes away what it
    is through with. -/
theorem step_inFlight (hs : step P u x = some v) (hflag : 0 < (u.sh.loggers l).waitStarted) :
    v.inFlight l ≤ u.inFlight l ∧
      ∀ m, finishes u x = some m → m.log = l → v.inFlight l < u.inFlight l := by
  rcases step_cases hs with ⟨rfl, rfl⟩ | ⟨g, i, t, pc, sh, rfl, ht, hstep, rfl⟩ |
    ⟨i, wpc, sh, rfl, hstep, rfl⟩
  · refine ⟨?_, by simp [finishes]⟩
    simp [State.inFlight, State.passed, Pc.passed]
  · refine ⟨?_, by simp [finishes]⟩
    have hpassed := List.countP_set_add (p := fun t => t.pc.passed l) ht ⟨pc, t.nextSeq i⟩
    have hmove := hstep.inFlight hflag
    simp only [State.inFlight, State.passed] at hpassed ⊢
    omega
  · obtain ⟨hle, hlt⟩ := hstep.inFlight l
    simp only [State.inFlight, State.passed]
    refine ⟨by omega, ?_⟩
    intro m hm hl
    have := hlt m (finishes_eq_some hm).2 hl
    omega

/-- The queue never holds more than its capacity. -/
theorem reach_queue_le {s : State} (h : (machine P).Reach s) :
    s.sh.tologCh.length ≤ tologCap := by
  refine reach_invariant (I := fun s => s.sh.tologCh.length ≤ tologCap) h (Nat.zero_le _)
    (fun _ _ hu => hu) ?_ ?_
  · intro u g t i pc sh _ hu _ hstep
    rcases hstep.queue with ⟨-, hq⟩ | ⟨l, msg, -, -, hslot, hq, -⟩
    · simpa only [hq] using hu
    · have hlt : u.sh.tologCh.length < tologCap := of_decide_eq_true hslot
      simp only [hq, List.length_append, List.length_singleton]
      omega
  · intro u i wpc sh _ hu hstep
    exact hstep.queue_le.trans hu

/-- With the flag set and nobody behind the gate, each iteration of the worker brings the last
    message of `l` closer. -/
theorem step_ahead (hs : step P u x = some v) (hflag : 0 < (u.sh.loggers l).waitStarted)
    (hgate : u.passed l = 0) (halive : v.sh.panics = []) :
    v.passed l = 0 ∧ v.ahead l ≤ u.ahead l - (finishes u x).isSome.toNat := by
  rcases step_cases hs with ⟨rfl, rfl⟩ | ⟨g, i, t, pc, sh, rfl, ht, hstep, rfl⟩ |
    ⟨i, wpc, sh, rfl, hstep, rfl⟩
  · refine ⟨?_, le_rfl⟩
    simpa [State.passed, Pc.passed] using hgate
  · have hbehind : t.pc.passed l = false := by
      rw [State.passed, List.countP_eq_zero] at hgate
      simpa using hgate t (List.mem_of_getElem? ht)
    have hpassed := List.countP_set_add (p := fun t => t.pc.passed l) ht ⟨pc, t.nextSeq i⟩
    have hpc : pc.passed l = false := by
      rw [← Bool.not_eq_true]
      intro hpc
      rw [hstep.passed hflag hpc] at hbehind
      cases hbehind
    refine ⟨?_, ?_⟩
    · simp only [State.passed, hbehind, hpc] at hpassed hgate ⊢
      omega
    · show _ ≤ u.ahead l
      rcases hstep.queue with ⟨-, hq⟩ | ⟨l', msg, hsend, -, -, hq, -⟩
      · simp only [State.ahead, State.line, hq, le_refl]
      · -- what is sent here is of another logger and stands behind the last message of `l`
        have hne : l' ≠ l := by
          rw [hsend] at hbehind
          simpa [Pc.passed] using hbehind
        simp only [State.ahead, State.line, hq, ← List.append_assoc]
        rw [List.rdropWhile_concat_pos _ _ _ (by simpa using hne)]
  · refine ⟨hgate, ?_⟩
    rcases hstep.line halive with ⟨hline, hnot⟩ | ⟨elem, hdone, hline⟩
    · have hfin : finishes u (.worker i) = none := by
        rw [Option.eq_none_iff_forall_ne_some]
        intro m hm
        exact hnot m (finishes_eq_some hm).2
      simp only [State.ahead, State.line, hfin, hline]
      exact le_rfl
    · have hfin : finishes u (.worker i) = some elem := by simp [finishes, hdone]
      simp only [State.ahead, State.line, hfin, ← hline]
      exact rdropWhile_cons_length _ elem _

/-- With nothing of `l` ahead and nobody behind the gate, the counter of `l` is zero. -/
theorem State.counter_eq_zero {s : State} (h : (machine P).Reach s) (halive : s.sh.panics = [])
    (hgate : s.passed l = 0) (hahead : s.ahead l = 0) : s.sh.counter l = 0 := by
  have hprinting : s.printing l = 0 := by
    rw [State.passed, List.countP_eq_zero] at hgate
    rw [State.printing, List.countP_eq_zero]
    intro t ht hp
    exact hgate t ht (Pc.passed_of_printing hp)
  have hline : ∀ m ∈ s.line, m.log ≠ l := by
    simpa using List.rdropWhile_eq_nil_iff.mp (List.length_eq_zero_iff.mp hahead)
  have hqueued : s.sh.queued l = 0 := by
    rw [Shared.queued, List.countP_eq_zero]
    intro m hm
    simpa using hline m (List.mem_append_right _ hm)
  have hholds : s.worker.holds l = false := by
    rw [WorkerPc.holds, Option.any_eq_false]
    intro m hm
    simpa using hline m (List.mem_append_left _ (by simp [hm]))
  rw [(logTasks_accounting P h halive l).counter_eq, hprinting, hqueued, hholds]
  rfl

end Machine

/-! ## Every run -/

/-- The steps from `i` to `j` of a run and the logger `l`. -/
structure NotStarved {P : Primitives} {n : Nat} (T : (machine P).Trace n) (l : Ptr)
    (i j : Nat) : Prop where
  /-- No step adds to what is in flight. -/
  le : ∀ k, i ≤ k → k < j → (T.state (k + 1)).inFlight l ≤ (T.state k).inFlight l
  /-- The worker finishes a message of `l`: less is in flight. -/
  lt : ∀ k, i ≤ k → k < j → ∀ m, finishes (T.state k) (T.action k) = some m → m.log = l →
    (T.state (k + 1)).inFlight l < (T.state k).inFlight l
  /-- With nobody behind the gate at `m`, `tologCap + 1` iterations of the worker settle `l`. -/
  settles : ∀ m, i ≤ m → m ≤ j → (T.state m).passed l = 0 →
    tologCap + 1 ≤ T.tally (fun u x => (finishes u x).isSome) m j →
    (T.state j).sh.counter l = 0

section Runs

variable {P : Primitives} {n i j m : Nat}

/-- Each iteration since `m` has taken one message away from what was ahead then. -/
theorem ahead_add_tally (T : (machine P).Trace n) {l : Ptr} (hmj : m ≤ j) (hj : j ≤ n)
    (hpanics : (T.state j).sh.panics = [])
    (hflag : ∀ k, m ≤ k → k < j → 0 < ((T.state k).sh.loggers l).waitStarted)
    (hgate : (T.state m).passed l = 0) :
    (T.state j).passed l = 0 ∧
      (T.state j).ahead l ≤
        (T.state m).ahead l - T.tally (fun u x => (finishes u x).isSome) m j := by
  refine T.along (P := fun k => (T.state k).passed l = 0 ∧ (T.state k).ahead l ≤
    (T.state m).ahead l - T.tally (fun u x => (finishes u x).isSome) m k) hmj hj ⟨hgate, by simp⟩ ?_
  intro k hk hkj hs ih
  have halive : (T.state (k + 1)).sh.panics = [] := by
    have hgrow := (run_extends (T.run (Nat.succ_le_of_lt hkj) hj)).panics
    rw [hpanics] at hgrow
    exact List.prefix_nil.mp hgrow
  obtain ⟨hpassed, hahead⟩ := step_ahead hs (hflag k hk hkj) ih.1 halive
  refine ⟨hpassed, ?_⟩
  have hle := ih.2
  rw [T.tally_succ _ hk]
  omega

/-- In every run, over the steps between which a `Wait` on `l` is between setting and clearing
    `waitStarted`. -/
theorem wait_not_starved (T : (machine P).Trace n) (l : Ptr) (hj : j ≤ n)
    (hpanics : (T.state j).sh.panics = [])
    (hwait : ∀ k, i ≤ k → k < j → 0 < (T.state k).waiting l) : NotStarved T l i j := by
  have hflag : ∀ k, i ≤ k → k < j → 0 < ((T.state k).sh.loggers l).waitStarted := by
    intro k hk hkj
    have hgate := (reach_gated (T.reach (hkj.le.trans hj)) l).gate
    have hpos := hwait k hk hkj
    omega
  refine ⟨fun k hk hkj => ?_, fun k hk hkj => ?_, fun m him hmj hpassed hmany => ?_⟩
  · have hs : step P _ _ = some _ := T.step k (hkj.trans_le hj)
    exact (step_inFlight hs (hflag k hk hkj)).1
  · have hs : step P _ _ = some _ := T.step k (hkj.trans_le hj)
    exact (step_inFlight hs (hflag k hk hkj)).2
  · obtain ⟨hnone, hahead⟩ := ahead_add_tally T hmj hj hpanics
      (fun k hk => hflag k (him.trans hk)) hpassed
    have hstart : (T.state m).ahead l ≤ tologCap + 1 := by
      have hqueue := reach_queue_le (T.reach (hmj.trans hj))
      have hline := (List.rdropWhile_prefix (fun m : LoggerMessage => decide (m.log ≠ l))
        (l := (T.state m).line)).length_le
      have hhand : (T.state m).worker.owed.toList.length ≤ 1 := by
        cases (T.state m).worker.owed <;> simp
      have hsum : (T.state m).line.length =
          (T.state m).worker.owed.toList.length + (T.state m).sh.tologCh.length :=
        List.length_append
      simp only [State.ahead]
      omega
    exact State.counter_eq_zero (T.reach hj) hpanics hnone (by omega)

/-- A `Wait` sleeps on a queued message, and the worker writes it. -/
def settledWait : List Action :=
  sleepingWait ++ workerWrites unitDraws ++ [.worker .tau]

theorem settledWait_runs : ((machine unitPrimitives).exec {} settledWait).isSome := by
  decide +kernel

theorem wait_not_starved_settledWait :
    NotStarved (Machine.Trace.ofExec settledWait settledWait_runs) 1 14 23 := by
  have hwaits : ∀ k < 23, 14 ≤ k →
      0 < ((Machine.Trace.ofExec settledWait settledWait_runs).state k).waiting 1 := by
    decide +kernel
  exact wait_not_starved _ 1 (by decide) (by decide +kernel) fun k hk hkj => hwaits k hkj hk

end Runs

end ZipoLogger
