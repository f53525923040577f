/-
  A panic while the worker handles a message.

  `HandlePanic` is deferred outside the loop, so it recovers the panic and the goroutine ends
  with the message in its hands. From then on (`Stuck`) nothing is processed and the locks the
  worker held stay held. While no `Add(1)` of its logger has panicked, the message keeps the counter
  of the logger above zero, and nobody who had not already left `logTasks.Wait` of the logger
  returns from a full `Wait` on it.
-/
import ZipoLogger.Logger.Parked
import ZipoLogger.Logger.Delivery
import ZipoLogger.Logger.Locks

namespace ZipoLogger

open Enc

/-- A `Wait` on `l` that has returned from `logTasks.Wait`. -/
def Pc.leaving (l : Ptr) : Pc → Bool
  | .wait l' _ _ .relock | .wait l' _ _ .clear => l' = l
  | _ => false

section Steps

variable {s s' : Shared} {l : Ptr} {g : Gid} {seq : Nat} {pc pc' : Pc} {i : Input}

/-- `logTasks.Wait` returns on a zero counter only. -/
theorem GoStep.leaving (h : GoStep g seq s pc i pc' s') (hl : pc'.leaving l = true) :
    pc.leaving l = true ∨ s.counter l = 0 := by
  cases h with
  | waitThrough henter =>
    cases of_decide_eq_true hl
    exact .inr ((WaitGroup.enter_none_iff _).mp henter)
  | waitWake hwake =>
    cases of_decide_eq_true hl
    exact .inr ((WaitGroup.wake_counter hwake).2 rfl)
  | waitRelock => exact .inl hl
  | @waitEarly l' mark k | @waitClear l' mark k => cases k <;> exact absurd hl Bool.false_ne_true
  | waitPanics =>
    rw [unwindWait_fst] at hl
    exact absurd hl Bool.false_ne_true
  | _ => exact absurd hl Bool.false_ne_true

theorem Returns.leaving {g' : Gid} {mark : Nat} (h : Returns g seq s pc (.wait g' l mark false)) :
    g' = g ∧ pc.leaving l = true := by
  cases h
  exact ⟨rfl, decide_eq_true rfl⟩

end Steps

/-- What is the case in `w`, after the worker has died in `v` with `m` in its hands. -/
structure Stuck (v w : State) (m : LoggerMessage) : Prop where
  worker : w.worker = .dead (some m)
  /-- Nothing more is processed. -/
  processed : w.sh.processed = v.sh.processed
  /-- The counter is not decremented for `m`. -/
  counted : .printAdd m.log ∉ w.sh.panics → 1 ≤ w.sh.counter m.log
  /-- What the worker had locked stays locked. -/
  locked : ∀ L, v.sh.holder L = some .worker → w.sh.holder L = some .worker
  /-- Only a `Wait` that had left `logTasks.Wait` before has returned since. -/
  waits : .printAdd m.log ∉ w.sh.panics → ∀ g mark, .wait g m.log mark false ∈ w.sh.returned →
    .wait g m.log mark false ∈ v.sh.returned ∨
      ∃ t, v.threads[g]? = some t ∧ t.pc.leaving m.log = true
  leaving : .printAdd m.log ∉ w.sh.panics → ∀ (g : Gid) (t : Thread),
    w.threads[g]? = some t → t.pc.leaving m.log = true →
      ∃ t, v.threads[g]? = some t ∧ t.pc.leaving m.log = true

variable {P : Primitives} {u v w : State} {m : LoggerMessage}

theorem counter_pos_of_dead (h : (machine P).Reach v) (hd : v.worker = .dead (some m))
    (hadd : .printAdd m.log ∉ v.sh.panics) : 1 ≤ v.sh.counter m.log := by
  have hb := (reach_balanced h hadd).counter
  rw [hd] at hb
  simp only [WorkerPc.holds, WorkerPc.owed, Option.any_some, decide_true, Bool.toNat_true] at hb
  omega

theorem stuck_of_dead (h : (machine P).Reach v) (hd : v.worker = .dead (some m))
    (hr : (machine P).Run v w) : Stuck v w m := by
  refine Machine.RunIf.invariant (P := fun w => Stuck v w m) hr ?_ ?_
  · exact ⟨hd, rfl, counter_pos_of_dead h hd, fun _ h => h, fun _ _ _ h => .inl h,
      fun _ g t ht hl => ⟨t, ht, hl⟩⟩
  intro u a x hru hu _ hs
  have hreach : (machine P).Reach u := h.trans hru
  obtain ⟨-, rfl⟩ | ⟨g, i, t, pc, sh, -, ht, hstep, rfl⟩ | ⟨i, wpc, sh, -, hstep, -⟩ :=
    step_cases hs
  · refine ⟨hu.worker, hu.processed, hu.counted, hu.locked, hu.waits,
      fun hadd g t ht hl => ?_⟩
    obtain rfl | ht := threads_spawn ht
    · exact absurd hl Bool.false_ne_true
    · exact hu.leaving hadd g t ht hl
  · have hx := reach_step hreach hs
    have hback : .printAdd m.log ∉ sh.panics → .printAdd m.log ∉ u.sh.panics := fun hadd hp =>
      hadd (hstep.extends.panics.subset hp)
    refine ⟨hu.worker, hstep.processed.trans hu.processed, counter_pos_of_dead hx hu.worker,
      fun L hL => ?_, fun hadd g' mark hmem => ?_, fun hadd g' t' ht' hl => ?_⟩
    · have hown := (reach_owned hreach).threads g t ht L
      exact ((hstep.locks (reach_wf hreach).shared L).other hown (by simp)).mpr (hu.locked L hL)
    · obtain hsame | ⟨r, hnew, hret⟩ := hstep.returned
      · exact hu.waits (hback hadd) g' mark (hsame ▸ hmem)
      · rw [hnew, List.mem_append, List.mem_singleton] at hmem
        obtain hmem | rfl := hmem
        · exact hu.waits (hback hadd) g' mark hmem
        · obtain ⟨rfl, hl⟩ := hret.leaving
          exact .inr (hu.leaving (hback hadd) g' t ht hl)
    · obtain ⟨rfl, rfl⟩ | ⟨-, ht'⟩ := threads_set ht'
      · obtain hl | hzero := hstep.leaving hl
        · exact hu.leaving (hback hadd) g' t ht hl
        · have := hu.counted (hback hadd)
          omega
      · exact hu.leaving (hback hadd) g' t' ht' hl
  · rw [hu.worker] at hstep
    cases hstep

/-- The panic that left the worker in `v` with `m` in its hands is contained. -/
structure PanicContained (P : Primitives) (v : State) (m : LoggerMessage) : Prop where
  /-- Every message queued then or later can still be processed. -/
  others : ∀ w, (machine P).Run v w → ∀ m' ∈ w.sh.tologCh,
    ∃ x, (machine P).Run w x ∧ m' ∈ x.sh.handled
  /-- The worker calls `Done` for the message. -/
  done : ∃ w, (machine P).Run v w ∧ w.worker.owed ≠ some m
  /-- The worker keeps no lock. -/
  unlocked : ∀ L, v.sh.holder L ≠ some .worker
  /-- Whoever is in `logTasks.Wait` can still return. -/
  waits : ∀ w, (machine P).Run v w → ∀ (g : Gid) (t : Thread) (mark : Nat) (k : Cont),
    w.threads[g]? = some t → t.pc = .wait m.log mark k .park →
      ∃ x, (machine P).Run w x ∧ .wait g m.log mark false ∈ x.sh.returned

/-- A panic in `newLogger`, `EncryptString` or the writer is never contained: nothing more is
    processed, the locks stay held, and while no `Add(1)` of the logger panics the counter stays up
    and no new full `Wait` on the logger returns. When `newLogger` panicked, `em` of the logger is
    among the locks. -/
theorem worker_panic_uncontained {i : WorkerInput} (h : (machine P).Reach u)
    (hs : step P u (.worker i) = some v) (hd : v.worker = .dead (some m)) :
    ¬ PanicContained P v m ∧ (∀ w, (machine P).Run v w → Stuck v w m) ∧
      (u.worker = .init m → v.sh.holder (.em m.log) = some .worker) := by
  have hv : (machine P).Reach v := reach_step h hs
  refine ⟨fun hc => ?_, fun w hw => stuck_of_dead hv hd hw, fun hu => ?_⟩
  · obtain ⟨w, hw, howed⟩ := hc.done
    exact howed (by rw [(stuck_of_dead hv hd hw).worker]; rfl)
  · have hem := (reach_owned h).worker (.em m.log) (by rw [hu]; exact List.mem_cons_self)
    obtain ⟨ha, -⟩ | ⟨g, j, t, pc, sh, ha, -⟩ | ⟨j, wpc, sh, -, hstep, rfl⟩ := step_cases hs
    · cases ha
    · cases ha
    · rw [hu] at hstep
      subst hd
      cases hstep
      exact hem

/-- A message of logger 1 whose write panics, with a message of logger 2 behind it. -/
def writePanic : List Action :=
  .spawn :: newLoggerCall 0 [97] ++ newLoggerCall 0 [98] ++ printCall 0 1 [104] ++
    printCall 0 2 [105] ++ [.worker .tau, .worker .tau, .worker (.create .ok), .worker .tau,
      .worker .tau, .worker .tau]

theorem writePanic_runs : ((machine unitPrimitives).exec {} writePanic).isSome := by decide

theorem writePanic_panics : (step unitPrimitives
    (((machine unitPrimitives).exec {} writePanic).get writePanic_runs)
    (.worker (.emit unitDraws .writePanics))).isSome := by decide

theorem worker_panic_uncontained_writePanic : ¬ PanicContained unitPrimitives
    ((step unitPrimitives (((machine unitPrimitives).exec {} writePanic).get writePanic_runs)
      (.worker (.emit unitDraws .writePanics))).get writePanic_panics) ⟨[104], 1, 0, 3⟩ :=
  (worker_panic_uncontained (reach_exec writePanic_runs) (Option.some_get writePanic_panics).symm
    (by decide)).1

/-- The message of logger 2 stays in `tologCh` in every run after the panic. -/
theorem writePanic_loses_queue : ¬ ∀ (u v : State) (i : WorkerInput) (m : LoggerMessage),
    (machine unitPrimitives).Reach u → step unitPrimitives u (.worker i) = some v →
      v.worker = .dead (some m) → PanicContained unitPrimitives v m := by
  intro h
  have hu := reach_exec writePanic_runs
  have hs := (Option.some_get writePanic_panics).symm
  have hd : ((step unitPrimitives (((machine unitPrimitives).exec {} writePanic).get
      writePanic_runs) (.worker (.emit unitDraws .writePanics))).get writePanic_panics).worker =
      .dead (some ⟨[104], 1, 0, 3⟩) := by decide
  have hv := reach_step hu hs
  -- the message of logger 2 is queued, and nothing is handled any more
  obtain ⟨x, hx, hmem⟩ := (h _ _ _ _ hu hs hd).others _ .refl ⟨[105], 2, 0, 4⟩ (by decide)
  have hp := (stuck_of_dead hv hd hx).processed
  simp only [Shared.handled, hp] at hmem
  exact absurd hmem (by decide)

end ZipoLogger
