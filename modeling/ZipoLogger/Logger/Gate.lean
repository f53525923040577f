/-
  The gate of `print` and the rule of `sync.WaitGroup`.

  An `Add` that takes the counter from zero has to happen before `Wait`. `print` loads
  `waitStarted` and calls `Add(1)` in two steps; a `Wait` that sets the flag in between lets the
  `Add` come late (`AddDuringWait`). In the runs where no `Wait` does so the rule is kept.
-/
import ZipoLogger.Logger.Accounting

namespace ZipoLogger

open Enc

/-- A `print` of `l` that has passed the gate and not called `Add(1)`. -/
def Pc.adding (l : Ptr) : Pc → Bool
  | .print l' _ (.add _) | .print l' _ (.depth _ _) => l' = l
  | _ => false

/-- A `Wait` on `l` between setting `waitStarted` and returning from `logTasks.Wait`. -/
def Pc.inTasks (l : Ptr) : Pc → Bool
  | .wait l' _ _ .tasks | .wait l' _ _ .park => l' = l
  | _ => false

/-- The step is an `Add(1)` that takes the counter of a logger from zero to one while a `Wait` on
    it is between setting `waitStarted` and returning from `logTasks.Wait`. -/
def AddDuringWait (u : State) (a : Action) : Prop :=
  ∃ g stamp t l msg headed, a = .go g (.stamp stamp) ∧ u.threads[g]? = some t ∧
    t.pc = .print l msg (.add headed) ∧ u.sh.counter l = 0 ∧
      ∃ t' ∈ u.threads, t'.pc.inTasks l = true

/-- A step that sets `waitStarted` finds no `print` of the logger between its load of the flag
    and its `Add(1)`. -/
def gateOnTime (u : State) : Action → Bool
  | .go g .tau =>
    match u.threads[g]? with
    | some ⟨.wait l _ _ .test, _⟩ =>
      (u.sh.loggers l).waitStarted = 1 || u.threads.all fun t => !t.pc.adding l
    | _ => true
  | _ => true

theorem gateOnTime_test {u : State} {g : Gid} {t : Thread} {l : Ptr} {mark : Nat} {k : Cont}
    (h : gateOnTime u (.go g .tau) = true) (ht : u.threads[g]? = some t)
    (hpc : t.pc = .wait l mark k .test) (hne : (u.sh.loggers l).waitStarted ≠ 1) :
    ∀ t' ∈ u.threads, t'.pc.adding l = false := by
  obtain ⟨pc, seq⟩ := t
  subst hpc
  simpa [gateOnTime, ht, hne] using h

section Steps

variable {P : Primitives} {g : Gid} {seq : Nat} {s s' : Shared} {pc pc' : Pc} {i : Input} {l : Ptr}

theorem Pc.waiting_of_inTasks (h : pc.inTasks l = true) : pc.waiting l = true := by
  unfold Pc.inTasks at h
  split at h
  · exact h
  · exact h
  · exact absurd h Bool.false_ne_true

theorem Pc.not_waiting_of_adding (h : pc.adding l = true) : pc.waiting l = false := by
  unfold Pc.adding at h
  split at h
  · rfl
  · rfl
  · exact absurd h Bool.false_ne_true

/-- Only the load of a clear flag takes a `print` past the gate. -/
theorem GoStep.adding (h : GoStep g seq s pc i pc' s') (ha : pc'.adding l = true) :
    pc.adding l = true ∨ (s.loggers l).waitStarted = 0 := by
  cases h with
  | gateOpen hw =>
    cases of_decide_eq_true ha
    exact .inr hw
  | sourcePath | depthLock | startRead | fallsBack | headed => exact .inl ha
  | @waitEarly l' mark k | @waitClear l' mark k => cases k <;> exact absurd ha Bool.false_ne_true
  | waitPanics =>
    rw [unwindWait_fst] at ha
    exact absurd ha Bool.false_ne_true
  | _ => exact absurd ha Bool.false_ne_true

/-- A goroutine starts waiting as it sets the flag. -/
theorem GoStep.waiting (h : GoStep g seq s pc i pc' s') (hw : pc'.waiting l = true) :
    pc.waiting l = true ∨
      ∃ mark k, i = .tau ∧ pc = .wait l mark k .test ∧ (s.loggers l).waitStarted ≠ 1 := by
  cases h with
  | @waitSet l' mark k hne =>
    cases of_decide_eq_true hw
    exact .inr ⟨mark, k, rfl, rfl, hne⟩
  | waitThrough | waitPark | waitWake | waitRelock => exact .inl hw
  | waitEarly | waitClear =>
    rw [afterWait_fst_waiting] at hw
    exact absurd hw Bool.false_ne_true
  | waitPanics =>
    rw [unwindWait_fst] at hw
    exact absurd hw Bool.false_ne_true
  | _ => exact absurd hw Bool.false_ne_true

end Steps

/-- While a `print` is past the gate nobody waits. -/
def State.GateKept (u : State) : Prop :=
  ∀ l, ∀ t ∈ u.threads, t.pc.adding l = true → ∀ t' ∈ u.threads, t'.pc.waiting l = false

theorem step_gateKept {P : Primitives} {u v : State} {a : Action} (hu : (machine P).Reach u)
    (hk : u.GateKept) (hc : gateOnTime u a = true) (hs : step P u a = some v) : v.GateKept := by
  obtain ⟨-, rfl⟩ | ⟨g, i, t, pc, sh, rfl, ht, hstep, rfl⟩ | ⟨i, wpc, sh, -, -, rfl⟩ :=
    step_cases hs
  · intro l t ht ha t' ht'
    rw [List.mem_append, List.mem_singleton] at ht ht'
    obtain ht | rfl := ht
    · obtain ht' | rfl := ht'
      · exact hk l t ht ha t' ht'
      · rfl
    · exact absurd ha Bool.false_ne_true
  · intro l t₁ h₁ ha t₂ h₂
    obtain h₂ | rfl := List.mem_or_eq_of_mem_set h₂
    · obtain h₁ | rfl := List.mem_or_eq_of_mem_set h₁
      · exact hk l t₁ h₁ ha t₂ h₂
      · obtain ha | hopen := hstep.adding ha
        · exact hk l t (List.mem_of_getElem? ht) ha t₂ h₂
        -- it has just seen the flag clear
        · have hw : u.waiting l = 0 := by
            have := (reach_gated hu l).gate
            omega
          exact Bool.eq_false_iff.mpr (List.countP_eq_zero.mp hw t₂ h₂)
    · refine Bool.eq_false_iff.mpr fun hw => ?_
      obtain h₁' | rfl := List.mem_or_eq_of_mem_set h₁
      · obtain hw | ⟨mark, k, rfl, hpc, hne⟩ := hstep.waiting hw
        · rw [hk l t₁ h₁' ha t (List.mem_of_getElem? ht)] at hw
          exact Bool.false_ne_true hw
        · rw [gateOnTime_test hc ht hpc hne t₁ h₁'] at ha
          exact Bool.false_ne_true ha
      · rw [Pc.not_waiting_of_adding ha] at hw
        exact Bool.false_ne_true hw
  · exact hk

/-- In every run in which no `Wait` sets `waitStarted` between the gate and the `Add(1)` of a
    `print`, no `Add(1)` comes during a `Wait`. -/
theorem no_add_during_wait {P : Primitives} {u : State}
    (h : (machine P).ReachIf (fun u a => gateOnTime u a = true) u) (a : Action) :
    ¬ AddDuringWait u a := by
  have hk : u.GateKept := by
    refine h.invariant (by simp [State.GateKept, machine]) fun u a v hr hk hc hs => ?_
    exact step_gateKept (Machine.ReachIf.reach hr) hk hc hs
  rintro ⟨g, stamp, t, l, msg, headed, rfl, ht, hpc, -, t', ht', hin⟩
  have hno := hk l t (List.mem_of_getElem? ht) (by rw [hpc]; simp [Pc.adding]) t' ht'
  rw [Pc.waiting_of_inTasks hin] at hno
  exact Bool.false_ne_true hno.symm

/-- A message is queued, a `Wait` sets the flag and sleeps. -/
def waitAfterPrint : List Action :=
  .spawn :: newLoggerCall 0 [97] ++ printCall 0 1 [104] ++ .go 0 (.call (.wait 1)) :: steps 0 3

theorem waitAfterPrint_runs :
    ((machine unitPrimitives).execIf gateOnTime {} waitAfterPrint).isSome := by decide

theorem no_add_during_wait_waitAfterPrint : ¬ AddDuringWait
    (((machine unitPrimitives).execIf gateOnTime {} waitAfterPrint).get waitAfterPrint_runs)
      (.go 0 (.stamp [])) :=
  no_add_during_wait (reachIf_exec waitAfterPrint_runs) (.go 0 (.stamp []))

/-- Goroutine 2 prints, goroutine 0 passes the gate, goroutine 1 sets the flag and sleeps, the
    worker takes the counter to zero: the `Add(1)` of goroutine 0 is late. -/
def lateAdd : List Action :=
  .spawn :: .spawn :: .spawn :: newLoggerCall 0 [97] ++ printCall 2 1 [104] ++
    .go 0 (.call (.print 1 [105])) :: steps 0 1 ++ .go 1 (.call (.wait 1)) :: steps 1 3 ++
    workerWrites unitDraws ++ [.worker .tau]

theorem lateAdd_runs : ((machine unitPrimitives).exec {} lateAdd).isSome := by decide

theorem add_during_wait_reachable : ¬ ∀ u : State, (machine unitPrimitives).Reach u →
    ∀ a, (step unitPrimitives u a).isSome → ¬ AddDuringWait u a := by
  intro h
  refine h _ (reach_exec lateAdd_runs) (.go 0 (.stamp [])) (by decide)
    ⟨0, [], ⟨.print 1 [105] (.add false), 2⟩, 1, [105], false, rfl, by decide, rfl, by decide, ?_⟩
  exact ⟨⟨.wait 1 1 .user .park, 1⟩, by decide, rfl⟩

end ZipoLogger
