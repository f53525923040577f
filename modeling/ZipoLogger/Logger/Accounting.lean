/-
  What the counter of `logTasks` and the flag `waitStarted` count.

  `Shared.balance` is the counter of a logger minus what the shared part owes it: its messages in
  `tologCh`, and the `Add(1)`s that panicked after they had raised the counter. A step changes the
  balance by what the goroutine that moves starts or stops owing (`GoStep.balance`,
  `WorkerStep.balance`), with one exception: the reset of the state word makes the counter zero,
  whatever it is by then. That it is zero already takes the books of the waiters, which are kept
  in the next module together with those of the counter.

  The flag is one exactly while one `Wait` is between setting and clearing it, up to the `Wait`s
  that panicked and left it set (`reach_gated`).
-/
import ZipoLogger.Logger.Calls
import ZipoLogger.Lib.Count

namespace ZipoLogger

open Enc

/-! ## What is counted -/

/-- A `print` of `l` between `logTasks.Add(1)` and its send or its `Done`. -/
def Pc.printing (l : Ptr) : Pc → Bool
  | .print l' _ .send | .print l' _ .done | .print l' _ (.wake true _)
  | .print l' _ (.reset true _) => l' = l
  | _ => false

/-- The number of waiters of `l` that a goroutine which has taken the counter to zero is about to
    release. -/
def Pc.releases (l : Ptr) : Pc → Option Nat
  | .print l' _ (.wake _ w) | .print l' _ (.reset _ w) => if l' = l then some w else none
  | _ => none

/-- Between the `Add` or `Done` that has taken the counter of `l` to zero and the release of the
    waiters it has found. -/
def Pc.waking (l : Ptr) (pc : Pc) : Bool := (pc.releases l).isSome

/-- A `Wait` on `l` between setting and clearing `waitStarted`. -/
def Pc.waiting (l : Ptr) : Pc → Bool
  | .wait l' _ _ .tasks | .wait l' _ _ .park | .wait l' _ _ .relock | .wait l' _ _ .clear => l' = l
  | _ => false

theorem Pc.waiting_wait {l : Ptr} {pc : Pc} (h : pc.waiting l = true) :
    ∃ mark k ph, pc = .wait l mark k ph := by
  unfold Pc.waiting at h
  split at h
  case h_5 => exact absurd h Bool.false_ne_true
  all_goals
    cases of_decide_eq_true h
    exact ⟨_, _, _, rfl⟩

def WorkerPc.releases (l : Ptr) : WorkerPc → Option Nat
  | .wake l' w | .reset l' w => if l' = l then some w else none
  | _ => none

def WorkerPc.waking (l : Ptr) (w : WorkerPc) : Bool := (w.releases l).isSome

/-- The worker has received a message of `l` and not yet called its `Done`. -/
def WorkerPc.holds (l : Ptr) (w : WorkerPc) : Bool := w.owed.any fun m => m.log = l

/-- The `print` calls of `l` that owe it a send or a `Done`. -/
def State.printing (s : State) (l : Ptr) : Nat := s.threads.countP fun t => t.pc.printing l

/-- The `Wait`s on `l` between setting and clearing `waitStarted`. -/
def State.waiting (s : State) (l : Ptr) : Nat := s.threads.countP fun t => t.pc.waiting l

/-- The messages of `l` in `tologCh`. -/
def Shared.queued (s : Shared) (l : Ptr) : Nat := s.tologCh.countP fun m => m.log = l

/-- The counter of `l`. -/
def Shared.counter (s : Shared) (l : Ptr) : Int := (s.loggers l).logTasks.counter

def Shared.balance (s : Shared) (l : Ptr) : Int :=
  s.counter l - s.queued l - s.panics.count (.printAdd l)

/-- The flag of `l`, minus the `Wait`s that panicked with the flag set. -/
def Shared.gate (s : Shared) (l : Ptr) : Int :=
  (s.loggers l).waitStarted - s.panics.count (.wait l)

/-! ## The balance across an assignment -/

section Balance

variable {s s' : Shared} {l l' : Ptr} {g : Gid} {seq : Nat} {pc pc' : Pc} {i : Input}

theorem Shared.balance_congr (hl : s'.loggers = s.loggers) (hq : s'.tologCh = s.tologCh)
    (hp : s'.panics = s.panics) : s'.balance l = s.balance l := by
  simp only [Shared.balance, Shared.counter, Shared.queued, hl, hq, hp]

theorem Shared.gate_congr (hl : s'.loggers = s.loggers) (hp : s'.panics = s.panics) :
    s'.gate l = s.gate l := by
  simp only [Shared.gate, hl, hp]

@[simp] theorem Shared.balance_ret {r : Returned} : (s.ret r).balance l = s.balance l := rfl

@[simp] theorem Shared.balance_process {m : LoggerMessage} {f : Fate} :
    (s.process m f).balance l = s.balance l := rfl

@[simp] theorem Shared.gate_ret {r : Returned} : (s.ret r).gate l = s.gate l := rfl

@[simp] theorem Shared.balance_echo {b : Bytes} : (s.echo l' b).balance l = s.balance l :=
  Shared.balance_congr (by simp) (by simp) (by simp)

@[simp] theorem Shared.gate_echo {b : Bytes} : (s.echo l' b).gate l = s.gate l :=
  Shared.gate_congr (by simp) (by simp)

@[simp] theorem Shared.balance_closeWriter : (s.closeWriter l').balance l = s.balance l :=
  Shared.balance_congr (by simp) (by simp) (by simp)

@[simp] theorem Shared.gate_closeWriter : (s.closeWriter l').gate l = s.gate l :=
  Shared.gate_congr (by simp) (by simp)

@[simp] theorem Setter.balance_report {x : Setter} : (x.report g s).balance l = s.balance l :=
  Shared.balance_congr (by simp) (by simp) (by simp)

@[simp] theorem Setter.gate_report {x : Setter} : (x.report g s).gate l = s.gate l :=
  Shared.gate_congr (by simp) (by simp)

theorem Shared.balance_modify {f : Logger → Logger} (d : Int)
    (hf : (f (s.loggers l')).logTasks.counter = (s.loggers l').logTasks.counter + d) :
    (s.modify l' f).balance l = s.balance l + if l' = l then d else 0 := by
  by_cases h : l' = l
  · subst h
    simp only [Shared.balance, Shared.counter, Shared.queued, Shared.modify_loggers_self,
      Shared.modify_tologCh, Shared.modify_panics, if_true, hf]
    ring
  · simp [Shared.balance, Shared.counter, Shared.queued, Shared.modify_loggers, h, Ne.symm h]

/-- An assignment that leaves `logTasks` alone keeps the balance. -/
theorem Shared.balance_modify_same {f : Logger → Logger}
    (hf : (f (s.loggers l')).logTasks.counter = (s.loggers l').logTasks.counter) :
    (s.modify l' f).balance l = s.balance l := by
  simpa using Shared.balance_modify (l := l) 0 (hf.trans (add_zero _).symm)

theorem Shared.gate_modify {f : Logger → Logger} :
    (s.modify l' f).gate l = s.gate l +
      if l' = l then ((f (s.loggers l')).waitStarted : Int) - (s.loggers l').waitStarted
      else 0 := by
  by_cases h : l' = l
  · subst h
    simp only [Shared.gate, Shared.modify_loggers_self, Shared.modify_panics, if_true]
    ring
  · simp [Shared.gate, Shared.modify_loggers, h, Ne.symm h]

theorem Shared.gate_modify_same {f : Logger → Logger}
    (hf : (f (s.loggers l')).waitStarted = (s.loggers l').waitStarted) :
    (s.modify l' f).gate l = s.gate l := by
  simp [Shared.gate_modify, hf]

theorem Shared.balance_panic {p : PanicSite} :
    (s.panic p).balance l = s.balance l - if p = .printAdd l then 1 else 0 := by
  simp only [Shared.balance, Shared.counter, Shared.queued, Shared.panic, List.count_append,
    List.count_singleton, beq_iff_eq]
  push_cast
  ring

theorem Shared.gate_panic {p : PanicSite} :
    (s.panic p).gate l = s.gate l - if p = .wait l then 1 else 0 := by
  simp only [Shared.gate, Shared.panic, List.count_append, List.count_singleton, beq_iff_eq]
  push_cast
  ring

theorem Shared.balance_enqueue {m : LoggerMessage} :
    (s.enqueue m).balance l = s.balance l - if m.log = l then 1 else 0 := by
  simp only [Shared.balance, Shared.counter, Shared.queued, Shared.enqueue, List.countP_append,
    List.countP_singleton, decide_eq_true_eq]
  push_cast
  ring

/-- A fresh logger owes nothing. -/
theorem Shared.balance_alloc {a : NewArgs} (hs : s.Wf) : (s.alloc a).balance l = s.balance l := by
  have h := hs.alloc_field (a := a) Logger.logTasks (by simp [Shared.alloc]) l
  simp only [Shared.balance, Shared.counter, Shared.queued, h]
  rfl

theorem Shared.gate_alloc {a : NewArgs} (hs : s.Wf) : (s.alloc a).gate l = s.gate l := by
  have h := hs.alloc_field (a := a) Logger.waitStarted (by simp [Shared.alloc]) l
  simp only [Shared.gate, h]
  rfl

/-! ## One step -/

theorem afterWait_fst_printing {mark : Nat} {k : Cont} {early : Bool} :
    (afterWait g l' mark k early s).1.printing l = false := by
  cases k <;> rfl

theorem afterWait_fst_waiting {mark : Nat} {k : Cont} {early : Bool} :
    (afterWait g l' mark k early s).1.waiting l = false := by
  cases k <;> rfl

theorem unwindWait_balance {k : Cont} : (unwindWait l' k s).2.balance l = s.balance l := by
  have h := Shared.balance_panic (s := s) (l := l) (p := .wait l')
  rw [if_neg (by simp), sub_zero] at h
  cases k <;> exact h

theorem unwindWait_gate {k : Cont} :
    (unwindWait l' k s).2.gate l = s.gate l - if l' = l then 1 else 0 := by
  have h := Shared.gate_panic (s := s) (l := l) (p := .wait l')
  simp only [PanicSite.wait.injEq] at h
  cases k <;> exact h

/-- A reset that finds a zero counter keeps the balance. -/
theorem Shared.balance_reset {w : Nat} (hzero : l' = l → s.counter l = 0) :
    (s.modify l' fun lg => { lg with logTasks := lg.logTasks.reset w }).balance l =
      s.balance l := by
  by_cases hl : l' = l
  · subst hl
    exact Shared.balance_modify_same (hzero rfl).symm
  · simp [Shared.balance, Shared.counter, Shared.queued, Shared.modify_loggers, Ne.symm hl]

/-- A step of a goroutine changes the balance of `l` by what the goroutine starts or stops
    owing to `l`, provided that a goroutine which is to release the waiters finds the counter at
    zero. -/
theorem GoStep.balance (h : GoStep g seq s pc i pc' s') (hs : s.Wf) (l : Ptr)
    (hzero : pc.waking l = true → s.counter l = 0) :
    s'.balance l + (pc.printing l).toNat = s.balance l + (pc'.printing l).toNat := by
  cases h with
  | @added l' msg stamp | @addWakes l' msg stamp w =>
    rw [Shared.balance_modify 1 (WaitGroup.add_counter _ 1)]
    by_cases h : l' = l <;> simp [Pc.printing, h]
  | @addPanics l' msg stamp =>
    rw [Shared.balance_panic, Shared.balance_modify 1 (WaitGroup.add_counter _ 1)]
    by_cases h : l' = l <;> simp [Pc.printing, h]
  | @sent l' msg =>
    rw [Shared.balance_ret, Shared.balance_enqueue, Shared.balance_echo]
    by_cases h : l' = l <;> simp [Pc.printing, h]
  | full => exact congrArg (· + _) Shared.balance_echo
  | @dropped l' msg =>
    rw [Shared.balance_ret, Shared.balance_modify (-1) (WaitGroup.done_counter _)]
    by_cases h : l' = l <;> simp [Pc.printing, h]
  | @dropWakes l' msg w =>
    rw [Shared.balance_modify (-1) (WaitGroup.done_counter _)]
    by_cases h : l' = l <;> simp [Pc.printing, h]
  | @dropPanics l' msg =>
    rw [Shared.balance_panic, Shared.balance_modify (-1) (WaitGroup.done_counter _)]
    by_cases h : l' = l <;> simp [Pc.printing, h]
  | @checkPanics l' msg added w =>
    rw [Shared.balance_panic]
    cases added with
    | false => simp [Pc.printing]
    | true => by_cases h : l' = l <;> simp [Pc.printing, h]
  | @checked l' msg added w => cases added <;> rfl
  | @readded l' msg w =>
    rw [Shared.balance_reset fun hl => hzero (by simp [Pc.waking, Pc.releases, hl])]
    rfl
  | @released l' msg w =>
    rw [Shared.balance_ret,
      Shared.balance_reset fun hl => hzero (by simp [Pc.waking, Pc.releases, hl])]
    rfl
  | waitPark henter =>
    rw [Shared.balance_modify_same (WaitGroup.enter_counter henter)]
    rfl
  | waitWake hwake =>
    rw [Shared.balance_modify_same (WaitGroup.wake_counter hwake).1]
    rfl
  | waitPanics hwake =>
    rw [unwindWait_balance, unwindWait_fst,
      Shared.balance_modify_same (WaitGroup.wake_counter hwake).1]
    rfl
  | waitEarly | waitClear =>
    rw [afterWait_snd, afterWait_fst_printing, Shared.balance_ret, Shared.balance_modify_same rfl]
    rfl
  | waitLock | waitSet | waitRelock | closeLock | setLock =>
    rw [Shared.balance_modify_same rfl]
    rfl
  | closeDone =>
    rw [Shared.balance_ret, Shared.balance_modify_same rfl, Shared.balance_closeWriter]
    rfl
  | newAdd | newEvict => exact congrArg (· + _) (Shared.balance_alloc hs)
  | newEvicted => exact congrArg (· + _) Shared.balance_closeWriter
  | @setApply l' x =>
    rw [Setter.balance_report, Shared.balance_modify_same (by simp)]
    rfl
  | _ => rfl

/-- A step of the worker changes the balance of `l` by what the worker starts or stops owing. -/
theorem WorkerStep.balance {P : Primitives} {wpc wpc' : WorkerPc} {wi : WorkerInput}
    (h : WorkerStep P s wpc wi wpc' s') (l : Ptr) (hzero : wpc.waking l = true → s.counter l = 0) :
    s'.balance l + (wpc.holds l).toNat = s.balance l + (wpc'.holds l).toNat := by
  cases h with
  | @receive elem rest hq =>
    have hc : s.queued l = (rest.countP fun m => m.log = l) + if elem.log = l then 1 else 0 := by
      simp only [Shared.queued, hq, List.countP_cons, decide_eq_true_eq]
    simp only [Shared.balance, Shared.counter, hc, WorkerPc.holds, WorkerPc.owed]
    by_cases h : elem.log = l <;> simp [h, Shared.queued]
    ring
  | lock | ready | lockKey =>
    rw [Shared.balance_modify_same rfl]
    rfl
  | @created elem hlog =>
    rw [Shared.balance_modify_same rfl]
    have hm : (s.modify elem.log fun lg =>
        { lg with log := some s.nwri, zlog := some s.nwri }).balance l = s.balance l :=
      Shared.balance_modify_same rfl
    exact congrArg (· + _) hm
  | skipped =>
    rw [Shared.balance_process, Shared.balance_modify_same rfl]
    rfl
  | @key elem =>
    have hm : (s.modify elem.log fun lg => { lg with em := none }).balance l = s.balance l :=
      Shared.balance_modify_same rfl
    exact congrArg (· + _) hm
  | createPanics | encryptPanics | writePanics =>
    rw [Shared.balance_panic, if_neg (by simp), sub_zero]
    rfl
  | @doneReturns elem =>
    rw [Shared.balance_modify (-1) (WaitGroup.done_counter _)]
    by_cases h : elem.log = l <;> simp [WorkerPc.holds, WorkerPc.owed, h]
  | @doneWakes elem w =>
    rw [Shared.balance_modify (-1) (WaitGroup.done_counter _)]
    by_cases h : elem.log = l <;> simp [WorkerPc.holds, WorkerPc.owed, h]
  | @donePanics elem =>
    rw [Shared.balance_panic, if_neg (by simp), sub_zero,
      Shared.balance_modify (-1) (WaitGroup.done_counter _)]
    by_cases h : elem.log = l <;> simp [WorkerPc.holds, WorkerPc.owed, h]
  | @woke l' w =>
    rw [Shared.balance_reset fun hl => hzero (by simp [WorkerPc.waking, WorkerPc.releases, hl])]
    rfl
  | checkPanics =>
    rw [Shared.balance_panic, if_neg (by simp), sub_zero]
    rfl
  | lockEncryptor | wrote | checked => rfl

/-- The flag is zero or one. -/
def Shared.GateLe (s : Shared) : Prop := ∀ l, (s.loggers l).waitStarted ≤ 1

theorem Shared.GateLe.ret {r : Returned} (hs : s.GateLe) : (s.ret r).GateLe := hs

theorem Shared.GateLe.panic {p : PanicSite} (hs : s.GateLe) : (s.panic p).GateLe := hs

theorem Shared.GateLe.modify {f : Logger → Logger} (hs : s.GateLe)
    (hf : (f (s.loggers l')).waitStarted ≤ 1) : (s.modify l' f).GateLe := by
  intro l
  rw [Shared.modify_loggers]
  split
  · exact hf
  · exact hs l

theorem Shared.GateLe.alloc {a : NewArgs} (hs : s.GateLe) : (s.alloc a).GateLe := by
  intro l
  by_cases h : l = s.nlog
  · subst h
    simp [Shared.alloc]
  · simpa [Shared.alloc, Function.update_of_ne h] using hs l

theorem GoStep.gateLe (h : GoStep g seq s pc i pc' s') (hs : s.GateLe) : s'.GateLe := by
  cases h with
  | added | addWakes | dropWakes | readded | waitLock | waitPark | waitWake | waitRelock | closeLock
  | setLock => exact hs.modify (hs _)
  | addPanics | dropPanics => exact (hs.modify (hs _)).panic
  | dropped | released => exact (hs.modify (hs _)).ret
  | waitEarly =>
    rw [afterWait_snd]
    exact (hs.modify (hs _)).ret
  | waitClear =>
    rw [afterWait_snd]
    exact (hs.modify (Nat.zero_le 1)).ret
  | waitSet => exact hs.modify le_rfl
  | @waitPanics l mark k wg =>
    have hm : (s.modify l fun lg => { lg with logTasks := wg }).GateLe := hs.modify (hs l)
    cases k <;> exact hm
  | @closeDone l mark early =>
    have hc : (s.closeWriter l).GateLe := by simpa [Shared.GateLe] using hs
    exact (hc.modify (hc l)).ret
  | newAdd | newEvict => exact hs.alloc
  | @setApply l x =>
    have hm : (s.modify l fun lg => { x.apply lg with m := none }).GateLe :=
      hs.modify (by simpa using hs l)
    simpa [Shared.GateLe] using hm
  | sent | full | newEvicted => simpa [Shared.GateLe, Shared.enqueue] using hs
  | _ => exact hs

/-- A step of a goroutine changes the gate of `l` as it sets or clears it. -/
theorem GoStep.gate (h : GoStep g seq s pc i pc' s') (hs : s.Wf) (hle : s.GateLe)
    (hset : pc.waiting l = true → (s.loggers l).waitStarted = 1) :
    s'.gate l + (pc.waiting l).toNat = s.gate l + (pc'.waiting l).toNat := by
  cases h with
  | @waitSet l' mark k hne =>
    have h0 : (s.loggers l').waitStarted = 0 := by
      have := hle l'
      omega
    rw [Shared.gate_modify, h0]
    by_cases h : l' = l <;> simp [Pc.waiting, h]
  | @waitClear l' mark k =>
    rw [afterWait_snd, afterWait_fst_waiting, Shared.gate_ret, Shared.gate_modify]
    by_cases h : l' = l
    · subst h
      rw [hset (by simp [Pc.waiting])]
      simp [Pc.waiting]
    · simp [Pc.waiting, h]
  | @waitPanics l' mark k wg hwake =>
    rw [unwindWait_gate, unwindWait_fst, Shared.gate_modify_same rfl]
    by_cases h : l' = l <;> simp [Pc.waiting, h]
  | @waitEarly l' mark k =>
    rw [afterWait_snd, afterWait_fst_waiting, Shared.gate_ret, Shared.gate_modify_same rfl]
    rfl
  | addPanics | dropPanics =>
    rw [Shared.gate_panic, Shared.gate_modify_same rfl]
    simp [Pc.waiting]
  | @checkPanics l' msg added w =>
    rw [Shared.gate_panic]
    cases added <;> simp [Pc.waiting]
  | dropped | released =>
    rw [Shared.gate_ret, Shared.gate_modify_same rfl]
    rfl
  | added | addWakes | dropWakes | readded | waitLock | waitPark | waitWake | waitRelock | closeLock
  | setLock =>
    rw [Shared.gate_modify_same rfl]
    rfl
  | sent => exact congrArg (· + _) Shared.gate_echo
  | full => exact congrArg (· + _) Shared.gate_echo
  | closeDone =>
    rw [Shared.gate_ret, Shared.gate_modify_same rfl, Shared.gate_closeWriter]
    rfl
  | newAdd | newEvict => exact congrArg (· + _) (Shared.gate_alloc hs)
  | newEvicted => exact congrArg (· + _) Shared.gate_closeWriter
  | setApply =>
    rw [Setter.gate_report, Shared.gate_modify_same (by simp)]
    rfl
  | _ => rfl

/-- The worker never touches the flag. -/
theorem WorkerStep.waitStarted {P : Primitives} {wpc wpc' : WorkerPc} {wi : WorkerInput}
    (h : WorkerStep P s wpc wi wpc' s') (l : Ptr) :
    (s'.loggers l).waitStarted = (s.loggers l).waitStarted :=
  h.field Logger.waitStarted l fun _ _ _ _ _ => rfl

/-- Only a waiter that finds the group reused panics inside `Wait`. -/
theorem GoStep.waitPanic (h : GoStep g seq s pc i pc' s') (l : Ptr) :
    s'.panics.count (.wait l) = s.panics.count (.wait l) ∨
      ∃ mark k wg, pc = .wait l mark k .park ∧ (s.loggers l).logTasks.wake = some (wg, false) := by
  cases h with
  | @waitPanics l' mark k wg hwake =>
    by_cases hl : l' = l
    · subst hl
      exact .inr ⟨mark, k, wg, rfl, hwake⟩
    · left
      cases k <;> simp [unwindWait, List.count_append, hl]
  | waitEarly | waitClear => exact .inl (by rw [afterWait_snd]; rfl)
  | sent | full | closeDone | newEvicted | setApply => exact .inl (by simp [Shared.enqueue])
  | addPanics | dropPanics => exact .inl (by simp [List.count_append])
  | @checkPanics l' msg added w => exact .inl (by cases added <;> simp [List.count_append])
  | _ => exact .inl rfl

/-- The worker never panics inside a `Wait`. -/
theorem WorkerStep.waitPanic {P : Primitives} {wpc wpc' : WorkerPc} {wi : WorkerInput}
    (h : WorkerStep P s wpc wi wpc' s') (l : Ptr) :
    s'.panics.count (.wait l) = s.panics.count (.wait l) := by
  cases h <;> simp [Shared.createWriter, Shared.process]

theorem WorkerStep.gate {P : Primitives} {wpc wpc' : WorkerPc} {wi : WorkerInput}
    (h : WorkerStep P s wpc wi wpc' s') (l : Ptr) : s'.gate l = s.gate l := by
  rw [Shared.gate, Shared.gate, h.waitStarted, h.waitPanic]

end Balance

/-! ## Every run -/

/-- The flag of `l` is one exactly while a `Wait` is between setting and clearing it, or one that
    panicked has left it set. -/
structure State.Gated (s : State) (l : Ptr) : Prop where
  gate : (s.sh.loggers l).waitStarted = s.waiting l + s.sh.panics.count (.wait l)
  gate_le : (s.sh.loggers l).waitStarted ≤ 1

theorem reach_gated {P : Primitives} {s : State} (h : (machine P).Reach s) (l : Ptr) :
    s.Gated l := by
  suffices hbooks : s.sh.gate l = s.waiting l ∧ s.sh.GateLe by
    obtain ⟨hg, hle⟩ := hbooks
    refine ⟨?_, hle l⟩
    simp only [Shared.gate] at hg
    omega
  refine reach_invariant (I := fun s => s.sh.gate l = s.waiting l ∧ s.sh.GateLe) h ?_ ?_ ?_ ?_
  · refine ⟨rfl, fun l => ?_⟩
    exact Nat.zero_le 1
  · intro u _ hu
    obtain ⟨hg, hle⟩ := hu
    refine ⟨?_, hle⟩
    simpa [State.waiting, Pc.waiting] using hg
  · intro u g t i pc sh hu hbooks ht hstep
    obtain ⟨hg, hle⟩ := hbooks
    have hset : t.pc.waiting l = true → (u.sh.loggers l).waitStarted = 1 := by
      intro hw
      have hpos : 0 < u.waiting l := List.countP_pos_iff.mpr ⟨t, List.mem_of_getElem? ht, hw⟩
      have := hle l
      simp only [Shared.gate] at hg
      omega
    have hw := List.countP_set_add (p := fun t => t.pc.waiting l) ht ⟨pc, t.nextSeq i⟩
    have hg' := hstep.gate (reach_wf hu).shared hle hset
    simp only [State.waiting] at hg hw ⊢
    exact ⟨by omega, hstep.gateLe hle⟩
  · intro u i wpc sh _ hbooks hstep
    obtain ⟨hg, hle⟩ := hbooks
    refine ⟨?_, fun l' => ?_⟩
    · rw [hstep.gate]
      exact hg
    · rw [hstep.waitStarted]
      exact hle l'

end ZipoLogger
