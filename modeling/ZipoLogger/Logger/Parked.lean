/-
  The books of `logTasks`: what is in flight, who sleeps, and who will wake them.

  The counter of a logger is the number of `print` calls between `Add(1)` and send or `Done`, plus
  its messages in `tologCh` and the one in the worker's hands; the goroutines parked on it are the
  waiters its WaitGroup has registered and those it has given a token to; and the waiters are due
  exactly while somebody stands right before their release (`State.Balanced`). The three need each
  other: the reset that comes before the release forgets what was counted since the check, and
  only while the waiters are due can an `Add(1)` come in between; it is the one that panics. So
  the books balance in every run in which no `Add(1)` of the logger has panicked
  (`reach_balanced`).
-/
import ZipoLogger.Logger.Accounting

namespace ZipoLogger

open Enc

/-- Asleep in `logTasks.Wait` of `l`. -/
def Pc.parked (l : Ptr) : Pc → Bool
  | .wait l' _ _ .park => l' = l
  | _ => false

/-- The goroutines asleep in `logTasks.Wait` of `l`. -/
def State.parked (u : State) (l : Ptr) : Nat := u.threads.countP fun t => t.pc.parked l

def Shared.sleepers (s : Shared) (l : Ptr) : Nat := (s.loggers l).logTasks.sleepers

/-- Those who will release the waiters of `l`. -/
def State.wakers (u : State) (l : Ptr) : Nat :=
  (u.threads.countP fun t => t.pc.waking l) + (u.worker.waking l).toNat

def Shared.due (s : Shared) (l : Ptr) : Nat := (s.loggers l).logTasks.due

section Steps

variable {P : Primitives} {g : Gid} {seq : Nat} {s s' : Shared} {pc pc' : Pc} {i : Input} {l : Ptr}
  {wpc wpc' : WorkerPc} {wi : WorkerInput}

theorem Shared.sleepers_modify {l' : Ptr} {f : Logger → Logger}
    (hf : (f (s.loggers l')).logTasks.sleepers = (s.loggers l').logTasks.sleepers) :
    (s.modify l' f).sleepers l = s.sleepers l :=
  Shared.modify_field s l' l f (fun lg => lg.logTasks.sleepers) hf

theorem Shared.sleepers_ret {r : Returned} : (s.ret r).sleepers l = s.sleepers l := rfl

theorem Shared.sleepers_panic {p : PanicSite} : (s.panic p).sleepers l = s.sleepers l := rfl

/-- A reset that finds the waiters it is to release wakes all of them. -/
theorem Shared.sleepers_reset {l' : Ptr} {w : Nat}
    (hwaiters : l' = l → (s.loggers l).logTasks.waiters = w) :
    (s.modify l' fun lg => { lg with logTasks := lg.logTasks.reset w }).sleepers l =
      s.sleepers l := by
  by_cases hl : l' = l
  · subst hl
    exact Shared.sleepers_modify (WaitGroup.reset_sleepers (hwaiters rfl))
  · simp [Shared.sleepers, Shared.modify_loggers, Ne.symm hl]

theorem afterWait_fst_parked {l' : Ptr} {mark : Nat} {k : Cont} {early : Bool} :
    (afterWait g l' mark k early s).1.parked l = false := by
  cases k <;> rfl

/-- A goroutine that is not inside `print` or `Wait` of `l` leaves its `logTasks` alone. -/
theorem GoStep.logTasks (h : GoStep g seq s pc i pc' s') (hs : s.Wf)
    (hprint : ∀ msg ph, pc ≠ .print l msg ph) (hwait : ∀ mark k ph, pc ≠ .wait l mark k ph) :
    (s'.loggers l).logTasks = (s.loggers l).logTasks := by
  have ht := h.touches l
  generalize s'.loggers l = lg at ht ⊢
  cases ht with
  | locks | close => rfl
  | print => exact absurd rfl (hprint _ _)
  | wait => exact absurd rfl (hwait _ _ _)
  | set => exact Setter.apply_logTasks _ _
  | alloc hl => exact hs.alloc_field Logger.logTasks (by simp [Shared.alloc]) l

/-- A goroutine goes to sleep as it registers, and wakes up with a token. -/
theorem GoStep.parked (h : GoStep g seq s pc i pc' s') (hs : s.Wf) (l : Ptr)
    (hwaiters : ∀ w, pc.releases l = some w → (s.loggers l).logTasks.waiters = w) :
    s'.sleepers l + (pc.parked l).toNat = s.sleepers l + (pc'.parked l).toNat := by
  cases h with
  | @waitPark l' mark k wg henter =>
    have hwg := WaitGroup.enter_sleepers henter
    by_cases hl : l' = l
    · subst hl
      simp [Shared.sleepers, Pc.parked, hwg]
    · simp [Shared.sleepers, Pc.parked, Shared.modify_loggers, hl, Ne.symm hl]
  | @waitWake l' mark k wg hwake =>
    have hwg := WaitGroup.wake_sleepers hwake
    by_cases hl : l' = l
    · subst hl
      simp [Shared.sleepers, Pc.parked, hwg]
    · simp [Shared.sleepers, Pc.parked, Shared.modify_loggers, hl, Ne.symm hl]
  | @waitPanics l' mark k wg hwake =>
    have hwg := WaitGroup.wake_sleepers hwake
    have hm : (unwindWait l' k (s.modify l' fun lg => { lg with logTasks := wg })).2.sleepers l =
        (s.modify l' fun lg => { lg with logTasks := wg }).sleepers l := by cases k <;> rfl
    rw [hm, unwindWait_fst]
    by_cases hl : l' = l
    · subst hl
      simp [Shared.sleepers, Pc.parked, hwg]
    · simp [Shared.sleepers, Pc.parked, Shared.modify_loggers, hl, Ne.symm hl]
  | added | addWakes =>
    rw [Shared.sleepers_modify (WaitGroup.add_sleepers _ _)]
    rfl
  | addPanics =>
    rw [Shared.sleepers_panic, Shared.sleepers_modify (WaitGroup.add_sleepers _ _)]
    rfl
  | dropped =>
    rw [Shared.sleepers_ret, Shared.sleepers_modify (WaitGroup.add_sleepers _ _)]
    rfl
  | dropWakes =>
    rw [Shared.sleepers_modify (WaitGroup.add_sleepers _ _)]
    rfl
  | dropPanics =>
    rw [Shared.sleepers_panic, Shared.sleepers_modify (WaitGroup.add_sleepers _ _)]
    rfl
  | @readded l' msg w =>
    rw [Shared.sleepers_reset fun hl => hwaiters w (by simp [Pc.releases, hl])]
    rfl
  | @released l' msg w =>
    rw [Shared.sleepers_ret, Shared.sleepers_reset fun hl => hwaiters w (by simp [Pc.releases, hl])]
    rfl
  | waitLock | waitSet | waitRelock | closeLock | setLock =>
    rw [Shared.sleepers_modify rfl]
    rfl
  | waitEarly | waitClear =>
    rw [afterWait_snd, afterWait_fst_parked, Shared.sleepers_ret, Shared.sleepers_modify rfl]
    rfl
  | closeDone =>
    rw [Shared.sleepers_ret, Shared.sleepers_modify rfl, Shared.sleepers,
      Shared.closeWriter_loggers]
    rfl
  | newAdd | newEvict =>
    exact congrArg (WaitGroup.sleepers · + 0)
      (hs.alloc_field Logger.logTasks (by simp [Shared.alloc]) l)
  | setApply =>
    rw [Shared.sleepers, Setter.report_loggers]
    exact congrArg (· + 0) (Shared.sleepers_modify (by simp))
  | sent | full | newEvicted => simp [Shared.sleepers, Shared.enqueue, Pc.parked]
  | _ => rfl

/-- A goroutine falls asleep as it registers. -/
theorem GoStep.parks (h : GoStep g seq s pc i pc' s') (hpc : pc'.parked l = true) :
    ∃ mark k wg, pc = .wait l mark k .tasks ∧ (s.loggers l).logTasks.enter = some wg ∧
      (s'.loggers l).logTasks = wg := by
  cases h with
  | @waitPark l' mark k wg henter =>
    have hl : l' = l := of_decide_eq_true hpc
    subst hl
    exact ⟨mark, k, wg, rfl, henter, by rw [Shared.modify_loggers_self]⟩
  | waitEarly | waitClear =>
    rw [afterWait_fst_parked] at hpc
    cases hpc
  | waitPanics =>
    rw [unwindWait_fst] at hpc
    cases hpc
  | _ => cases hpc

/-- The worker touches `logTasks` of `l` by its `Done`, and by the reset that may follow. -/
theorem WorkerStep.logTasks (h : WorkerStep P s wpc wi wpc' s') (l : Ptr) :
    ((s'.loggers l).logTasks = (s.loggers l).logTasks ∧
      (wpc'.releases l = wpc.releases l ∨
        ∃ w, wpc.releases l = some w ∧ (s.loggers l).logTasks.unchanged w = false)) ∨
    (wpc.holds l = true ∧ (s'.loggers l).logTasks = (s.loggers l).logTasks.done.1 ∧
      wpc.releases l = none ∧
      ((s.loggers l).logTasks.done.2 = .returns ∧ wpc'.releases l = none ∨
        (∃ w, (s.loggers l).logTasks.done.2 = .wakes w ∧ wpc' = .wake l w) ∨
        (s.loggers l).logTasks.done.2 = .panics)) ∨
    ∃ w, wpc = .reset l w ∧ wpc' = .recv ∧
      (s'.loggers l).logTasks = (s.loggers l).logTasks.reset w := by
  cases h with
  | @doneReturns elem hret =>
    by_cases hl : elem.log = l
    · subst hl
      exact .inr (.inl ⟨decide_eq_true rfl, by rw [Shared.modify_loggers_self], rfl,
        .inl ⟨hret, rfl⟩⟩)
    · exact .inl ⟨by rw [Shared.modify_loggers, if_neg (Ne.symm hl)], .inl rfl⟩
  | @doneWakes elem w hwakes =>
    by_cases hl : elem.log = l
    · subst hl
      exact .inr (.inl ⟨decide_eq_true rfl, by rw [Shared.modify_loggers_self], rfl,
        .inr (.inl ⟨w, hwakes, rfl⟩)⟩)
    · refine .inl ⟨by rw [Shared.modify_loggers, if_neg (Ne.symm hl)], .inl ?_⟩
      exact if_neg hl
  | @donePanics elem hpanics =>
    by_cases hl : elem.log = l
    · subst hl
      refine .inr (.inl ⟨decide_eq_true rfl, ?_, rfl, .inr (.inr hpanics)⟩)
      rw [Shared.panic_loggers, Shared.modify_loggers_self]
    · refine .inl ⟨?_, .inl rfl⟩
      rw [Shared.panic_loggers, Shared.modify_loggers, if_neg (Ne.symm hl)]
  | @checkPanics l' w hcheck =>
    by_cases hl : l' = l
    · subst hl
      exact .inl ⟨rfl, .inr ⟨w, if_pos rfl, hcheck⟩⟩
    · exact .inl ⟨rfl, .inl (if_neg hl).symm⟩
  | @woke l' w =>
    by_cases hl : l' = l
    · subst hl
      exact .inr (.inr ⟨w, rfl, rfl, by rw [Shared.modify_loggers_self]⟩)
    · exact .inl ⟨by rw [Shared.modify_loggers, if_neg (Ne.symm hl)], .inl (if_neg hl).symm⟩
  | lock | ready | lockKey =>
    exact .inl ⟨Shared.modify_field _ _ _ _ Logger.logTasks rfl, .inl rfl⟩
  | @created elem hlog =>
    refine .inl ⟨(Shared.modify_field _ _ _ _ Logger.logTasks rfl).trans ?_, .inl rfl⟩
    exact Shared.modify_field s elem.log l
      (fun lg => { lg with log := some s.nwri, zlog := some s.nwri }) Logger.logTasks rfl
  | @skipped elem hlog =>
    exact .inl ⟨Shared.modify_field s elem.log l
      (fun lg => { lg with log := none, zlog := none, em := none }) Logger.logTasks rfl, .inl rfl⟩
  | @key elem =>
    exact .inl ⟨Shared.modify_field s elem.log l (fun lg => { lg with em := none })
      Logger.logTasks rfl, .inl rfl⟩
  | _ => exact .inl ⟨rfl, .inl rfl⟩

theorem WorkerStep.sleepers (h : WorkerStep P s wpc wi wpc' s') (l : Ptr)
    (hwaiters : ∀ w, wpc.releases l = some w → (s.loggers l).logTasks.waiters = w) :
    s'.sleepers l = s.sleepers l := by
  rcases h.logTasks l with ⟨hsame, -⟩ | ⟨-, hdone, -⟩ | ⟨w, rfl, -, hreset⟩
  · rw [Shared.sleepers, hsame, Shared.sleepers]
  · rw [Shared.sleepers, hdone]
    exact WaitGroup.add_sleepers _ _
  · rw [Shared.sleepers, hreset]
    exact WaitGroup.reset_sleepers (hwaiters w (if_pos rfl))

/-- Whoever is to release waiters was to do so before the step, or has just taken the counter to
    zero. -/
theorem GoStep.releases (h : GoStep g seq s pc i pc' s') {w : Nat}
    (hpc : pc'.releases l = some w) :
    pc.releases l = some w ∨
      (∃ msg, pc = .print l msg .done ∧ (s.loggers l).logTasks.done.2 = .wakes w) ∨
      ∃ msg headed, pc = .print l msg (.add headed) ∧
        ((s.loggers l).logTasks.add 1).2 = .wakes w := by
  cases h with
  | @dropWakes l' msg w' hwakes =>
    obtain ⟨rfl, hw⟩ := Option.ite_none_right_eq_some.mp hpc
    cases hw
    exact .inr (.inl ⟨msg, rfl, hwakes⟩)
  | @addWakes l' msg stamp headed w' hwakes =>
    obtain ⟨rfl, hw⟩ := Option.ite_none_right_eq_some.mp hpc
    cases hw
    exact .inr (.inr ⟨msg, headed, rfl, hwakes⟩)
  | checked => exact .inl hpc
  | @waitEarly l' mark k | @waitClear l' mark k => cases k <;> cases hpc
  | waitPanics =>
    rw [unwindWait_fst] at hpc
    cases hpc
  | _ => cases hpc

theorem WorkerStep.releases (h : WorkerStep P s wpc wi wpc' s') {w : Nat}
    (hpc : wpc'.releases l = some w) :
    wpc.releases l = some w ∨
      (wpc.holds l = true ∧ (s.loggers l).logTasks.done.2 = .wakes w) := by
  cases h with
  | @doneWakes elem w' hwakes =>
    obtain ⟨rfl, hw⟩ := Option.ite_none_right_eq_some.mp hpc
    cases hw
    exact .inr ⟨decide_eq_true rfl, hwakes⟩
  | checked => exact .inl hpc
  | _ => cases hpc

theorem Pc.waking_of_releases {w : Nat} (h : pc.releases l = some w) : pc.waking l = true := by
  rw [Pc.waking, h]
  rfl

theorem Pc.releases_of_waking (h : pc.waking l = true) : ∃ w, pc.releases l = some w :=
  Option.isSome_iff_exists.mp h

/-- Only a `print` of `l` releases waiters of `l`. -/
theorem Pc.print_of_releases {w : Nat} (h : pc.releases l = some w) :
    ∃ msg ph, pc = .print l msg ph := by
  unfold Pc.releases at h
  split at h
  · rw [Option.ite_none_right_eq_some] at h
    obtain ⟨rfl, -⟩ := h
    exact ⟨_, _, rfl⟩
  · rw [Option.ite_none_right_eq_some] at h
    obtain ⟨rfl, -⟩ := h
    exact ⟨_, _, rfl⟩
  · cases h

/-- A goroutine outside the `print`s of `l` is not about to release waiters of `l`, neither before
    its step nor after it. -/
theorem GoStep.not_waking (h : GoStep g seq s pc i pc' s')
    (hprint : ∀ msg ph, pc ≠ .print l msg ph) : pc.waking l = false ∧ pc'.waking l = false := by
  have hpc : pc.releases l = none := by
    by_contra hw
    obtain ⟨w, hw⟩ := Option.ne_none_iff_exists'.mp hw
    obtain ⟨msg, ph, he⟩ := Pc.print_of_releases hw
    exact hprint _ _ he
  have hpc' : pc'.releases l = none := by
    by_contra hw
    obtain ⟨w, hw⟩ := Option.ne_none_iff_exists'.mp hw
    rcases h.releases hw with hold | ⟨msg, he, -⟩ | ⟨msg, headed, he, -⟩
    · rw [hpc] at hold
      cases hold
    · exact hprint _ _ he
    · exact hprint _ _ he
  exact ⟨by rw [Pc.waking, hpc]; rfl, by rw [Pc.waking, hpc']; rfl⟩

/-- An `Add(1)` panics in its first step or at the check of the state word. -/
theorem GoStep.addPanic (h : GoStep g seq s pc i pc' s') (hp : .printAdd l ∈ s'.panics) :
    .printAdd l ∈ s.panics ∨
      (∃ msg headed, pc = .print l msg (.add headed) ∧
        ((s.loggers l).logTasks.add 1).2 = .panics) ∨
      ∃ w, pc.releases l = some w ∧ (s.loggers l).logTasks.unchanged w = false := by
  cases h with
  | @addPanics l' msg stamp headed hpanics =>
    rcases List.mem_append.mp hp with hp | hp
    · exact .inl hp
    · cases List.mem_singleton.mp hp
      exact .inr (.inl ⟨msg, headed, rfl, hpanics⟩)
  | @checkPanics l' msg added w hcheck =>
    rcases List.mem_append.mp hp with hp | hp
    · exact .inl hp
    · cases added with
      | false => cases List.mem_singleton.mp hp
      | true =>
        cases List.mem_singleton.mp hp
        exact .inr (.inr ⟨w, if_pos rfl, hcheck⟩)
  | dropPanics => exact .inl (by simpa using hp)
  | @waitPanics l' mark k => exact .inl (by cases k <;> simpa [unwindWait] using hp)
  | waitEarly | waitClear => exact .inl (by simpa [afterWait_snd] using hp)
  | sent | full | closeDone | newEvicted | setApply =>
    exact .inl (by simpa [Shared.enqueue] using hp)
  | _ => exact .inl hp

theorem WorkerStep.addPanic (h : WorkerStep P s wpc wi wpc' s') (hp : .printAdd l ∈ s'.panics) :
    .printAdd l ∈ s.panics := by
  cases h <;> simpa [Shared.createWriter, Shared.process] using hp

/-- As the waiters become due somebody stands before their release, and it releases them. -/
theorem GoStep.due (h : GoStep g seq s pc i pc' s') (hs : s.Wf) (hadd : .printAdd l ∉ s'.panics)
    (hcounter : 0 ≤ s.counter l) (hprinting : pc.printing l = true → 0 < s.counter l)
    (hwaking : ∀ w, pc.releases l = some w →
      s.due l = 1 ∧ (s.loggers l).logTasks.waiters = w) :
    s'.due l + (pc.waking l).toNat = s.due l + (pc'.waking l).toNat := by
  have hcounter : 0 ≤ (s.loggers l).logTasks.counter := hcounter
  by_cases hprint : ∃ msg ph, pc = .print l msg ph
  · rcases hprint with ⟨msg, ph, rfl⟩
    have hdone : ph = .done → 0 < (s.loggers l).logTasks.counter := by
      rintro rfl
      exact hprinting (by simp [Pc.printing])
    cases h with
    | added hret =>
      have hadd' := WaitGroup.add_one hcounter
      rw [hret] at hadd'
      simp only [reduceCtorEq, and_false, or_false, and_true] at hadd'
      have hne : ((s.loggers l).logTasks.add 1).1.counter ≠ 0 := by
        rw [WaitGroup.add_counter]
        omega
      simp [Shared.due, Pc.waking, Pc.releases, hadd', WaitGroup.due_of_counter hne]
    | addWakes hwakes =>
      rcases WaitGroup.add_one hcounter with ⟨-, hret⟩ | ⟨-, hpanics⟩
      · rw [hwakes] at hret
        cases hret
      · rw [hwakes] at hpanics
        cases hpanics
    | addPanics => simp at hadd
    | dropped hret =>
      have hdue := WaitGroup.done_due (hdone rfl)
      rw [hret] at hdue
      simp only [reduceCtorEq, false_and, or_false, true_and] at hdue
      have hzero : s.due l = 0 := WaitGroup.due_of_counter (hdone rfl).ne'
      rw [hzero]
      simp [Shared.due, Pc.waking, Pc.releases, hdue]
    | dropWakes hwakes =>
      have hdue := WaitGroup.done_due (hdone rfl)
      rw [hwakes] at hdue
      simp only [reduceCtorEq, false_and, false_or] at hdue
      have hzero : s.due l = 0 := WaitGroup.due_of_counter (hdone rfl).ne'
      rw [hzero]
      simp [Shared.due, Pc.waking, Pc.releases, hdue.2]
    | dropPanics hpanics =>
      rcases WaitGroup.done_due (hdone rfl) with ⟨hret, -⟩ | ⟨hret, -⟩
      · rw [hpanics] at hret
        cases hret
      · rw [hpanics] at hret
        cases hret
    | checked => rfl
    | @checkPanics _ _ added w hcheck =>
      -- the waiters are due and as many as found: the check goes through
      obtain ⟨hdue, rfl⟩ := hwaking w (if_pos rfl)
      rw [WaitGroup.unchanged_of_due hdue] at hcheck
      cases hcheck
    | @readded _ _ w | @released _ _ w =>
      rw [(hwaking w (if_pos rfl)).1]
      simp [Shared.due, Pc.waking, Pc.releases]
    | gateClosed | gateOpen | sourcePath | depthLock | startRead | fallsBack | headed => rfl
    | sent | full => simp [Shared.due, Pc.waking, Pc.releases, Shared.enqueue]
  · have hnot : ∀ msg ph, pc ≠ .print l msg ph := fun msg ph he => hprint ⟨msg, ph, he⟩
    obtain ⟨hpc, hpc'⟩ := h.not_waking hnot
    rw [hpc, hpc']
    by_cases hwait : ∃ mark k ph, pc = .wait l mark k ph
    · rcases hwait with ⟨mark, k, ph, rfl⟩
      cases h with
      | waitPark henter =>
        obtain ⟨h₁, h₂⟩ := WaitGroup.enter_due henter
        simp [Shared.due, h₁, h₂]
      | waitWake hwake => simp [Shared.due, WaitGroup.wake_due hwake]
      | waitPanics hwake =>
        have hdue := WaitGroup.wake_due hwake
        cases k <;> simp [unwindWait, Shared.due, hdue]
      | waitEarly | waitClear => simp [Shared.due, afterWait_snd]
      | waitLock | waitSet | waitThrough | waitRelock => simp [Shared.due]
    · rw [Shared.due, h.logTasks hs hnot fun mark k ph he => hwait ⟨mark, k, ph, he⟩, Shared.due]

theorem WorkerStep.due (h : WorkerStep P s wpc wi wpc' s')
    (hholds : wpc.holds l = true → 0 < s.counter l)
    (hwaking : ∀ w, wpc.releases l = some w →
      s.due l = 1 ∧ (s.loggers l).logTasks.waiters = w) :
    s'.due l + (wpc.waking l).toNat = s.due l + (wpc'.waking l).toNat := by
  rcases h.logTasks l with ⟨hsame, hw | ⟨w, hw, hcheck⟩⟩ | ⟨hmine, hdone, hw, hout⟩ |
    ⟨w, rfl, rfl, hreset⟩
  · rw [Shared.due, hsame, WorkerPc.waking, WorkerPc.waking, hw, Shared.due]
  · obtain ⟨hdue, rfl⟩ := hwaking w hw
    rw [WaitGroup.unchanged_of_due hdue] at hcheck
    cases hcheck
  · have hpos : 0 < (s.loggers l).logTasks.counter := hholds hmine
    have hcases := WaitGroup.done_due hpos
    have hzero : s.due l = 0 := WaitGroup.due_of_counter hpos.ne'
    rw [hzero, WorkerPc.waking, WorkerPc.waking, hw, Shared.due, hdone]
    rcases hout with ⟨hret, hw'⟩ | ⟨w, hwakes, rfl⟩ | hpanics
    · rw [hret] at hcases
      simp only [reduceCtorEq, false_and, or_false, true_and] at hcases
      rw [hw', hcases]
    · rw [hwakes] at hcases
      simp only [reduceCtorEq, false_and, false_or] at hcases
      simp [WorkerPc.releases, hcases.2]
    · rw [hpanics] at hcases
      simp at hcases
  · rw [(hwaking w (if_pos rfl)).1, Shared.due, hreset]
    simp [WorkerPc.waking, WorkerPc.releases]

end Steps

/-! ## Every run -/

/-- The books of `logTasks` balance. -/
structure State.Balanced (u : State) (l : Ptr) : Prop where
  counter : u.sh.counter l = u.printing l + u.sh.queued l + (u.worker.holds l).toNat
  /-- The sleepers are the waiters, registered or with a token. -/
  parked : u.sh.sleepers l = u.parked l
  /-- The waiters are due exactly while somebody stands before their release. -/
  due : u.wakers l = u.sh.due l
  /-- There is one waiter to release. -/
  one : ∀ t ∈ u.threads, ∀ w, t.pc.releases l = some w → w = 1
  worker_one : ∀ w, u.worker.releases l = some w → w = 1

section Runs

variable {P : Primitives} {u : State} {l : Ptr} {t : Thread} {w : Nat}

/-- At most one goroutine sleeps on a logger. -/
theorem reach_parked_le (h : (machine P).Reach u) (l : Ptr) : u.parked l ≤ 1 := by
  obtain ⟨hgate, hle⟩ := reach_gated h l
  have hmono : u.parked l ≤ u.waiting l := by
    refine List.countP_mono_left fun t _ hp => ?_
    unfold Pc.parked at hp
    split at hp
    · rename_i hpc
      rw [hpc]
      exact hp
    · cases hp
  omega

/-! ### What balanced books say -/

theorem State.Balanced.counter_nonneg (hb : u.Balanced l) : 0 ≤ u.sh.counter l := by
  have := hb.counter
  omega

/-- The counter is positive while somebody owes the logger a `Done`. -/
theorem State.Balanced.counter_pos_of_printing (hb : u.Balanced l) (ht : t ∈ u.threads)
    (hp : t.pc.printing l = true) : 0 < u.sh.counter l := by
  have hc := hb.counter
  have hpos : 0 < u.printing l := List.countP_pos_iff.mpr ⟨t, ht, hp⟩
  omega

theorem State.Balanced.counter_pos_of_holds (hb : u.Balanced l)
    (hh : u.worker.holds l = true) : 0 < u.sh.counter l := by
  have hc := hb.counter
  rw [hh, Bool.toNat_true] at hc
  omega

theorem State.Balanced.waiters_le (hb : u.Balanced l) (h : (machine P).Reach u) :
    (u.sh.loggers l).logTasks.waiters ≤ 1 := by
  have hcount := hb.parked
  have hle := reach_parked_le h l
  simp only [Shared.sleepers, WaitGroup.sleepers] at hcount
  omega

theorem State.Balanced.due_of_waking (hb : u.Balanced l) (ht : t ∈ u.threads)
    (hw : t.pc.waking l = true) : u.sh.due l = 1 := by
  have hwakers := hb.due
  have hle : u.sh.due l ≤ 1 := WaitGroup.due_le _
  have hpos : 0 < u.threads.countP fun t => t.pc.waking l := List.countP_pos_iff.mpr ⟨t, ht, hw⟩
  rw [State.wakers] at hwakers
  omega

theorem State.Balanced.due_of_worker_waking (hb : u.Balanced l)
    (hw : u.worker.waking l = true) : u.sh.due l = 1 := by
  have hwakers := hb.due
  have hle : u.sh.due l ≤ 1 := WaitGroup.due_le _
  rw [State.wakers, hw, Bool.toNat_true] at hwakers
  omega

theorem State.Balanced.waiters_of_due (hb : u.Balanced l) (h : (machine P).Reach u)
    (hdue : u.sh.due l = 1) : (u.sh.loggers l).logTasks.waiters = 1 := by
  have hle := hb.waiters_le h
  have hpos := (WaitGroup.of_due hdue).1
  omega

/-- Whoever is to release waiters finds them due, and as many as it has found before. -/
theorem State.Balanced.releases (hb : u.Balanced l) (h : (machine P).Reach u)
    (ht : t ∈ u.threads) (hw : t.pc.releases l = some w) :
    u.sh.due l = 1 ∧ (u.sh.loggers l).logTasks.waiters = w := by
  have hdue := hb.due_of_waking ht (Pc.waking_of_releases hw)
  exact ⟨hdue, (hb.waiters_of_due h hdue).trans (hb.one t ht w hw).symm⟩

theorem State.Balanced.worker_releases (hb : u.Balanced l) (h : (machine P).Reach u)
    (hw : u.worker.releases l = some w) :
    u.sh.due l = 1 ∧ (u.sh.loggers l).logTasks.waiters = w := by
  have hdue := hb.due_of_worker_waking (by rw [WorkerPc.waking, hw]; rfl)
  exact ⟨hdue, (hb.waiters_of_due h hdue).trans (hb.worker_one w hw).symm⟩

/-- A `Done` that reaches zero finds the one waiter. -/
theorem State.Balanced.eq_one_of_wakes (hb : u.Balanced l) (h : (machine P).Reach u)
    (hc : 0 < u.sh.counter l) (hwakes : (u.sh.loggers l).logTasks.done.2 = .wakes w) : w = 1 := by
  have hle := hb.waiters_le h
  rcases WaitGroup.done_due (show 0 < (u.sh.loggers l).logTasks.counter from hc) with
    ⟨hret, -⟩ | ⟨hw, hdue⟩
  · rw [hret] at hwakes
    cases hwakes
  · rw [hw] at hwakes
    cases hwakes
    have hpos := (WaitGroup.of_due hdue).1
    rw [WaitGroup.done, (WaitGroup.add_waiters _ _).1] at hpos
    omega

/-- An `Add(1)` never reaches zero. -/
theorem State.Balanced.add_ne_wakes (hb : u.Balanced l) :
    ((u.sh.loggers l).logTasks.add 1).2 ≠ .wakes w := by
  intro hwakes
  rcases WaitGroup.add_one (show 0 ≤ (u.sh.loggers l).logTasks.counter from hb.counter_nonneg) with
    ⟨-, hret⟩ | ⟨-, hret⟩
  · rw [hwakes] at hret
    cases hret
  · rw [hwakes] at hret
    cases hret

/-! ### They balance in every run -/

variable {g : Gid} {i : Input} {pc : Pc} {sh : Shared}

theorem Shared.balance_eq {s : Shared} (hadd : .printAdd l ∉ s.panics) :
    s.balance l = s.counter l - s.queued l := by
  rw [Shared.balance, List.count_eq_zero.mpr hadd, Nat.cast_zero, sub_zero]

theorem State.Balanced.go (hb : u.Balanced l) (hr : (machine P).Reach u)
    (hadd : .printAdd l ∉ sh.panics) (ht : u.threads[g]? = some t)
    (hstep : GoStep g t.seq u.sh t.pc i pc sh) :
    State.Balanced { u with sh, threads := u.threads.set g { pc, seq := t.nextSeq i } } l := by
  have hmem := List.mem_of_getElem? ht
  have hwf := (reach_wf hr).shared
  have hold : .printAdd l ∉ u.sh.panics := fun hp => hadd (hstep.extends.panics.subset hp)
  have hreleases : ∀ w, t.pc.releases l = some w →
      u.sh.due l = 1 ∧ (u.sh.loggers l).logTasks.waiters = w :=
    fun w hw => hb.releases hr hmem hw
  refine ⟨?_, ?_, ?_, fun t' ht' w hw => ?_, hb.worker_one⟩
  · have hc := hb.counter
    have hcount := List.countP_set_add (p := fun t => t.pc.printing l) ht ⟨pc, t.nextSeq i⟩
    have hmove := hstep.balance hwf l fun hw => (WaitGroup.of_due (hb.due_of_waking hmem hw)).2
    rw [Shared.balance_eq hadd, Shared.balance_eq hold] at hmove
    simp only [State.printing] at hc hcount ⊢
    omega
  · have hp := hb.parked
    have hcount := List.countP_set_add (p := fun t => t.pc.parked l) ht ⟨pc, t.nextSeq i⟩
    have hmove := hstep.parked hwf l fun w hw => (hreleases w hw).2
    simp only [State.parked] at hp hcount ⊢
    omega
  · have hd := hb.due
    have hcount := List.countP_set_add (p := fun t => t.pc.waking l) ht ⟨pc, t.nextSeq i⟩
    have hmove := hstep.due hwf hadd hb.counter_nonneg (hb.counter_pos_of_printing hmem) hreleases
    simp only [State.wakers] at hd hcount ⊢
    omega
  · rcases List.mem_or_eq_of_mem_set ht' with ht' | rfl
    · exact hb.one t' ht' w hw
    · rcases hstep.releases hw with hsame | ⟨msg, hpc, hwakes⟩ | ⟨msg, headed, -, hwakes⟩
      · exact hb.one t hmem w hsame
      · have hc := hb.counter_pos_of_printing hmem (by rw [hpc]; exact decide_eq_true rfl)
        exact hb.eq_one_of_wakes hr hc hwakes
      · exact absurd hwakes hb.add_ne_wakes

theorem State.Balanced.worker {wi : WorkerInput} {wpc : WorkerPc} (hb : u.Balanced l)
    (hr : (machine P).Reach u) (hadd : .printAdd l ∉ sh.panics)
    (hstep : WorkerStep P u.sh u.worker wi wpc sh) :
    State.Balanced { u with sh, worker := wpc } l := by
  have hold : .printAdd l ∉ u.sh.panics := fun hp => hadd (hstep.extends.panics.subset hp)
  have hreleases : ∀ w, u.worker.releases l = some w →
      u.sh.due l = 1 ∧ (u.sh.loggers l).logTasks.waiters = w := fun w hw => hb.worker_releases hr hw
  refine ⟨?_, ?_, ?_, hb.one, fun w hw => ?_⟩
  · have hc := hb.counter
    have hmove := hstep.balance l fun hw => (WaitGroup.of_due (hb.due_of_worker_waking hw)).2
    rw [Shared.balance_eq hadd, Shared.balance_eq hold] at hmove
    simp only [State.printing] at hc ⊢
    omega
  · exact (hstep.sleepers l fun w hw => (hreleases w hw).2).trans hb.parked
  · have hd := hb.due
    have hmove := hstep.due hb.counter_pos_of_holds hreleases
    simp only [State.wakers] at hd ⊢
    omega
  · rcases hstep.releases hw with hsame | ⟨hmine, hwakes⟩
    · exact hb.worker_one w hsame
    · exact hb.eq_one_of_wakes hr (hb.counter_pos_of_holds hmine) hwakes

/-- In every run in which no `Add(1)` of the logger has panicked its books balance. -/
theorem reach_balanced (h : (machine P).Reach u) (hadd : .printAdd l ∉ u.sh.panics) :
    u.Balanced l := by
  refine reach_invariant (I := fun u => .printAdd l ∉ u.sh.panics → u.Balanced l) h
    (fun _ => ⟨rfl, rfl, rfl, by simp, by simp [WorkerPc.releases]⟩) ?_ ?_ ?_ hadd
  · intro u _ hu hadd
    obtain ⟨hc, hp, hd, hone, hworker⟩ := hu hadd
    refine ⟨?_, ?_, ?_, fun t ht => ?_, hworker⟩
    · simpa [State.printing, Pc.printing] using hc
    · simpa [State.parked, Pc.parked] using hp
    · simpa [State.wakers, Pc.waking, Pc.releases] using hd
    · rcases List.mem_append.mp ht with ht | ht
      · exact hone t ht
      · rw [List.mem_singleton.mp ht]
        simp [Pc.releases]
  · intro u g t i pc sh hr hu ht hstep hadd
    exact (hu fun hp => hadd (hstep.extends.panics.subset hp)).go hr hadd ht hstep
  · intro u i wpc sh hr hu hstep hadd
    exact (hu fun hp => hadd (hstep.extends.panics.subset hp)).worker hr hadd hstep

/-- An `Add(1)` panics as it meets waiters that are due. -/
theorem State.Balanced.due_of_addPanic (hb : u.Balanced l) (h : (machine P).Reach u)
    (ht : u.threads[g]? = some t) (hstep : GoStep g t.seq u.sh t.pc i pc sh)
    (hp : .printAdd l ∈ sh.panics) :
    .printAdd l ∈ u.sh.panics ∨
      ((∃ msg headed, t.pc = .print l msg (.add headed)) ∧ u.sh.due l = 1) := by
  rcases hstep.addPanic hp with hold | ⟨msg, headed, hpc, hpanics⟩ | ⟨w, hw, hcheck⟩
  · exact .inl hold
  · refine .inr ⟨⟨msg, headed, hpc⟩, ?_⟩
    rcases WaitGroup.add_one (show 0 ≤ (u.sh.loggers l).logTasks.counter from hb.counter_nonneg)
      with ⟨-, hret⟩ | ⟨hdue, -⟩
    · rw [hpanics] at hret
      cases hret
    · exact hdue
  · obtain ⟨hdue, rfl⟩ := hb.releases h (List.mem_of_getElem? ht) hw
    rw [WaitGroup.unchanged_of_due hdue] at hcheck
    cases hcheck

/-- Waiters that are due sleep. -/
theorem State.Balanced.parked_of_due (hb : u.Balanced l) (hdue : u.sh.due l = 1) :
    ∃ (g : Gid) (t : Thread), u.threads[g]? = some t ∧ t.pc.parked l = true := by
  have hpos := (WaitGroup.of_due hdue).1
  have hcount := hb.parked
  simp only [Shared.sleepers, WaitGroup.sleepers] at hcount
  obtain ⟨t, hmem, hpark⟩ := List.countP_pos_iff.mp (show 0 < u.parked l by omega)
  obtain ⟨g, hg⟩ := List.mem_iff_getElem?.mp hmem
  exact ⟨g, t, hg, hpark⟩

end Runs

/-! ## The accounting of a run without a panic -/

theorem panics_eq_nil {s s' : Shared} (h : Extends s s') (halive : s'.panics = []) :
    s.panics = [] := by
  have hp := h.panics
  rw [halive] at hp
  exact List.prefix_nil.mp hp

theorem balanced_of_alive {P : Primitives} {s : State} (h : (machine P).Reach s)
    (hpanics : s.sh.panics = []) (l : Ptr) : s.Balanced l :=
  reach_balanced h (by simp [hpanics])

/-- The accounting of a logger. -/
structure State.Accounted (s : State) (l : Ptr) : Prop where
  /-- The counter is the number of `print` calls between `Add(1)` and send or `Done`, plus the
      messages in `tologCh`, plus one for a message in the worker's hands. -/
  counter_eq : s.sh.counter l = s.printing l + s.sh.queued l + (s.worker.holds l).toNat
  counter_nonneg : 0 ≤ s.sh.counter l
  /-- It is zero exactly when nothing is in flight. -/
  counter_zero : s.sh.counter l = 0 ↔
    s.printing l = 0 ∧ s.sh.queued l = 0 ∧ s.worker.holds l = false
  flag_le : (s.sh.loggers l).waitStarted ≤ 1
  /-- The flag is one exactly while one single goroutine is between setting and clearing it. -/
  flag_iff : (s.sh.loggers l).waitStarted = 1 ↔
    ∃! g : Gid, ∃ t, s.threads[g]? = some t ∧ t.pc.waiting l = true
  /-- With no goroutine inside `Wait` the gate is open. -/
  gate_open : (∀ t ∈ s.threads, ∀ mark k ph, t.pc ≠ .wait l mark k ph) →
    (s.sh.loggers l).waitStarted = 0

/-- In every reachable state of a run without a panic the books of every logger balance. -/
theorem logTasks_accounting (P : Primitives) {s : State} (h : (machine P).Reach s)
    (hpanics : s.sh.panics = []) (l : Ptr) : s.Accounted l := by
  have hc := (balanced_of_alive h hpanics l).counter
  obtain ⟨hg, hle⟩ := reach_gated h l
  rw [hpanics, List.count_nil, add_zero] at hg
  refine ⟨hc, by omega, ?_, hle, ?_, fun hout => ?_⟩
  · rw [hc]
    cases s.worker.holds l <;> simp <;> omega
  · rw [hg]
    exact List.countP_eq_one_iff
  · rw [hg]
    refine List.countP_eq_zero.mpr fun t ht hw => ?_
    obtain ⟨mark, k, ph, hpc⟩ := Pc.waiting_wait hw
    exact hout t ht mark k ph hpc

/-- A logger is created, printed to, and waited for while the message is in `tologCh`. -/
def sleepingWait : List Action :=
  .spawn :: newLoggerCall 0 [97] ++ printCall 0 1 [104] ++ .go 0 (.call (.wait 1)) :: steps 0 3

theorem sleepingWait_runs : ((machine unitPrimitives).exec {} sleepingWait).isSome := by decide

theorem logTasks_accounting_sleepingWait :
    (((machine unitPrimitives).exec {} sleepingWait).get sleepingWait_runs).Accounted 1 :=
  logTasks_accounting unitPrimitives (reach_exec sleepingWait_runs) (by decide) 1

end ZipoLogger
