/-
  What `Close` releases.

  `Close` closes the writer through `zlog` and clears `zlog`, but not `log`: the next `Print`
  writes through `log`, which opens the file again, and no later `Close` finds it. Until the worker
  writes to a writer that has been released, an open file is reachable through `zlog`
  (`step_reachable`); from then on the file stays open for good (`run_leaked`). With one goroutine
  using the logger nothing is pending once a `Close` has waited, so the file is opened again only
  if the goroutine prints to the logger after it has closed it (`solo_close_releases`).
-/
import ZipoLogger.Logger.Waiting
import ZipoLogger.Logger.Parked
import ZipoLogger.Logger.Calls
import ZipoLogger.Lib.Trace

namespace ZipoLogger

open Enc

/-! ## The two fields of the writer -/

/-- `Close` has closed the writer, and `log` still writes to it. -/
def Shared.released (s : Shared) (l : Ptr) : Bool :=
  (s.loggers l).log.isSome && (s.loggers l).zlog.isNone

/-- The file of the writer of `l` is closed. -/
def Shared.FileClosed (s : Shared) (l : Ptr) : Prop :=
  ∀ w, (s.loggers l).log = some w → (s.writers w).isOpen = false

section Steps

variable {P : Primitives} {g : Gid} {seq : Nat} {s s' : Shared} {pc pc' : Pc} {i : Input} {l : Ptr}
  {wpc wpc' : WorkerPc} {wi : WorkerInput} {w : Wid}

theorem Shared.released_of (hlog : (s.loggers l).log = some w)
    (hzlog : (s.loggers l).zlog = none) : s.released l = true := by
  rw [Shared.released, hlog, hzlog]
  rfl

theorem Shared.closeWriter_isOpen (hopen : ((s.closeWriter l).writers w).isOpen = true) :
    (s.writers w).isOpen = true ∧ (s.loggers l).zlog ≠ some w := by
  unfold Shared.closeWriter at hopen
  split at hopen
  · rename_i hzlog
    exact ⟨hopen, by simp [hzlog]⟩
  · rename_i w' hzlog
    rw [Shared.modifyWriter_writers] at hopen
    split at hopen
    · cases hopen
    · rename_i hne
      exact ⟨hopen, by simpa [hzlog] using Ne.symm hne⟩

/-- No goroutine opens a file, and `Close` closes the one `zlog` refers to. -/
theorem GoStep.isOpen (h : GoStep g seq s pc i pc' s') (hopen : (s'.writers w).isOpen = true) :
    (s.writers w).isOpen = true ∧
      ∀ l mark early, pc = .close l mark early true → (s.loggers l).zlog ≠ some w := by
  cases h with
  | @closeDone l mark early =>
    obtain ⟨ho, hne⟩ := Shared.closeWriter_isOpen (s := s) (l := l) hopen
    refine ⟨ho, fun l' mark' early' he => ?_⟩
    cases he
    exact hne
  | newEvicted => exact ⟨(Shared.closeWriter_isOpen hopen).1, by simp⟩
  | waitEarly | waitClear =>
    rw [afterWait_snd] at hopen
    exact ⟨hopen, by simp⟩
  | @waitPanics l mark k => cases k <;> exact ⟨hopen, by simp⟩
  | sent | full | setApply => exact ⟨by simpa [Shared.enqueue] using hopen, by simp⟩
  | closeLock => exact ⟨hopen, by simp⟩
  | _ => exact ⟨hopen, by simp⟩

/-- A file is closed through the `zlog` of a logger. -/
theorem GoStep.stays_open (h : GoStep g seq s pc i pc' s') (hopen : (s.writers w).isOpen = true)
    (hzlog : ∀ l, (s.loggers l).zlog ≠ some w) : (s'.writers w).isOpen = true := by
  have hclose : ∀ l, ((s.closeWriter l).writers w).isOpen = true := by
    intro l
    unfold Shared.closeWriter
    split
    · exact hopen
    · rename_i w' hw'
      have hne : w ≠ w' := fun he => hzlog l (he ▸ hw')
      rw [Shared.modifyWriter_writers, if_neg hne]
      exact hopen
  rcases h.writers with hw | ⟨l, hw⟩
  · rw [hw]
    exact hopen
  · rw [hw]
    exact hclose l

/-- The worker assigns `log` and `zlog` together, to a logger that has no writer. -/
theorem WorkerStep.writer (h : WorkerStep P s wpc wi wpc' s') (l : Ptr) :
    ((s'.loggers l).log = (s.loggers l).log ∧ (s'.loggers l).zlog = (s.loggers l).zlog) ∨
      (s'.loggers l).log = (s'.loggers l).zlog := by
  have ht := h.touches l
  generalize s'.loggers l = lg at ht ⊢
  cases ht with
  | tasks => exact .inl ⟨rfl, rfl⟩
  | writer => exact .inr rfl

/-- The worker opens a file by writing a message. -/
theorem WorkerStep.isOpen (h : WorkerStep P s wpc wi wpc' s')
    (hopen : (s'.writers w).isOpen = true) :
    (s.writers w).isOpen = true ∨
      ∃ elem key draws, wpc = .emit elem key ∧ wi = .emit draws .ok ∧
        (workerRecord P key elem.msg draws).isSome = true ∧
        (s.loggers elem.log).log = some w := by
  cases h with
  | @wrote elem key draws record w' hrec hlog =>
    rw [Shared.process_writers, Shared.modifyWriter_writers] at hopen
    split at hopen
    · rename_i hw
      subst hw
      exact .inr ⟨elem, key, draws, rfl, rfl, by simp [hrec], hlog⟩
    · exact .inl hopen
  | @created elem hlog =>
    left
    by_cases hw : w = s.nwri
    · subst hw
      simp [Shared.createWriter] at hopen
    · simpa [Shared.createWriter, hw] using hopen
  | _ => exact .inl hopen

/-- The worker closes no file. -/
theorem WorkerStep.stays_open (h : WorkerStep P s wpc wi wpc' s')
    (hopen : (s.writers w).isOpen = true) (hw : w < s.nwri) : (s'.writers w).isOpen = true := by
  cases h with
  | wrote =>
    rw [Shared.process_writers, Shared.modifyWriter_writers]
    split
    · rfl
    · exact hopen
  | created => simpa [Shared.createWriter, hw.ne] using hopen
  | _ => exact hopen

end Steps

/-! ## The file over a run -/

/-- The worker writes a message of `l` to the writer a `Close` has released. -/
def writesReleased (P : Primitives) (l : Ptr) (u : State) : Action → Bool
  | .worker (.emit draws .ok) =>
    match u.worker with
    | .emit elem key =>
      elem.log = l && u.sh.released l && (workerRecord P key elem.msg draws).isSome
    | _ => false
  | _ => false

theorem writesReleased_iff {P : Primitives} {l : Ptr} {u : State} {x : Action} :
    writesReleased P l u x = true ↔ ∃ draws elem key, x = .worker (.emit draws .ok) ∧
      u.worker = .emit elem key ∧ elem.log = l ∧ u.sh.released l = true ∧
      (workerRecord P key elem.msg draws).isSome = true := by
  constructor
  · intro h
    unfold writesReleased at h
    split at h
    · split at h
      · rename_i draws _ elem key hw
        simp only [Bool.and_eq_true, decide_eq_true_eq] at h
        exact ⟨draws, elem, key, rfl, hw, h.1.1, h.1.2, h.2⟩
      · cases h
    · cases h
  · rintro ⟨draws, elem, key, rfl, hw, hl, hrel, hrec⟩
    simp [writesReleased, hw, hl, hrel, hrec]

/-- Inside `Print`, `Wait` or `Close` of `l`. -/
def Pc.uses (l : Ptr) : Pc → Bool
  | .print l' _ _ | .wait l' _ _ _ | .close l' _ _ _ => l' = l
  | _ => false

/-- No goroutine but `g` is inside `Print`, `Wait` or `Close` of `l`. -/
def State.UsedBy (u : State) (l : Ptr) (g : Gid) : Prop :=
  ∀ g' t, u.threads[g']? = some t → t.pc.uses l = true → g' = g

/-- The step returns from a `Close` of `l`. -/
def CloseReturns (u : State) (x : Action) (l : Ptr) : Prop :=
  ∃ g t mark early, x = .go g .tau ∧ u.threads[g]? = some t ∧ t.pc = .close l mark early true

section Runs

variable {P : Primitives} {n : Nat}

/-- `zlog` is the writer `log` writes to. -/
theorem reach_linked {u : State} (h : (machine P).Reach u) (l : Ptr) (w : Wid)
    (hzlog : (u.sh.loggers l).zlog = some w) : (u.sh.loggers l).log = some w := by
  refine reach_invariant (I := fun u => ∀ w, (u.sh.loggers l).zlog = some w →
    (u.sh.loggers l).log = some w) h (by simp) (fun _ _ hu => hu) ?_ ?_ w hzlog
  · intro u g t i pc sh hr hu _ hstep w hw
    have hwf := (reach_wf hr).shared
    show (sh.loggers l).log = some w
    rw [hstep.log hwf]
    rcases hstep.zlog hwf l with hsame | ⟨hnone, -⟩
    · exact hu w (hsame ▸ hw)
    · rw [hnone] at hw
      cases hw
  · intro u i wpc sh _ hu hstep w hw
    show (sh.loggers l).log = some w
    rcases hstep.writer l with ⟨hlog, hsame⟩ | heq
    · rw [hlog]
      exact hu w (hsame ▸ hw)
    · rw [heq]
      exact hw

/-- An open file is reachable through `zlog`. -/
def Shared.Reachable (s : Shared) (l : Ptr) : Prop :=
  ∀ w, (s.loggers l).log = some w → (s.writers w).isOpen = true → (s.loggers l).zlog = some w

theorem step_reachable {u v : State} {x : Action} {l : Ptr} (hr : (machine P).Reach u)
    (hs : step P u x = some v) (hwrites : writesReleased P l u x = false)
    (hu : u.sh.Reachable l) : v.sh.Reachable l := by
  intro w hlog hopen
  rcases step_cases hs with ⟨-, rfl⟩ | ⟨g, i, t, pc, sh, -, ht, hstep, rfl⟩ |
    ⟨i, wpc, sh, rfl, hstep, rfl⟩
  · exact hu w hlog hopen
  · have hwf := (reach_wf hr).shared
    obtain ⟨hopen', hclose⟩ := hstep.isOpen hopen
    have hzlog := hu w ((hstep.log hwf l).symm.trans hlog) hopen'
    rcases hstep.zlog hwf l with hsame | ⟨-, mark, early, hpc⟩
    · exact hsame.trans hzlog
    · exact absurd hzlog (hclose l mark early hpc)
  · rcases hstep.writer l with ⟨hlog', hsame⟩ | heq
    · have hlog₀ := hlog'.symm.trans hlog
      refine hsame.trans ?_
      rcases hstep.isOpen hopen with hopen' | ⟨elem, key, draws, hw, rfl, hrec, helem⟩
      · exact hu w hlog₀ hopen'
      · have hl := (reach_routed hr).unique _ _ w helem hlog₀
        rcases hz : (u.sh.loggers l).zlog with _ | w'
        · have hbad := writesReleased_iff.mpr
            ⟨draws, elem, key, rfl, hw, hl, Shared.released_of hlog₀ hz, hrec⟩
          rw [hwrites] at hbad
          cases hbad
        · have hw := (reach_linked hr l w' hz).symm.trans hlog₀
          exact hw
    · exact heq.symm.trans hlog

theorem run_reachable (T : (machine P).Trace n) {l : Ptr} {k : Nat} (hk : k ≤ n)
    (hwrites : ∀ j < k, writesReleased P l (T.state j) (T.action j) = false) :
    (T.state k).sh.Reachable l := by
  refine T.along (P := fun k => (T.state k).sh.Reachable l) (Nat.zero_le k) hk ?_ ?_
  · rw [T.start]
    intro w hlog
    cases hlog
  · intro j _ hj hs h
    exact step_reachable (T.reach (hj.le.trans hk)) hs (hwrites j hj) h

/-- The file of `l` is open and no `Close` finds it. -/
structure Shared.Leaked (s : Shared) (l : Ptr) (w : Wid) : Prop where
  log : (s.loggers l).log = some w
  zlog : (s.loggers l).zlog = none
  isOpen : (s.writers w).isOpen = true

/-- A file that is leaked stays so: only its logger's `zlog` could refer to its writer, and it is
    assigned only when there is no writer. -/
theorem run_leaked {u v : State} (hu : (machine P).Reach u) (h : (machine P).Run u v) {l : Ptr}
    {w : Wid} (hleak : u.sh.Leaked l w) : v.sh.Leaked l w := by
  refine Machine.RunIf.invariant (P := fun v => v.sh.Leaked l w) h hleak ?_
  intro v x v' hrun hv _ hs
  have hr : (machine P).Reach v := Machine.RunIf.trans hu hrun
  have hunlinked : ∀ l', (v.sh.loggers l').zlog ≠ some w := by
    intro l' hz
    have hl := (reach_routed hr).unique _ _ w (reach_linked hr l' w hz) hv.log
    rw [hl, hv.zlog] at hz
    cases hz
  rcases step_cases hs with ⟨-, rfl⟩ | ⟨g, i, t, pc, sh, -, -, hstep, rfl⟩ |
    ⟨i, wpc, sh, -, hstep, rfl⟩
  · exact hv
  · have hwf := (reach_wf hr).shared
    refine ⟨(hstep.log hwf l).trans hv.log, ?_, hstep.stays_open hv.isOpen hunlinked⟩
    rcases hstep.zlog hwf l with hsame | ⟨hnone, -⟩
    · exact hsame.trans hv.zlog
    · exact hnone
  · have hlt := (reach_routed hr).allocated l w hv.log
    have ht := hstep.touches l
    refine ⟨?_, ?_, hstep.stays_open hv.isOpen hlt⟩ <;> generalize sh.loggers l = lg at ht ⊢
    · cases ht with
      | tasks => exact hv.log
      | writer _ _ hnone => exact absurd (hv.log.symm.trans hnone) (by simp)
    · cases ht with
      | tasks => exact hv.zlog
      | writer _ _ hnone => exact absurd (hv.log.symm.trans hnone) (by simp)

/-- Once the worker has written a message to a released logger, its file is never closed again. -/
theorem write_released_leaks {u v v' : State} {elem : LoggerMessage} {key : Option KeyEncrypt}
    {draws : Draws} {record : Bytes} (hu : (machine P).Reach u)
    (hrel : u.sh.released elem.log = true) (hemit : u.worker = .emit elem key)
    (hrec : workerRecord P key elem.msg draws = some record)
    (hs : step P u (.worker (.emit draws .ok)) = some v) (hrun : (machine P).Run v v') :
    ¬ v'.sh.FileClosed elem.log := by
  obtain ⟨w, hlog, hzlog⟩ :
      ∃ w, (u.sh.loggers elem.log).log = some w ∧ (u.sh.loggers elem.log).zlog = none := by
    simp only [Shared.released, Bool.and_eq_true, Option.isSome_iff_exists,
      Option.isNone_iff_eq_none] at hrel
    obtain ⟨⟨w, hlog⟩, hzlog⟩ := hrel
    exact ⟨w, hlog, hzlog⟩
  have hleak : v.sh.Leaked elem.log w := by
    simp only [step, hemit, workerStep, hrec, hlog] at hs
    cases hs
    exact ⟨hlog, hzlog, by simp [Shared.modifyWriter_writers]⟩
  have hlast := run_leaked (reach_step hu hs) hrun hleak
  intro hclosed
  have hclosed := hclosed w hlast.log
  rw [hlast.isOpen] at hclosed
  cases hclosed

theorem fileClosed_of_return (T : (machine P).Trace n) {l : Ptr} {k : Nat} (hk : k < n)
    (hclose : CloseReturns (T.state k) (T.action k) l)
    (hwrites : ∀ j < k, writesReleased P l (T.state j) (T.action j) = false) :
    (T.state (k + 1)).sh.FileClosed l := by
  obtain ⟨g, t, mark, early, hx, ht, hpc⟩ := hclose
  have hs : step P _ _ = some _ := T.step k hk
  have hnot : writesReleased P l (T.state k) (T.action k) = false := by
    rw [hx]
    rfl
  have hreach := step_reachable (T.reach hk.le) hs hnot (run_reachable T hk.le hwrites)
  rw [hx] at hs
  obtain ⟨t', pc', ht', hstep, -⟩ := step_go hs
  cases Option.some.inj (ht.symm.trans ht')
  rw [hpc] at hstep
  intro w hlog
  rw [← Bool.not_eq_true]
  intro hopen
  have hzlog := hreach w hlog hopen
  generalize (T.state (k + 1)).sh = s' at hstep hzlog
  cases hstep
  simp at hzlog

/-- In every run, whatever the other goroutines do: when a `Close` of `l` returns, the file of the
    writer of `l` is closed if and only if the worker has not written a message of `l` after an
    earlier `Close` had released the writer. -/
theorem close_releases_iff (T : (machine P).Trace n) (l : Ptr) :
    ∀ k < n, CloseReturns (T.state k) (T.action k) l →
      ((T.state (k + 1)).sh.FileClosed l ↔
        ∀ j < k, writesReleased P l (T.state j) (T.action j) = false) := by
  intro k hk hclose
  refine ⟨fun hclosed j hj => ?_, fileClosed_of_return T hk hclose⟩
  rw [← Bool.not_eq_true]
  intro hwrites
  obtain ⟨draws, elem, key, hact, hemit, rfl, hrel, hrec⟩ := writesReleased_iff.mp hwrites
  obtain ⟨record, hrec⟩ := Option.isSome_iff_exists.mp hrec
  have hs : step P _ _ = some _ := T.step j (hj.trans hk)
  rw [hact] at hs
  exact write_released_leaks (T.reach (hj.trans hk).le) hrel hemit hrec hs
    (T.run (Nat.succ_le_of_lt (hj.trans (Nat.lt_succ_self k))) hk) hclosed

/-- `l.Close()` with nothing in flight. -/
def closeCall (g : Gid) (l : Ptr) : List Action := .go g (.call (.close l)) :: steps g 7

/-- A message is printed and written, and the logger is closed. -/
def printClose : List Action :=
  .spawn :: newLoggerCall 0 [97] ++ printCall 0 1 [104] ++ workerWrites unitDraws ++
    [.worker .tau] ++ closeCall 0 1

theorem printClose_runs :
    ((machine unitPrimitives).exec (machine unitPrimitives).init printClose).isSome := by
  decide +kernel

def printCloseTrace : (machine unitPrimitives).Trace printClose.length :=
  .ofExec printClose printClose_runs

theorem close_releases_iff_printClose : (printCloseTrace.state 27).sh.FileClosed 1 := by
  have hwrites : ∀ j < 26, writesReleased unitPrimitives 1 (printCloseTrace.state j)
      (printCloseTrace.action j) = false := by decide +kernel
  refine (close_releases_iff printCloseTrace 1 26 (by decide) ?_).mpr hwrites
  exact ⟨0, ⟨.close 1 1 false true, 3⟩, 1, false, rfl, by decide +kernel, rfl⟩

/-- The logger is printed to again, the message is written, and the logger is closed again. -/
def printCloseTwice : List Action :=
  printClose ++ printCall 0 1 [105] ++ List.replicate 6 (.worker .tau) ++
    [.worker (.emit unitDraws .ok), .worker .tau] ++ closeCall 0 1

theorem printCloseTwice_runs :
    ((machine unitPrimitives).exec (machine unitPrimitives).init printCloseTwice).isSome := by
  decide +kernel

def printCloseTwiceTrace : (machine unitPrimitives).Trace printCloseTwice.length :=
  .ofExec printCloseTwice printCloseTwice_runs

/-- In a state with one goroutine that one uses every logger. -/
theorem State.usedBy_single {u : State} {l : Ptr} (h : u.threads.length ≤ 1) : u.UsedBy l 0 := by
  intro g t ht _
  exact Nat.lt_one_iff.mp ((List.getElem?_eq_some_iff.mp ht).1.trans_le h)

theorem second_close_leaks :
    ¬ ∀ (n : Nat) (T : (machine unitPrimitives).Trace n) (l : Ptr) (g : Gid),
      (∀ k ≤ n, (T.state k).UsedBy l g) →
      ∀ k < n, CloseReturns (T.state k) (T.action k) l → (T.state (k + 1)).sh.FileClosed l := by
  intro h
  have hsingle : ∀ k < 48, (printCloseTwiceTrace.state k).threads.length ≤ 1 := by decide +kernel
  have hclosed := h 47 printCloseTwiceTrace 1 0
    (fun k hk => State.usedBy_single (hsingle k (Nat.lt_succ_of_le hk)))
    46 (by decide) ⟨0, ⟨.close 1 2 false true, 5⟩, 2, false, rfl, by decide +kernel, rfl⟩
  have hopen := hclosed 0 (by decide +kernel)
  exact absurd hopen (by decide +kernel)

end Runs

section Pending

variable {P : Primitives} {g : Gid} {seq : Nat} {s s' : Shared} {pc pc' : Pc} {i : Input} {l : Ptr}
  {wpc wpc' : WorkerPc} {wi : WorkerInput}

/-! ## What is pending -/

/-- Nothing of `l` is on its way to the writer. -/
structure State.Quiet (u : State) (l : Ptr) : Prop where
  queued : ∀ m ∈ u.sh.tologCh, m.log ≠ l
  inHand : ∀ m, u.worker.inHand = some m → m.log ≠ l

/-- The worker puts nothing on its way. -/
theorem WorkerStep.pending (h : WorkerStep P s wpc wi wpc' s') {m : LoggerMessage}
    (hm : m ∈ s'.tologCh ∨ wpc'.inHand = some m) :
    m ∈ s.tologCh ∨ wpc.inHand = some m := by
  cases h with
  | receive hq =>
    rcases hm with hm | hm
    · exact .inl (hq ▸ List.mem_cons_of_mem _ hm)
    · cases hm
      exact .inl (hq ▸ List.mem_cons_self)
  | skipped | wrote | doneReturns | doneWakes | donePanics | checked | woke
  | checkPanics =>
    rcases hm with hm | hm
    · exact .inl hm
    · cases hm
  | _ => exact hm

/-- A goroutine comes to a `print` by calling it. -/
theorem GoStep.prints (h : GoStep g seq s pc i pc' s') {msg : Bytes} {ph : PrintPhase}
    (hpc : pc' = .print l msg ph) :
    (∃ msg' ph', pc = .print l msg' ph') ∨ ∃ text, i = .call (.print l text) := by
  cases h with
  | callPrint =>
    cases hpc
    exact .inr ⟨_, rfl⟩
  | gateOpen | sourcePath | depthLock | startRead | fallsBack | headed | added | addWakes | full
  | dropWakes | checked | readded =>
    cases hpc
    exact .inl ⟨_, _, rfl⟩
  | @waitEarly l' mark k | @waitClear l' mark k => cases k <;> cases hpc
  | waitPanics =>
    rw [unwindWait_fst] at hpc
    cases hpc
  | _ => cases hpc

/-- A step sends nothing of `l` when nobody is inside a `print` of `l`. -/
theorem State.Quiet.step {u v : State} {x : Action} (hs : step P u x = some v) (hu : u.Quiet l)
    (hnone : ∀ t ∈ u.threads, ∀ msg ph, t.pc ≠ .print l msg ph) : v.Quiet l := by
  rcases step_cases hs with ⟨-, rfl⟩ | ⟨g, i, t, pc, sh, -, ht, hstep, rfl⟩ |
    ⟨i, wpc, sh, -, hstep, rfl⟩
  · exact ⟨hu.queued, hu.inHand⟩
  · refine ⟨?_, hu.inHand⟩
    intro m hm
    rcases hstep.queue with ⟨-, hq⟩ | ⟨l', msg, hpc, -, -, hq, -⟩
    · exact hu.queued m (hq ▸ hm)
    · have hm : m ∈ u.sh.tologCh ++ [⟨msg, l', (g, t.seq)⟩] := hq ▸ hm
      rw [List.mem_append, List.mem_singleton] at hm
      rcases hm with hm | rfl
      · exact hu.queued m hm
      · intro hl
        have hl : l' = l := hl
        subst hl
        exact hnone t (List.mem_of_getElem? ht) _ _ hpc
  · refine ⟨fun m hm => ?_, fun m hm => ?_⟩
    · rcases hstep.pending (.inl hm) with hm | hm
      · exact hu.queued m hm
      · exact hu.inHand m hm
    · rcases hstep.pending (.inr hm) with hm | hm
      · exact hu.queued m hm
      · exact hu.inHand m hm

/-- With a zero counter nothing is on its way. -/
theorem State.quiet_of_counter {u : State} (h : (machine P).Reach u)
    (hadd : .printAdd l ∉ u.sh.panics) (hc : u.sh.counter l = 0) : u.Quiet l := by
  have hb := (reach_balanced h hadd).counter
  refine ⟨fun m hm hl => ?_, fun m hm hl => ?_⟩
  · have hpos : 0 < u.sh.queued l := List.countP_pos_iff.mpr ⟨m, hm, decide_eq_true hl⟩
    omega
  · have hholds : u.worker.holds l = true := by
      simp [WorkerPc.holds, WorkerPc.owed_of_inHand hm, hl]
    rw [hholds, Bool.toNat_true] at hb
    omega

end Pending

/-! ## One goroutine uses the logger -/

/-- `logTasks.Wait` is behind, in `Wait` or `Close`. -/
def Pc.waited (l : Ptr) : Pc → Bool
  | .wait l' _ _ .relock | .wait l' _ _ .clear | .close l' _ _ _ => l' = l
  | _ => false

theorem Pc.uses_of_waited {l : Ptr} {pc : Pc} (h : pc.waited l = true) : pc.uses l = true := by
  unfold Pc.waited at h
  split at h
  · exact h
  · exact h
  · exact h
  · cases h

theorem Pc.not_prints_of_waited {l : Ptr} {pc : Pc} (h : pc.waited l = true) (msg : Bytes)
    (ph : PrintPhase) : pc ≠ .print l msg ph := by
  intro he
  rw [he] at h
  cases h


section Solo

variable {P : Primitives} {g : Gid} {seq : Nat} {s s' : Shared} {pc pc' : Pc} {i : Input} {l : Ptr}
  {wpc wpc' : WorkerPc} {wi : WorkerInput}

/-- `logTasks.Wait` is left with a zero counter; with the flag set it was not entered. -/
theorem GoStep.waited (h : GoStep g seq s pc i pc' s') (hpc : pc'.waited l = true) :
    pc.uses l = true ∧ (pc.waited l = true ∨
      (s.counter l = 0 ∧ ∀ msg ph, pc ≠ .print l msg ph) ∨
      ((s.loggers l).waitStarted = 1 ∧ pc.waiting l = false ∧ ∀ msg ph, pc ≠ .print l msg ph)) := by
  cases h with
  | @waitThrough l' mark k henter =>
    have hl : l' = l := of_decide_eq_true hpc
    subst hl
    exact ⟨hpc, .inr (.inl ⟨(WaitGroup.enter_none_iff _).mp henter, by simp⟩)⟩
  | @waitWake l' mark k wg hwake =>
    have hl : l' = l := of_decide_eq_true hpc
    subst hl
    exact ⟨hpc, .inr (.inl ⟨(WaitGroup.wake_counter hwake).2 rfl, by simp⟩)⟩
  | waitRelock | closeLock => exact ⟨hpc, .inl hpc⟩
  | @waitEarly l' mark k hflag =>
    cases k with
    | close =>
      have hl : l' = l := of_decide_eq_true hpc
      subst hl
      exact ⟨hpc, .inr (.inr ⟨hflag, rfl, by simp⟩)⟩
    | _ => cases hpc
  | @waitClear l' mark k =>
    cases k with
    | close => exact ⟨hpc, .inl hpc⟩
    | _ => cases hpc
  | waitPanics =>
    rw [unwindWait_fst] at hpc
    cases hpc
  | _ => cases hpc

end Solo

/-- What holds of `l` as long as only `g` uses it and does not print once it is released. -/
structure State.Solo (u : State) (l : Ptr) (g : Gid) : Prop where
  quiet : u.sh.released l = true →
    u.Quiet l ∧ ∀ t ∈ u.threads, ∀ msg ph, t.pc ≠ .print l msg ph
  waited : ∀ t, u.threads[g]? = some t → t.pc.waited l = true → u.Quiet l
  /-- Nobody adds to the counter while `g` is being woken. -/
  calm : 0 < (u.sh.loggers l).logTasks.sema → u.sh.counter l = 0
  unpanicked : u.sh.panics.count (.wait l) = 0
  /-- No `print` adds while `g` sleeps. -/
  unadded : .printAdd l ∉ u.sh.panics

/-- A `Print` of `l` begins, and the writer of `l` has been released. -/
def printsReleased (l : Ptr) (u : State) : Action → Bool
  | .go _ (.call (.print l' _)) => l' = l && u.sh.released l
  | _ => false

section Machine

variable {P : Primitives} {u v : State} {x : Action} {l : Ptr} {g : Gid}

theorem State.UsedBy.prints {t : Thread} (hu : u.UsedBy l g) (ht : u.threads[g]? = some t)
    (hpc : ∀ msg ph, t.pc ≠ .print l msg ph) :
    ∀ t' ∈ u.threads, ∀ msg ph, t'.pc ≠ .print l msg ph := by
  intro t' ht' msg ph hpc'
  obtain ⟨g', hg'⟩ := List.mem_iff_getElem?.mp ht'
  have hg := hu g' t' hg' (by simp [hpc', Pc.uses])
  subst hg
  cases Option.some.inj (ht.symm.trans hg')
  exact hpc msg ph hpc'

theorem Pc.uses_of_parked {pc : Pc} (h : pc.parked l = true) : pc.uses l = true := by
  unfold Pc.parked at h
  split at h
  · exact h
  · cases h

theorem State.Solo.unadded_step (hr : (machine P).Reach u) (hs : step P u x = some v)
    (hu : u.UsedBy l g) (h : u.Solo l g) : .printAdd l ∉ v.sh.panics := by
  rcases step_cases hs with ⟨-, rfl⟩ | ⟨g₁, i, t, pc, sh, -, ht, hstep, rfl⟩ |
    ⟨i, wpc, sh, -, hstep, rfl⟩
  · exact h.unadded
  · intro hp
    have hb := reach_balanced hr h.unadded
    rcases hb.due_of_addPanic hr ht hstep hp with hold | ⟨⟨msg, headed, hpc⟩, hdue⟩
    · exact h.unadded hold
    · -- the one who prints would be asleep
      obtain ⟨g₂, t₂, ht₂, hpark⟩ := hb.parked_of_due hdue
      have hg := hu g₁ t ht (by simp [hpc, Pc.uses])
      have hg₂ := hu g₂ t₂ ht₂ (Pc.uses_of_parked hpark)
      rw [hg₂, ← hg, ht] at ht₂
      cases ht₂
      rw [hpc] at hpark
      cases hpark
  · exact fun hp => h.unadded (hstep.addPanic hp)

theorem State.Solo.calm_step (hr : (machine P).Reach u) (hs : step P u x = some v)
    (hu : u.UsedBy l g) (hv : v.UsedBy l g) (h : u.Solo l g)
    (hsema : 0 < (v.sh.loggers l).logTasks.sema) : v.sh.counter l = 0 := by
  -- who will wake up is asleep, and is `g`
  obtain ⟨t', ht', hpark⟩ : ∃ t', v.threads[g]? = some t' ∧ t'.pc.parked l = true := by
    have hcount := (reach_balanced (reach_step hr hs) (h.unadded_step hr hs hu)).parked
    have hpos : 0 < v.parked l := by
      rw [← hcount, Shared.sleepers, WaitGroup.sleepers]
      omega
    obtain ⟨t', hmem, hpark⟩ := List.countP_pos_iff.mp hpos
    obtain ⟨g', hg'⟩ := List.mem_iff_getElem?.mp hmem
    rw [hv g' t' hg' (Pc.uses_of_parked hpark)] at hg'
    exact ⟨t', hg', hpark⟩
  rcases step_cases hs with ⟨-, rfl⟩ | ⟨g₁, i, t, pc, sh, -, ht, hstep, rfl⟩ |
    ⟨i, wpc, sh, -, hstep, rfl⟩
  · exact h.calm hsema
  · rcases threads_set ht' with ⟨hg, rfl⟩ | ⟨hg, -⟩
    · obtain ⟨mark, k, wg, -, henter, hwg⟩ := hstep.parks hpark
      have hsema' : 0 < (u.sh.loggers l).logTasks.sema := by
        rw [← WaitGroup.enter_sema henter, ← hwg]
        exact hsema
      rw [Shared.counter, hwg, WaitGroup.enter_counter henter]
      exact h.calm hsema'
    · have hout : t.pc.uses l = false := by
        rw [← Bool.not_eq_true]
        intro huses
        exact hg (hu g₁ t ht huses).symm
      have hsame := hstep.logTasks (reach_wf hr).shared (l := l)
        (fun msg ph he => by simp [he, Pc.uses] at hout)
        (fun mark k ph he => by simp [he, Pc.uses] at hout)
      rw [Shared.counter, hsame]
      exact h.calm (hsame ▸ hsema)
  · rcases hstep.logTasks l with ⟨hsame, -⟩ | ⟨hholds, hdone, -⟩ | ⟨w, -, -, hreset⟩
    · rw [Shared.counter, hsame]
      exact h.calm (hsame ▸ hsema)
    · -- the message the worker holds is counted
      have hsema' : 0 < (u.sh.loggers l).logTasks.sema := by
        rw [← (WaitGroup.add_waiters (u.sh.loggers l).logTasks (-1)).2]
        exact hdone ▸ hsema
      have hzero := h.calm hsema'
      have hpos := (reach_balanced hr h.unadded).counter_pos_of_holds hholds
      omega
    · rw [Shared.counter, hreset, WaitGroup.reset_counter]

theorem State.Solo.unpanicked_step (hr : (machine P).Reach u) (hs : step P u x = some v)
    (h : u.Solo l g) : v.sh.panics.count (.wait l) = 0 := by
  rcases step_cases hs with ⟨-, rfl⟩ | ⟨g₁, i, t, pc, sh, -, ht, hstep, rfl⟩ |
    ⟨i, wpc, sh, -, hstep, rfl⟩
  · exact h.unpanicked
  · rcases hstep.waitPanic l with hsame | ⟨mark, k, wg, hpc, hwake⟩
    · exact hsame.trans h.unpanicked
    · obtain ⟨hsema, hreused⟩ := WaitGroup.wake_false hwake
      have hcounter : (u.sh.loggers l).logTasks.counter = 0 := h.calm hsema
      have hcount := (reach_balanced hr h.unadded).parked
      have hle := reach_parked_le hr l
      simp only [Shared.sleepers, WaitGroup.sleepers] at hcount
      exact absurd ⟨hcounter, by omega⟩ hreused
  · exact (hstep.waitPanic l).trans h.unpanicked

theorem State.Solo.waited_step (hr : (machine P).Reach u) (hs : step P u x = some v)
    (hu : u.UsedBy l g) (h : u.Solo l g) :
    ∀ t, v.threads[g]? = some t → t.pc.waited l = true → v.Quiet l := by
  intro t' ht' hpc'
  -- the place of `g` before the step, and why nothing is pending there
  suffices hbefore : u.Quiet l ∧ ∀ t ∈ u.threads, ∀ msg ph, t.pc ≠ .print l msg ph by
    exact hbefore.1.step hs hbefore.2
  have hstays : u.threads[g]? = some t' →
      u.Quiet l ∧ ∀ t ∈ u.threads, ∀ msg ph, t.pc ≠ .print l msg ph := fun ht =>
    ⟨h.waited t' ht hpc', hu.prints ht (Pc.not_prints_of_waited hpc')⟩
  rcases step_cases hs with ⟨-, rfl⟩ | ⟨g₁, i, t, pc, sh, -, ht, hstep, rfl⟩ |
    ⟨i, wpc, sh, -, hstep, rfl⟩
  · rcases threads_spawn ht' with rfl | ht'
    · cases hpc'
    · exact hstays ht'
  · rcases threads_set ht' with ⟨rfl, rfl⟩ | ⟨-, ht'⟩
    · obtain ⟨huses, hwaited | ⟨hcounter, hpc⟩ | ⟨hflag, hnot, hpc⟩⟩ := hstep.waited hpc'
      · exact ⟨h.waited t ht hwaited, hu.prints ht (Pc.not_prints_of_waited hwaited)⟩
      · exact ⟨State.quiet_of_counter hr h.unadded hcounter, hu.prints ht hpc⟩
      · -- the flag would be another goroutine's
        have hgate := (reach_gated hr l).gate
        have hpos : 0 < u.waiting l := by
          rw [h.unpanicked] at hgate
          omega
        obtain ⟨t₂, hmem, hwaits⟩ := List.countP_pos_iff.mp hpos
        obtain ⟨g₂, hg₂⟩ := List.mem_iff_getElem?.mp hmem
        have huses₂ : t₂.pc.uses l = true := by
          obtain ⟨mark, k, ph, hpc₂⟩ := Pc.waiting_wait hwaits
          simp [hpc₂, Pc.uses]
        rw [hu g₂ t₂ hg₂ huses₂, ht] at hg₂
        cases hg₂
        rw [hnot] at hwaits
        cases hwaits
    · exact hstays ht'
  · exact hstays ht'

theorem State.Solo.quiet_step (hr : (machine P).Reach u) (hs : step P u x = some v)
    (hu : u.UsedBy l g) (hv : v.UsedBy l g) (hprint : printsReleased l u x = false)
    (h : u.Solo l g) (hrel : v.sh.released l = true) :
    v.Quiet l ∧ ∀ t ∈ v.threads, ∀ msg ph, t.pc ≠ .print l msg ph := by
  rcases step_cases hs with ⟨-, rfl⟩ | ⟨g₁, i, t, pc, sh, rfl, ht, hstep, rfl⟩ |
    ⟨i, wpc, sh, -, hstep, rfl⟩
  · obtain ⟨hquiet, hnone⟩ := h.quiet hrel
    refine ⟨hquiet.step hs hnone, fun t ht => ?_⟩
    rw [List.mem_append, List.mem_singleton] at ht
    rcases ht with ht | rfl
    · exact hnone t ht
    · simp
  · have hnew := List.getElem?_set_self (a := (⟨pc, t.nextSeq i⟩ : Thread))
      (List.getElem?_eq_some_iff.mp ht).1
    rcases hstep.zlog (reach_wf hr).shared l with hsame | ⟨-, mark, early, hpc⟩
    · have hrel' : u.sh.released l = true := by
        rw [Shared.released, ← hstep.log (reach_wf hr).shared, ← hsame]
        exact hrel
      obtain ⟨hquiet, hnone⟩ := h.quiet hrel'
      refine ⟨hquiet.step hs hnone, fun t' ht' msg ph hpc' => ?_⟩
      rcases List.mem_or_eq_of_mem_set ht' with ht' | rfl
      · exact hnone t' ht' msg ph hpc'
      · rcases hstep.prints hpc' with ⟨msg', ph', hpc⟩ | ⟨text, rfl⟩
        · exact hnone t (List.mem_of_getElem? ht) msg' ph' hpc
        · simp [printsReleased, hrel'] at hprint
    · -- `Close` has just released the writer
      have hwaited : t.pc.waited l = true := by simp [hpc, Pc.waited]
      have hg := hu g₁ t ht (Pc.uses_of_waited hwaited)
      subst hg
      have hquiet := h.waited t ht hwaited
      have hnone := hu.prints ht (Pc.not_prints_of_waited hwaited)
      refine ⟨hquiet.step hs hnone, hv.prints hnew fun msg ph hpc' => ?_⟩
      rcases hstep.prints hpc' with ⟨msg', ph', hprints⟩ | ⟨text, rfl⟩
      · rw [hpc] at hprints
        cases hprints
      · rw [hpc] at hstep
        cases hstep
  · rcases hstep.writer l with ⟨hlog, hsame⟩ | heq
    · have hrel' : u.sh.released l = true := by
        rw [Shared.released, ← hlog, ← hsame]
        exact hrel
      obtain ⟨hquiet, hnone⟩ := h.quiet hrel'
      exact ⟨hquiet.step hs hnone, hnone⟩
    · have hrel : sh.released l = true := hrel
      rw [Shared.released, heq] at hrel
      cases hz : (sh.loggers l).zlog <;> simp [hz] at hrel

theorem State.Solo.step (hr : (machine P).Reach u) (hs : step P u x = some v)
    (hu : u.UsedBy l g) (hv : v.UsedBy l g) (hprint : printsReleased l u x = false)
    (h : u.Solo l g) : v.Solo l g where
  quiet := h.quiet_step hr hs hu hv hprint
  waited := h.waited_step hr hs hu
  calm := h.calm_step hr hs hu hv
  unpanicked := h.unpanicked_step hr hs
  unadded := h.unadded_step hr hs hu

end Machine

section SoloRuns

variable {P : Primitives} {n : Nat}

theorem solo_run (T : (machine P).Trace n) {l : Ptr} {g : Gid}
    (halone : ∀ k ≤ n, (T.state k).UsedBy l g)
    (hprint : ∀ k < n, printsReleased l (T.state k) (T.action k) = false) {k : Nat} (hk : k ≤ n) :
    (T.state k).Solo l g := by
  refine T.along (P := fun k => (T.state k).Solo l g) (Nat.zero_le k) hk ?_ ?_
  · rw [T.start]
    exact ⟨by simp [machine, Shared.released], by simp [machine], by simp [machine], rfl,
      by simp [machine]⟩
  · intro j _ hj hs h
    have hjn := hj.trans_le hk
    exact h.step (T.reach hjn.le) hs (halone j hjn.le) (halone (j + 1) hjn) (hprint j hjn)

/-- In every run in which only `g` uses `l` and no `Print` of `l` begins after a `Close` has
    released its writer, the file is closed whenever a `Close` returns. -/
theorem solo_close_releases (T : (machine P).Trace n) (l : Ptr) (g : Gid)
    (halone : ∀ k ≤ n, (T.state k).UsedBy l g)
    (hprint : ∀ k < n, printsReleased l (T.state k) (T.action k) = false) :
    ∀ k < n, CloseReturns (T.state k) (T.action k) l → (T.state (k + 1)).sh.FileClosed l := by
  intro k hk hclose
  refine fileClosed_of_return T hk hclose fun j hj => ?_
  rw [← Bool.not_eq_true]
  intro hwrites
  obtain ⟨draws, elem, key, -, hemit, hl, hrel, -⟩ := writesReleased_iff.mp hwrites
  have hquiet := ((solo_run T halone hprint (hj.trans hk).le).quiet hrel).1
  exact hquiet.inHand elem (by rw [hemit]; rfl) hl

end SoloRuns

end ZipoLogger
