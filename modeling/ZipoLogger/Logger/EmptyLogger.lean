/-
  `EmptyLogger`, "a logger that writes nowhere", and what its methods do.

  `Print`, `printf` and `Println` repeat a test for it and return their text; the others run as
  for any logger, on its zero value. `callMethod` runs one call to its end with no step of another
  goroutine in between, directly or through a `GostLogger`, and `NoOps` says of a sequence of
  calls that each returns its plain text and leaves the package alone.

  `LimitedPrintf` lacks the test and calls a method of the nil cache, and `Logf` takes its first
  argument without looking whether there is one. Every sequence without these two is a no-op, from
  any reachable state in which nobody is inside a method of `EmptyLogger` (`emptyLogger_noop`).

  `fmt` is a parameter: its functions return a text for any arguments.
-/
import ZipoLogger.Logger.RateLimit
import ZipoLogger.Logger.Accounting
import ZipoLogger.Logger.Delivery
import ZipoLogger.Logger.Locks
import ZipoLogger.Logger.Parked

namespace ZipoLogger

open Enc

/-! ## The methods -/

/-- The functions of `fmt` the methods call. -/
structure Fmt (α : Type) where
  sprintf : Bytes → List α → Bytes
  sprint : List α → Bytes
  sprintln : List α → Bytes

/-- The methods of `*Logger`, and `Log` and `Logf` of a `*GostLogger` around one. -/
inductive Method (α : Type) where
  | print (format : Bytes)
  | printf (format : Bytes) (w1 : α) (w2 : List α)
  | println (w : List α)
  | limitedPrintf (printid : Bytes) (duration : Int) (format : Bytes) (w1 : α) (w2 : List α)
  | log (v : List α)
  | logf (format : Bytes) (v : List α)
  | wait
  | flush
  | close
  /-- `WriteSourcePath`, `WriteDateTime`, `SetAlsoToStdout`, `SetEncryptionKey` -/
  | set (x : Setter)

/-- What a method does first. -/
inductive Entered where
  | returns (text : Option Bytes)
  | panics
  | goes (a : LimitedAction)

section Methods

variable {α : Type}

/-- `Print`, `printf` and `Println` from their test on. -/
def enterPrint (s : Shared) (g : Gid) (l : Ptr) (formatted : Bytes) : Entered :=
  if s.isNop l then .returns (some formatted)
  else .goes (.base (.go g (.call (.print l formatted))))

/-- A method that returns nothing drops the text. -/
def Entered.drop : Entered → Entered
  | .returns _ => .returns none
  | e => e

/-- The code of the method before its first step on the state. -/
def Method.enter (F : Fmt α) (s : Shared) (g : Gid) (l : Ptr) : Method α → Entered
  | .print format => enterPrint s g l format
  | .printf format w1 w2 => enterPrint s g l (F.sprintf format (w1 :: w2))
  | .println [] => .returns (some [])
  | .println (w :: ws) => enterPrint s g l (F.sprintln (w :: ws))
  | .limitedPrintf printid duration format w1 w2 =>
    .goes (.call g ⟨l, printid, duration, F.sprintf format (w1 :: w2)⟩)
  | .log v => (enterPrint s g l (F.sprint v)).drop
  | .logf _ [] => .panics
  | .logf format (v0 :: v) => (enterPrint s g l (F.sprintf format (v0 :: v))).drop
  | .wait | .flush => .goes (.base (.go g (.call (.wait l))))
  | .close => .goes (.base (.go g (.call (.close l))))
  | .set x => .goes (.base (.go g (.call (.set l x))))

/-! ## A call without interference -/

/-- The goroutine is inside no call. -/
def LimitedState.atRest (s : LimitedState) (g : Gid) : Bool :=
  s.places g = .idle && (s.base.threads[g]?.map Thread.pc = some .idle)

/-- What the prefixes of a `print` are made from. -/
structure Surroundings where
  dir : Bytes
  rt : Frame
  callers : List Frame
  stamp : Bytes

/-- The next step of a goroutine inside a call. -/
def LimitedState.next (s : LimitedState) (g : Gid) (env : Surroundings) : LimitedAction :=
  if s.places g ≠ .idle then .step g
  else
    match s.base.threads[g]? with
    | some ⟨.print l _ (.add headed), _⟩ =>
      if headed || !(s.base.sh.loggers l).logSourcePath then .base (.go g (.stamp env.stamp))
      else .base (.go g .tau)
    | some ⟨.print _ _ (.depth (.max _ _) true), _⟩ =>
      .base (.go g (.callers env.dir env.rt env.callers))
    | _ => .base (.go g .tau)

/-- The steps of a goroutine up to the end of its call. -/
def finish (P : Primitives) (g : Gid) (env : Surroundings) :
    Nat → LimitedState → Option LimitedState
  | 0, s => if s.atRest g then some s else none
  | fuel + 1, s =>
    if s.atRest g then some s
    else
      match limitedStep P s (s.next g env) with
      | none => none
      | some s' => finish P g env fuel s'

/-- How a call ends. -/
inductive Result where
  /-- with the text it returns, where it returns one at once -/
  | returned (text : Option Bytes)
  | panicked
  deriving DecidableEq

/-- The panics of the state. -/
def LimitedState.panicked (s : LimitedState) : List PanicSite × List Gid :=
  (s.base.sh.panics, s.nilPanics)

/-- A call of a method of the logger at `l`, alone. -/
def callMethod (P : Primitives) (F : Fmt α) (g : Gid) (l : Ptr) (env : Surroundings) (fuel : Nat)
    (s : LimitedState) (m : Method α) : Option (Result × LimitedState) :=
  match m.enter F s.base.sh g l with
  | .returns text => some (.returned text, s)
  | .panics => some (.panicked, s)
  | .goes a =>
    match limitedStep P s a with
    | none => none
    | some s₁ =>
      match finish P g env fuel s₁ with
      | none => none
      | some s₂ =>
        some (if s₂.panicked = s.panicked then .returned none else .panicked, s₂)

/-! ## What a no-op is -/

/-- The text a method returns of its arguments alone. `Println` without arguments returns the
    empty text. -/
def Method.text (F : Fmt α) : Method α → Option Bytes
  | .print format => some format
  | .printf format w1 w2 => some (F.sprintf format (w1 :: w2))
  | .println [] => some []
  | .println (w :: ws) => some (F.sprintln (w :: ws))
  | _ => none

/-- Two states of the package that differ in the settings of `EmptyLogger` at most. -/
structure Unchanged (s s' : Shared) : Prop where
  tologCh : s'.tologCh = s.tologCh
  accepted : s'.accepted = s.accepted
  stdout : s'.stdout = s.stdout
  writers : s'.writers = s.writers
  nwri : s'.nwri = s.nwri
  log : ∀ l, (s'.loggers l).log = (s.loggers l).log
  counter : ∀ l, s'.counter l = s.counter l
  waitStarted : ∀ l, (s'.loggers l).waitStarted = (s.loggers l).waitStarted
  others : ∀ l, l ≠ emptyLogger → s'.loggers l = s.loggers l

/-- Each call of the sequence on `EmptyLogger` returns its plain text and changes nothing. -/
def NoOps (P : Primitives) (F : Fmt α) (g : Gid) (env : Surroundings) (fuel : Nat) :
    LimitedState → List (Method α) → Prop
  | _, [] => True
  | s, m :: ms => ∃ s', callMethod P F g emptyLogger env fuel s m =
      some (.returned (m.text F), s') ∧ Unchanged s.base.sh s'.base.sh ∧
        NoOps P F g env fuel s' ms

/-- The methods that `EmptyLogger` supports. -/
def Method.Supported : Method α → Prop
  | .limitedPrintf .. => False
  | .logf _ [] => False
  | _ => True

end Methods

/-! ## `EmptyLogger` in every run -/

section Steps

variable {P : Primitives} {g : Gid} {seq : Nat} {s s' : Shared} {pc pc' : Pc} {i : Input} {l : Ptr}
  {wpc wpc' : WorkerPc} {wi : WorkerInput}

/-- Only a call of a logger that is not a no-op leads into `print`. -/
theorem GoStep.enters_print {msg : Bytes} {ph : PrintPhase} (h : GoStep g seq s pc i pc' s')
    (hpc : pc' = .print l msg ph) : (∃ msg ph, pc = .print l msg ph) ∨ s.isNop l = false := by
  cases h with
  | callPrint _ hnop =>
    cases hpc
    exact .inr hnop
  | gateOpen | sourcePath | depthLock | startRead | fallsBack | headed | added | addWakes | full
  | dropWakes | checked | readded =>
    cases hpc
    exact .inl ⟨_, _, rfl⟩
  | @waitEarly _ _ k | @waitClear _ _ k | @waitPanics _ _ k => cases k <;> cases hpc
  | _ => cases hpc

/-- A `Wait` that finds nothing in flight passes through. -/
theorem GoStep.wait_passes {mark : Nat} {k : Cont} {ph : WaitPhase}
    (h : GoStep g seq s (.wait l mark k ph) i pc' s') (h0 : (s.loggers l).logTasks = {}) :
    (s'.loggers l).logTasks = {} := by
  cases h with
  | waitPark henter =>
    rw [h0] at henter
    cases henter
  | waitWake hwake | waitPanics hwake =>
    rw [h0] at hwake
    cases hwake
  | waitEarly | waitClear =>
    rw [afterWait_snd]
    simpa using h0
  | waitLock | waitSet | waitRelock => simpa using h0
  | waitThrough => exact h0

/-- The worker assigns to the logger of the message in its hands only. -/
theorem WorkerStep.loggers_other (h : WorkerStep P s wpc wi wpc' s') (hl : l ∉ wpc.refs) :
    s'.loggers l = s.loggers l := by
  have hmod : ∀ l' f, l' ∈ wpc.refs → (s.modify l' f).loggers l = s.loggers l := by
    intro l' f hl'
    rw [Shared.modify_loggers, if_neg]
    intro he
    exact hl (he ▸ hl')
  cases h with
  | lock | ready | lockKey | doneReturns | doneWakes | woke =>
    exact hmod _ _ (by simp [WorkerPc.refs, WorkerPc.owed])
  | skipped =>
    rw [Shared.process_loggers]
    exact hmod _ _ (by simp [WorkerPc.refs, WorkerPc.owed])
  | donePanics =>
    rw [Shared.panic_loggers]
    exact hmod _ _ (by simp [WorkerPc.refs, WorkerPc.owed])
  | @key elem =>
    exact hmod elem.log (fun lg => { lg with em := none }) (by simp [WorkerPc.refs, WorkerPc.owed])
  | @created elem _ =>
    have hne : l ≠ elem.log := by
      intro he
      exact hl (by simp [WorkerPc.refs, WorkerPc.owed, he])
    rw [Shared.modify_loggers, if_neg hne]
    exact Function.update_of_ne hne _ _
  | _ => rfl

theorem WorkerStep.tologCh_subset (h : WorkerStep P s wpc wi wpc' s') :
    s'.tologCh ⊆ s.tologCh := by
  cases h with
  | receive hq =>
    rw [hq]
    exact List.subset_cons_self _ _
  | _ => exact List.Subset.refl _

theorem WorkerStep.refs (h : WorkerStep P s wpc wi wpc' s') (hl : l ∈ wpc'.refs) :
    l ∈ wpc.refs ∨ ∃ m ∈ s.tologCh, m.log = l := by
  cases h with
  | @receive elem rest hq =>
    have he : l = elem.log := by simpa [WorkerPc.refs, WorkerPc.owed] using hl
    exact .inr ⟨elem, by simp [hq], he.symm⟩
  | doneReturns | donePanics | woke | checkPanics =>
    simp [WorkerPc.refs, WorkerPc.owed] at hl
  | _ => exact .inl hl

end Steps

/-- `EmptyLogger` has no writer, no task and no message on its way, its locks are the user's, and
    no `Wait` on it has panicked. -/
structure State.EmptySilent (s : State) : Prop where
  noPrint : ∀ (g : Gid) (t : Thread), s.threads[g]? = some t →
    ∀ msg ph, t.pc ≠ .print emptyLogger msg ph
  queue : ∀ m ∈ s.sh.tologCh, m.log ≠ emptyLogger
  worker : emptyLogger ∉ s.worker.refs
  log : (s.sh.loggers emptyLogger).log = none
  zlog : (s.sh.loggers emptyLogger).zlog = none
  tasks : (s.sh.loggers emptyLogger).logTasks = {}
  locks : s.sh.holder (.m emptyLogger) ≠ some .worker ∧ s.sh.holder (.em emptyLogger) ≠ some .worker
  noPanic : s.sh.panics.count (.wait emptyLogger) = 0

section Runs

variable {P : Primitives}

/-- A step of a goroutine keeps `EmptyLogger` silent. -/
theorem State.EmptySilent.go {u : State} {g : Gid} {t : Thread} {i : Input} {pc : Pc} {sh : Shared}
    (hu : u.EmptySilent) (hwf : u.sh.Wf) (ht : u.threads[g]? = some t)
    (hstep : GoStep g t.seq u.sh t.pc i pc sh) :
    State.EmptySilent { u with sh, threads := u.threads.set g { pc, seq := t.nextSeq i } } where
  noPrint g' t' ht' msg ph hpc := by
    rcases threads_set ht' with ⟨rfl, rfl⟩ | ⟨-, ht'⟩
    · rcases hstep.enters_print hpc with ⟨msg', ph', hfrom⟩ | hnop
      · exact hu.noPrint g' t ht _ _ hfrom
      · simp [Shared.isNop] at hnop
    · exact hu.noPrint g' t' ht' msg ph hpc
  queue m hm := by
    rcases hstep.queue with ⟨-, hq⟩ | ⟨l, msg, hpc, -, -, hq, -⟩
    · exact hu.queue m (hq ▸ hm)
    · rcases List.mem_append.mp (hq ▸ hm) with hm | hm
      · exact hu.queue m hm
      · rw [List.mem_singleton.mp hm]
        rintro rfl
        exact hu.noPrint g t ht _ _ hpc
  worker := hu.worker
  log := (hstep.log hwf emptyLogger).trans hu.log
  zlog := by
    rcases hstep.zlog hwf emptyLogger with hz | ⟨hz, -⟩
    · exact hz.trans hu.zlog
    · exact hz
  tasks := by
    by_cases hwait : ∃ mark k ph, t.pc = .wait emptyLogger mark k ph
    · obtain ⟨mark, k, ph, hpc⟩ := hwait
      rw [hpc] at hstep
      exact hstep.wait_passes hu.tasks
    · exact (hstep.logTasks hwf (hu.noPrint g t ht) fun mark k ph h =>
        hwait ⟨mark, k, ph, h⟩).trans hu.tasks
  locks := ⟨(hstep.locks hwf _).not_worker hu.locks.1, (hstep.locks hwf _).not_worker hu.locks.2⟩
  noPanic := by
    rcases hstep.waitPanic emptyLogger with hp | ⟨_, _, _, -, hwake⟩
    · exact hp.trans hu.noPanic
    · rw [hu.tasks] at hwake
      cases hwake

/-- The worker does not see `EmptyLogger`. -/
theorem State.EmptySilent.work {u : State} {i : WorkerInput} {wpc : WorkerPc} {sh : Shared}
    (hu : u.EmptySilent) (hstep : WorkerStep P u.sh u.worker i wpc sh) :
    State.EmptySilent { u with sh, worker := wpc } := by
  have hsame := hstep.loggers_other hu.worker
  have hworker : emptyLogger ∉ wpc.refs := by
    intro hl
    rcases hstep.refs hl with hl | ⟨m, hm, hlog⟩
    · exact hu.worker hl
    · exact hu.queue m hm hlog
  refine ⟨hu.noPrint, fun m hm => hu.queue m (hstep.tologCh_subset hm), hworker, ?_, ?_, ?_, ?_,
    (hstep.waitPanic emptyLogger).trans hu.noPanic⟩
  · exact (congrArg Logger.log hsame).trans hu.log
  · exact (congrArg Logger.zlog hsame).trans hu.zlog
  · exact (congrArg Logger.logTasks hsame).trans hu.tasks
  · simp only [Shared.holder, hsame]
    exact hu.locks

theorem reach_emptySilent {s : State} (h : (machine P).Reach s) : s.EmptySilent := by
  refine reach_invariant (I := State.EmptySilent) h ?_ ?_ ?_ ?_
  · exact ⟨by simp, by simp, by simp [WorkerPc.refs, WorkerPc.owed], rfl, rfl, rfl,
      by simp [Shared.holder], by simp⟩
  · intro u _ hu
    refine { hu with noPrint := fun g t ht => ?_ }
    rcases threads_spawn ht with rfl | ht
    · exact fun _ _ => Pc.noConfusion
    · exact hu.noPrint g t ht
  · intro u g t i pc sh hreach hu ht hstep
    exact hu.go (reach_wf hreach).shared ht hstep
  · intro u i wpc sh _ hu hstep
    exact hu.work hstep

end Runs

/-! ## The calls on a free `EmptyLogger` -/

/-- Nobody is inside a method of `EmptyLogger`. -/
structure Shared.EmptyFree (s : Shared) : Prop where
  nlog : emptyLogger < s.nlog
  m : (s.loggers emptyLogger).m = none
  em : (s.loggers emptyLogger).em = none
  waitStarted : (s.loggers emptyLogger).waitStarted = 0
  tasks : (s.loggers emptyLogger).logTasks = {}
  zlog : (s.loggers emptyLogger).zlog = none

/-- A place at which a lock of a logger is held refers to the logger. -/
theorem Pc.mem_refs_of_locks {pc : Pc} {L : Lock} {l : Ptr} (h : L ∈ pc.locks)
    (hL : L = .m l ∨ L = .em l) : l ∈ pc.refs := by
  have hcont : ∀ k : Cont, L ∉ k.locks := by
    intro k hk
    rcases hL with rfl | rfl <;> cases k <;> simp [Cont.locks] at hk
  cases pc with
  | wait l' mark k ph =>
    have hl : L = .m l' := by
      cases ph <;> simp only [Pc.locks, List.mem_cons] at h
      case test | clear => exact h.resolve_right (hcont k)
      all_goals exact absurd h (hcont k)
    rcases hL with rfl | rfl
    · cases hl
      exact List.mem_cons_self
    · cases hl
  | close l' mark early held =>
    rcases hL with rfl | rfl <;> cases held <;> simp [Pc.locks] at h
    exact List.mem_singleton.mpr h
  | set l' x held =>
    rcases hL with rfl | rfl <;> cases held <;> simp [Pc.locks] at h
    exact List.mem_singleton.mpr h
  | waitAll mark ph | newLogger a ph =>
    rcases hL with rfl | rfl <;> cases ph <;> simp [Pc.locks] at h
  | setGlobal key held | depth x held =>
    rcases hL with rfl | rfl <;> cases held <;> simp [Pc.locks] at h
  | print l' msg ph =>
    unfold Pc.locks at h
    split at h <;> rcases hL with rfl | rfl <;> simp_all
  | _ => simp [Pc.locks] at h

theorem reach_emptyFree {P : Primitives} {s : State} (h : (machine P).Reach s)
    (hfree : ∀ t ∈ s.threads, emptyLogger ∉ t.pc.refs) : s.sh.EmptyFree := by
  have hs := reach_emptySilent h
  have hnone : ∀ L, (L = .m emptyLogger ∨ L = .em emptyLogger) → s.sh.holder L = none := by
    intro L hL
    rcases ho : s.sh.holder L with _ | _ | g
    · rfl
    · rcases hL with rfl | rfl
      · exact absurd ho hs.locks.1
      · exact absurd ho hs.locks.2
    · obtain ⟨t, ht, hmem⟩ := (reach_owned h).ofGoroutine L g ho
      exact absurd (Pc.mem_refs_of_locks hmem hL) (hfree t (List.mem_of_getElem? ht))
  refine ⟨(reach_wf h).shared.nlog_pos, hnone _ (.inl rfl), hnone _ (.inr rfl), ?_, hs.tasks,
    hs.zlog⟩
  have hgate := (reach_gated h emptyLogger).gate
  have hcount := hs.noPanic
  have hwaiting : s.waiting emptyLogger = 0 := by
    refine List.countP_eq_zero.mpr fun t ht hw => ?_
    obtain ⟨mark, k, ph, hpc⟩ := Pc.waiting_wait hw
    exact hfree t ht (by simp [hpc, Pc.refs])
  omega

section Calls

variable {P : Primitives} {s : LimitedState} {g : Gid} {env : Surroundings} {seq : Nat}
  {pc pc' : Pc} {sh sh' : Shared}

/-- The state with goroutine `g` at a place. -/
def LimitedState.setThread (s : LimitedState) (g : Gid) (pc : Pc) (seq : Nat) (sh : Shared) :
    LimitedState :=
  { s with base := { s.base with sh, threads := s.base.threads.set g ⟨pc, seq⟩ } }

theorem limitedStep_setThread {i : Input} (hp : s.places g = .idle)
    (hg : g < s.base.threads.length) (hgo : goStep g seq pc i sh = some (pc', sh')) :
    limitedStep P (s.setThread g pc seq sh) (.base (.go g i)) =
      some (s.setThread g pc' (Thread.nextSeq ⟨pc, seq⟩ i) sh') := by
  have hfree : (s.setThread g pc seq sh).free (.go g i) = true := decide_eq_true hp
  rw [limitedStep, if_pos hfree]
  simp [LimitedState.setThread, step, hg, hgo]

theorem LimitedState.of_atRest (h : s.atRest g = true) :
    s.places g = .idle ∧ ∃ seq, s.base.threads[g]? = some ⟨.idle, seq⟩ := by
  obtain ⟨hp, ht⟩ := Bool.and_eq_true_iff.mp h
  obtain ⟨t, ht, hpc⟩ := Option.map_eq_some_iff.mp (of_decide_eq_true ht)
  exact ⟨of_decide_eq_true hp, t.seq, by rw [ht, ← hpc]⟩

theorem setThread_atRest (hp : s.places g = .idle) (hg : g < s.base.threads.length) :
    (s.setThread g pc seq sh).atRest g = decide (pc = .idle) := by
  simp [LimitedState.atRest, LimitedState.setThread, hp, hg]

theorem finish_rest {fuel : Nat} (hp : s.places g = .idle) (hg : g < s.base.threads.length) :
    finish P g env fuel (s.setThread g .idle seq sh) =
      some (s.setThread g .idle seq sh) := by
  cases fuel <;> rw [finish, setThread_atRest hp hg, decide_eq_true rfl, if_pos rfl]

/-- One step towards the end of a call. -/
theorem finish_setThread {fuel : Nat} (hp : s.places g = .idle) (hg : g < s.base.threads.length)
    (hpc : pc ≠ .idle) (hprint : ∀ l msg ph, pc ≠ .print l msg ph)
    (hgo : goStep g seq pc .tau sh = some (pc', sh')) :
    finish P g env (fuel + 1) (s.setThread g pc seq sh) =
      finish P g env fuel (s.setThread g pc' seq sh') := by
  have hnext : (s.setThread g pc seq sh).next g env = .base (.go g .tau) := by
    have ht : (s.setThread g pc seq sh).base.threads[g]? = some ⟨pc, seq⟩ := by
      simp [LimitedState.setThread, hg]
    have hplace : (s.setThread g pc seq sh).places g = .idle := hp
    rw [LimitedState.next, hplace, ht, if_neg (by simp)]
    split
    · rename_i heq
      cases heq
      exact absurd rfl (hprint _ _ _)
    · rename_i heq
      cases heq
      exact absurd rfl (hprint _ _ _)
    · rfl
  rw [finish, setThread_atRest hp hg, decide_eq_false hpc, hnext,
    limitedStep_setThread hp hg hgo]
  rfl

/-- A `Wait` of a free `EmptyLogger` goes through. -/
theorem finish_wait {fuel mark : Nat} {k : Cont} (hp : s.places g = .idle)
    (hg : g < s.base.threads.length) (hfree : sh.EmptyFree) :
    finish P g env (fuel + 5) (s.setThread g (.wait emptyLogger mark k .lock) seq sh) =
      finish P g env fuel (s.setThread g (afterWait g emptyLogger mark k false sh).1 seq
        (afterWait g emptyLogger mark k false sh).2) := by
  have hne : ∀ {ph}, Pc.wait emptyLogger mark k ph ≠ .idle := Pc.noConfusion
  have hprint : ∀ {ph} l msg ph', Pc.wait emptyLogger mark k ph ≠ .print l msg ph' :=
    fun _ _ _ => Pc.noConfusion
  have hlock : goStep g seq (.wait emptyLogger mark k .lock) .tau sh =
      some (.wait emptyLogger mark k .test,
        sh.modify emptyLogger fun lg => { lg with m := some (.go g) }) := by
    simp [goStep, waitStep, hfree.m]
  have htest : goStep g seq (.wait emptyLogger mark k .test) .tau
      (sh.modify emptyLogger fun lg => { lg with m := some (.go g) }) =
      some (.wait emptyLogger mark k .tasks,
        sh.modify emptyLogger fun lg => { lg with waitStarted := 1, m := none }) := by
    simp [goStep, waitStep, hfree.waitStarted]
  have htasks : goStep g seq (.wait emptyLogger mark k .tasks) .tau
      (sh.modify emptyLogger fun lg => { lg with waitStarted := 1, m := none }) =
      some (.wait emptyLogger mark k .relock,
        sh.modify emptyLogger fun lg => { lg with waitStarted := 1, m := none }) := by
    simp [goStep, waitStep, hfree.tasks, WaitGroup.enter]
  have hrelock : goStep g seq (.wait emptyLogger mark k .relock) .tau
      (sh.modify emptyLogger fun lg => { lg with waitStarted := 1, m := none }) =
      some (.wait emptyLogger mark k .clear,
        sh.modify emptyLogger fun lg => { lg with waitStarted := 1, m := some (.go g) }) := by
    simp [goStep, waitStep]
  have hclear : goStep g seq (.wait emptyLogger mark k .clear) .tau
      (sh.modify emptyLogger fun lg => { lg with waitStarted := 1, m := some (.go g) }) =
      some ((afterWait g emptyLogger mark k false sh).1,
        (afterWait g emptyLogger mark k false sh).2) := by
    have hsame :
        sh.modify emptyLogger (fun lg => { lg with waitStarted := 0, m := none }) = sh := by
      apply Shared.modify_eq_self
      rw [← hfree.waitStarted, ← hfree.m]
    simp [goStep, waitStep, hsame]
  rw [finish_setThread hp hg hne hprint hlock, finish_setThread hp hg hne hprint htest,
    finish_setThread hp hg hne hprint htasks, finish_setThread hp hg hne hprint hrelock,
    finish_setThread hp hg hne hprint hclear]

/-- `Close` after its `Wait`: there is no writer to close. -/
theorem finish_close {fuel mark : Nat} {early : Bool} (hp : s.places g = .idle)
    (hg : g < s.base.threads.length) (hfree : sh.EmptyFree) :
    finish P g env (fuel + 2)
        (s.setThread g (.close emptyLogger mark early false) seq sh) =
      finish P g env fuel
        (s.setThread g .idle seq (sh.ret (.close g emptyLogger mark early))) := by
  have hlock : goStep g seq (.close emptyLogger mark early false) .tau sh =
      some (.close emptyLogger mark early true,
        sh.modify emptyLogger fun lg => { lg with em := some (.go g) }) := by
    simp [goStep, closeStep, hfree.em]
  have hdone : goStep g seq (.close emptyLogger mark early true) .tau
      (sh.modify emptyLogger fun lg => { lg with em := some (.go g) }) =
      some (.idle, sh.ret (.close g emptyLogger mark early)) := by
    have hsame : sh.modify emptyLogger (fun lg => { lg with zlog := none, em := none }) = sh := by
      apply Shared.modify_eq_self
      rw [← hfree.em, ← hfree.zlog]
    simp [goStep, closeStep, Shared.closeWriter, hfree.zlog, hsame]
  rw [finish_setThread hp hg Pc.noConfusion (fun _ _ _ => Pc.noConfusion) hlock,
    finish_setThread hp hg Pc.noConfusion (fun _ _ _ => Pc.noConfusion) hdone]

/-- A setter. -/
theorem finish_set {fuel : Nat} {x : Setter} (hp : s.places g = .idle)
    (hg : g < s.base.threads.length) (hfree : sh.EmptyFree) :
    finish P g env (fuel + 2) (s.setThread g (.set emptyLogger x false) seq sh) =
      finish P g env fuel (s.setThread g .idle seq
        (x.report g (sh.modify emptyLogger fun lg => { x.apply lg with m := none }))) := by
  have hlock : goStep g seq (.set emptyLogger x false) .tau sh =
      some (.set emptyLogger x true,
        sh.modify emptyLogger fun lg => { lg with m := some (.go g) }) := by
    simp [goStep, setStep, hfree.m]
  have happly : ∀ lg : Logger, { x.apply { lg with m := some (.go g) } with m := none } =
      { x.apply lg with m := none } := by
    intro lg
    cases x with
    | setEncryptionKey key =>
      simp only [Setter.apply]
      split <;> rfl
    | _ => rfl
  have hdone : goStep g seq (.set emptyLogger x true) .tau
      (sh.modify emptyLogger fun lg => { lg with m := some (.go g) }) =
      some (.idle, x.report g (sh.modify emptyLogger fun lg => { x.apply lg with m := none })) := by
    have hmod : (sh.modify emptyLogger fun lg => { lg with m := some (.go g) }).modify emptyLogger
        (fun lg => { x.apply lg with m := none }) =
        sh.modify emptyLogger fun lg => { x.apply lg with m := none } := by
      rw [Shared.modify_modify]
      exact congrArg (sh.modify emptyLogger) (funext happly)
    exact congrArg (fun sh => some (Pc.idle, x.report g sh)) hmod
  rw [finish_setThread hp hg Pc.noConfusion (fun _ _ _ => Pc.noConfusion) hlock,
    finish_setThread hp hg Pc.noConfusion (fun _ _ _ => Pc.noConfusion) hdone]

/-- After a call: it has returned, and the next one finds the same. -/
structure CallEnds (s : LimitedState) (g : Gid) (s' : LimitedState) : Prop where
  unchanged : Unchanged s.base.sh s'.base.sh
  free : s'.base.sh.EmptyFree
  rest : s'.atRest g = true
  panicked : s'.panicked = s.panicked

theorem Unchanged.refl (s : Shared) : Unchanged s s where
  tologCh := rfl
  accepted := rfl
  stdout := rfl
  writers := rfl
  nwri := rfl
  log _ := rfl
  counter _ := rfl
  waitStarted _ := rfl
  others _ _ := rfl

theorem Unchanged.ret {s s' : Shared} {r : Returned} (h : Unchanged s s') :
    Unchanged s (s'.ret r) :=
  ⟨h.tologCh, h.accepted, h.stdout, h.writers, h.nwri, h.log, h.counter, h.waitStarted, h.others⟩

theorem Shared.EmptyFree.ret {s : Shared} {r : Returned} (h : s.EmptyFree) : (s.ret r).EmptyFree :=
  ⟨h.nlog, h.m, h.em, h.waitStarted, h.tasks, h.zlog⟩

/-- A setter of `EmptyLogger` touches nothing but its settings. -/
theorem Unchanged.set (s : Shared) (x : Setter) : Unchanged s
    (x.report g (s.modify emptyLogger fun lg => { x.apply lg with m := none })) where
  tologCh := by simp
  accepted := by simp
  stdout := by cases x <;> rfl
  writers := by simp
  nwri := by simp
  log l := by
    rw [Setter.report_loggers]
    exact Shared.modify_field s emptyLogger l _ Logger.log (Setter.apply_log _ _)
  counter l := by
    rw [Shared.counter, Setter.report_loggers]
    exact Shared.modify_field s emptyLogger l _ (fun lg => lg.logTasks.counter)
      (congrArg WaitGroup.counter (Setter.apply_logTasks _ _))
  waitStarted l := by
    rw [Setter.report_loggers]
    exact Shared.modify_field s emptyLogger l _ Logger.waitStarted (Setter.apply_waitStarted _ _)
  others l hl := by
    rw [Setter.report_loggers, Shared.modify_loggers, if_neg hl]

theorem Shared.EmptyFree.set {s : Shared} (h : s.EmptyFree) (x : Setter) : Shared.EmptyFree
    (x.report g (s.modify emptyLogger fun lg => { x.apply lg with m := none })) where
  nlog := by simpa using h.nlog
  m := by simp
  em := by simpa using h.em
  waitStarted := by simpa using h.waitStarted
  tasks := by simpa using h.tasks
  zlog := by simpa using h.zlog

theorem setThread_self (ht : s.base.threads[g]? = some ⟨pc, seq⟩) :
    s.setThread g pc seq s.base.sh = s := by
  obtain ⟨hlt, hget⟩ := List.getElem?_eq_some_iff.mp ht
  have hset : s.base.threads.set g ⟨pc, seq⟩ = s.base.threads := by
    rw [← hget, List.set_getElem_self]
  simp [LimitedState.setThread, hset]

/-- A call that begins and comes to its end. -/
theorem callMethod_ends {α : Type} {F : Fmt α} {m : Method α} {c : Call} {fuel : Nat}
    (hp : s.places g = .idle) (ht : s.base.threads[g]? = some ⟨.idle, seq⟩)
    (henter : m.enter F s.base.sh g emptyLogger = .goes (.base (.go g (.call c))))
    (hbegin : beginCall c s.base.sh = some (pc, s.base.sh))
    (hfinish : finish P g env fuel (s.setThread g pc (seq + 1) s.base.sh) =
      some (s.setThread g .idle (seq + 1) sh))
    (hun : Unchanged s.base.sh sh) (hfree : sh.EmptyFree) (hpanics : sh.panics = s.base.sh.panics) :
    ∃ s', callMethod P F g emptyLogger env fuel s m = some (.returned none, s') ∧
      CallEnds s g s' := by
  have hg := (List.getElem?_eq_some_iff.mp ht).1
  have hstep : limitedStep P s (.base (.go g (.call c))) =
      some (s.setThread g pc (seq + 1) s.base.sh) := by
    have h : limitedStep P (s.setThread g .idle seq s.base.sh) (.base (.go g (.call c))) =
        some (s.setThread g pc (seq + 1) s.base.sh) := limitedStep_setThread hp hg hbegin
    rwa [setThread_self ht] at h
  have hsame : (s.setThread g .idle (seq + 1) sh).panicked = s.panicked := by
    rw [LimitedState.panicked, LimitedState.panicked, ← hpanics]
    rfl
  refine ⟨s.setThread g .idle (seq + 1) sh, ?_, hun, hfree, ?_, hsame⟩
  · simp only [callMethod, henter, hstep, hfinish, hsame, if_true]
  · rw [setThread_atRest hp hg, decide_eq_true rfl]

section Method

variable {α : Type} {F : Fmt α} {m : Method α}

theorem callMethod_wait (hp : s.places g = .idle)
    (ht : s.base.threads[g]? = some ⟨.idle, seq⟩) (hfree : s.base.sh.EmptyFree)
    (henter : m.enter F s.base.sh g emptyLogger = .goes (.base (.go g (.call (.wait emptyLogger)))))
    (fuel : Nat) : ∃ s', callMethod P F g emptyLogger env (fuel + 5) s m =
      some (.returned none, s') ∧ CallEnds s g s' := by
  have hg := (List.getElem?_eq_some_iff.mp ht).1
  have hfinish : finish P g env (fuel + 5) (s.setThread g
      (.wait emptyLogger s.base.sh.accepted.length .user .lock) (seq + 1) s.base.sh) =
      some (s.setThread g .idle (seq + 1)
        (s.base.sh.ret (.wait g emptyLogger s.base.sh.accepted.length false))) := by
    rw [finish_wait hp hg hfree]
    exact finish_rest hp hg
  exact callMethod_ends hp ht henter (if_pos hfree.nlog) hfinish (Unchanged.refl _).ret hfree.ret
    rfl

theorem callMethod_close (hp : s.places g = .idle)
    (ht : s.base.threads[g]? = some ⟨.idle, seq⟩) (hfree : s.base.sh.EmptyFree)
    (henter : m.enter F s.base.sh g emptyLogger =
      .goes (.base (.go g (.call (.close emptyLogger)))))
    (fuel : Nat) : ∃ s', callMethod P F g emptyLogger env (fuel + 7) s m =
      some (.returned none, s') ∧ CallEnds s g s' := by
  have hg := (List.getElem?_eq_some_iff.mp ht).1
  have hfinish : finish P g env (fuel + 7) (s.setThread g
      (.wait emptyLogger s.base.sh.accepted.length .close .lock) (seq + 1) s.base.sh) =
      some (s.setThread g .idle (seq + 1)
        ((s.base.sh.ret (.wait g emptyLogger s.base.sh.accepted.length false)).ret
          (.close g emptyLogger s.base.sh.accepted.length false))) := by
    rw [finish_wait hp hg hfree]
    exact (finish_close hp hg hfree.ret).trans (finish_rest hp hg)
  exact callMethod_ends hp ht henter (if_pos hfree.nlog) hfinish (Unchanged.refl _).ret.ret
    hfree.ret.ret rfl

theorem callMethod_set {x : Setter} (hp : s.places g = .idle)
    (ht : s.base.threads[g]? = some ⟨.idle, seq⟩) (hfree : s.base.sh.EmptyFree)
    (henter : m.enter F s.base.sh g emptyLogger =
      .goes (.base (.go g (.call (.set emptyLogger x)))))
    (fuel : Nat) : ∃ s', callMethod P F g emptyLogger env (fuel + 2) s m =
      some (.returned none, s') ∧ CallEnds s g s' := by
  have hg := (List.getElem?_eq_some_iff.mp ht).1
  have hfinish : finish P g env (fuel + 2)
      (s.setThread g (.set emptyLogger x false) (seq + 1) s.base.sh) = _ :=
    (finish_set hp hg hfree).trans (finish_rest hp hg)
  exact callMethod_ends hp ht henter (if_pos hfree.nlog) hfinish (Unchanged.set _ x)
    (hfree.set x) (by simp)

/-- `Print`, `printf` and `Println` return at the test. -/
theorem enterPrint_emptyLogger (sh : Shared) (formatted : Bytes) :
    enterPrint sh g emptyLogger formatted = .returns (some formatted) := by
  simp [enterPrint, Shared.isNop]

/-- A method that returns at once. -/
theorem callMethod_returns {text : Option Bytes} (hfree : s.base.sh.EmptyFree)
    (hrest : s.atRest g = true) (henter : m.enter F s.base.sh g emptyLogger = .returns text)
    (fuel : Nat) : ∃ s', callMethod P F g emptyLogger env fuel s m =
      some (.returned text, s') ∧ CallEnds s g s' :=
  ⟨s, by simp only [callMethod, henter], .refl _, hfree, hrest, rfl⟩

theorem callMethod_supported (hm : m.Supported) (hfree : s.base.sh.EmptyFree)
    (hrest : s.atRest g = true) (fuel : Nat) :
    ∃ s', callMethod P F g emptyLogger env (fuel + 7) s m =
      some (.returned (m.text F), s') ∧ CallEnds s g s' := by
  obtain ⟨hp, seq, ht⟩ := LimitedState.of_atRest hrest
  cases m with
  | print | printf =>
    refine callMethod_returns hfree hrest ?_ _
    exact enterPrint_emptyLogger _ _
  | println w =>
    cases w with
    | nil => exact callMethod_returns hfree hrest rfl _
    | cons w ws =>
      refine callMethod_returns hfree hrest ?_ _
      exact enterPrint_emptyLogger _ _
  | limitedPrintf printid duration format w1 w2 => exact hm.elim
  | log v =>
    refine callMethod_returns hfree hrest ?_ _
    exact congrArg Entered.drop (enterPrint_emptyLogger (g := g) s.base.sh (F.sprint v))
  | logf format v =>
    cases v with
    | nil => exact hm.elim
    | cons v0 v =>
      refine callMethod_returns hfree hrest ?_ _
      exact congrArg Entered.drop
        (enterPrint_emptyLogger (g := g) s.base.sh (F.sprintf format (v0 :: v)))
  | wait | flush => exact callMethod_wait hp ht hfree rfl (fuel + 2)
  | close => exact callMethod_close hp ht hfree rfl fuel
  | set x => exact callMethod_set hp ht hfree rfl (fuel + 5)

/-- `LimitedPrintf` panics on the nil cache, `Logf` without arguments on the empty slice. -/
theorem callMethod_unsupported (hm : ¬ m.Supported) (hfree : s.base.sh.EmptyFree)
    (hrest : s.atRest g = true) (fuel : Nat) :
    ∃ s', callMethod P F g emptyLogger env fuel s m = some (.panicked, s') := by
  obtain ⟨hp, seq, ht⟩ := LimitedState.of_atRest hrest
  cases m with
  | limitedPrintf printid duration format w1 w2 =>
    let s' : LimitedState := { s with nilPanics := s.nilPanics ++ [g] }
    have hstep : limitedStep P s (.call g ⟨emptyLogger, printid, duration,
        F.sprintf format (w1 :: w2)⟩) = some s' := by
      simp [limitedStep, beginLimited, ht, hp, hfree.nlog, s']
    have hfinish : finish P g env fuel s' = some s' := by
      cases fuel <;> exact if_pos hrest
    have hne : s'.panicked ≠ s.panicked := by
      simp [LimitedState.panicked, s']
    exact ⟨s', by simp only [callMethod, Method.enter, hstep, hfinish, if_neg hne]⟩
  | logf format v =>
    cases v with
    | nil => exact ⟨s, rfl⟩
    | cons v0 v => exact absurd trivial hm
  | _ => exact absurd trivial hm

/-! ## Sequences of calls -/

theorem noOps_iff (ms : List (Method α)) (fuel : Nat) (hfree : s.base.sh.EmptyFree)
    (hrest : s.atRest g = true) :
    NoOps P F g env (fuel + 7) s ms ↔ ∀ m ∈ ms, m.Supported := by
  induction ms generalizing s with
  | nil => simp [NoOps]
  | cons m ms ih =>
    rw [NoOps, List.forall_mem_cons]
    by_cases hm : m.Supported
    · obtain ⟨s', hcall, hends⟩ := callMethod_supported hm hfree hrest fuel
      have hrec := ih hends.free hends.rest
      constructor
      · intro h
        obtain ⟨t, ht, -, hms⟩ := h
        cases Option.some.inj (ht.symm.trans hcall)
        exact ⟨hm, hrec.mp hms⟩
      · intro h
        exact ⟨s', hcall, hends.unchanged, hrec.mpr h.2⟩
    · obtain ⟨s', hcall⟩ := callMethod_unsupported hm hfree hrest (fuel + 7)
      refine iff_of_false (fun h => ?_) fun h => hm h.1
      obtain ⟨t, ht, -⟩ := h
      cases Option.some.inj (ht.symm.trans hcall)

end Method

end Calls

/-- From any reachable state in which nobody is inside a method of `EmptyLogger`, a sequence of
    calls on it is a no-op exactly when it calls neither `LimitedPrintf` nor `Logf` without
    arguments. -/
theorem emptyLogger_noop {P : Primitives} {α : Type} (F : Fmt α) {u : LimitedState}
    (h : (limitedMachine P).Reach u) (hfree : ∀ t ∈ u.base.threads, emptyLogger ∉ t.pc.refs)
    {g : Gid} (hrest : u.atRest g = true) {fuel : Nat} (hfuel : 7 ≤ fuel) (env : Surroundings)
    (ms : List (Method α)) :
    NoOps P F g env fuel u ms ↔ ∀ m ∈ ms, m.Supported := by
  obtain ⟨n, rfl⟩ := Nat.exists_eq_add_of_le' hfuel
  exact noOps_iff ms n (reach_emptyFree (limited_base_reach h) hfree) hrest

/-! ## One goroutine -/

/-- `fmt.Sprintf` of strings and the verb `%s`. -/
def sprintfStrings : Bytes → List Bytes → Bytes
  | 37 :: 115 :: format, w :: ws => w ++ sprintfStrings format ws
  | c :: format, ws => c :: sprintfStrings format ws
  | [], _ => []

/-- `fmt` on strings. -/
def fmtStrings : Fmt Bytes where
  sprintf := sprintfStrings
  sprint := List.flatten
  sprintln ws := (ws.intersperse [32]).flatten ++ [10]

/-- One goroutine, right after its start. -/
def started : LimitedState where
  base := { threads := [{}] }

theorem reach_started : (limitedMachine unitPrimitives).Reach started :=
  Machine.Reach.tail (a := .base .spawn) .refl rfl

theorem started_free : ∀ t ∈ started.base.threads, emptyLogger ∉ t.pc.refs := by
  intro t ht
  rw [List.mem_singleton.mp ht]
  exact List.not_mem_nil

/-- Setters, prints and waits. -/
def emptySession : List (Method Bytes) :=
  [.set (.setAlsoToStdout true), .set (.writeSourcePath true), .print [97], .wait,
    .printf [37, 115, 33] [98] [], .println [], .println [[97], [98]], .set (.setEncryptionKey []),
    .log [], .logf [37, 115] [[99]], .flush, .close, .set (.writeDateTime true), .print [100]]

def noSurroundings : Surroundings := ⟨[], runtimeFrame, [], []⟩

theorem emptyLogger_noop_emptySession :
    NoOps unitPrimitives fmtStrings 0 noSurroundings 7 started emptySession := by
  refine (emptyLogger_noop fmtStrings reach_started started_free rfl (Nat.le_refl 7)
    noSurroundings emptySession).mpr ?_
  simp [emptySession, Method.Supported]

/-- One call of `LimitedPrintf` panics. -/
theorem emptyLogger_panics : ¬ ∀ (u : LimitedState) (g : Gid) (fuel : Nat)
    (ms : List (Method Bytes)), (limitedMachine unitPrimitives).Reach u →
    (∀ t ∈ u.base.threads, emptyLogger ∉ t.pc.refs) → u.atRest g = true → 7 ≤ fuel →
    NoOps unitPrimitives fmtStrings g noSurroundings fuel u ms := by
  intro h
  obtain ⟨s, hcall, -⟩ := h started 0 7 [.limitedPrintf [105] second [104] [] []] reach_started
    started_free rfl (Nat.le_refl 7)
  cases hcall

end ZipoLogger
