/-
  Programs that log from one goroutine.

  With one goroutine the logger is as good as one that writes before `Print` returns. No call
  finds the gate closed and no `Wait` finds another one in progress; nothing panics but the
  opening, the encryption and the writing of a file; the messages enter `tologCh` in the order of
  the calls; and after `Wait`, `Flush` or `Close` the worker is through with everything printed
  before (`reach_synchronous`). Only a full `tologCh` loses a message.

  `State.Calm` is why: whoever waits is the only one who could print, so the counter stays at zero
  from the last `Done` until the waiter is awake.
-/
import ZipoLogger.Logger.Parked
import ZipoLogger.Logger.Waiting

namespace ZipoLogger

open Enc

/-! ## One goroutine -/

section Alone

variable {P : Primitives} {u : State} {g : Gid} {t : Thread} {l : Ptr}

theorem threads_eq_of_one (hone : u.threads.length ≤ 1) (ht : u.threads[g]? = some t) :
    g = 0 ∧ u.threads = [t] := by
  rcases hthreads : u.threads with _ | ⟨t', _ | ⟨t'', ts⟩⟩
  · rw [hthreads] at ht
    cases ht
  · rw [hthreads] at ht
    cases g with
    | zero => exact ⟨rfl, by rw [Option.some.inj ht]⟩
    | succ g => cases ht
  · rw [hthreads] at hone
    simp at hone

/-- Nobody sleeps while the goroutine is elsewhere. -/
theorem asleep_of_one (hb : u.Balanced l) (hone : u.threads.length ≤ 1)
    (ht : u.threads[g]? = some t) :
    (u.sh.loggers l).logTasks.waiters + (u.sh.loggers l).logTasks.sema =
      (t.pc.parked l).toNat := by
  have hparked := hb.parked
  rw [State.parked, (threads_eq_of_one hone ht).2, List.countP_singleton] at hparked
  rw [← WaitGroup.sleepers, ← Shared.sleepers, hparked]
  cases t.pc.parked l <;> rfl

/-- The one who sleeps is not about to release anybody. -/
theorem not_waking_of_one (hb : u.Balanced l) (hone : u.threads.length ≤ 1)
    (ht : u.threads[g]? = some t) : t.pc.waking l = false := by
  rw [← Bool.not_eq_true]
  intro hw
  obtain ⟨g', t', ht', hpark⟩ := hb.parked_of_due (hb.due_of_waking (List.mem_of_getElem? ht) hw)
  obtain ⟨rfl, -⟩ := threads_eq_of_one hone ht
  obtain ⟨rfl, -⟩ := threads_eq_of_one hone ht'
  cases Option.some.inj (ht.symm.trans ht')
  obtain ⟨w, hw⟩ := Pc.releases_of_waking hw
  obtain ⟨msg, ph, hpc⟩ := Pc.print_of_releases hw
  rw [hpc] at hpark
  cases hpark

end Alone

/-! ## Nothing panics -/

/-- The panic is one of the file system or of the encryption. -/
def PanicSite.environment : PanicSite → Bool
  | .newLogger _ | .encrypt _ | .write _ => true
  | _ => false

/-- Nothing will wake a waiter up too early. -/
structure State.Calm (u : State) : Prop where
  panics : ∀ p ∈ u.sh.panics, p.environment = true
  /-- A waiter that can wake up finds a zero counter. -/
  sema : ∀ l, 0 < (u.sh.loggers l).logTasks.sema → u.sh.counter l = 0

theorem State.Calm.balanced {P : Primitives} {u : State} (hu : u.Calm) (h : (machine P).Reach u)
    (l : Ptr) : u.Balanced l := by
  refine reach_balanced h fun hp => ?_
  have henv := hu.panics _ hp
  cases henv

section Steps

variable {P : Primitives} {g : Gid} {seq : Nat} {s s' : Shared} {pc pc' : Pc} {i : Input} {l : Ptr}
  {wpc wpc' : WorkerPc} {wi : WorkerInput}

/-- The only one who can sleep does not while it prints. -/
theorem due_of_asleep (hasleep : s.sleepers l = (pc.parked l).toNat) (hpc : pc.parked l = false) :
    s.due l = 0 := by
  rw [hpc, Bool.toNat_false, Shared.sleepers, WaitGroup.sleepers] at hasleep
  exact if_neg fun hd => by omega

/-- The `Done` of a `print` that nobody waits for returns. -/
theorem done_of_asleep (hasleep : s.sleepers l = 0) (hc : 0 < s.counter l) :
    (s.loggers l).logTasks.done.2 = .returns := by
  rcases WaitGroup.done_due (show 0 < (s.loggers l).logTasks.counter from hc) with
    ⟨hret, -⟩ | ⟨-, hdue⟩
  · exact hret
  · have hwaiters := (WaitGroup.of_due hdue).1
    rw [WaitGroup.done, (WaitGroup.add_waiters _ _).1] at hwaiters
    rw [Shared.sleepers, WaitGroup.sleepers] at hasleep
    omega

/-- With one goroutine no call panics. -/
theorem GoStep.calm (h : GoStep g seq s pc i pc' s')
    (hasleep : ∀ l, s.sleepers l = (pc.parked l).toNat) (hcounter : ∀ l, 0 ≤ s.counter l)
    (hprinting : ∀ l, pc.printing l = true → 0 < s.counter l)
    (hsema : ∀ l, 0 < (s.loggers l).logTasks.sema → s.counter l = 0)
    (hwaking : ∀ l, pc.waking l = false) : s'.panics = s.panics := by
  cases h with
  | @addPanics l msg stamp headed hpanics =>
    have hdue := due_of_asleep (hasleep l) rfl
    rcases WaitGroup.add_one (show 0 ≤ (s.loggers l).logTasks.counter from hcounter l) with
      ⟨-, hret⟩ | ⟨hone, -⟩
    · rw [hret] at hpanics
      cases hpanics
    · rw [Shared.due, hone] at hdue
      cases hdue
  | @dropPanics l msg hpanics =>
    rw [done_of_asleep (hasleep l) (hprinting l (decide_eq_true rfl))] at hpanics
    cases hpanics
  | @checkPanics l msg added w =>
    have hw := hwaking l
    simp [Pc.waking, Pc.releases] at hw
  | @waitPanics l mark k wg hwake =>
    obtain ⟨hpos, hreused⟩ := WaitGroup.wake_false hwake
    have hone := hasleep l
    rw [show (Pc.wait l mark k .park).parked l = true from decide_eq_true rfl, Bool.toNat_true,
      Shared.sleepers, WaitGroup.sleepers] at hone
    exact absurd ⟨hsema l hpos, by omega⟩ hreused
  | waitEarly | waitClear => rw [afterWait_snd, Shared.ret_panics, Shared.modify_panics]
  | sent | full | closeDone | newEvicted | setApply => simp [Shared.enqueue]
  | _ => rfl

/-- The tokens of a logger are gone once its only waiter has moved. -/
theorem GoStep.sema (h : GoStep g seq s pc i pc' s') (hs : s.Wf)
    (hasleep : s.sleepers l = (pc.parked l).toNat) (hwaking : pc.waking l = false) :
    (s'.loggers l).logTasks.sema = 0 := by
  have hmove := h.parked hs l fun w hw => by
    rw [Pc.waking_of_releases hw] at hwaking
    cases hwaking
  rw [hasleep, Nat.add_comm, Nat.add_left_cancel_iff] at hmove
  cases hp : pc'.parked l with
  | false =>
    rw [hp, Bool.toNat_false, Shared.sleepers, WaitGroup.sleepers] at hmove
    omega
  | true =>
    obtain ⟨mark, k, wg, rfl, henter, hwg⟩ := h.parks hp
    have hnone : s.sleepers l = 0 := hasleep
    rw [Shared.sleepers, WaitGroup.sleepers] at hnone
    rw [hwg, WaitGroup.enter_sema henter]
    omega

/-- The worker panics where a file or the encryption does. -/
theorem WorkerStep.calm (h : WorkerStep P s wpc wi wpc' s')
    (hholds : ∀ l, wpc.holds l = true → 0 < s.counter l)
    (hreleases : ∀ l w, wpc.releases l = some w →
      s.due l = 1 ∧ (s.loggers l).logTasks.waiters = w) :
    s'.panics = s.panics ∨ ∃ p, p.environment = true ∧ s'.panics = s.panics ++ [p] := by
  cases h with
  | createPanics | encryptPanics | writePanics => exact .inr ⟨_, rfl, rfl⟩
  | @donePanics elem hpanics =>
    have hpos : 0 < s.counter elem.log := hholds _ (decide_eq_true rfl)
    rcases WaitGroup.done_due (show 0 < (s.loggers elem.log).logTasks.counter from hpos) with
      ⟨hret, -⟩ | ⟨hw, -⟩
    · rw [hret] at hpanics
      cases hpanics
    · rw [hw] at hpanics
      cases hpanics
  | @checkPanics l w hcheck =>
    obtain ⟨hdue, rfl⟩ := hreleases l w (if_pos rfl)
    rw [WaitGroup.unchanged_of_due hdue] at hcheck
    cases hcheck
  | _ => exact .inl rfl

end Steps

/-- With at most one goroutine the state is calm. -/
theorem reach_calm {P : Primitives} {u : State} (h : (machine P).Reach u)
    (hone : u.threads.length ≤ 1) : u.Calm := by
  refine reach_invariant (I := fun u => u.threads.length ≤ 1 → u.Calm) h ?_ ?_ ?_ ?_ hone
  · exact fun _ => ⟨by simp, by simp⟩
  · intro u _ hu hone
    rw [List.length_append, List.length_singleton] at hone
    obtain ⟨hpanics, hsema⟩ := hu (by omega)
    exact ⟨hpanics, hsema⟩
  · intro u g t i pc sh hr hu ht hstep hone
    rw [List.length_set] at hone
    have hcalm := hu hone
    have hb l := hcalm.balanced hr l
    have hasleep l := asleep_of_one (hb l) hone ht
    have hwaking l := not_waking_of_one (hb l) hone ht
    have hsame := hstep.calm hasleep (fun l => (hb l).counter_nonneg)
      (fun l => (hb l).counter_pos_of_printing (List.mem_of_getElem? ht)) hcalm.sema hwaking
    refine ⟨hsame ▸ hcalm.panics, fun l hpos => ?_⟩
    exact absurd (hstep.sema (reach_wf hr).shared (hasleep l) (hwaking l)) hpos.ne'
  · intro u i wpc sh hr hu hstep hone
    have hcalm := hu hone
    have hb l := hcalm.balanced hr l
    have hadded := hstep.calm (fun l => (hb l).counter_pos_of_holds)
      fun l w => (hb l).worker_releases hr
    refine ⟨fun p hp => ?_, fun l hpos => ?_⟩
    · obtain hsame | ⟨p', henv, hadd⟩ := hadded
      · exact hcalm.panics p (hsame ▸ hp)
      · rw [hadd, List.mem_append, List.mem_singleton] at hp
        obtain hp | rfl := hp
        · exact hcalm.panics p hp
        · exact henv
    · rcases hstep.logTasks l with ⟨hsame, -⟩ | ⟨hmine, hdone, -⟩ | ⟨w, -, -, hreset⟩
      · rw [Shared.counter, hsame]
        exact hcalm.sema l (hsame ▸ hpos)
      · -- the worker holds a message, so nobody can wake up
        rw [hdone, WaitGroup.done, (WaitGroup.add_waiters _ _).2] at hpos
        exact absurd (hcalm.sema l hpos) ((hb l).counter_pos_of_holds hmine).ne'
      · rw [Shared.counter, hreset, WaitGroup.reset_counter]

/-! ## The calls one after the other -/

/-- The message the call sent. -/
def Returned.logged : Returned → Option (Ptr × Bytes)
  | .print _ l text true true => some (l, text)
  | _ => none

/-- The logger the call waited for. -/
def Returned.waitedFor : Returned → Option Ptr
  | .wait _ l _ _ | .close _ l _ _ => some l
  | _ => none

/-- A `Wait` under way after `n` messages: nothing was sent since it began. -/
def Pc.Alone (n : Nat) : Pc → Prop
  | .wait _ mark _ _ => mark = n
  | .close _ mark early _ => mark = n ∧ early = false
  | _ => True

/-- A call that returned after `n` messages: it found the gate open, and nobody waiting. -/
def Returned.Alone (n : Nat) : Returned → Prop
  | .print _ _ _ gateOpen _ => gateOpen = true
  | .wait _ _ mark early | .close _ _ mark early => mark = n ∧ early = false
  | _ => True

section Steps

variable {g : Gid} {seq : Nat} {s s' : Shared} {pc pc' : Pc} {i : Input}

theorem afterWait_alone {l : Ptr} {mark : Nat} {k : Cont} {n : Nat} (hm : mark = n) :
    (afterWait g l mark k false s).1.Alone n := by
  cases k with
  | close => exact ⟨hm, rfl⟩
  | _ => trivial

/-- Every call that returns has found the gate open and has sent what it says. -/
theorem GoStep.alone (h : GoStep g seq s pc i pc' s')
    (hopen : ∀ l, pc.waiting l = false → (s.loggers l).waitStarted = 0)
    (hpc : pc.Alone s.sent.length) :
    pc'.Alone s'.sent.length ∧ ((s'.returned = s.returned ∧ s'.texts = s.texts) ∨
      ∃ r, s'.returned = s.returned ++ [r] ∧ r.Alone s.sent.length ∧
        s'.texts = s.texts ++ r.logged.toList) := by
  have hlen : s.accepted.length = s.sent.length := (List.length_map _).symm
  cases h with
  | @gateClosed l msg hclosed =>
    have hzero := hopen l rfl
    omega
  | @sent l msg =>
    refine ⟨trivial, .inr ⟨.print (g, seq) l msg true true, by simp [Shared.enqueue], rfl, ?_⟩⟩
    simp [Shared.texts, Shared.enqueue, Shared.sent, Returned.logged]
  | dropped | released => exact ⟨trivial, .inr ⟨_, rfl, rfl, (List.append_nil _).symm⟩⟩
  | @waitEarly l mark k hset =>
    have hzero := hopen l rfl
    omega
  | @waitClear l mark k =>
    rw [afterWait_snd]
    exact ⟨afterWait_alone hpc, .inr ⟨_, rfl, ⟨hpc, rfl⟩, (List.append_nil _).symm⟩⟩
  | @waitPanics l mark k =>
    rw [unwindWait_fst]
    exact ⟨trivial, .inl ⟨by cases k <;> rfl, by cases k <;> rfl⟩⟩
  | @closeDone l mark early =>
    refine ⟨trivial, .inr ⟨.close g l mark early, by simp, hpc, ?_⟩⟩
    simp [Shared.texts, Shared.sent, Returned.logged]
  | allDone | newHit | newHit2 | newUnlock | globalReject | globalSet =>
    exact ⟨trivial, .inr ⟨_, rfl, trivial, (List.append_nil _).symm⟩⟩
  | @setApply l x =>
    cases x
    case setEncryptionKey key =>
      exact ⟨trivial, .inr ⟨_, rfl, trivial, (List.append_nil _).symm⟩⟩
    all_goals exact ⟨trivial, .inl ⟨rfl, rfl⟩⟩
  | callWait | callClose | allHit | newEvict => exact ⟨hlen, .inl ⟨rfl, rfl⟩⟩
  | waitLock | waitSet | waitThrough | waitPark | waitWake | waitRelock | closeLock =>
    exact ⟨hpc, .inl ⟨rfl, rfl⟩⟩
  | full | newEvicted => exact ⟨trivial, .inl ⟨by simp, by simp [Shared.texts, Shared.sent]⟩⟩
  | _ => exact ⟨trivial, .inl ⟨rfl, rfl⟩⟩

end Steps

/-- A program with one goroutine sees a logger that does one call at a time. -/
structure State.Synchronous (u : State) : Prop where
  /-- Nothing panics but the opening, the encryption and the writing of a file. -/
  panics : ∀ p ∈ u.sh.panics, p.environment = true
  /-- No call finds the gate closed, or another `Wait` in progress. -/
  open_gate : ∀ pre r post, u.sh.returned = pre ++ r :: post →
    r.Alone (pre.filterMap Returned.logged).length
  /-- `tologCh` has received what the calls that returned have sent, in their order. -/
  order : u.sh.texts = u.sh.returned.filterMap Returned.logged
  /-- After `Wait`, `Flush` or `Close` of a logger the worker is through with everything the
      calls before it have sent to the logger. -/
  waited : ∀ pre r post l, u.sh.returned = pre ++ r :: post → r.waitedFor = some l →
    u.sh.Settled l (pre.filterMap Returned.logged).length

/-- The invariant behind `State.Synchronous`. -/
structure State.Alone (u : State) : Prop where
  threads : ∀ t ∈ u.threads, t.pc.Alone u.sh.sent.length
  order : u.sh.texts = u.sh.returned.filterMap Returned.logged
  returned : ∀ pre r post, u.sh.returned = pre ++ r :: post →
    r.Alone (pre.filterMap Returned.logged).length

theorem reach_alone {P : Primitives} {u : State} (h : (machine P).Reach u)
    (hone : u.threads.length ≤ 1) : u.Alone := by
  refine reach_invariant (I := fun u => u.threads.length ≤ 1 → u.Alone) h ?_ ?_ ?_ ?_ hone
  · exact fun _ => ⟨by simp, rfl, fun pre r post he => by simp at he⟩
  · intro u _ hu hone
    rw [List.length_append, List.length_singleton] at hone
    obtain ⟨hthreads, horder, hreturned⟩ := hu (by omega)
    refine ⟨fun t ht => ?_, horder, hreturned⟩
    rw [List.mem_append, List.mem_singleton] at ht
    obtain ht | rfl := ht
    · exact hthreads t ht
    · trivial
  · intro u g t i pc sh hr hu ht hstep hone
    rw [List.length_set] at hone
    obtain ⟨hthreads, horder, hreturned⟩ := hu hone
    obtain ⟨rfl, hsingle⟩ := threads_eq_of_one hone ht
    have hopen : ∀ l, t.pc.waiting l = false → (u.sh.loggers l).waitStarted = 0 := by
      intro l hw
      have hgate := (reach_gated hr l).gate
      have hpanics : u.sh.panics.count (.wait l) = 0 :=
        List.count_eq_zero.mpr fun hp => by
          have henv := (reach_calm hr hone).panics _ hp
          cases henv
      rw [hpanics, State.waiting, hsingle, List.countP_singleton, hw] at hgate
      simpa using hgate
    obtain ⟨hpc, hsame | ⟨r, hret, halone, htexts⟩⟩ :=
      hstep.alone hopen (hthreads t (List.mem_of_getElem? ht))
    · refine ⟨hsingle ▸ List.forall_mem_singleton.mpr hpc, ?_, ?_⟩
      · rw [hsame.1, hsame.2, horder]
      · rw [hsame.1]
        exact hreturned
    · refine ⟨hsingle ▸ List.forall_mem_singleton.mpr hpc, ?_, fun pre r' post he => ?_⟩
      · rw [hret, htexts, horder, List.filterMap_append]
        cases hl : r.logged <;> simp [hl]
      · rw [hret] at he
        rcases List.eq_nil_or_concat post with rfl | ⟨post', r'', rfl⟩
        · obtain ⟨rfl, hr'⟩ := List.append_inj' he rfl
          cases hr'
          rwa [← horder, Shared.length_texts]
        · rw [List.concat_eq_append, ← List.cons_append, ← List.append_assoc] at he
          exact hreturned pre r' post' (List.append_inj' he rfl).1
  · intro u i wpc sh hr hu hstep hone
    obtain ⟨hthreads, horder, hreturned⟩ := hu hone
    have hlen : sh.sent.length = u.sh.sent.length := by
      rw [← Shared.length_texts, hstep.texts, Shared.length_texts]
    refine ⟨fun t ht => ?_, ?_, ?_⟩
    · exact hlen ▸ hthreads t ht
    · rw [hstep.texts, hstep.returned, horder]
    · rw [hstep.returned]
      exact hreturned

/-- While a program has not started a second goroutine, its calls run one after the other. -/
theorem reach_synchronous (P : Primitives) {u : State} (h : (machine P).Reach u)
    (hone : u.threads.length ≤ 1) : u.Synchronous := by
  obtain ⟨-, horder, hreturned⟩ := reach_alone h hone
  refine ⟨(reach_calm h hone).panics, hreturned, horder, fun pre r post l he hl => ?_⟩
  have halone := hreturned pre r post he
  have hsound := (reach_sound h).returned r (by simp [he])
  have hadd : .printAdd l ∉ u.sh.panics := fun hp => by
    have henv := (reach_calm h hone).panics _ hp
    cases henv
  cases r with
  | wait g l' mark early | close g l' mark early =>
    obtain ⟨rfl, rfl⟩ := halone
    cases hl
    exact hsound.2 rfl hadd
  | _ => cases hl

theorem reach_synchronous_fullWait :
    (((machine unitPrimitives).exec {} fullWait).get fullWait_runs).Synchronous :=
  reach_synchronous unitPrimitives (reach_exec fullWait_runs) (by decide)

end ZipoLogger
