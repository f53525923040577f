/-
  No deadlock.

  `WaitsFor`: a goroutine waits for the holder of the lock its place takes, and one that sleeps in
  `logTasks.Wait` for those who owe the logger a `Done` or the release of its waiters. The places
  have ranks: a lock is only asked for by a place that ranks with the lock, and held only at
  places that rank below it (`Pc.rank_lt_of_locks`). The eviction callback holds
  `newLoggerMutex` and the registry's lock while it waits, so these two rank above `logTasks.Wait`;
  the worker asks for `em` and `mainGlobalEncryptor.m` only, whose holders ask for nothing. Hence
  no cycle, and whoever is inside a call can move or waits for one that is busy (`go_busy_step`,
  `worker_busy_step`).
-/
import ZipoLogger.Logger.Locks
import ZipoLogger.Logger.Secrecy
import ZipoLogger.Enc.RoundTrip
import ZipoLogger.Logger.Parked
import ZipoLogger.Lib.WaitFor

namespace ZipoLogger

open Enc Relation

/-! ## Who waits for whom -/

/-- The lock that the step from a place takes, or takes and gives back. -/
def Pc.wants : Pc → Option Lock
  | .wait l _ _ .lock | .wait l _ _ .relock | .set l _ false => some (.m l)
  | .close l _ _ false => some (.em l)
  | .waitAll _ .lock => some .wait
  | .waitAll _ .keys | .waitAll _ (.next (_ :: _)) => some .registry
  | .newLogger _ .get | .newLogger _ .get2 | .newLogger _ .add => some .registry
  | .newLogger _ .lock => some .newLogger
  | .setGlobal _ false => some .encryptor
  | .print _ _ (.depth _ false) | .depth _ false => some .callerDepth
  | _ => none

def WorkerPc.wants : WorkerPc → Option Lock
  | .lock elem | .lockKey elem => some (.em elem.log)
  | .lockEncryptor _ => some .encryptor
  | _ => none

def State.Wants (u : State) : Tid → Lock → Prop
  | .worker, L => u.worker.wants = some L
  | .go g, L => ∃ t, u.threads[g]? = some t ∧ t.pc.wants = some L

/-- In `logTasks.Wait` of `l`. -/
def State.Parked (u : State) (l : Ptr) : Tid → Prop
  | .worker => False
  | .go g => ∃ t, u.threads[g]? = some t ∧ t.pc.parked l = true

/-- A `Done` of `l` is still to come from it, or the release of the waiters of `l`. -/
def State.Owes (u : State) (l : Ptr) : Tid → Prop
  | .worker => 0 < u.sh.queued l ∨ u.worker.holds l = true ∨ u.worker.waking l = true
  | .go g => ∃ t, u.threads[g]? = some t ∧ (t.pc.printing l = true ∨ t.pc.waking l = true)

/-- `τ` cannot go on before `τ'` has. -/
inductive State.WaitsFor (u : State) (τ τ' : Tid) : Prop
  | lock {L : Lock} : u.Wants τ L → u.sh.holder L = some τ' → WaitsFor u τ τ'
  | tasks {l : Ptr} : u.Parked l τ → (u.sh.loggers l).logTasks.sema = 0 → u.Owes l τ' →
      WaitsFor u τ τ'

/-- Inside a call; the worker: with a message at hand or in the queue. -/
def State.Busy (u : State) : Tid → Prop
  | .worker => u.worker ≠ .recv ∨ u.sh.tologCh ≠ []
  | .go g => ∃ t, u.threads[g]? = some t ∧ t.pc ≠ .idle

/-- Who makes the step. -/
def Action.mover : Action → Option Tid
  | .spawn => none
  | .go g _ => some (.go g)
  | .worker _ => some .worker

/-- It has an enabled step. -/
def State.Enabled (P : Primitives) (u : State) (τ : Tid) : Prop :=
  ∃ x v, x.mover = some τ ∧ step P u x = some v

/-- It has an enabled step that does not panic. -/
def State.Moves (P : Primitives) (u : State) (τ : Tid) : Prop :=
  ∃ x v, x.mover = some τ ∧ step P u x = some v ∧ v.sh.panics = u.sh.panics

/-! ## Ranks -/

def Lock.rank : Lock → Nat
  | .m _ | .em _ | .encryptor | .callerDepth => 2
  | .registry => 3
  | .newLogger | .wait => 4

def Pc.rank : Pc → Nat
  | .print _ _ (.add _) => 1
  | .wait _ _ _ .park => 2
  | pc => (pc.wants.map Lock.rank).getD 0

def WorkerPc.rank (w : WorkerPc) : Nat := if w.wants = none then 0 else 1

def State.rank (u : State) : Tid → Nat
  | .worker => u.worker.rank
  | .go g => (u.threads[g]?.map fun t => t.pc.rank).getD 0

theorem Lock.two_le_rank (L : Lock) : 2 ≤ L.rank := by
  cases L <;> simp [Lock.rank]

theorem WorkerPc.rank_le (w : WorkerPc) : w.rank ≤ 1 := by
  unfold WorkerPc.rank
  split <;> omega

theorem Pc.rank_of_wants {pc : Pc} {L : Lock} (h : pc.wants = some L) : pc.rank = L.rank := by
  unfold Pc.rank
  split
  · cases h
  · cases h
  · rw [h]
    rfl

theorem Pc.rank_wait_le (l : Ptr) (mark : Nat) (k : Cont) (ph : WaitPhase) :
    (Pc.wait l mark k ph).rank ≤ 2 := by
  cases ph <;> simp [Pc.rank, Pc.wants, Lock.rank]

/-- A lock is held only at places that rank below it. -/
theorem Pc.rank_lt_of_locks {pc : Pc} {L : Lock} (h : L ∈ pc.locks) : pc.rank < L.rank := by
  have hcont : ∀ k : Cont, L ∈ k.locks → 2 < L.rank := by
    intro k hk
    cases k <;> simp only [Cont.locks, List.mem_cons, List.not_mem_nil, or_false] at hk
    · rw [hk]
      decide
    · rcases hk with rfl | rfl <;> decide
  have htwo := L.two_le_rank
  have hidle : pc.rank = 0 → pc.rank < L.rank := fun h0 => by omega
  unfold Pc.locks at h
  split at h
  · exact hidle rfl
  · exact hidle rfl
  · exact (Pc.rank_wait_le _ _ _ _).trans_lt (hcont _ h)
  · exact hidle rfl
  · cases List.mem_singleton.mp h
    exact (by decide : 3 < 4)
  · rename_i mark keys
    cases List.mem_singleton.mp h
    cases keys
    · exact (by decide : 0 < 4)
    · exact (by decide : 3 < 4)
  · cases List.mem_singleton.mp h
    exact (by decide : 3 < 4)
  · cases List.mem_singleton.mp h
    exact (by decide : 3 < 4)
  · exact hidle rfl
  · exact hidle rfl
  · exact hidle rfl
  · exact hidle rfl
  · exact hidle rfl
  · exact hidle rfl
  · cases h

/-- Whoever holds a lock the worker asks for asks for none. -/
theorem Pc.rank_of_leaf {pc : Pc} {L : Lock} (h : L ∈ pc.locks)
    (hleaf : L = .encryptor ∨ ∃ l, L = .em l) : pc.rank = 0 := by
  have hcont : ∀ k : Cont, L ∉ k.locks := by
    intro k hk
    cases k <;> rcases hleaf with rfl | ⟨l, rfl⟩ <;> simp [Cont.locks] at hk
  unfold Pc.locks at h
  split at h
  · rfl
  · rfl
  · exact absurd h (hcont _)
  all_goals rcases hleaf with rfl | ⟨l, rfl⟩ <;> simp_all [Pc.rank, Pc.wants]

/-! ## Places and steps -/

section Steps

variable {P : Primitives} {g : Gid} {seq : Nat} {s s' : Shared} {pc : Pc} {wpc wpc' : WorkerPc}
  {wi : WorkerInput}

theorem WorkerStep.dead (h : WorkerStep P s wpc wi wpc' s') {m : Option LoggerMessage}
    (hdead : wpc' = .dead m) : s'.panics ≠ [] := by
  cases h with
  | createPanics | encryptPanics | writePanics | donePanics | checkPanics => simp
  | _ => cases hdead

/-- A place whose lock is free has a step. -/
theorem Pc.lock_step {L : Lock} (hw : pc.wants = some L) (hfree : s.holder L = none) :
    ∃ r, goStep g seq pc .tau s = some r ∧ r.2.panics = s.panics := by
  unfold Pc.wants at hw
  split at hw <;> cases hw
  case h_1 | h_2 | h_3 | h_4 | h_5 | h_6 | h_11 | h_12 | h_14 => exact ⟨_, if_pos hfree, rfl⟩
  case h_13 l msg r => cases r <;> exact ⟨_, if_pos hfree, rfl⟩
  case h_7 mark w keys =>
    have hfree : s.registryLock = none := hfree
    rcases hget : s.registry.get? w with _ | l <;> simp [goStep, waitAllStep, hfree, hget]
  case h_8 a | h_9 a =>
    have hfree : s.registryLock = none := hfree
    rcases hget : s.registry.get? a.filename with _ | l <;>
      simp [goStep, newLoggerStep, hfree, hget]
  case h_10 a =>
    have hfree : s.registryLock = none := hfree
    rcases hadd : (s.registry.add a.filename s.nlog).2 with _ | ⟨f, old⟩ <;>
      simp [goStep, newLoggerStep, hfree, hadd, Shared.alloc]

/-- At these places a step of `logTasks` decides. -/
def Pc.counts : Pc → Bool
  | .print _ _ (.add _) | .print _ _ .done | .print _ _ (.wake _ _) | .wait _ _ _ .park => true
  | _ => false

/-- The read of a caller depth goes on and gives the lock back. -/
theorem depth_step (g : Gid) (seq : Nat) (s : Shared) (l : Ptr) (msg : Bytes) (r : DepthRead) :
    ∃ i r', goStep g seq (.print l msg (.depth r true)) i s = some r' ∧ r'.2.panics = s.panics ∧
      r'.2.additionalCallerDepthM = none := by
  cases r with
  | start => exact ⟨.tau, _, rfl, rfl, rfl⟩
  | max add inner =>
    rcases hret : activation [] ⟨[], 0⟩ (if inner then [fallbackFrame []] else []) s.maxCallerDepth
        add with _ | ret
    · exact ⟨.callers [] ⟨[], 0⟩ [], _, by simp only [goStep, printStep, hret]; rfl, rfl, rfl⟩
    · exact ⟨.callers [] ⟨[], 0⟩ [], _, by simp only [goStep, printStep, hret]; rfl, rfl, rfl⟩

/-- A place that takes no lock and does not depend on `logTasks` has a step. -/
theorem Pc.free_step (hbusy : pc ≠ .idle) (hw : pc.wants = none) (hcounts : pc.counts = false) :
    ∃ i r, goStep g seq pc i s = some r ∧ r.2.panics = s.panics := by
  cases pc with
  | idle => exact absurd rfl hbusy
  | print l msg ph =>
    cases ph with
    | gate =>
      by_cases hflag : 0 < (s.loggers l).waitStarted
      · exact ⟨.tau, _, if_pos hflag, rfl⟩
      · exact ⟨.tau, _, if_neg hflag, rfl⟩
    | depth r held =>
      cases held with
      | true =>
        obtain ⟨i, r', hstep, hp, -⟩ := depth_step g seq s l msg r
        exact ⟨i, r', hstep, hp⟩
      | false => cases hw
    | send =>
      by_cases hslot : s.slotFree = true
      · exact ⟨.tau, _, if_pos hslot, by simp [Shared.enqueue]⟩
      · exact ⟨.tau, _, if_neg hslot, by simp⟩
    | reset added w => cases added <;> exact ⟨.tau, _, rfl, rfl⟩
    | add | done | wake => cases hcounts
  | wait l mark k ph =>
    cases ph with
    | test =>
      by_cases hflag : (s.loggers l).waitStarted = 1
      · refine ⟨.tau, _, if_pos hflag, ?_⟩
        cases k <;> rfl
      · exact ⟨.tau, _, if_neg hflag, rfl⟩
    | tasks =>
      refine ⟨.tau, ?_⟩
      rcases henter : (s.loggers l).logTasks.enter with _ | wg <;>
        simp [goStep, waitStep, henter]
    | clear =>
      refine ⟨.tau, _, rfl, ?_⟩
      cases k <;> rfl
    | park => cases hcounts
    | lock | relock => cases hw
  | close l mark early held =>
    cases held with
    | true => exact ⟨.tau, _, rfl, by simp⟩
    | false => cases hw
  | waitAll mark ph =>
    cases ph with
    | next keys =>
      cases keys with
      | nil => exact ⟨.tau, _, rfl, rfl⟩
      | cons => cases hw
    | lock | keys => cases hw
  | newLogger a ph =>
    cases ph with
    | evicted => exact ⟨.tau, _, rfl, by simp⟩
    | unlock => exact ⟨.tau, _, rfl, rfl⟩
    | get | lock | get2 | add => cases hw
  | set l x held =>
    cases held with
    | true => exact ⟨.tau, _, rfl, by simp⟩
    | false => cases hw
  | setGlobal key held =>
    cases held with
    | true =>
      refine ⟨.tau, ?_⟩
      rcases hkey : newEncryptKey key with _ | k <;> simp [goStep, setGlobalStep, hkey]
    | false => cases hw
  | depth x held =>
    cases held with
    | true => exact ⟨.tau, _, rfl, rfl⟩
    | false => cases hw

end Steps

section Runs

variable {P : Primitives} {u : State} {g : Gid} {t : Thread} {τ τ' : Tid} {l : Ptr}

theorem State.rank_go (ht : u.threads[g]? = some t) : u.rank (.go g) = t.pc.rank := by
  simp [State.rank, ht]

/-- The worker ends by a panic only. -/
theorem reach_not_dead (h : (machine P).Reach u) (halive : u.sh.panics = [])
    (m : Option LoggerMessage) : u.worker ≠ .dead m := by
  refine reach_invariant (I := fun u => u.sh.panics = [] → ∀ m, u.worker ≠ .dead m) h
    (by simp) (fun _ _ hu => hu) ?_ ?_ halive m
  · intro u g t i pc sh _ hu _ hstep halive
    exact hu (panics_eq_nil hstep.extends halive)
  · intro u i wpc sh _ _ hstep halive m hdead
    exact hstep.dead hdead halive

theorem holder_go (h : (machine P).Reach u) {L : Lock} (hL : u.sh.holder L = some (.go g)) :
    ∃ t, u.threads[g]? = some t ∧ L ∈ t.pc.locks :=
  (reach_owned h).ofGoroutine L g hL

theorem holder_worker (h : (machine P).Reach u) (halive : u.sh.panics = []) {L : Lock}
    (hL : u.sh.holder L = some .worker) : L ∈ u.worker.locks := by
  rcases (reach_owned h).ofWorker L hL with hmem | ⟨m, hdead⟩
  · exact hmem
  · exact absurd hdead (reach_not_dead h halive m)

theorem WorkerPc.wants_leaf {w : WorkerPc} {L : Lock} (h : w.wants = some L) :
    (L = .encryptor ∨ ∃ l, L = .em l) ∧ L ∉ w.locks := by
  unfold WorkerPc.wants at h
  split at h <;> cases h
  · exact ⟨.inr ⟨_, rfl⟩, by simp [WorkerPc.locks]⟩
  · exact ⟨.inr ⟨_, rfl⟩, by simp [WorkerPc.locks]⟩
  · exact ⟨.inl rfl, by simp [WorkerPc.locks]⟩

theorem Pc.rank_of_waking {pc : Pc} (h : pc.waking l = true) : pc.rank = 0 := by
  obtain ⟨w, hw⟩ := Pc.releases_of_waking h
  unfold Pc.releases at hw
  split at hw
  · rfl
  · rfl
  · cases hw

theorem WorkerPc.wants_of_waking {w : WorkerPc} (h : w.waking l = true) : w.wants = none := by
  unfold WorkerPc.waking WorkerPc.releases at h
  split at h
  · rfl
  · rfl
  · cases h

/-- Who owes a `Done` or a release waits for the worker's locks at most. -/
theorem State.Owes.rank_le (h : u.Owes l τ) : u.rank τ ≤ 1 := by
  cases τ with
  | worker => exact u.worker.rank_le
  | go g =>
    obtain ⟨t, ht, hpc⟩ := h
    rw [State.rank_go ht]
    rcases hpc with hpc | hpc
    · unfold Pc.printing at hpc
      split at hpc
      case h_5 => cases hpc
      all_goals
        rename_i hp
        rw [hp]
        exact Nat.zero_le 1
    · rw [Pc.rank_of_waking hpc]
      exact Nat.zero_le 1

theorem State.Parked.rank_eq (h : u.Parked l τ) : u.rank τ = 2 := by
  cases τ with
  | worker => exact h.elim
  | go g =>
    obtain ⟨t, ht, hpc⟩ := h
    rw [State.rank_go ht]
    unfold Pc.parked at hpc
    split at hpc
    · rename_i hp
      rw [hp]
      rfl
    · cases hpc

/-- Everybody waits for somebody of lower rank. -/
theorem State.WaitsFor.rank_lt (hr : (machine P).Reach u) (halive : u.sh.panics = [])
    (h : u.WaitsFor τ τ') : u.rank τ' < u.rank τ := by
  cases h with
  | @lock L hwants hholder =>
    cases τ with
    | worker =>
      obtain ⟨hleaf, hnot⟩ := WorkerPc.wants_leaf hwants
      have hone : u.rank .worker = 1 := if_neg (by rw [hwants]; simp)
      cases τ' with
      | worker => exact absurd (holder_worker hr halive hholder) hnot
      | go g =>
        obtain ⟨t, ht, hmem⟩ := holder_go hr hholder
        rw [hone, State.rank_go ht, Pc.rank_of_leaf hmem hleaf]
        exact Nat.zero_lt_one
    | go g =>
      obtain ⟨t, ht, hpc⟩ := hwants
      rw [State.rank_go ht, Pc.rank_of_wants hpc]
      cases τ' with
      | worker => exact (u.worker.rank_le).trans_lt L.two_le_rank
      | go g' =>
        obtain ⟨t', ht', hmem⟩ := holder_go hr hholder
        rw [State.rank_go ht']
        exact Pc.rank_lt_of_locks hmem
  | tasks hparked _ howes =>
    rw [hparked.rank_eq]
    exact Nat.lt_succ_of_le howes.rank_le

/-! ## Whoever is busy can move or waits -/

theorem moves_go (ht : u.threads[g]? = some t) {i : Input}
    (h : ∃ r, goStep g t.seq t.pc i u.sh = some r ∧ r.2.panics = u.sh.panics) :
    u.Moves P (.go g) := by
  obtain ⟨r, hstep, hp⟩ := h
  refine ⟨.go g i, { u with sh := r.2, threads := u.threads.set g ⟨r.1, t.nextSeq i⟩ }, rfl, ?_, hp⟩
  simp only [step, ht, hstep]

theorem enabled_go (ht : u.threads[g]? = some t) {i : Input}
    (h : ∃ r, goStep g t.seq t.pc i u.sh = some r) : u.Enabled P (.go g) := by
  obtain ⟨r, hstep⟩ := h
  refine ⟨.go g i, { u with sh := r.2, threads := u.threads.set g ⟨r.1, t.nextSeq i⟩ }, rfl, ?_⟩
  simp only [step, ht, hstep]

theorem moves_worker {i : WorkerInput}
    (h : ∃ r, workerStep P u.worker i u.sh = some r ∧ r.2.panics = u.sh.panics) :
    u.Moves P .worker := by
  obtain ⟨r, hstep, hp⟩ := h
  refine ⟨.worker i, { u with sh := r.2, worker := r.1 }, rfl, ?_, hp⟩
  simp only [step, hstep]

theorem State.Moves.enabled (h : u.Moves P τ) : u.Enabled P τ := by
  obtain ⟨x, v, hx, hs, -⟩ := h
  exact ⟨x, v, hx, hs⟩

/-- The holder of a lock is busy. -/
theorem holder_busy (hr : (machine P).Reach u) (halive : u.sh.panics = []) {L : Lock}
    (hL : u.sh.holder L = some τ) : u.Busy τ := by
  cases τ with
  | worker =>
    have hmem := holder_worker hr halive hL
    refine .inl fun hrecv => ?_
    rw [hrecv] at hmem
    cases hmem
  | go g =>
    obtain ⟨t, ht, hmem⟩ := holder_go hr hL
    refine ⟨t, ht, fun hidle => ?_⟩
    rw [hidle] at hmem
    cases hmem

theorem State.Owes.busy (h : u.Owes l τ) : u.Busy τ := by
  cases τ with
  | worker =>
    rcases h with hqueued | hholds | hwaking
    · right
      intro hnil
      simp [Shared.queued, hnil] at hqueued
    · left
      intro hrecv
      rw [hrecv] at hholds
      cases hholds
    · left
      intro hrecv
      rw [hrecv] at hwaking
      cases hwaking
  | go g =>
    obtain ⟨t, ht, hpc⟩ := h
    refine ⟨t, ht, fun hidle => ?_⟩
    rw [hidle] at hpc
    rcases hpc with hpc | hpc <;> cases hpc

/-- A positive counter is owed by somebody. -/
theorem exists_owes (hr : (machine P).Reach u) (halive : u.sh.panics = [])
    (hc : 0 < u.sh.counter l) : ∃ τ, u.Owes l τ := by
  have hb := (balanced_of_alive hr halive l).counter
  by_cases hprinting : 0 < u.printing l
  · obtain ⟨t, hmem, hpc⟩ := List.countP_pos_iff.mp hprinting
    obtain ⟨g, hg⟩ := List.mem_iff_getElem?.mp hmem
    exact ⟨.go g, t, hg, .inl hpc⟩
  · by_cases hholds : u.worker.holds l = true
    · exact ⟨.worker, .inr (.inl hholds)⟩
    · rw [Bool.not_eq_true] at hholds
      rw [hholds, Bool.toNat_false] at hb
      exact ⟨.worker, .inl (by omega)⟩

/-- Waiters that are due are released by somebody who asks for no lock. -/
theorem exists_waker (hr : (machine P).Reach u) (halive : u.sh.panics = [])
    (hdue : u.sh.due l = 1) : ∃ τ, u.Owes l τ ∧ u.rank τ = 0 := by
  have hw := (balanced_of_alive hr halive l).due
  rw [hdue, State.wakers] at hw
  by_cases hworker : u.worker.waking l = true
  · refine ⟨.worker, .inr (.inr hworker), ?_⟩
    simp [State.rank, WorkerPc.rank, WorkerPc.wants_of_waking hworker]
  · rw [Bool.not_eq_true] at hworker
    rw [hworker, Bool.toNat_false, add_zero] at hw
    obtain ⟨t, hmem, hpc⟩ := List.countP_pos_iff.mp (hw ▸ Nat.zero_lt_one)
    obtain ⟨g, hg⟩ := List.mem_iff_getElem?.mp hmem
    refine ⟨.go g, ⟨t, hg, .inr hpc⟩, ?_⟩
    rw [State.rank_go hg, Pc.rank_of_waking hpc]

/-- A goroutine asleep on `l` wakes up, or waits for somebody who owes `l`. -/
theorem park_step (hr : (machine P).Reach u) (halive : u.sh.panics = [])
    (ht : u.threads[g]? = some t) {mark : Nat} {k : Cont} (hpc : t.pc = .wait l mark k .park) :
    u.Moves P (.go g) ∨ (∃ τ, u.WaitsFor (.go g) τ ∧ u.Busy τ) ∨
      (u.Enabled P (.go g) ∧ ∃ τ, u.rank τ < u.rank (.go g) ∧ u.Busy τ) := by
  have hparked : u.Parked l (.go g) := ⟨t, ht, by rw [hpc]; exact decide_eq_true rfl⟩
  have hsleepers := (balanced_of_alive hr halive l).parked
  have hle := reach_parked_le hr l
  have hpos : 0 < u.parked l := List.countP_pos_iff.mpr
    ⟨t, List.mem_of_getElem? ht, by rw [hpc]; exact decide_eq_true rfl⟩
  rw [Shared.sleepers, WaitGroup.sleepers] at hsleepers
  have hnonneg := (balanced_of_alive hr halive l).counter_nonneg
  by_cases hsema : (u.sh.loggers l).logTasks.sema = 0
  · -- it is registered, so a `Done` is to come or the release is
    by_cases hc : 0 < u.sh.counter l
    · obtain ⟨τ, howes⟩ := exists_owes hr halive hc
      exact .inr (.inl ⟨τ, .tasks hparked hsema howes, howes.busy⟩)
    · have hdue : u.sh.due l = 1 := by
        rw [Shared.counter] at hc hnonneg
        exact if_pos ⟨by omega, by omega⟩
      obtain ⟨τ, howes, -⟩ := exists_waker hr halive hdue
      exact .inr (.inl ⟨τ, .tasks hparked hsema howes, howes.busy⟩)
  · by_cases hzero : (u.sh.loggers l).logTasks.counter = 0 ∧ (u.sh.loggers l).logTasks.waiters = 0
    · refine .inl (moves_go (i := .tau) ht ?_)
      rw [hpc]
      simp [goStep, waitStep, WaitGroup.wake, hsema, hzero]
    · -- an `Add` has come in between: waking up panics
      have hc : 0 < u.sh.counter l := by
        rw [Shared.counter] at hnonneg ⊢
        omega
      obtain ⟨τ, howes⟩ := exists_owes hr halive hc
      refine .inr (.inr ⟨enabled_go (i := .tau) ht ?_, τ, ?_, howes.busy⟩)
      · rw [hpc]
        simp [goStep, waitStep, WaitGroup.wake, hsema, hzero]
      · rw [hparked.rank_eq]
        exact Nat.lt_succ_of_le howes.rank_le

/-- A busy goroutine moves, or waits for somebody busy, or its one step would panic and somebody
    of lower rank is busy. -/
theorem go_busy_step (hr : (machine P).Reach u) (halive : u.sh.panics = [])
    (ht : u.threads[g]? = some t) (hbusy : t.pc ≠ .idle) :
    u.Moves P (.go g) ∨ (∃ τ, u.WaitsFor (.go g) τ ∧ u.Busy τ) ∨
      (u.Enabled P (.go g) ∧ ∃ τ, u.rank τ < u.rank (.go g) ∧ u.Busy τ) := by
  have hmem := List.mem_of_getElem? ht
  rcases hw : t.pc.wants with _ | L
  · by_cases hcounts : t.pc.counts = true
    · unfold Pc.counts at hcounts
      split at hcounts
      · rename_i l msg headed hpc
        have hc : 0 ≤ (u.sh.loggers l).logTasks.counter :=
          (balanced_of_alive hr halive l).counter_nonneg
        by_cases hready : (headed || !(u.sh.loggers l).logSourcePath) = true
        case neg =>
          obtain ⟨rfl, hpath⟩ : headed = false ∧ (u.sh.loggers l).logSourcePath = true := by
            simpa using hready
          refine .inl (moves_go (i := .tau) ht ?_)
          rw [hpc]
          simp [goStep, printStep, hpath]
        rcases WaitGroup.add_one hc with
          ⟨-, hret⟩ | ⟨hdue, hpanics⟩
        · refine .inl (moves_go (i := .stamp []) ht ?_)
          rw [hpc]
          simp [goStep, printStep, hret, hready]
        · obtain ⟨τ, howes, hrank⟩ := exists_waker hr halive hdue
          refine .inr (.inr ⟨enabled_go (i := .stamp []) ht ?_, τ, ?_, howes.busy⟩)
          · rw [hpc]
            simp [goStep, printStep, hpanics, hready]
          · rw [hrank, State.rank_go ht, hpc]
            exact Nat.zero_lt_one
      · rename_i l msg hpc
        have hc : 0 < (u.sh.loggers l).logTasks.counter :=
          (balanced_of_alive hr halive l).counter_pos_of_printing hmem
            (by rw [hpc]; exact decide_eq_true rfl)
        rcases WaitGroup.done_due hc with ⟨hret, -⟩ | ⟨hwakes, -⟩
        · refine .inl (moves_go (i := .tau) ht ?_)
          rw [hpc]
          simp [goStep, printStep, hret]
        · refine .inl (moves_go (i := .tau) ht ?_)
          rw [hpc]
          simp [goStep, printStep, hwakes]
      · rename_i l msg added w hpc
        obtain ⟨hdue, hw⟩ := (balanced_of_alive hr halive l).releases hr (w := w) hmem
          (by rw [hpc]; exact if_pos rfl)
        have hcheck : (u.sh.loggers l).logTasks.unchanged w = true :=
          hw ▸ WaitGroup.unchanged_of_due hdue
        refine .inl (moves_go (i := .tau) ht ?_)
        rw [hpc]
        simp [goStep, printStep, hcheck]
      · rename_i l mark k hpc
        exact park_step hr halive ht hpc
      · cases hcounts
    · obtain ⟨i, hstep⟩ := Pc.free_step hbusy hw (Bool.eq_false_iff.mpr hcounts)
      exact .inl (moves_go ht hstep)
  · rcases hL : u.sh.holder L with _ | τ
    · exact .inl (moves_go ht (Pc.lock_step hw hL))
    · exact .inr (.inl ⟨τ, .lock ⟨t, ht, hw⟩ hL, holder_busy hr halive hL⟩)

/-- The worker has made sure that the logger of its message has a writer. -/
def WorkerPc.opened : WorkerPc → Option LoggerMessage
  | .lockEncryptor elem | .lockKey elem | .key elem | .emit elem _ => some elem
  | _ => none

theorem WorkerStep.opened {s s' : Shared} {wpc wpc' : WorkerPc} {wi : WorkerInput}
    (h : WorkerStep P s wpc wi wpc' s') {elem : LoggerMessage} (hpc : wpc'.opened = some elem) :
    (wpc.opened = some elem ∧ (s'.loggers elem.log).log = (s.loggers elem.log).log) ∨
      ∃ w, (s'.loggers elem.log).log = some w := by
  cases h with
  | @ready elem' w hlog =>
    cases hpc
    refine .inr ⟨w, ?_⟩
    rw [Shared.modify_loggers_self]
    exact hlog
  | created =>
    cases hpc
    exact .inr ⟨s.nwri, by simp [Shared.createWriter]⟩
  | lockEncryptor =>
    cases hpc
    exact .inl ⟨rfl, rfl⟩
  | lockKey =>
    cases hpc
    exact .inl ⟨rfl, by rw [Shared.modify_loggers_self]⟩
  | key =>
    cases hpc
    exact .inl ⟨rfl, Shared.modify_field s elem.log elem.log (fun lg => { lg with em := none })
      Logger.log rfl⟩
  | _ => cases hpc

theorem reach_opened (h : (machine P).Reach u) (elem : LoggerMessage)
    (hpc : u.worker.opened = some elem) : ∃ w, (u.sh.loggers elem.log).log = some w := by
  refine reach_invariant (I := fun u => ∀ elem, u.worker.opened = some elem →
    ∃ w, (u.sh.loggers elem.log).log = some w) h (by simp [WorkerPc.opened])
    (fun _ _ hu => hu) ?_ ?_ elem hpc
  · intro u g t i pc sh hr hu _ hstep elem hpc
    obtain ⟨w, hlog⟩ := hu elem hpc
    exact ⟨w, (hstep.log (reach_wf hr).shared elem.log).trans hlog⟩
  · intro u i wpc sh _ hu hstep elem hpc
    rcases hstep.opened hpc with ⟨hpc, hsame⟩ | hlog
    · obtain ⟨w, hlog⟩ := hu elem hpc
      exact ⟨w, hsame.trans hlog⟩
    · exact hlog

/-- The worker with a message at hand or in the queue moves, or waits for somebody busy. -/
theorem worker_busy_step (hr : (machine P).Reach u) (halive : u.sh.panics = [])
    (hbusy : u.Busy .worker) : u.Moves P .worker ∨ ∃ τ, u.WaitsFor .worker τ ∧ u.Busy τ := by
  have hlock : ∀ L, u.worker.wants = some L → (u.sh.holder L = none → u.Moves P .worker) →
      u.Moves P .worker ∨ ∃ τ, u.WaitsFor .worker τ ∧ u.Busy τ := by
    intro L hwants hfree
    rcases hL : u.sh.holder L with _ | τ
    · exact .inl (hfree hL)
    · exact .inr ⟨τ, .lock hwants hL, holder_busy hr halive hL⟩
  rcases hw : u.worker with _ | elem | elem | elem | elem | elem | ⟨elem, key⟩ | elem | ⟨l, w⟩ |
    ⟨l, w⟩ | m
  · left
    rcases hq : u.sh.tologCh with _ | ⟨elem, rest⟩
    · rcases hbusy with hrecv | hnil
      · exact absurd hw hrecv
      · exact absurd hq hnil
    · exact moves_worker (i := .tau) (by simp [hw, workerStep, hq])
  · refine hlock (.em elem.log) (by rw [hw]; rfl) fun hfree => ?_
    have hfree : (u.sh.loggers elem.log).em = none := hfree
    exact moves_worker (i := .tau) (by simp [hw, workerStep, hfree])
  · left
    rcases hlog : (u.sh.loggers elem.log).log with _ | w
    · exact moves_worker (i := .create .ok)
        (by simp [hw, workerStep, hlog, Shared.createWriter])
    · exact moves_worker (i := .tau) (by simp [hw, workerStep, hlog])
  · refine hlock .encryptor (by rw [hw]; rfl) fun hfree => ?_
    have hfree : u.sh.encryptorM = none := hfree
    exact moves_worker (i := .tau) (by simp [hw, workerStep, hfree])
  · refine hlock (.em elem.log) (by rw [hw]; rfl) fun hfree => ?_
    have hfree : (u.sh.loggers elem.log).em = none := hfree
    exact moves_worker (i := .tau) (by simp [hw, workerStep, hfree])
  · exact .inl (moves_worker (i := .tau) (by simp [hw, workerStep]))
  · left
    obtain ⟨w, hlog⟩ := reach_opened hr elem (by rw [hw]; rfl)
    obtain ⟨record, hrec⟩ : ∃ record, workerRecord P key elem.msg unitDraws = some record :=
      workerRecord_of_draws rfl elem.msg
    exact moves_worker (i := .emit unitDraws .ok)
      (by simp [hw, workerStep, hlog, hrec, Shared.process])
  · left
    have hc : 0 < (u.sh.loggers elem.log).logTasks.counter :=
      (balanced_of_alive hr halive elem.log).counter_pos_of_holds
        (by rw [hw]; exact decide_eq_true rfl)
    rcases WaitGroup.done_due hc with ⟨hret, -⟩ | ⟨hwakes, -⟩
    · exact moves_worker (i := .tau) (by simp [hw, workerStep, hret])
    · exact moves_worker (i := .tau) (by simp [hw, workerStep, hwakes])
  · left
    obtain ⟨hdue, hwaiters⟩ := (balanced_of_alive hr halive l).worker_releases hr (w := w)
      (by rw [hw]; exact if_pos rfl)
    have hcheck : (u.sh.loggers l).logTasks.unchanged w = true :=
      hwaiters ▸ WaitGroup.unchanged_of_due hdue
    exact moves_worker (i := .tau) (by simp [hw, workerStep, hcheck])
  · exact .inl (moves_worker (i := .tau) (by simp [hw, workerStep]))
  · exact absurd hw (reach_not_dead hr halive m)

/-- Whoever is busy moves, or somebody of lower rank is busy. -/
theorem busy_lower (hr : (machine P).Reach u) (halive : u.sh.panics = []) (hbusy : u.Busy τ) :
    u.Moves P τ ∨ ∃ τ', u.rank τ' < u.rank τ ∧ u.Busy τ' := by
  cases τ with
  | worker =>
    rcases worker_busy_step hr halive hbusy with hmoves | ⟨τ', hwaits, hbusy'⟩
    · exact .inl hmoves
    · exact .inr ⟨τ', hwaits.rank_lt hr halive, hbusy'⟩
  | go g =>
    obtain ⟨t, ht, hidle⟩ := hbusy
    rcases go_busy_step hr halive ht hidle with hmoves | ⟨τ', hwaits, hbusy'⟩ | ⟨-, hlower⟩
    · exact .inl hmoves
    · exact .inr ⟨τ', hwaits.rank_lt hr halive, hbusy'⟩
    · exact .inr hlower

/-- When anybody is inside a call, somebody inside a call has a step that does not panic. -/
theorem busy_moves (hr : (machine P).Reach u) (halive : u.sh.panics = []) (hbusy : u.Busy τ) :
    ∃ τ', u.Busy τ' ∧ u.Moves P τ' := by
  obtain ⟨τ', -, hbusy', hmoves⟩ := WaitFor.progress (r := fun τ τ' => u.rank τ' < u.rank τ)
    (fun _ _ h => h) (fun _ => busy_lower hr halive) hbusy
  exact ⟨τ', hbusy', hmoves⟩

/-- Nobody is stuck for good. -/
structure State.DeadlockFree (P : Primitives) (u : State) : Prop where
  acyclic : ∀ τ, ¬ TransGen u.WaitsFor τ τ
  /-- Who is inside a call has an enabled step, or the chain of those it waits for ends with
      somebody inside a call who has one. -/
  enabled : ∀ τ, u.Busy τ → ∃ τ', ReflTransGen u.WaitsFor τ τ' ∧ u.Busy τ' ∧ u.Enabled P τ'
  /-- When anybody is inside a call, somebody inside a call has a step that does not panic. -/
  moves : ∀ τ, u.Busy τ → ∃ τ', u.Busy τ' ∧ u.Moves P τ'
  /-- The worker never waits for anybody inside `logTasks.Wait`. -/
  worker : ∀ τ, TransGen u.WaitsFor .worker τ → ∀ l, ¬ u.Parked l τ
  /-- Nor does a `print`. -/
  print : ∀ (g : Gid) (t : Thread), u.threads[g]? = some t → t.pc.inPrint = true →
    ∀ τ, TransGen u.WaitsFor (.go g) τ → ∀ l, ¬ u.Parked l τ

/-- In every reachable state of a run without a panic. -/
theorem deadlock_free (hr : (machine P).Reach u) (halive : u.sh.panics = []) :
    u.DeadlockFree P := by
  have hrank : ∀ τ τ', u.WaitsFor τ τ' → u.rank τ' < u.rank τ := fun _ _ h => h.rank_lt hr halive
  -- from rank two on everybody that is waited for ranks below it
  have hsleeps : ∀ τ, u.rank τ ≤ 2 → ∀ τ', TransGen u.WaitsFor τ τ' → ∀ l, ¬ u.Parked l τ' := by
    intro τ htwo τ' hchain l hparked
    have hlt := WaitFor.rank_lt hrank hchain
    rw [hparked.rank_eq] at hlt
    omega
  refine ⟨WaitFor.acyclic hrank, fun τ hbusy => ?_, fun τ => busy_moves hr halive, ?_, ?_⟩
  · refine WaitFor.progress hrank (fun τ hbusy => ?_) hbusy
    cases τ with
    | worker => exact (worker_busy_step hr halive hbusy).imp_left State.Moves.enabled
    | go g =>
      obtain ⟨t, ht, hidle⟩ := hbusy
      rcases go_busy_step hr halive ht hidle with hmoves | hwaits | ⟨henabled, -⟩
      · exact .inl hmoves.enabled
      · exact .inr hwaits
      · exact .inl henabled
  · exact hsleeps .worker (u.worker.rank_le.trans (by decide))
  · intro g t ht hprint
    refine hsleeps (.go g) ?_
    rw [State.rank_go ht]
    unfold Pc.inPrint at hprint
    split at hprint
    · rename_i l msg ph hpc
      rw [hpc]
      cases ph with
      | depth r held => cases held <;> simp [Pc.rank, Pc.wants, Lock.rank]
      | _ => simp [Pc.rank, Pc.wants]
    · cases hprint

theorem deadlock_free_sleepingWait : (((machine unitPrimitives).exec {} sleepingWait).get
    sleepingWait_runs).DeadlockFree unitPrimitives :=
  deadlock_free (reach_exec sleepingWait_runs) (by decide)

end Runs

end ZipoLogger
