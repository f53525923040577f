/-
  What a `Wait` that waited promises.

  `Shared.Settled l mark`: the worker is through with every message of `l` among the first `mark`
  that entered `tologCh`. With a zero counter nothing of `l` is queued or in the worker's hands,
  so by the order of the queue everything sent so far is settled; this is what `logTasks.Wait`
  has seen when it returns. A `Wait` that finds another one in progress returns at once and
  promises nothing.

  A zero counter says so while the books of the logger balance. After an `Add(1)` has panicked
  over the registered waiters, the reset that releases them may forget another `Add(1)`, and a
  later `Wait` goes through with its message in `tologCh` (`wait_unsettled`).
-/
import ZipoLogger.Logger.Parked
import ZipoLogger.Logger.Delivery

namespace ZipoLogger

open Enc

variable {P : Primitives} {s s' : Shared} {l : Ptr} {mark : Nat}

/-- The worker is through with the messages of `l` among the first `mark` sent. -/
def Shared.Settled (s : Shared) (l : Ptr) (mark : Nat) : Prop :=
  ∀ m ∈ s.sent.take mark, m.log = l → m ∈ s.handled

/-- The messages are settled, unless an `Add(1)` of the logger has panicked. -/
def Shared.Promised (s : Shared) (l : Ptr) (mark : Nat) : Prop :=
  .printAdd l ∉ s.panics → s.Settled l mark

theorem Extends.sent (h : Extends s s') : s.sent <+: s'.sent := h.accepted.map _

theorem Extends.handled (h : Extends s s') : s.handled <+: s'.handled := h.processed.map _

theorem Shared.Settled.extends (hs : s.Settled l mark) (h : Extends s s')
    (hm : mark ≤ s.sent.length) : s'.Settled l mark := by
  intro m hmem hl
  obtain ⟨r, hr⟩ := h.sent
  rw [← hr, List.take_append_of_le_length hm] at hmem
  exact h.handled.subset (hs m hmem hl)

theorem Shared.Promised.extends (hs : s.Promised l mark) (h : Extends s s')
    (hm : mark ≤ s.sent.length) : s'.Promised l mark := fun hadd =>
  (hs fun hp => hadd (h.panics.subset hp)).extends h hm

/-- A zero counter settles everything sent so far. -/
theorem settled_of_counter_zero {u : State} (h : (machine P).Reach u)
    (hadd : .printAdd l ∉ u.sh.panics) (hc : u.sh.counter l = 0) (mark : Nat) :
    u.sh.Settled l mark := by
  have hb := (reach_balanced h hadd).counter
  have hq : u.sh.queued l = 0 := by omega
  have hw : u.worker.holds l = false := by
    cases hh : u.worker.holds l
    · rfl
    · rw [hh, Bool.toNat_true] at hb
      omega
  intro m hm hl
  have hm := List.mem_of_mem_take hm
  rw [reach_fifo h, List.mem_append, List.mem_append, Option.mem_toList] at hm
  obtain (hm | hm) | hm := hm
  · exact hm
  · simp [WorkerPc.holds, WorkerPc.owed_of_inHand hm, hl] at hw
  · exact absurd (decide_eq_true hl) (List.countP_eq_zero.mp hq m hm)

/-! ## The invariant of the waiters -/

/-- What a goroutine inside `Wait` or `Close` knows. -/
def Pc.Sound (s : Shared) : Pc → Prop
  | .wait l mark _ ph =>
    mark ≤ s.sent.length ∧ (ph = .relock ∨ ph = .clear → s.Promised l mark)
  | .close l mark early _ => mark ≤ s.sent.length ∧ (early = false → s.Promised l mark)
  | _ => True

/-- What a returned `Wait` or `Close` promises. -/
def Returned.Sound (s : Shared) : Returned → Prop
  | .wait _ l mark early | .close _ l mark early =>
    mark ≤ s.sent.length ∧ (early = false → s.Promised l mark)
  | _ => True

theorem Pc.Sound.extends {pc : Pc} (hpc : pc.Sound s) (h : Extends s s') : pc.Sound s' := by
  cases pc with
  | wait l mark k ph =>
    exact ⟨hpc.1.trans h.sent.length_le, fun hph => (hpc.2 hph).extends h hpc.1⟩
  | close l mark early held =>
    exact ⟨hpc.1.trans h.sent.length_le, fun he => (hpc.2 he).extends h hpc.1⟩
  | _ => trivial

theorem Returned.Sound.extends {r : Returned} (hr : r.Sound s) (h : Extends s s') : r.Sound s' := by
  cases r with
  | wait g l mark early | close g l mark early =>
    exact ⟨hr.1.trans h.sent.length_le, fun he => (hr.2 he).extends h hr.1⟩
  | _ => trivial

section Steps

variable {g : Gid} {seq : Nat} {pc pc' : Pc} {i : Input}

theorem afterWait_sound {k : Cont} {early : Bool} {r : Shared} (hm : mark ≤ s.sent.length)
    (hs : early = false → s.Promised l mark) : (afterWait g l mark k early r).1.Sound s := by
  cases k with
  | close => exact ⟨hm, hs⟩
  | _ => trivial

/-- `logTasks.Wait` is left with a zero counter, and nothing is forgotten on the way out. -/
theorem GoStep.sound (h : GoStep g seq s pc i pc' s') (hpc : pc.Sound s)
    (hzero : ∀ l mark, s.counter l = 0 → s.Promised l mark) : pc'.Sound s := by
  have hlen : s.accepted.length = s.sent.length := (List.length_map _).symm
  cases h with
  | callWait | callClose | allHit | newEvict => exact ⟨hlen.le, by simp⟩
  | waitLock | waitSet | waitPark => exact ⟨hpc.1, by simp⟩
  | @waitThrough l mark k henter =>
    exact ⟨hpc.1, fun _ => hzero l mark ((WaitGroup.enter_none_iff _).mp henter)⟩
  | @waitWake l mark k wg hwake =>
    exact ⟨hpc.1, fun _ => hzero l mark ((WaitGroup.wake_counter hwake).2 rfl)⟩
  | waitRelock => exact ⟨hpc.1, fun _ => hpc.2 (.inl rfl)⟩
  | waitEarly => exact afterWait_sound hpc.1 (by simp)
  | waitClear => exact afterWait_sound hpc.1 fun _ => hpc.2 (.inr rfl)
  | waitPanics =>
    rw [unwindWait_fst]
    trivial
  | closeLock => exact hpc
  | _ => trivial

theorem Returns.sound {r : Returned} (h : Returns g seq s pc r) (hpc : pc.Sound s) : r.Sound s := by
  cases h with
  | waitEarly => exact ⟨hpc.1, by simp⟩
  | wait => exact ⟨hpc.1, fun _ => hpc.2 (.inr rfl)⟩
  | close => exact hpc
  | _ => trivial

end Steps

structure State.Sound (u : State) : Prop where
  threads : ∀ (g : Gid) (t : Thread), u.threads[g]? = some t → t.pc.Sound u.sh
  returned : ∀ r ∈ u.sh.returned, r.Sound u.sh

/-- In every run the waiters know what they promise. -/
theorem reach_sound {u : State} (h : (machine P).Reach u) : u.Sound := by
  refine reach_invariant (I := State.Sound) h ⟨by simp, by simp⟩ ?_ ?_ ?_
  · intro u _ hu
    obtain ⟨hpc, hr⟩ := hu
    refine ⟨fun g t ht => ?_, hr⟩
    obtain rfl | ht := threads_spawn ht
    · trivial
    · exact hpc g t ht
  · intro u g t i pc sh hu hsound ht hstep
    obtain ⟨hpc, hr⟩ := hsound
    have hext := hstep.extends
    refine ⟨fun g' t' ht' => ?_, fun r hmem => ?_⟩
    · obtain ⟨-, rfl⟩ | ⟨-, ht'⟩ := threads_set ht'
      · have hnew := hstep.sound (hpc g t ht) fun l mark hc hadd =>
          settled_of_counter_zero hu hadd hc mark
        exact hnew.extends hext
      · exact (hpc g' t' ht').extends hext
    · obtain hsame | ⟨r', hnew, hret⟩ := hstep.returned
      · exact (hr r (hsame ▸ hmem)).extends hext
      · rw [hnew, List.mem_append, List.mem_singleton] at hmem
        obtain hmem | rfl := hmem
        · exact (hr r hmem).extends hext
        · exact (hret.sound (hpc g t ht)).extends hext
  · intro u i wpc sh _ hu hstep
    obtain ⟨hpc, hr⟩ := hu
    have hext := hstep.extends
    refine ⟨fun g t ht => (hpc g t ht).extends hext, fun r hmem => ?_⟩
    exact (hr r (hstep.returned ▸ hmem)).extends hext

/-- When a `Wait` or `Flush` of `l` that found no other one in progress has returned, and when
    such a `Close` has, and no `Add(1)` of `l` has panicked by then, the worker is through with
    every message of `l` that had entered `tologCh` before the call began. -/
theorem wait_settles {u : State} (h : (machine P).Reach u) (g : Gid) (l : Ptr) (mark : Nat)
    (hadd : .printAdd l ∉ u.sh.panics)
    (hr : .wait g l mark false ∈ u.sh.returned ∨ .close g l mark false ∈ u.sh.returned) :
    ∀ m ∈ u.sh.sent.take mark, m.log = l → m ∈ u.sh.handled := by
  obtain hr | hr := hr
  · exact ((reach_sound h).returned _ hr).2 rfl hadd
  · exact ((reach_sound h).returned _ hr).2 rfl hadd

/-- One goroutine sleeps in `Wait`; another one calls `Wait` and returns at once. -/
def secondWait : List Action :=
  .spawn :: .spawn :: newLoggerCall 0 [97] ++ printCall 0 1 [104] ++
    .go 0 (.call (.wait 1)) :: steps 0 3 ++ .go 1 (.call (.wait 1)) :: steps 1 2

theorem secondWait_runs : ((machine unitPrimitives).exec {} secondWait).isSome := by decide

/-- Goroutine 0 sleeps in `Wait`, goroutines 1 and 2 have passed the gate, the worker handles the
    message of 0. Between the check and the reset of the worker's `Done` the `Add(1)` of 1 panics
    over the registered waiter, that of 2 returns, and 2 sends its message; the reset forgets
    both. -/
def forgottenBy (handles : List Action) : List Action :=
  .spawn :: .spawn :: .spawn :: newLoggerCall 0 [97] ++ printCall 0 1 [104] ++
    [.go 1 (.call (.print 1 [105])), .go 1 .tau, .go 2 (.call (.print 1 [106])), .go 2 .tau] ++
    .go 0 (.call (.wait 1)) :: steps 0 3 ++ handles ++ [.worker .tau, .worker .tau,
      .go 1 (.stamp []), .go 2 (.stamp []), .go 2 .tau, .worker .tau] ++ steps 0 3

def forgottenAdd : List Action := forgottenBy (workerWrites unitDraws)

/-- Another `Wait` of goroutine 0. -/
def forgottenWait : List Action := forgottenAdd ++ .go 0 (.call (.wait 1)) :: steps 0 5

theorem forgottenWait_runs : ((machine unitPrimitives).exec {} forgottenWait).isSome := by
  decide +kernel

/-- A `Wait` returns with a message still in `tologCh`: when another one is in progress, and, with
    none in progress, after an `Add(1)` of the logger has panicked. -/
theorem wait_unsettled :
    (¬ ∀ u : State, (machine unitPrimitives).Reach u →
      ∀ g l mark early, .wait g l mark early ∈ u.sh.returned →
        ∀ m ∈ u.sh.sent.take mark, m.log = l → m ∈ u.sh.handled) ∧
    (¬ ∀ u : State, (machine unitPrimitives).Reach u →
      ∀ g l mark, .wait g l mark false ∈ u.sh.returned →
        ∀ m ∈ u.sh.sent.take mark, m.log = l → m ∈ u.sh.handled) := by
  constructor
  · intro h
    have hm := h _ (reach_exec secondWait_runs) 1 1 1 true (by decide) ⟨[104], 1, 0, 2⟩
      (by decide)
    exact absurd (hm rfl) (by decide)
  · intro h
    have hm := h _ (reach_exec forgottenWait_runs) 0 1 2 (by decide +kernel) ⟨[106], 1, 2, 1⟩
      (by decide +kernel)
    exact absurd (hm rfl) (by decide +kernel)

/-- A `Wait` that slept until the worker was through with the message. -/
def fullWait : List Action :=
  .spawn :: newLoggerCall 0 [97] ++ printCall 0 1 [104] ++ .go 0 (.call (.wait 1)) :: steps 0 3 ++
    workerWrites unitDraws ++ [.worker .tau, .worker .tau, .worker .tau] ++ steps 0 3

theorem fullWait_runs : ((machine unitPrimitives).exec {} fullWait).isSome := by decide

theorem wait_settles_fullWait : (⟨[104], 1, (0, 2)⟩ : LoggerMessage) ∈
    (((machine unitPrimitives).exec {} fullWait).get fullWait_runs).sh.handled :=
  wait_settles (reach_exec fullWait_runs) 0 1 1 (by decide) (.inl (by decide))
    ⟨[104], 1, (0, 2)⟩ (by decide) rfl

end ZipoLogger
