/-
  The package-level `Wait`.

  It waits on the loggers of the registry, one after the other, over a snapshot of the keys.
  `Shared.Pending n l`: one of the first `n` messages that entered `tologCh` is a message of `l`,
  entered while `l` was in the registry, and the worker is not through with it. Such a logger is
  in the registry, or it was evicted and the goroutine that evicted it is still flushing it, with
  the internal lock of the registry held. So a walker that holds a free registry lock finds every
  pending logger under its key (`Pc.Covers`), and with no key left nothing is pending.

  This needs every one of the inner `Wait`s to wait: no other `Wait` on the same logger is in
  progress (`noOverlap`), and none has panicked and left the flag set. And it needs the counters
  to tell what is in flight: no `Add(1)` of a `print` has panicked.
-/
import ZipoLogger.Logger.Registry
import ZipoLogger.Logger.Waiting

namespace ZipoLogger

open Enc

/-- The logger a goroutine is inside `Wait` of. -/
def Pc.waitsOn : Pc → Option Ptr
  | .wait l _ _ _ => some l
  | _ => none

/-- No two goroutines are inside `Wait` of one logger. -/
def noOverlap (u : State) : Bool := decide (u.threads.filterMap fun t => t.pc.waitsOn).Nodup

/-- `logTasks.Wait` has not returned yet. -/
def WaitPhase.before : WaitPhase → Bool
  | .lock | .test | .tasks | .park => true
  | .relock | .clear => false

/-- The eviction callback is flushing `l`. -/
def Pc.Flushing (l : Ptr) (pc : Pc) : Prop :=
  ∃ mark a new ph, pc = .wait l mark (.evict a new) ph ∧ ph.before = true

/-- Among the first `n` messages is one of `l` that entered while `l` was in the registry and
    that the worker is not through with. -/
def Shared.Pending (s : Shared) (n : Nat) (l : Ptr) : Prop :=
  ∃ a ∈ s.accepted.take n, a.registered = true ∧ a.message.log = l ∧ a.message ∉ s.handled

/-- The loggers pending at the beginning of a package-level `Wait` stand under the keys it has
    yet to visit, or it is waiting on them. -/
def Pc.Covers (s : Shared) : Pc → Prop
  | .waitAll mark (.next keys) =>
    mark ≤ s.accepted.length ∧ ∀ l, s.Pending mark l → (s.loggers l).filename ∈ keys
  | .waitAll mark _ => mark ≤ s.accepted.length
  | .wait l' _ (.waitAll mark keys) ph =>
    mark ≤ s.accepted.length ∧
      ∀ l, s.Pending mark l → (s.loggers l).filename ∈ keys ∨ (l = l' ∧ ph.before = true)
  | _ => True

section Pending

variable {P : Primitives} {u : State} {s s' : Shared} {n mark : Nat} {l : Ptr} {k : Cont}

theorem Shared.Pending.of_extends (h : s'.Pending n l) (hext : Extends s s')
    (hn : n ≤ s.accepted.length) : s.Pending n l := by
  obtain ⟨a, ha, hreg, hl, hnot⟩ := h
  obtain ⟨r, hr⟩ := hext.accepted
  rw [← hr, List.take_append_of_le_length hn] at ha
  exact ⟨a, ha, hreg, hl, fun hm => hnot (hext.handled.subset hm)⟩

theorem not_pending_of_counter_zero (hu : (machine P).Reach u)
    (hadd : .printAdd l ∉ u.sh.panics) (hc : u.sh.counter l = 0) : ¬ u.sh.Pending n l := by
  intro hP
  obtain ⟨a, ha, -, hl, hnot⟩ := hP
  have hs := settled_of_counter_zero hu hadd hc u.sh.sent.length
  refine hnot (hs a.message ?_ hl)
  rw [List.take_length]
  exact List.mem_map_of_mem (List.mem_of_mem_take ha)

theorem WorkerPc.log_mem_refs {w : WorkerPc} {m : LoggerMessage} (h : w.owed = some m) :
    m.log ∈ w.refs := by
  unfold WorkerPc.refs
  split
  · cases h
  · cases h
  · simp [h]

/-- A pending message is in the worker's hands or queued, so its logger is allocated. -/
theorem Shared.Pending.lt (h : u.sh.Pending n l) (hu : (machine P).Reach u) : l < u.sh.nlog := by
  obtain ⟨a, ha, -, rfl, hnot⟩ := h
  have hsent : a.message ∈ u.sh.sent := List.mem_map_of_mem (List.mem_of_mem_take ha)
  rw [reach_fifo hu, List.mem_append, List.mem_append, Option.mem_toList] at hsent
  rcases hsent with (hm | hm) | hm
  · exact absurd hm hnot
  · exact (reach_wf hu).worker _ (WorkerPc.log_mem_refs (WorkerPc.owed_of_inHand hm))
  · exact (reach_wf hu).shared.queued _ hm

/-- With no overlap and no panic in `logTasks.Wait`, a `Wait` finds the flag clear. -/
theorem waitStarted_eq_zero (hu : (machine P).Reach u) (hno : noOverlap u = true)
    (hp : ∀ l, .wait l ∉ u.sh.panics) {g : Gid} {t : Thread} (ht : u.threads[g]? = some t)
    (hpc : t.pc = .wait l mark k .test) : (u.sh.loggers l).waitStarted = 0 := by
  have hnodup := of_decide_eq_true hno
  rw [List.Nodup, List.pairwise_filterMap, List.pairwise_iff_getElem] at hnodup
  obtain ⟨hg, hgt⟩ := List.getElem?_eq_some_iff.mp ht
  have hwaiting : u.waiting l = 0 := by
    refine List.countP_eq_zero.mpr fun t' ht' hw => ?_
    obtain ⟨mark', k', ph', hpc'⟩ := Pc.waiting_wait hw
    obtain ⟨g', hg', hgt'⟩ := List.getElem_of_mem ht'
    have hl : t.pc.waitsOn = some l := by rw [hpc]; rfl
    have hl' : t'.pc.waitsOn = some l := by rw [hpc']; rfl
    rcases lt_trichotomy g g' with hlt | rfl | hlt
    · exact hnodup g g' hg hg' hlt l (by rw [hgt, hl]) l (by rw [hgt', hl']) rfl
    · rw [← hgt', hgt, hpc] at hw
      exact absurd hw Bool.false_ne_true
    · exact hnodup g' g hg' hg hlt l (by rw [hgt', hl']) l (by rw [hgt, hl]) rfl
  rw [(reach_gated hu l).gate, hwaiting, List.count_eq_zero.mpr (hp l)]

end Pending

section Steps

variable {g : Gid} {seq : Nat} {s s' : Shared} {pc pc' : Pc} {i : Input} {l : Ptr} {mark : Nat}
  {k : Cont} {ph ph' : WaitPhase}

/-- A `Wait` comes past `logTasks.Wait` with a zero counter, unless it leaves early or panics. -/
theorem GoStep.before (h : GoStep g seq s (.wait l mark k ph) i pc' s') (hb : ph.before = true) :
    (∃ ph', ph'.before = true ∧ pc' = .wait l mark k ph') ∨ s.counter l = 0 ∨
      (ph = .test ∧ (s.loggers l).waitStarted = 1) ∨
      (.wait l ∈ s'.panics ∧ ph = .park ∧
        ∃ wg, (s.loggers l).logTasks.wake = some (wg, false)) := by
  cases h with
  | waitLock => exact .inl ⟨.test, rfl, rfl⟩
  | waitEarly hw => exact .inr (.inr (.inl ⟨rfl, hw⟩))
  | waitSet => exact .inl ⟨.tasks, rfl, rfl⟩
  | waitThrough henter => exact .inr (.inl ((WaitGroup.enter_none_iff _).mp henter))
  | waitPark => exact .inl ⟨.park, rfl, rfl⟩
  | waitWake hwake => exact .inr (.inl ((WaitGroup.wake_counter hwake).2 rfl))
  | waitPanics hwake =>
    exact .inr (.inr (.inr ⟨by cases k <;> simp [unwindWait], rfl, _, hwake⟩))
  | waitRelock | waitClear => exact absurd hb Bool.false_ne_true

theorem Pc.Covers.phase (h : (Pc.wait l mark k ph).Covers s)
    (hph : ph.before = true → ph'.before = true) : (Pc.wait l mark k ph').Covers s := by
  cases k with
  | waitAll mark' keys => exact ⟨h.1, fun l' hP => (h.2 l' hP).imp_right fun hl => ⟨hl.1, hph hl.2⟩⟩
  | _ => trivial

/-- Past `logTasks.Wait` nothing of the logger is pending. -/
theorem Pc.Covers.relock (h : (Pc.wait l mark k ph).Covers s) (hl : ∀ n, ¬ s.Pending n l) :
    (Pc.wait l mark k .relock).Covers s := by
  cases k with
  | waitAll mark' keys =>
    refine ⟨h.1, fun l' hP => .inl ?_⟩
    rcases h.2 l' hP with hmem | ⟨rfl, -⟩
    · exact hmem
    · exact absurd hP (hl mark')
  | _ => trivial

/-- What a walker does keeps the pending loggers under the keys it has yet to visit. -/
theorem GoStep.covers (h : GoStep g seq s pc i pc' s') (hpc : pc.Covers s)
    (hreg : s.registryLock = none → ∀ n l, s.Pending n l → s.registered l = true)
    (hzero : ∀ n l, s.counter l = 0 → ¬ s.Pending n l)
    (hset : ∀ l mark k, pc = .wait l mark k .test → (s.loggers l).waitStarted = 0) :
    pc'.Covers s := by
  -- with the registry lock free a pending logger is found under its file name
  have hfound : s.registryLock = none → ∀ n l, s.Pending n l →
      s.registry.get? (s.loggers l).filename = some l :=
    fun hlock n l hP => of_decide_eq_true (hreg hlock n l hP)
  cases h with
  | callWaitAll => exact le_rfl
  | allLock => exact hpc
  | allKeys hlock =>
    refine ⟨hpc, fun l hP => ?_⟩
    exact Lru.mem_keys.mpr ⟨l, Lru.get?_eq_some_iff.mp (hfound hlock _ l hP)⟩
  | @allMiss mark w keys hlock hget =>
    refine ⟨hpc.1, fun l hP => ?_⟩
    rcases List.mem_cons.mp (hpc.2 l hP) with hw | hmem
    · have hl := hfound hlock _ l hP
      rw [hw, hget] at hl
      cases hl
    · exact hmem
  | @allHit mark w keys l' hlock hget =>
    refine ⟨hpc.1, fun l hP => ?_⟩
    rcases List.mem_cons.mp (hpc.2 l hP) with hw | hmem
    · have hl := hfound hlock _ l hP
      rw [hw, hget] at hl
      exact .inr ⟨(Option.some.inj hl).symm, rfl⟩
    · exact .inl hmem
  | waitLock | waitSet | waitPark => exact hpc.phase fun _ => rfl
  | waitRelock => exact hpc.phase fun h => h
  | @waitThrough l' mark k henter =>
    exact hpc.relock fun n => hzero n l' ((WaitGroup.enter_none_iff _).mp henter)
  | @waitWake l' mark k wg hwake =>
    exact hpc.relock fun n => hzero n l' ((WaitGroup.wake_counter hwake).2 rfl)
  | @waitEarly l' mark k hw =>
    rw [hset l' mark k rfl] at hw
    cases hw
  | @waitClear l' mark k =>
    cases k with
    | waitAll mark' keys =>
      refine ⟨hpc.1, fun l hP => ?_⟩
      rcases hpc.2 l hP with hmem | ⟨-, hb⟩
      · exact hmem
      · exact absurd hb Bool.false_ne_true
    | _ => trivial
  | waitPanics =>
    rw [unwindWait_fst]
    trivial
  | _ => trivial

end Steps

/-! ## Every run -/

/-- Nothing pending is out of sight of the walkers. -/
structure State.Covered (u : State) : Prop where
  pending : ∀ n l, u.sh.Pending n l → u.sh.registered l = true ∨
    ∃ (g : Gid) (t : Thread), u.threads[g]? = some t ∧ t.pc.Flushing l
  walkers : ∀ (g : Gid) (t : Thread), u.threads[g]? = some t → t.pc.Covers u.sh
  returned : ∀ g mark, .waitAll g mark ∈ u.sh.returned →
    mark ≤ u.sh.accepted.length ∧ ∀ l, ¬ u.sh.Pending mark l

section Runs

variable {P : Primitives} {u : State} {g : Gid} {t : Thread} {i : Input} {pc : Pc} {sh : Shared}
  {n : Nat} {l : Ptr}

/-- Who finds the lock of the registry free finds the pending loggers in it. -/
theorem State.Covered.registered (hcov : u.Covered) (hu : (machine P).Reach u)
    (hlock : u.sh.registryLock = none) (hP : u.sh.Pending n l) : u.sh.registered l = true := by
  rcases hcov.pending n l hP with hr | ⟨g, t, ht, mark, a, new, ph, hpc, hb⟩
  · exact hr
  · have hmem : Lock.registry ∈ t.pc.locks := by
      rw [hpc]
      cases ph <;> simp [Pc.locks, Cont.locks]
    have hheld : u.sh.registryLock = some (.go g) := (reach_owned hu).threads g t ht .registry hmem
    rw [hlock] at hheld
    cases hheld

/-- What a walker knows outlasts a step: nothing becomes pending among the first messages. -/
theorem Pc.Covers.step {s s' : Shared} {pc : Pc} (h : pc.Covers s) (hext : Extends s s')
    (hlt : ∀ n l, s.Pending n l → l < s.nlog)
    (hname : ∀ l, l < s.nlog → (s'.loggers l).filename = (s.loggers l).filename) :
    pc.Covers s' := by
  have hlen := hext.accepted.length_le
  cases pc with
  | waitAll mark ph =>
    cases ph with
    | next keys =>
      refine ⟨h.1.trans hlen, fun l hP => ?_⟩
      have hP' := hP.of_extends hext h.1
      rw [hname l (hlt _ l hP')]
      exact h.2 l hP'
    | lock | keys => exact h.trans hlen
  | wait l' mark' k ph =>
    cases k with
    | waitAll mark keys =>
      refine ⟨h.1.trans hlen, fun l hP => ?_⟩
      have hP' := hP.of_extends hext h.1
      rw [hname l (hlt _ l hP')]
      exact h.2 l hP'
    | _ => trivial
  | _ => trivial

/-- A step of a goroutine and a logger that was pending before it. -/
theorem State.Covered.still (hcov : u.Covered) (hu : (machine P).Reach u)
    (hno : noOverlap u = true) (hp : ∀ l, .wait l ∉ sh.panics)
    (hadd : ∀ l, .printAdd l ∉ sh.panics) (ht : u.threads[g]? = some t)
    (hstep : GoStep g t.seq u.sh t.pc i pc sh) (hP : u.sh.Pending n l) :
    sh.registered l = true ∨ ∃ (g' : Gid) (t' : Thread),
      (u.threads.set g { pc, seq := t.nextSeq i })[g']? = some t' ∧ t'.pc.Flushing l := by
  have hself : (u.threads.set g { pc, seq := t.nextSeq i })[g]? =
      some { pc, seq := t.nextSeq i } :=
    List.getElem?_set_self (List.getElem?_eq_some_iff.mp ht).1
  rcases hcov.pending n l hP with hr | ⟨g', t', ht', mark, a, new, ph, hpc, hb⟩
  · rcases hstep.registered hu ht (hP.lt hu) hr with hr' | ⟨mark, a, new, rfl⟩
    · exact .inl hr'
    · exact .inr ⟨g, _, hself, mark, a, new, .lock, rfl, rfl⟩
  · right
    by_cases hg : g' = g
    · subst hg
      cases Option.some.inj (ht.symm.trans ht')
      have hp' : ∀ l, .wait l ∉ u.sh.panics := fun l hl => hp l (hstep.extends.panics.subset hl)
      rw [hpc] at hstep
      rcases hstep.before hb with ⟨ph', hb', rfl⟩ | hc | ⟨rfl, hw⟩ | ⟨hpanic, -⟩
      · exact ⟨g', _, hself, mark, a, new, ph', rfl, hb'⟩
      · have hadd' : .printAdd l ∉ u.sh.panics :=
          fun hl => hadd l (hstep.extends.panics.subset hl)
        exact absurd hP (not_pending_of_counter_zero hu hadd' hc)
      · rw [waitStarted_eq_zero hu hno hp' ht hpc] at hw
        cases hw
      · exact absurd hpanic (hp l)
    · exact ⟨g', t', by rw [List.getElem?_set_ne (Ne.symm hg), ht'], mark, a, new, ph, hpc, hb⟩

/-- A logger is pending after a step of a goroutine: it was, or its message has just entered. -/
theorem GoStep.pending (h : GoStep g t.seq u.sh t.pc i pc sh) (hu : (machine P).Reach u)
    (ht : u.threads[g]? = some t) (hP : sh.Pending n l) :
    u.sh.Pending u.sh.accepted.length l ∨ sh.registered l = true := by
  obtain ⟨a, ha, hreg, rfl, hnot⟩ := hP
  have ha := List.mem_of_mem_take ha
  have hnot' : a.message ∉ u.sh.handled := fun hm => hnot (h.extends.handled.subset hm)
  rcases h.queue with ⟨hacc, -⟩ | ⟨l, msg, hpc, hidle, -, -, hacc⟩
  · rw [hacc] at ha
    exact .inl ⟨a, by rwa [List.take_length], hreg, rfl, hnot'⟩
  · rw [hacc, List.mem_append, List.mem_singleton] at ha
    rcases ha with ha | rfl
    · exact .inl ⟨a, by rwa [List.take_length], hreg, rfl, hnot'⟩
    · have hl : l < u.sh.nlog := (reach_wf hu).threads g t ht l (by simp [hpc, Pc.refs])
      rcases h.registered hu ht hl hreg with hr | ⟨mark, a, new, hpc'⟩
      · exact .inr hr
      · rw [hidle] at hpc'
        cases hpc'

theorem State.Covered.go (hcov : u.Covered) (hu : (machine P).Reach u)
    (hno : noOverlap u = true) (hp : ∀ l, .wait l ∉ sh.panics)
    (hadd : ∀ l, .printAdd l ∉ sh.panics) (ht : u.threads[g]? = some t)
    (hstep : GoStep g t.seq u.sh t.pc i pc sh) :
    State.Covered { u with sh, threads := u.threads.set g { pc, seq := t.nextSeq i } } := by
  have hext := hstep.extends
  have hlt : ∀ n l, u.sh.Pending n l → l < u.sh.nlog := fun n l hP => hP.lt hu
  have hp' : ∀ l, .wait l ∉ u.sh.panics := fun l hl => hp l (hext.panics.subset hl)
  have hadd' : ∀ l, .printAdd l ∉ u.sh.panics := fun l hl => hadd l (hext.panics.subset hl)
  refine ⟨fun n l hP => ?_, fun g' t' ht' => ?_, fun g' mark hret => ?_⟩
  · rcases hstep.pending hu ht hP with hP' | hr
    · exact hcov.still hu hno hp hadd ht hstep hP'
    · exact .inl hr
  · have hkeep : ∀ pc : Pc, pc.Covers u.sh → pc.Covers sh := fun pc h =>
      h.step hext hlt fun l hl => hstep.filename hl
    rcases threads_set ht' with ⟨-, rfl⟩ | ⟨-, ht'⟩
    · refine hkeep _ (hstep.covers (hcov.walkers g t ht) ?_ ?_ ?_)
      · exact fun hlock n l => hcov.registered hu hlock
      · exact fun n l => not_pending_of_counter_zero hu (hadd' l)
      · exact fun l mark k hpc => waitStarted_eq_zero hu hno hp' ht hpc
    · exact hkeep _ (hcov.walkers g' t' ht')
  · have hold : mark ≤ u.sh.accepted.length ∧ ∀ l, ¬ u.sh.Pending mark l := by
      rcases hstep.returned with hsame | ⟨r, hnew, hr⟩
      · exact hcov.returned g' mark (hsame ▸ hret)
      · have hret : Returned.waitAll g' mark ∈ sh.returned := hret
        rw [hnew, List.mem_append, List.mem_singleton] at hret
        rcases hret with hret | rfl
        · exact hcov.returned g' mark hret
        · have hwalk := hcov.walkers g t ht
          generalize t.pc = pc₀ at hr hwalk
          cases hr
          exact ⟨hwalk.1, fun l hP => List.not_mem_nil (hwalk.2 l hP)⟩
    exact ⟨hold.1.trans hext.accepted.length_le, fun l hP => hold.2 l (hP.of_extends hext hold.1)⟩

theorem State.Covered.worker {wi : WorkerInput} {wpc : WorkerPc} (hcov : u.Covered)
    (hu : (machine P).Reach u) (hstep : WorkerStep P u.sh u.worker wi wpc sh) :
    State.Covered { u with sh, worker := wpc } := by
  have hext := hstep.extends
  have hacc : sh.accepted = u.sh.accepted := hstep.queue.1
  have hold : ∀ n l, sh.Pending n l → u.sh.Pending n l := by
    intro n l ⟨a, ha, hreg, hl, hnot⟩
    exact ⟨a, hacc ▸ ha, hreg, hl, fun hm => hnot (hext.handled.subset hm)⟩
  refine ⟨fun n l hP => ?_, fun g t ht => ?_, fun g mark hret => ?_⟩
  · rcases hcov.pending n l (hold n l hP) with hr | hflush
    · exact .inl (hstep.registered.trans hr)
    · exact .inr hflush
  · exact (hcov.walkers g t ht).step hext (fun n l hP => hP.lt hu) fun l _ => hstep.filename
  · have hret : Returned.waitAll g mark ∈ sh.returned := hret
    rw [hstep.returned] at hret
    obtain ⟨hle, hnone⟩ := hcov.returned g mark hret
    exact ⟨hle.trans hext.accepted.length_le, fun l hP => hnone l (hold mark l hP)⟩

theorem reach_covered (h : (machine P).ReachIf (fun u _ => noOverlap u = true) u)
    (hp : ∀ l, .wait l ∉ u.sh.panics) (hadd : ∀ l, .printAdd l ∉ u.sh.panics) : u.Covered := by
  revert hp hadd
  refine Machine.RunIf.invariant (P := fun u => (∀ l, .wait l ∉ u.sh.panics) →
    (∀ l, .printAdd l ∉ u.sh.panics) → u.Covered) h ?_ ?_
  · intro _ _
    exact ⟨fun n l ⟨a, ha, _⟩ => by simp [machine] at ha, by simp [machine], by simp [machine]⟩
  · intro u a v hrun ih hno hs hp hadd
    have hu : (machine P).Reach u := Machine.ReachIf.reach hrun
    rcases step_cases hs with ⟨-, rfl⟩ | ⟨g, i, t, pc, sh, -, ht, hstep, rfl⟩ |
      ⟨i, wpc, sh, -, hstep, rfl⟩
    · obtain ⟨hpend, hwalk, hret⟩ := ih hp hadd
      refine ⟨fun n l hP => ?_, fun g t ht => ?_, hret⟩
      · rcases hpend n l hP with hr | ⟨g, t, ht, hfl⟩
        · exact .inl hr
        · refine .inr ⟨g, t, ?_, hfl⟩
          rw [List.getElem?_append_left (List.getElem?_eq_some_iff.mp ht).1, ht]
      · rcases threads_spawn ht with rfl | ht
        · trivial
        · exact hwalk g t ht
    · have hcov := ih (fun l hl => hp l (hstep.extends.panics.subset hl))
        fun l hl => hadd l (hstep.extends.panics.subset hl)
      exact hcov.go hu hno hp hadd ht hstep
    · have hcov := ih (fun l hl => hp l (hstep.extends.panics.subset hl))
        fun l hl => hadd l (hstep.extends.panics.subset hl)
      exact hcov.worker hu hstep

/-- In every run in which no two `Wait`s on one logger overlap and neither a `logTasks.Wait` nor
    the `logTasks.Add(1)` of a `print` panics: when the package-level `Wait` returns, the worker is
    through with every message that entered `tologCh` before the call while its logger was in the
    registry. -/
theorem waitAll_settles (h : (machine P).ReachIf (fun u _ => noOverlap u = true) u)
    (hp : ∀ l, .wait l ∉ u.sh.panics) (hadd : ∀ l, .printAdd l ∉ u.sh.panics) (g : Gid)
    (mark : Nat) (hr : .waitAll g mark ∈ u.sh.returned) :
    ∀ a ∈ u.sh.accepted.take mark, a.registered = true → a.message ∈ u.sh.handled := by
  intro a ha hreg
  by_contra hnot
  exact ((reach_covered h hp hadd).returned g mark hr).2 a.message.log ⟨a, ha, hreg, rfl, hnot⟩

/-- A message is logged, and the package-level `Wait` sleeps until the worker is through with it. -/
def packageWait : List Action :=
  .spawn :: newLoggerCall 0 [97] ++ printCall 0 1 [104] ++ .go 0 (.call .waitAll) :: steps 0 6 ++
    workerWrites unitDraws ++ [.worker .tau, .worker .tau, .worker .tau] ++ steps 0 4

theorem packageWait_runs :
    ((machine unitPrimitives).execIf (fun u _ => noOverlap u) {} packageWait).isSome := by decide

theorem packageWait_panics : (((machine unitPrimitives).execIf (fun u _ => noOverlap u) {}
    packageWait).get packageWait_runs).sh.panics = [] := by decide

theorem waitAll_settles_packageWait : (⟨[104], 1, (0, 2)⟩ : LoggerMessage) ∈
    (((machine unitPrimitives).execIf (fun u _ => noOverlap u) {} packageWait).get
      packageWait_runs).sh.handled :=
  waitAll_settles (reachIf_exec packageWait_runs) (by rw [packageWait_panics]; simp)
    (by rw [packageWait_panics]; simp) 0 1 (by decide)
    ⟨⟨[104], 1, (0, 2)⟩, true⟩ (by decide) rfl

end Runs

end ZipoLogger
