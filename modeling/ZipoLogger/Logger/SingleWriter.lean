/-
  One Logger for each file.

  The records of a Logger go to the writer it was given, opened on its file name. `InFlight l`: a
  message of `l` is queued, or the worker has it in its hands and will write it. While the
  registry holds a Logger no other is created under its file name, and while the eviction callback
  flushes a Logger it holds the lock of the registry, so such a Logger (`keeps`) is the newest of
  its file name (`reach_newest`).

  Nothing retires a Logger: who still has the pointer can print to it after it was dropped. When
  messages enter only through kept Loggers (`sendsKept`), the flush of an eviction goes through to
  the end (`flushesWait`) and finds a counter that can be relied on (no `Add(1)` of a `print` has
  panicked), the messages in flight are those of kept Loggers (`reach_kept`).
-/
import ZipoLogger.Logger.PackageWait
import ZipoLogger.Logger.Release

namespace ZipoLogger

open Enc

/-- A message of the logger is queued, or the worker has it in its hands. -/
def State.InFlight (u : State) (l : Ptr) : Prop :=
  ∃ m, (m ∈ u.sh.tologCh ∨ u.worker.inHand = some m) ∧ m.log = l

/-- No two Loggers hand records to one file. -/
structure State.SingleWriter (u : State) : Prop where
  /-- Of the Loggers of a file name at most one has records to hand over. -/
  unique : ∀ l l', u.InFlight l → u.InFlight l' →
    (u.sh.loggers l).filename = (u.sh.loggers l').filename → l = l'
  /-- No newer Logger of its file name exists, so none that was dropped and replaced writes. -/
  newest : ∀ l l', u.InFlight l → l < l' → l' < u.sh.nlog →
    (u.sh.loggers l').filename ≠ (u.sh.loggers l).filename
  /-- The writer of a Logger is opened on its file name. -/
  opened : ∀ l w, (u.sh.loggers l).log = some w →
    (u.sh.writers w).filename = (u.sh.loggers l).filename

/-- The eviction callback is flushing `l`. -/
def Pc.flushes (l : Ptr) : Pc → Bool
  | .wait l' _ (.evict _ _) ph => l' = l && ph.before
  | _ => false

/-- The registry holds the logger, or the eviction that dropped it is still flushing it. -/
def State.keeps (u : State) (l : Ptr) : Bool :=
  u.sh.registered l || u.threads.any fun t => t.pc.flushes l

/-- A message enters `tologCh` only through a logger that is kept. -/
def sendsKept (u : State) : Action → Bool
  | .go g _ => (u.threads[g]?).all fun t =>
    match t.pc with
    | .print l _ .send => !u.sh.slotFree || u.keeps l
    | _ => true
  | _ => true

/-- The flush of an eviction neither finds another `Wait` in progress nor panics. -/
def flushesWait (u : State) : Action → Bool
  | .go g _ => (u.threads[g]?).all fun t =>
    match t.pc with
    | .wait l _ (.evict _ _) .test => (u.sh.loggers l).waitStarted ≠ 1
    | .wait l _ (.evict _ _) .park => (u.sh.loggers l).logTasks.wake.all (·.2)
    | _ => true
  | _ => true

section Steps

variable {P : Primitives} {u : State} {s s' : Shared} {g : Gid} {seq : Nat} {pc pc' : Pc}
  {i : Input} {l : Ptr} {wpc wpc' : WorkerPc} {wi : WorkerInput}

theorem Pc.flushes_iff : pc.flushes l = true ↔ pc.Flushing l := by
  constructor
  · intro h
    unfold Pc.flushes at h
    split at h
    · rename_i l' mark a new ph
      obtain ⟨hl, hb⟩ := Bool.and_eq_true_iff.mp h
      have hl : l' = l := of_decide_eq_true hl
      subst hl
      exact ⟨mark, a, new, ph, rfl, hb⟩
    · cases h
  · intro h
    obtain ⟨mark, a, new, ph, rfl, hb⟩ := h
    simp [Pc.flushes, hb]

theorem State.keeps_iff : u.keeps l = true ↔ u.sh.registered l = true ∨
    ∃ (g : Gid) (t : Thread), u.threads[g]? = some t ∧ t.pc.Flushing l := by
  unfold State.keeps
  rw [Bool.or_eq_true, List.any_eq_true]
  refine or_congr_right ⟨?_, ?_⟩
  · intro h
    obtain ⟨t, ht, hf⟩ := h
    obtain ⟨g, hg⟩ := List.getElem?_of_mem ht
    exact ⟨g, t, hg, Pc.flushes_iff.mp hf⟩
  · intro h
    obtain ⟨g, t, ht, hf⟩ := h
    exact ⟨t, List.mem_of_getElem? ht, Pc.flushes_iff.mpr hf⟩

/-! ## The newest of a file name -/

/-- A goroutine goes on flushing a logger, or has just dropped it from the registry. -/
theorem GoStep.flushes (h : GoStep g seq s pc i pc' s') (hf : pc'.flushes l = true) :
    pc.flushes l = true ∨ ∃ a f, pc = .newLogger a .add ∧
      (s.registry.add a.filename s.nlog).2 = some (f, l) := by
  cases h with
  | @newEvict a f old hlock hadd =>
    have hl : old = l := by simpa [Pc.flushes, WaitPhase.before] using hf
    exact .inr ⟨a, f, rfl, hl ▸ hadd⟩
  | @waitLock l' mark k | @waitSet l' mark k | @waitPark l' mark k | @waitRelock l' mark k =>
    cases k <;> exact .inl hf
  | @waitThrough l' mark k | @waitWake l' mark k =>
    cases k <;> simp [Pc.flushes, WaitPhase.before] at hf
  | @waitEarly l' mark k | @waitClear l' mark k => cases k <;> simp [afterWait, Pc.flushes] at hf
  | waitPanics =>
    rw [unwindWait_fst] at hf
    cases hf
  | _ => cases hf

/-- A logger in the registry was there, or it is the one just added. -/
theorem GoStep.registered_back (h : GoStep g seq s pc i pc' s') (hs : s.Wf)
    (hr : s'.registered l = true) : s.registered l = true ∨ l = s.nlog := by
  have hget : s'.registry.get? (s'.loggers l).filename = some l := of_decide_eq_true hr
  -- an entry of the registry stands under its logger's name
  have hold : ((s'.loggers l).filename, l) ∈ s.registry.entries → s.registered l = true := by
    intro hmem
    obtain ⟨-, -, hname⟩ := hs.registered _ hmem
    have hname : (s.loggers l).filename = (s'.loggers l).filename := hname
    exact decide_eq_true (Lru.get?_eq_some_iff.mpr (hname ▸ hmem))
  rcases h.registry with hsame | ⟨a, -, hadd, -⟩
  · exact .inl (hold (Lru.get?_eq_some_iff.mp (hsame _ ▸ hget)))
  · rw [hadd] at hget
    rcases Lru.mem_add (Lru.get?_eq_some_iff.mp hget) with hnew | ⟨hmem, -⟩
    · exact .inr (Prod.ext_iff.mp hnew).2
    · exact .inl (hold hmem)

end Steps

/-! ## The file of a writer -/

/-- Every writer a logger has is opened on its file name. -/
def Shared.Opened (s : Shared) : Prop :=
  ∀ l w, (s.loggers l).log = some w → (s.writers w).filename = (s.loggers l).filename

section Files

variable {P : Primitives} {s s' : Shared} {g : Gid} {seq : Nat} {pc pc' : Pc} {i : Input}
  {wpc wpc' : WorkerPc} {wi : WorkerInput} {l : Ptr}

theorem Shared.closeWriter_filename (s : Shared) (l : Ptr) (w : Wid) :
    ((s.closeWriter l).writers w).filename = (s.writers w).filename := by
  unfold Shared.closeWriter
  split
  · rfl
  · rw [Shared.modifyWriter_writers]
    split <;> simp [*]

theorem GoStep.writerName (h : GoStep g seq s pc i pc' s') (w : Wid) :
    (s'.writers w).filename = (s.writers w).filename := by
  rcases h.writers with hw | ⟨l, hw⟩
  · rw [hw]
  · rw [hw, Shared.closeWriter_filename]

theorem Shared.Opened.modify {f : Logger → Logger} (hs : s.Opened)
    (hlog : (f (s.loggers l)).log = (s.loggers l).log)
    (hname : (f (s.loggers l)).filename = (s.loggers l).filename) : (s.modify l f).Opened := by
  intro l' w h
  rw [Shared.modify_field _ _ _ _ Logger.log hlog] at h
  rw [Shared.modify_field _ _ _ _ Logger.filename hname]
  exact hs l' w h

theorem Shared.Opened.createWriter (hs : s.Opened) (hr : s.Routed) :
    (s.createWriter l).Opened := by
  intro l' w h
  rw [Shared.createWriter_log] at h
  by_cases hl : l' = l
  · rw [if_pos hl] at h
    cases h
    simp [Shared.createWriter, hl]
  · rw [if_neg hl] at h
    have hw : w ≠ s.nwri := (hr.allocated l' w h).ne
    simpa [Shared.createWriter, hl, hw] using hs l' w h

theorem Shared.Opened.modifyWriter {w : Wid} {f : Writer → Writer} (hs : s.Opened)
    (hf : (f (s.writers w)).filename = (s.writers w).filename) : (s.modifyWriter w f).Opened := by
  intro l' w' h
  rw [Shared.modifyWriter_writers]
  by_cases hw : w' = w
  · rw [if_pos hw, hf, ← hw]
    exact hs l' w' h
  · rw [if_neg hw]
    exact hs l' w' h

theorem Shared.Opened.process {m : LoggerMessage} {f : Fate} (hs : s.Opened) :
    (s.process m f).Opened := hs

theorem Shared.Opened.panic {p : PanicSite} (hs : s.Opened) : (s.panic p).Opened := hs

theorem WorkerStep.opened_on (h : WorkerStep P s wpc wi wpc' s') (hr : s.Routed) (hs : s.Opened) :
    s'.Opened := by
  cases h with
  | lock | ready | lockKey | doneReturns | doneWakes | woke => exact hs.modify rfl rfl
  | created => exact (hs.createWriter hr).modify rfl rfl
  | skipped hlog => exact (hs.modify hlog.symm rfl).process
  | @key elem =>
    have hm := hs.modify (l := elem.log) (f := fun lg => { lg with em := none }) rfl rfl
    exact hm
  | wrote => exact (hs.modifyWriter rfl).process
  | donePanics => exact (hs.modify rfl rfl).panic
  | _ => exact hs

end Files

/-! ## Reachable states -/

/-- No logger of its file name is newer. -/
def Shared.Newest (s : Shared) (l : Ptr) : Prop :=
  ∀ l', l < l' → l' < s.nlog → (s.loggers l').filename ≠ (s.loggers l).filename

section Runs

variable {P : Primitives} {u : State} {g : Gid} {t : Thread} {i : Input} {pc : Pc} {sh : Shared}
  {l : Ptr}

theorem State.keeps_lt (hu : (machine P).Reach u) (hk : u.keeps l = true) : l < u.sh.nlog := by
  rcases State.keeps_iff.mp hk with hr | ⟨g, t, ht, mark, a, new, ph, hpc, -⟩
  · have hget : u.sh.registry.get? (u.sh.loggers l).filename = some l := of_decide_eq_true hr
    exact ((reach_wf hu).shared.registered _ (Lru.get?_eq_some_iff.mp hget)).2.1
  · exact (reach_wf hu).threads g t ht l (by simp [hpc, Pc.refs])

/-- What is kept after a step of a goroutine was kept, or is new. -/
theorem GoStep.keeps_back (h : GoStep g t.seq u.sh t.pc i pc sh) (hu : (machine P).Reach u)
    (ht : u.threads[g]? = some t) (hk :
      State.keeps { u with sh, threads := u.threads.set g { pc, seq := t.nextSeq i } } l = true) :
    u.keeps l = true ∨ l = u.sh.nlog := by
  rcases State.keeps_iff.mp hk with hr | ⟨g', t', ht', hf⟩
  · rcases h.registered_back (reach_wf hu).shared hr with hr' | hnew
    · exact .inl (State.keeps_iff.mpr (.inl hr'))
    · exact .inr hnew
  · rcases threads_set ht' with ⟨-, rfl⟩ | ⟨-, ht'⟩
    · rcases h.flushes (Pc.flushes_iff.mpr hf) with hold | ⟨a, f, -, hdrop⟩
      · exact .inl (State.keeps_iff.mpr (.inr ⟨g, t, ht, Pc.flushes_iff.mp hold⟩))
      · rcases Lru.mem_of_add_dropped hdrop with hnew | ⟨hmem, -⟩
        · exact .inr (Prod.ext_iff.mp hnew).2
        · obtain ⟨-, -, hname⟩ := (reach_wf hu).shared.registered _ hmem
          have hname : (u.sh.loggers l).filename = f := hname
          refine .inl (State.keeps_iff.mpr (.inl (decide_eq_true ?_)))
          exact Lru.get?_eq_some_iff.mpr (hname ▸ hmem)
    · exact .inl (State.keeps_iff.mpr (.inr ⟨g', t', ht', hf⟩))

/-- While a logger is kept, `NewLogger` adds none of its file name. -/
theorem State.keeps_add_ne {a : NewArgs} (hu : (machine P).Reach u) (ht : u.threads[g]? = some t)
    (hpc : t.pc = .newLogger a .add) (hlock : u.sh.registryLock = none) (hk : u.keeps l = true) :
    (u.sh.loggers l).filename ≠ a.filename := by
  rcases State.keeps_iff.mp hk with hr | ⟨g', t', ht', mark, a', new, ph, hpc', -⟩
  · have hget : u.sh.registry.get? (u.sh.loggers l).filename = some l := of_decide_eq_true hr
    intro hname
    rw [hname, reach_add_misses hu g t a ht hpc] at hget
    cases hget
  · -- the flush holds the lock of the registry
    have hmem : Lock.registry ∈ t'.pc.locks := by
      rw [hpc']
      cases ph <;> simp [Pc.locks, Cont.locks]
    have hheld : u.sh.registryLock = some (.go g') := (reach_owned hu).threads g' t' ht' _ hmem
    rw [hlock] at hheld
    cases hheld

/-- A logger that is kept is the newest of its file name. -/
theorem reach_newest (h : (machine P).Reach u) : ∀ l, u.keeps l = true → u.sh.Newest l := by
  refine reach_invariant (I := fun u => ∀ l, u.keeps l = true → u.sh.Newest l) h ?_ ?_ ?_ ?_
  · intro l hk
    rcases State.keeps_iff.mp hk with hr | ⟨g, t, ht, -⟩
    · have hget : Lru.get? (Lru.empty : Lru Bytes Ptr registryCap) [] = some l :=
        of_decide_eq_true hr
      cases hget
    · cases ht
  · intro u _ hu l hk
    refine hu l (State.keeps_iff.mpr ?_)
    rcases State.keeps_iff.mp hk with hr | ⟨g, t, ht, hf⟩
    · exact .inl hr
    · rcases threads_spawn ht with rfl | ht
      · cases Pc.flushes_iff.mpr hf
      · exact .inr ⟨g, t, ht, hf⟩
  · intro u g t i pc sh hr hu ht hstep l hk l' hll hl'
    have hl' : l' < sh.nlog := hl'
    show (sh.loggers l').filename ≠ (sh.loggers l).filename
    have hgrow := hstep.registry_grows
    rcases hstep.keeps_back hr ht hk with hk' | rfl
    · have hlt := State.keeps_lt hr hk'
      rw [hstep.filename hlt]
      by_cases hold : l' < u.sh.nlog
      · rw [hstep.filename hold]
        exact hu l hk' l' hll hold
      · rcases hgrow with ⟨-, hsame⟩ | ⟨a, hpc, hlock, -, hsucc, hname⟩
        · exact absurd (hsame ▸ hl') hold
        · have hnew : l' = u.sh.nlog :=
            Nat.le_antisymm (Nat.lt_succ_iff.mp (hl'.trans_eq hsucc)) (Nat.not_lt.mp hold)
          rw [hnew, hname]
          exact (State.keeps_add_ne hr ht hpc hlock hk').symm
    · rcases hgrow with ⟨-, hsame⟩ | ⟨a, -, -, -, hsucc, -⟩
      · exact absurd (hsame ▸ hl') (Nat.lt_asymm hll)
      · exact absurd hll (Nat.not_lt.mpr (Nat.lt_succ_iff.mp (hl'.trans_eq hsucc)))
  · intro u i wpc sh _ hu hstep l hk l' hll hl'
    have hl' : l' < sh.nlog := hl'
    rw [hstep.nlog] at hl'
    show (sh.loggers l').filename ≠ (sh.loggers l).filename
    rw [hstep.filename, hstep.filename]
    refine hu l (State.keeps_iff.mpr ?_) l' hll hl'
    rcases State.keeps_iff.mp hk with hreg | hf
    · exact .inl (hstep.registered.symm.trans hreg)
    · exact .inr hf

/-! ## What is in flight -/

/-- A step of a goroutine and a logger that is kept: it stays kept, or its flush has found nothing
    in flight. -/
theorem GoStep.keeps (h : GoStep g t.seq u.sh t.pc i pc sh) (hu : (machine P).Reach u)
    (ht : u.threads[g]? = some t) (hwait : flushesWait u (.go g i) = true)
    (hk : u.keeps l = true) :
    State.keeps { u with sh, threads := u.threads.set g { pc, seq := t.nextSeq i } } l = true ∨
      (u.sh.counter l = 0 ∧ t.pc.Flushing l) := by
  have hself : (u.threads.set g { pc, seq := t.nextSeq i })[g]? =
      some { pc, seq := t.nextSeq i } :=
    List.getElem?_set_self (List.getElem?_eq_some_iff.mp ht).1
  rcases State.keeps_iff.mp hk with hr | ⟨g', t', ht', hf⟩
  · left
    rcases h.registered hu ht (State.keeps_lt hu hk) hr with hr' | ⟨mark, a, new, hpc'⟩
    · exact State.keeps_iff.mpr (.inl hr')
    · exact State.keeps_iff.mpr (.inr ⟨g, _, hself, mark, a, new, .lock, hpc', rfl⟩)
  · by_cases hg : g' = g
    · subst hg
      cases Option.some.inj (ht.symm.trans ht')
      obtain ⟨mark, a, new, ph, hpc, hb⟩ := hf
      have hstep := h
      rw [hpc] at hstep
      rcases hstep.before hb with ⟨ph', hb', hpc'⟩ | hc | ⟨rfl, hw⟩ | ⟨-, rfl, wg, hwake⟩
      · exact .inl (State.keeps_iff.mpr (.inr ⟨g', _, hself, mark, a, new, ph', hpc', hb'⟩))
      · exact .inr ⟨hc, mark, a, new, ph, hpc, hb⟩
      · simp [flushesWait, ht, hpc, hw] at hwait
      · simp [flushesWait, ht, hpc, hwake] at hwait
    · refine .inl (State.keeps_iff.mpr (.inr ⟨g', t', ?_, hf⟩))
      show (u.threads.set g _)[g']? = some t'
      rw [List.getElem?_set_ne (Ne.symm hg), ht']

theorem State.InFlight.not_quiet (h : u.InFlight l) : ¬ u.Quiet l := by
  obtain ⟨m, hm, hl⟩ := h
  intro hq
  rcases hm with hm | hm
  · exact hq.queued m hm hl
  · exact hq.inHand m hm hl

/-- What is in flight after a step of a goroutine was, or has just been sent. -/
theorem GoStep.inFlight_back (h : GoStep g t.seq u.sh t.pc i pc sh)
    (hf : State.InFlight { u with sh, threads := u.threads.set g { pc, seq := t.nextSeq i } } l) :
    u.InFlight l ∨ ∃ msg, t.pc = .print l msg .send ∧ u.sh.slotFree = true := by
  obtain ⟨m, hm, rfl⟩ := hf
  rcases hm with hm | hm
  · have hm : m ∈ sh.tologCh := hm
    rcases h.queue with ⟨-, hq⟩ | ⟨l', msg, hpc, -, hslot, hq, -⟩
    · exact .inl ⟨m, .inl (hq ▸ hm), rfl⟩
    · rw [hq, List.mem_append, List.mem_singleton] at hm
      rcases hm with hm | rfl
      · exact .inl ⟨m, .inl hm, rfl⟩
      · exact .inr ⟨msg, hpc, hslot⟩
  · exact .inl ⟨m, .inr hm, rfl⟩

/-- A logger with a message in flight is kept. -/
theorem reach_kept
    (h : (machine P).ReachIf (fun u x => (sendsKept u x && flushesWait u x) = true) u)
    (hadd : ∀ l, .printAdd l ∉ u.sh.panics) : ∀ l, u.InFlight l → u.keeps l = true := by
  revert hadd
  refine Machine.RunIf.invariant (P := fun u => (∀ l, .printAdd l ∉ u.sh.panics) →
    ∀ l, u.InFlight l → u.keeps l = true) h ?_ ?_
  · intro _ l hf
    obtain ⟨m, hm, -⟩ := hf
    rcases hm with hm | hm <;> cases hm
  · intro u x v hrun hu hc hs hadd l hf
    have hr : (machine P).Reach u := Machine.ReachIf.reach hrun
    have hsafe : ∀ l, .printAdd l ∉ u.sh.panics := fun l hp =>
      hadd l ((run_extends (.tail .refl trivial hs)).panics.subset hp)
    have hu := hu hsafe
    obtain ⟨hsend, hwait⟩ := Bool.and_eq_true_iff.mp hc
    rcases step_cases hs with ⟨-, rfl⟩ | ⟨g, i, t, pc, sh, rfl, ht, hstep, rfl⟩ |
      ⟨i, wpc, sh, -, hstep, rfl⟩
    · refine State.keeps_iff.mpr ?_
      rcases State.keeps_iff.mp (hu l hf) with hreg | ⟨g, t, ht, hfl⟩
      · exact .inl hreg
      · refine .inr ⟨g, t, ?_, hfl⟩
        rw [List.getElem?_append_left (List.getElem?_eq_some_iff.mp ht).1, ht]
    · rcases hstep.inFlight_back hf with hold | ⟨msg, hpc, hslot⟩
      · rcases hstep.keeps hr ht hwait (hu l hold) with hk | ⟨hc, -⟩
        · exact hk
        · exact absurd (State.quiet_of_counter hr (hsafe l) hc) hold.not_quiet
      · have hk : u.keeps l = true := by simpa [sendsKept, ht, hpc, hslot] using hsend
        rcases hstep.keeps hr ht hwait hk with hk' | ⟨-, mark, a, new, ph, hpc', -⟩
        · exact hk'
        · rw [hpc] at hpc'
          cases hpc'
    · obtain ⟨m, hm, hl⟩ := hf
      refine State.keeps_iff.mpr ?_
      rcases State.keeps_iff.mp (hu l ⟨m, hstep.pending hm, hl⟩) with hreg | hfl
      · exact .inl (hstep.registered.trans hreg)
      · exact .inr hfl

/-- The writer of a logger is opened on its file name. -/
theorem reach_opened_on (h : (machine P).Reach u) : u.sh.Opened := by
  refine reach_invariant (I := fun u => u.sh.Opened) h ?_ (fun _ _ hu => hu) ?_ ?_
  · intro l w h
    cases h
  · intro u g t i pc sh hr hu _ hstep
    have hwf := (reach_wf hr).shared
    intro l w h
    have hlog : (u.sh.loggers l).log = some w := (hstep.log hwf l).symm.trans h
    have hl : l < u.sh.nlog := by
      by_contra hle
      rw [hwf.fresh l (Nat.not_lt.mp hle)] at hlog
      cases hlog
    rw [hstep.writerName, hstep.filename hl]
    exact hu l w hlog
  · intro u i wpc sh hr hu hstep
    exact hstep.opened_on (reach_routed hr) hu

/-! ## One Logger for each file -/

/-- In every run in which messages enter only through loggers that are kept, the flush of an
    eviction goes through, and no `logTasks.Add(1)` of a `print` panics, no two Loggers hand records
    to one file. -/
theorem single_writer
    (h : (machine P).ReachIf (fun u x => (sendsKept u x && flushesWait u x) = true) u)
    (hadd : ∀ l, .printAdd l ∉ u.sh.panics) : u.SingleWriter := by
  have hr : (machine P).Reach u := Machine.ReachIf.reach h
  have hnew : ∀ l, u.InFlight l → u.sh.Newest l := fun l hf =>
    reach_newest hr l (reach_kept h hadd l hf)
  have hlt : ∀ l, u.InFlight l → l < u.sh.nlog := fun l hf =>
    State.keeps_lt hr (reach_kept h hadd l hf)
  refine ⟨fun l l' hf hf' hname => ?_, fun l l' hf => hnew l hf l', reach_opened_on hr⟩
  rcases lt_trichotomy l l' with hll | heq | hll
  · exact absurd hname.symm (hnew l hf l' hll (hlt l' hf'))
  · exact heq
  · exact absurd hname (hnew l' hf' l hll (hlt l hf))

end Runs

/-- Two loggers with a message each, one of them at the worker. -/
def twoFiles : List Action :=
  .spawn :: newLoggerCall 0 [97] ++
    .go 0 (.call (getLoggerBySuffix [98] [97] 1 1 1 false)) :: steps 0 5 ++ printCall 0 1 [104] ++
    printCall 0 2 [105] ++ [.worker .tau, .worker .tau, .worker (.create .ok)]

theorem twoFiles_runs : ((machine unitPrimitives).execIf
    (fun u x => sendsKept u x && flushesWait u x) {} twoFiles).isSome := by decide

theorem twoFiles_panics : (((machine unitPrimitives).execIf
    (fun u x => sendsKept u x && flushesWait u x) {} twoFiles).get twoFiles_runs).sh.panics =
      [] := by
  decide

theorem single_writer_twoFiles : (((machine unitPrimitives).execIf
    (fun u x => sendsKept u x && flushesWait u x) {} twoFiles).get twoFiles_runs).SingleWriter :=
  single_writer (reachIf_exec twoFiles_runs) (by rw [twoFiles_panics]; simp)

end ZipoLogger
