/-
  The registry over a run.

  Only the `Add` of `NewLogger` changes what the registry maps. It runs with `newLoggerMutex`
  held, after a lookup of the name that missed, so it never replaces an entry: a logger leaves the
  registry only as the entry dropped for the capacity, and the goroutine that dropped it goes on
  to flush it (`GoStep.registered`).
-/
import ZipoLogger.Logger.Locks

namespace ZipoLogger

open Enc

section Steps

variable {P : Primitives} {g : Gid} {seq : Nat} {s s' : Shared} {pc pc' : Pc} {i : Input}
  {wpc wpc' : WorkerPc} {wi : WorkerInput} {l : Ptr}

/-- The file name of an allocated logger is for good. -/
theorem GoStep.filename (h : GoStep g seq s pc i pc' s') (hl : l < s.nlog) :
    (s'.loggers l).filename = (s.loggers l).filename := by
  refine h.field Logger.filename l (fun _ _ _ _ _ _ => rfl) (fun x lg => x.apply_filename lg) ?_
  intro a
  show (Function.update s.loggers s.nlog _ l).filename = _
  rw [Function.update_of_ne hl.ne]

theorem WorkerStep.filename (h : WorkerStep P s wpc wi wpc' s') :
    (s'.loggers l).filename = (s.loggers l).filename :=
  h.field Logger.filename l fun _ _ _ _ _ => rfl

/-- A goroutine changes what the registry maps by the `Add` of `NewLogger`; if that drops an
    entry, the goroutine goes on to flush its logger. -/
theorem GoStep.registry (h : GoStep g seq s pc i pc' s') :
    (∀ w, s'.registry.get? w = s.registry.get? w) ∨
    ∃ a, pc = .newLogger a .add ∧ s'.registry = (s.registry.add a.filename s.nlog).1 ∧
      ∀ f old, (s.registry.add a.filename s.nlog).2 = some (f, old) →
        ∃ mark, pc' = .wait old mark (.evict a s.nlog) .lock := by
  cases h with
  | @newAdd a hlock hadd => exact .inr ⟨a, rfl, rfl, by simp [hadd]⟩
  | @newEvict a f old hlock hadd =>
    refine .inr ⟨a, rfl, rfl, fun f' old' h => ?_⟩
    cases Option.some.inj (hadd.symm.trans h)
    exact ⟨_, rfl⟩
  | allHit | newHit | newHit2 => exact .inl fun w => by simp
  | waitEarly | waitClear => exact .inl fun w => by simp [afterWait_snd]
  | @waitPanics l mark k => exact .inl fun w => by cases k <;> rfl
  | sent | full | closeDone | newEvicted | setApply =>
    exact .inl fun w => by simp [Shared.enqueue]
  | _ => exact .inl fun w => rfl

/-- `NewLogger` allocates a logger as it adds it to the registry; nothing else does either. -/
theorem GoStep.registry_grows (h : GoStep g seq s pc i pc' s') :
    (s'.registry.entries.length = s.registry.entries.length ∧ s'.nlog = s.nlog) ∨
    ∃ a, pc = .newLogger a .add ∧ s.registryLock = none ∧
      s'.registry = (s.registry.add a.filename s.nlog).1 ∧ s'.nlog = s.nlog + 1 ∧
      (s'.loggers s.nlog).filename = a.filename := by
  cases h with
  | @newAdd a hlock => exact .inr ⟨a, rfl, hlock, rfl, rfl, by simp [Shared.alloc]⟩
  | @newEvict a f old hlock => exact .inr ⟨a, rfl, hlock, rfl, rfl, by simp [Shared.alloc]⟩
  | allHit | newHit | newHit2 => exact .inl ⟨Lru.length_touch _ _, rfl⟩
  | waitEarly | waitClear => exact .inl ⟨by simp [afterWait_snd], by simp [afterWait_snd]⟩
  | @waitPanics l mark k => exact .inl (by cases k <;> exact ⟨rfl, rfl⟩)
  | sent | full | closeDone | newEvicted | setApply =>
    exact .inl ⟨by simp [Shared.enqueue], by simp [Shared.enqueue]⟩
  | _ => exact .inl ⟨rfl, rfl⟩

theorem WorkerStep.registry (h : WorkerStep P s wpc wi wpc' s') : s'.registry = s.registry := by
  cases h <;> rfl

theorem WorkerStep.nlog (h : WorkerStep P s wpc wi wpc' s') : s'.nlog = s.nlog := by
  cases h <;> rfl

/-- A goroutine comes to the `Add` of `NewLogger` from a lookup that missed. -/
theorem GoStep.add {a : NewArgs} (h : GoStep g seq s pc i (.newLogger a .add) s') :
    s.registry.get? a.filename = none ∧ s' = s := by
  generalize hpc : Pc.newLogger a .add = pc' at h
  cases h with
  | newMiss2 hlock hget =>
    cases hpc
    exact ⟨hget, rfl⟩
  | @waitEarly l mark k | @waitClear l mark k => cases k <;> cases hpc
  | waitPanics =>
    rw [unwindWait_fst] at hpc
    cases hpc
  | _ => cases hpc

end Steps

/-! ## Every run -/

section Runs

variable {P : Primitives} {u : State}

theorem run_filename {v : State} {l : Ptr} (h : (machine P).Run u v) (hl : l < u.sh.nlog) :
    (v.sh.loggers l).filename = (u.sh.loggers l).filename := by
  have hinv : l < v.sh.nlog ∧ (v.sh.loggers l).filename = (u.sh.loggers l).filename := by
    refine Machine.RunIf.invariant (P := fun w => l < w.sh.nlog ∧
      (w.sh.loggers l).filename = (u.sh.loggers l).filename) h ⟨hl, rfl⟩ ?_
    intro w x w' _ hw _ hs
    rcases step_cases hs with ⟨-, rfl⟩ | ⟨g, i, t, pc, sh, -, -, hstep, rfl⟩ |
      ⟨i, wpc, sh, -, hstep, rfl⟩
    · exact hw
    · exact ⟨hw.1.trans_le hstep.extends.nlog, (hstep.filename hw.1).trans hw.2⟩
    · exact ⟨hw.1.trans_le hstep.extends.nlog, hstep.filename.trans hw.2⟩
  exact hinv.2

/-- The name of a logger that is about to be added is not in the registry. -/
theorem reach_add_misses (h : (machine P).Reach u) :
    ∀ (g : Gid) (t : Thread) (a : NewArgs), u.threads[g]? = some t → t.pc = .newLogger a .add →
      u.sh.registry.get? a.filename = none := by
  refine reach_invariant (I := fun u => ∀ (g : Gid) (t : Thread) (a : NewArgs),
    u.threads[g]? = some t → t.pc = .newLogger a .add → u.sh.registry.get? a.filename = none)
    h (by simp) ?_ ?_ ?_
  · intro u _ hu g t a ht hpc
    rcases threads_spawn ht with rfl | ht
    · cases hpc
    · exact hu g t a ht hpc
  · intro u g t i pc sh hr hu ht hstep g' t' a ht' hpc'
    rcases threads_set ht' with ⟨-, rfl⟩ | ⟨hne, ht'⟩
    · subst hpc'
      obtain ⟨hget, rfl⟩ := hstep.add
      exact hget
    · -- both would hold `newLoggerMutex`
      rcases hstep.registry with hsame | ⟨a₀, hpc, -⟩
      · rw [hsame]
        exact hu g' t' a ht' hpc'
      · have h₁ := (reach_owned hr).threads g t ht .newLogger (by simp [hpc, Pc.locks])
        have h₂ := (reach_owned hr).threads g' t' ht' .newLogger (by simp [hpc', Pc.locks])
        cases Option.some.inj (h₁.symm.trans h₂)
        exact absurd rfl hne
  · intro u i wpc sh _ hu hstep g t a ht hpc
    show sh.registry.get? a.filename = none
    rw [hstep.registry]
    exact hu g t a ht hpc

/-- The registry holds as many of the loggers created as it has room for. -/
theorem reach_registry_length (h : (machine P).Reach u) :
    u.sh.registry.entries.length = min (u.sh.nlog - 1) registryCap := by
  refine reach_invariant (I := fun u =>
    u.sh.registry.entries.length = min (u.sh.nlog - 1) registryCap) h rfl (fun _ _ hu => hu) ?_ ?_
  · intro u g t i pc sh hr hu ht hstep
    show sh.registry.entries.length = min (sh.nlog - 1) registryCap
    rcases hstep.registry_grows with ⟨hlen, hn⟩ | ⟨a, hpc, -, hadd, hn, -⟩
    · rw [hlen, hn]
      exact hu
    · have hpos := (reach_wf hr).shared.nlog_pos
      rw [hadd, hn, Lru.length_add (reach_add_misses hr g t a ht hpc), hu]
      omega
  · intro u i wpc sh _ hu hstep
    show sh.registry.entries.length = min (sh.nlog - 1) registryCap
    rw [hstep.registry, hstep.nlog]
    exact hu

/-- A logger in the registry stays there, or the goroutine that moved goes on to flush it. -/
theorem GoStep.registered {g : Gid} {t : Thread} {i : Input} {pc : Pc} {sh : Shared} {l : Ptr}
    (hu : (machine P).Reach u) (ht : u.threads[g]? = some t)
    (h : GoStep g t.seq u.sh t.pc i pc sh) (hl : l < u.sh.nlog) (hr : u.sh.registered l = true) :
    sh.registered l = true ∨ ∃ mark a new, pc = .wait l mark (.evict a new) .lock := by
  have hget : u.sh.registry.get? (u.sh.loggers l).filename = some l := of_decide_eq_true hr
  have hname := h.filename hl
  rcases h.registry with hsame | ⟨a, hpc, hadd, hdrop⟩
  · left
    show decide (_ = some l) = true
    rw [hname, hsame, hget, decide_eq_true rfl]
  · have hmiss := reach_add_misses hu g t a ht hpc
    have hne : (u.sh.loggers l).filename ≠ a.filename := by
      intro he
      rw [← he, hget] at hmiss
      cases hmiss
    rcases Lru.add_keeps (Lru.get?_eq_some_iff.mp hget) hne with hmem | hlost
    · left
      show decide (_ = some l) = true
      rw [hname, hadd]
      exact decide_eq_true (Lru.get?_eq_some_iff.mpr hmem)
    · obtain ⟨mark, hpc'⟩ := hdrop _ _ hlost
      exact .inr ⟨mark, a, u.sh.nlog, hpc'⟩

theorem WorkerStep.registered {i : WorkerInput} {wpc wpc' : WorkerPc} {s s' : Shared} {l : Ptr}
    (h : WorkerStep P s wpc i wpc' s') : s'.registered l = s.registered l := by
  simp only [Shared.registered, h.registry, h.filename]

end Runs

end ZipoLogger
