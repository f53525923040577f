/-
  Loggers that write after the registry dropped them.

  Nothing retires a Logger. Once another one is created under the file name of a dropped Logger,
  a `Print` to each leaves a message of both in `tologCh` (`dropped_writes`). And the flush of an
  eviction returns at once when another `Wait` on the Logger is in progress, so a Logger can be
  dropped, and another one created under its file name, with a message in `tologCh` that was sent
  while the registry held it (`unflushed_writes`). The same comes of an `Add(1)` that a reset of
  the WaitGroup forgets: the flush finds a counter of zero (`forgotten_writes`).
-/
import ZipoLogger.Logger.Evicted
import ZipoLogger.Logger.SingleWriter

namespace ZipoLogger

open Enc

/-- A run of one goroutine that calls `NewLogger` and `Print` is a run beside another one. -/
theorem run_append {P : Primitives} {C D : State → Action → Prop} {u v : State} (ts : List Thread)
    (hCD : ∀ u a, C u a → D { u with threads := u.threads ++ ts } a)
    (h : (machine P).RunIf C u v) (hlen : v.threads.length ≤ u.threads.length) :
    v.threads.length = u.threads.length ∧
      (machine P).RunIf D { u with threads := u.threads ++ ts }
        { v with threads := v.threads ++ ts } := by
  induction h with
  | refl => exact ⟨rfl, .refl⟩
  | @tail v w a hrun hc hs ih =>
    rcases step_cases hs with ⟨rfl, rfl⟩ | ⟨g, i, t, pc, sh, rfl, ht, hstep, rfl⟩ |
      ⟨i, wpc, sh, rfl, hstep, rfl⟩
    · -- a spawn adds a goroutine for good
      rw [List.length_append, List.length_singleton] at hlen
      obtain ⟨hsame, -⟩ := ih (Nat.le_of_succ_le hlen)
      omega
    · rw [List.length_set] at hlen
      obtain ⟨hsame, hrun'⟩ := ih hlen
      refine ⟨(List.length_set).trans hsame, .tail (a := .go g i) hrun' (hCD _ _ hc) ?_⟩
      have hg : g < v.threads.length := (List.getElem?_eq_some_iff.mp ht).1
      simp [machine, step, List.getElem?_append_left hg, ht, hstep.goStep,
        List.set_append_left _ _ hg]
    · obtain ⟨hsame, hrun'⟩ := ih hlen
      refine ⟨hsame, .tail (a := .worker i) hrun' (hCD _ _ hc) ?_⟩
      have hs : step P v (.worker i) = some { v with sh, worker := wpc } := hs
      simp only [step] at hs
      split at hs <;> cases hs
      simp [machine, step, *]

section Printed

variable {sh : Shared} {l : Ptr} {msg : Bytes} {seq : Nat} {a : NewArgs}

theorem Shared.alloc_new : ((sh.alloc a).loggers sh.nlog).filename = a.filename := by
  simp [Shared.alloc]

theorem Shared.alloc_old (h : l < sh.nlog) :
    ((sh.alloc a).loggers l).filename = (sh.loggers l).filename := by
  simp [Shared.alloc, h.ne]

theorem Shared.printed_tologCh :
    (sh.printed l msg seq).tologCh = sh.tologCh ++ [⟨msg, l, (0, seq)⟩] := by
  simp [Shared.printed, Shared.enqueue]

theorem Shared.printed_loggers : (sh.printed l msg seq).loggers =
    (sh.modify l fun lg => { lg with logTasks := { counter := 1 } }).loggers := by
  simp [Shared.printed, Shared.enqueue]

theorem Shared.printed_filename (l' : Ptr) :
    ((sh.printed l msg seq).loggers l').filename = (sh.loggers l').filename := by
  rw [Shared.printed_loggers]
  exact Shared.modify_field _ _ _ _ Logger.filename rfl

theorem Shared.printed_newLoggerMutex :
    (sh.printed l msg seq).newLoggerMutex = sh.newLoggerMutex := by
  simp only [Shared.printed, Shared.echo]
  split <;> rfl

theorem slotFree_of_short (h : sh.tologCh.length ≤ 1) : sh.slotFree = true :=
  decide_eq_true (h.trans_lt (by decide))

end Printed

section Created

variable {P : Primitives} {sh : Shared} {k : Nat} {l : Ptr}

theorem Shared.Created.lt (h : sh.Created k) (hle : l ≤ k) : l < sh.nlog :=
  h.nlog ▸ Nat.lt_succ_of_le hle

/-- The name of a logger that is not in the registry, or was not created, is not in it. -/
theorem Shared.Created.misses (h : sh.Created k) (hs : sh.Wf)
    (hreg : l ≤ k → sh.registered l = false) : sh.registry.get? (nameOf l) = none := by
  refine Lru.get?_eq_none_iff.mpr fun hmem => ?_
  obtain ⟨l', hl'⟩ := Lru.mem_keys.mp hmem
  obtain ⟨h0, hle, hname⟩ := h.entries hs hl'
  have hl : l = l' := nameOf_injective hname
  subst hl
  have hget : sh.registry.get? (sh.loggers l).filename = some l := by
    rw [h.filename l h0 hle]
    exact Lru.get?_eq_some_iff.mpr hl'
  exact Bool.false_ne_true ((hreg hle).symm.trans (decide_eq_true hget))

theorem isNop_eq_false {n : Nat} (h0 : 0 < l) (hn : 0 < n)
    (hname : (sh.loggers l).filename = nameOf n) : sh.isNop l = false := by
  have hne : nameOf n ≠ [] := by simpa [nameOf] using hn.ne'
  simp [Shared.isNop, hname, hne, emptyLogger, h0.ne']

end Created

/-- Two Loggers of one file name have a message in `tologCh` each, though no two `Wait`s overlap
    and nothing panics. -/
theorem dropped_writes (P : Primitives) : ∃ u : State,
    (machine P).ReachIf (fun u _ => noOverlap u = true) u ∧ u.sh.panics = [] ∧
    ∃ l l', u.InFlight l ∧ u.InFlight l' ∧ l ≠ l' ∧
      (u.sh.loggers l).filename = (u.sh.loggers l').filename := by
  obtain ⟨sh, hrun, h⟩ := created_run P (registryCap + 1)
  have hs : sh.Wf := (reach_wf (Machine.ReachIf.reach hrun)).shared
  obtain ⟨l, h0, hle, hreg⟩ := h.evicted (Nat.lt_succ_self registryCap)
  have hlt : l < sh.nlog := h.lt hle
  -- another logger under the name of `l`
  let a : NewArgs := { filename := nameOf l }
  obtain ⟨r, rs, hnew⟩ := solo_newLogger P (registryCap + 1) (a := a) h.registryLock
    h.newLoggerMutex h.quiet (h.misses hs fun _ => hreg)
  let sh₁ : Shared := { sh.alloc a with registry := r, returned := rs }
  have hquiet : ∀ l, (sh₁.loggers l).Quiet := fun l => Logger.Quiet.alloc h.quiet rfl
  have hname : (sh₁.loggers l).filename = nameOf l := by
    show ((sh.alloc a).loggers l).filename = nameOf l
    rw [Shared.alloc_old hlt, h.filename l h0 hle]
  have hname' : (sh₁.loggers sh.nlog).filename = nameOf l := Shared.alloc_new
  have hempty : sh₁.tologCh = [] := h.tologCh
  -- a message to each
  have h₁ := solo_sends P (registryCap + 2) [104] (hlt.trans (Nat.lt_succ_self _) : l < sh₁.nlog)
    (isNop_eq_false h0 h0 hname) (hquiet l) (slotFree_of_short (by simp [hempty]))
  let sh₂ := sh₁.printed l [104] (registryCap + 3)
  have hsent : sh₁.Sent sh₂ ⟨[104], l, (0, registryCap + 3)⟩ := Shared.sent_printed
  have hone : sh₂.tologCh = [⟨[104], l, (0, registryCap + 3)⟩] := by
    rw [Shared.printed_tologCh, hempty, List.nil_append]
  have hsame : sh₂.loggers sh.nlog = sh₁.loggers sh.nlog := hsent.loggers _ hlt.ne'
  have h₂ := solo_sends P (registryCap + 3) [105]
    (hsent.nlog ▸ Nat.lt_succ_self _ : sh.nlog < sh₂.nlog)
    (isNop_eq_false hs.nlog_pos h0 (hsame ▸ hname')) (hsame ▸ hquiet sh.nlog)
    (slotFree_of_short (by simp [hone]))
  let sh₃ := sh₂.printed sh.nlog [105] (registryCap + 4)
  have htwo : sh₃.tologCh =
      [⟨[104], l, (0, registryCap + 3)⟩, ⟨[105], sh.nlog, (0, registryCap + 4)⟩] := by
    rw [Shared.printed_tologCh, hone]
    rfl
  refine ⟨solo sh₃ .idle (registryCap + 4), ((hrun.trans hnew).trans h₁).trans h₂, ?_,
    l, sh.nlog, ?_, ?_, hlt.ne, ?_⟩
  · exact Shared.sent_printed.panics.trans (hsent.panics.trans h.panics)
  · exact ⟨_, .inl (htwo ▸ List.mem_cons_self), rfl⟩
  · exact ⟨_, .inl (htwo ▸ List.mem_cons_of_mem _ List.mem_cons_self), rfl⟩
  · show (sh₃.loggers l).filename = (sh₃.loggers sh.nlog).filename
    simp only [sh₃, sh₂, Shared.printed_filename, hname, hname']

/-- Two goroutines, and the worker at its receive. -/
def duo (sh : Shared) (t t' : Thread) : State := { sh, threads := [t, t'] }

theorem duo_run {P : Primitives} {sh sh' : Shared} {pc pc' : Pc} {seq seq' : Nat} (t : Thread)
    (h : SerialRun P (solo sh pc seq) (solo sh' pc' seq')) :
    (machine P).Run (duo sh { pc, seq } t) (duo sh' { pc := pc', seq := seq' } t) :=
  (run_append [t] (fun _ _ _ => trivial) h le_rfl).2

/-- The state with the flag of `l` set. -/
def Shared.flagged (sh : Shared) (l : Ptr) : Shared :=
  sh.modify l fun lg => { lg with waitStarted := 1, m := none }

theorem Shared.flagged_filename {sh : Shared} {l l' : Ptr} :
    ((sh.flagged l).loggers l').filename = (sh.loggers l').filename :=
  Shared.modify_field _ _ _ _ Logger.filename rfl

/-- A second goroutine begins a `Wait` on a logger with one message in `tologCh`. -/
theorem second_waits {P : Primitives} {sh : Shared} {pc : Pc} {seq : Nat} {l : Ptr}
    (h : (machine P).Reach (solo sh pc seq)) (hl : l < sh.nlog) (hm : (sh.loggers l).m = none)
    (hw : (sh.loggers l).waitStarted = 0) :
    ∃ t, (machine P).Reach (duo (sh.flagged l) { pc, seq } t) := by
  let mark := sh.accepted.length
  let sh₁ : Shared := sh.modify l fun lg => { lg with m := some (.go 1) }
  have h₀ : (machine P).Reach (duo sh { pc, seq } {}) := h.tail (a := .spawn) rfl
  have h₁ : (machine P).Reach
      (duo sh { pc, seq } { pc := .wait l mark .user .lock, seq := 1 }) := by
    refine h₀.tail (a := .go 1 (.call (.wait l))) ?_
    simp [machine, step, duo, goStep, beginCall, hl, mark, Thread.nextSeq]
  have h₂ : (machine P).Reach
      (duo sh₁ { pc, seq } { pc := .wait l mark .user .test, seq := 1 }) := by
    refine h₁.tail (a := .go 1 .tau) ?_
    simp [machine, step, duo, goStep, waitStep, hm, Thread.nextSeq, sh₁]
  refine ⟨{ pc := .wait l mark .user .tasks, seq := 1 }, h₂.tail (a := .go 1 .tau) ?_⟩
  simp [machine, step, duo, goStep, waitStep, hw, Thread.nextSeq, Shared.flagged, sh₁]

/-- With the registry full, one more logger drops another. -/
theorem Shared.Created.drops {P : Primitives} {sh : Shared} {seq : Nat}
    (h : sh.Created registryCap) (hr : (machine P).Reach (solo sh .idle seq)) :
    ∃ old, 0 < old ∧ old ≤ registryCap ∧ sh.registered old = true ∧
      (sh.registry.add (nameOf (registryCap + 1)) sh.nlog).1.get? (nameOf old) = none := by
  have hs : sh.Wf := (reach_wf hr).shared
  have hfull : sh.registry.entries.length = registryCap :=
    (h.length (u := solo sh .idle seq) hr).trans (min_self _)
  have hmiss : sh.registry.get? (nameOf (registryCap + 1)) = none := h.misses_next hs
  obtain ⟨⟨f, old⟩, hdrop⟩ :
      ∃ e, (sh.registry.add (nameOf (registryCap + 1)) sh.nlog).2 = some e :=
    ⟨_, (Lru.add_drops hmiss hfull).trans
      (List.getLast?_eq_some_getLast (List.cons_ne_nil _ _))⟩
  have hgone := Lru.dropped_not_mem hdrop
  rcases Lru.mem_of_add_dropped hdrop with hnew | ⟨hmem, -⟩
  · -- the new entry stays
    exact absurd (congrArg Prod.fst hnew).symm (hgone _ (Lru.self_mem_add (by decide)))
  · obtain ⟨h0, hle, hkey⟩ := h.entries hs hmem
    have hkey : f = nameOf old := hkey
    subst hkey
    refine ⟨old, h0, hle, decide_eq_true ?_, Lru.get?_eq_none_iff.mpr ?_⟩
    · rw [h.filename old h0 hle]
      exact Lru.get?_eq_some_iff.mpr hmem
    · intro hkeys
      obtain ⟨l', hl'⟩ := Lru.mem_keys.mp hkeys
      exact hgone _ hl' rfl

/-- Two `NewLogger` calls for new names in a row. -/
theorem solo_create_two (P : Primitives) {sh : Shared} (seq : Nat) {a b : NewArgs}
    (hlock : sh.registryLock = none) (hmutex : sh.newLoggerMutex = none)
    (hf : ∀ l, (sh.loggers l).Flushable) (hmiss : sh.registry.get? a.filename = none)
    (hmiss' : (sh.registry.add a.filename sh.nlog).1.get? b.filename = none) :
    ∃ r rs, SerialRun P (solo sh .idle seq)
      (solo { (sh.alloc a).alloc b with registry := r, returned := rs } .idle (seq + 2)) := by
  obtain ⟨rs, hrun⟩ := solo_create P seq hlock hmutex hf hmiss
  let r := (sh.registry.add a.filename sh.nlog).1
  let sh₁ : Shared := { sh.alloc a with registry := r, returned := rs }
  have hlock₁ : sh₁.registryLock = none := hlock
  have hmutex₁ : sh₁.newLoggerMutex = none := hmutex
  have hf₁ : ∀ l, (sh₁.loggers l).Flushable := fun l => Logger.Flushable.alloc hf
  obtain ⟨rs', hrun'⟩ := solo_create P (seq + 1) hlock₁ hmutex₁ hf₁ hmiss'
  exact ⟨_, rs', hrun.trans hrun'⟩

/-- The other loggers are quiet, and this one has its flag set. -/
theorem Shared.Created.flushable {sh : Shared} {k seq : Nat} {l : Ptr} {msg : Bytes}
    (h : sh.Created k) (l' : Ptr) :
    (((sh.printed l msg seq).flagged l).loggers l').Flushable := by
  by_cases hl : l' = l
  · subst hl
    refine ⟨?_, ?_, ?_⟩ <;> simp [Shared.flagged, Shared.printed_loggers, (h.quiet _).zlog]
  · have hsame : ((sh.printed l msg seq).flagged l).loggers l' = sh.loggers l' :=
      (Function.update_of_ne hl _ _).trans (Shared.sent_printed.loggers l' hl)
    rw [hsame]
    exact (h.quiet l').flushable

/-- A Logger has a message in `tologCh` and a newer Logger of its file name exists, though every
    message was sent while the registry held its Logger and nothing panics. -/
theorem unflushed_writes (P : Primitives) : ∃ u : State, (machine P).Reach u ∧
    u.sh.panics = [] ∧ (∀ a ∈ u.sh.accepted, a.registered = true) ∧
    ∃ l l', u.InFlight l ∧ l < l' ∧ l' < u.sh.nlog ∧
      (u.sh.loggers l').filename = (u.sh.loggers l).filename := by
  obtain ⟨sh, hrun, h⟩ := created_run P registryCap
  have hr : (machine P).Reach (solo sh .idle registryCap) := Machine.ReachIf.reach hrun
  have hs : sh.Wf := (reach_wf hr).shared
  obtain ⟨old, h0, hle, hreg, hgone⟩ := h.drops hr
  have hlt : old < sh.nlog := h.lt hle
  have hname : (sh.loggers old).filename = nameOf old := h.filename old h0 hle
  -- a message to `old`, and a second goroutine that waits for it
  let sh₁ := sh.printed old [104] (registryCap + 1)
  have hsent : sh.Sent sh₁ ⟨[104], old, (0, registryCap + 1)⟩ := Shared.sent_printed
  have hr₁ : (machine P).Reach (solo sh₁ .idle (registryCap + 1)) := by
    refine Machine.ReachIf.reach (hrun.trans (solo_sends P registryCap [104] hlt ?_ ?_ ?_))
    · exact isNop_eq_false h0 h0 hname
    · exact h.quiet old
    · exact slotFree_of_short (by simp [h.tologCh])
  obtain ⟨t, hr₂⟩ := second_waits hr₁ (hsent.nlog ▸ hlt)
    (by simp [sh₁, Shared.printed_loggers, (h.quiet old).m])
    (by simp [sh₁, Shared.printed_loggers, (h.quiet old).waitStarted])
  -- one more logger drops `old`, whose flush finds the flag set; then comes one of its name
  let sh₂ := sh₁.flagged old
  have hnlog : sh₂.nlog = sh.nlog := hsent.nlog
  have hregistry : sh₂.registry = sh.registry := hsent.registry
  have hlock : sh₂.registryLock = none := hsent.registryLock.trans h.registryLock
  have hmutex : sh₂.newLoggerMutex = none := by
    show sh₁.newLoggerMutex = none
    rw [Shared.printed_newLoggerMutex, h.newLoggerMutex]
  let a : NewArgs := { filename := nameOf (registryCap + 1) }
  let b : NewArgs := { filename := nameOf old }
  have hmiss : sh₂.registry.get? a.filename = none := hregistry ▸ h.misses_next hs
  have hmiss' : (sh₂.registry.add a.filename sh₂.nlog).1.get? b.filename = none := by
    rw [hregistry, hnlog]
    exact hgone
  obtain ⟨r, rs, hnew⟩ := solo_create_two P (registryCap + 1) hlock hmutex h.flushable hmiss hmiss'
  have hlt₂ : old < sh₂.nlog := hnlog ▸ hlt
  have hlt₃ : old < (sh₂.alloc a).nlog := hlt₂.trans (Nat.lt_succ_self _)
  refine ⟨_, hr₂.trans (duo_run t hnew), ?_, ?_, old, (sh₂.alloc a).nlog, ?_, hlt₃,
    Nat.lt_succ_self _, ?_⟩
  · exact hsent.panics.trans h.panics
  · intro x hx
    have hx : x ∈ sh₁.accepted := hx
    rw [hsent.accepted, h.accepted, List.nil_append, List.mem_singleton] at hx
    rw [hx]
    exact hreg
  · refine ⟨⟨[104], old, (0, registryCap + 1)⟩, .inl ?_, rfl⟩
    show _ ∈ sh₁.tologCh
    rw [Shared.printed_tologCh]
    exact List.mem_append_right _ List.mem_cons_self
  · show (((sh₂.alloc a).alloc b).loggers (sh₂.alloc a).nlog).filename =
      (((sh₂.alloc a).alloc b).loggers old).filename
    rw [Shared.alloc_new, Shared.alloc_old hlt₃, Shared.alloc_old hlt₂, Shared.flagged_filename,
      Shared.printed_filename, hname]

/-! ## A forgotten message -/

/-- Goroutine 0 between two calls, beside others. -/
def beside (sh : Shared) (seq : Nat) (ts : List Thread) : State :=
  { sh, threads := { pc := .idle, seq } :: ts }

/-- What goroutine 0 does alone it can do beside others that are between two calls. -/
theorem run_beside {P : Primitives} {sh sh' : Shared} {seq seq' : Nat} {ts : List Thread}
    (hidle : ∀ t ∈ ts, t.pc = .idle) (h : SerialRun P (solo sh .idle seq) (solo sh' .idle seq')) :
    SerialRun P (beside sh seq ts) (beside sh' seq' ts) := by
  refine (run_append ts (fun u _ hu => ?_) h le_rfl).2
  have hnone : ts.filterMap (fun t => t.pc.waitsOn) = [] :=
    List.filterMap_eq_nil_iff.mpr fun t ht => by rw [hidle t ht]; rfl
  simpa [noOverlap, hnone] using hu

/-- Loggers are created, the oldest of them at `1`, and none has been looked up since. -/
structure Shared.Ages (sh : Shared) (k : Nat) : Prop extends sh.Named k where
  oldest : sh.registry.entries.getLast? = some (nameOf 1, 1)

/-- Loggers up to the capacity of the registry, beside goroutines between two calls. -/
theorem create_beside {P : Primitives} {sh : Shared} {seq : Nat} {ts : List Thread}
    (hr : (machine P).ReachIf (fun u _ => noOverlap u = true) (beside sh seq ts))
    (h : sh.Ages 1) (hidle : ∀ t ∈ ts, t.pc = .idle) (j : Nat) (hj : j + 1 ≤ registryCap) :
    ∃ sh', (machine P).ReachIf (fun u _ => noOverlap u = true) (beside sh' (seq + j) ts) ∧
      sh'.Ages (j + 1) ∧ sh'.tologCh = sh.tologCh ∧ sh'.accepted = sh.accepted ∧
        sh'.panics = sh.panics := by
  induction j with
  | zero => exact ⟨sh, hr, h, rfl, rfl, rfl⟩
  | succ j ih =>
    obtain ⟨sh', hr', h', hqueue, hacc, hpanics⟩ := ih (Nat.le_of_succ_le hj)
    have hreach : (machine P).Reach (beside sh' (seq + j) ts) := Machine.ReachIf.reach hr'
    have hs : sh'.Wf := (reach_wf hreach).shared
    have hlen : sh'.registry.entries.length = j + 1 :=
      (h'.length (u := beside sh' _ ts) hreach).trans (Nat.min_eq_left (Nat.le_of_succ_le hj))
    obtain ⟨rs, hnew⟩ := h'.run_next P hs (seq + j)
    refine ⟨_, hr'.trans (run_beside hidle hnew), ⟨h'.next rs, ?_⟩, hqueue, hacc, hpanics⟩
    show (sh'.registry.add (nameOf (j + 1 + 1)) sh'.nlog).1.entries.getLast? = _
    rw [Lru.add_entries (h'.misses_next hs) (hlen ▸ hj), List.getLast?_cons, h'.oldest]
    rfl

/-- An `Add(1)` of logger `1` is forgotten; its file cannot be opened. -/
def forgottenSkip : List Action :=
  forgottenBy [.worker .tau, .worker .tau, .worker (.create .mkdirFailed)]

theorem forgottenSkip_runs :
    ((machine unitPrimitives).execIf (fun u _ => noOverlap u) {} forgottenSkip).isSome := by
  decide +kernel

def forgottenState : State :=
  ((machine unitPrimitives).execIf (fun u _ => noOverlap u) {} forgottenSkip).get forgottenSkip_runs

def otherThreads : List Thread := [{ pc := .idle, seq := 1 }, { pc := .idle, seq := 1 }]

theorem forgottenState_eq : forgottenState = beside forgottenState.sh 3 otherThreads := by
  have hthreads : forgottenState.threads = { pc := .idle, seq := 3 } :: otherThreads := by
    decide +kernel
  have hworker : forgottenState.worker = .recv := by decide +kernel
  exact congrArg₂ (fun ts w => ({ sh := forgottenState.sh, threads := ts, worker := w } : State))
    hthreads hworker

theorem forgottenState_ages : forgottenState.sh.Ages 1 := by
  have hr : (machine unitPrimitives).Reach forgottenState :=
    Machine.ReachIf.reach (reachIf_exec forgottenSkip_runs)
  have hnlog : forgottenState.sh.nlog = 2 := by decide +kernel
  refine ⟨⟨hnlog, fun l => ?_, fun l h0 hle => ?_, ?_, ?_⟩, ?_⟩
  · match l with
    | 0 => constructor <;> decide +kernel
    | 1 => constructor <;> decide +kernel
    | l + 2 =>
      rw [(reach_wf hr).shared.fresh (l + 2) (hnlog ▸ Nat.le_add_left 2 l)]
      exact ⟨rfl, rfl, rfl, rfl, rfl⟩
  · cases Nat.le_antisymm hle h0
    decide +kernel
  all_goals decide +kernel

/-- A Logger has a message in `tologCh` and a newer Logger of its file name exists, though every
    message was sent while the registry held its Logger, no two `Wait`s overlap and none panics. -/
theorem forgotten_writes : ∃ u : State,
    (machine unitPrimitives).ReachIf (fun u _ => noOverlap u = true) u ∧
    (∀ l, .wait l ∉ u.sh.panics) ∧ (∀ a ∈ u.sh.accepted, a.registered = true) ∧
    ∃ l l', u.InFlight l ∧ l < l' ∧ l' < u.sh.nlog ∧
      (u.sh.loggers l').filename = (u.sh.loggers l).filename := by
  have hidle : ∀ t ∈ otherThreads, t.pc = .idle := by decide
  have hr₀ : (machine unitPrimitives).ReachIf (fun u _ => noOverlap u = true)
      (beside forgottenState.sh 3 otherThreads) :=
    forgottenState_eq ▸ reachIf_exec forgottenSkip_runs
  -- the registry full, with logger 1 the oldest
  obtain ⟨sh, hr, h, hqueue, hacc, hpanics⟩ :=
    create_beside hr₀ forgottenState_ages hidle (registryCap - 1) (by decide)
  have h : sh.Ages registryCap := h
  have hreach : (machine unitPrimitives).Reach (beside sh _ otherThreads) :=
    Machine.ReachIf.reach hr
  have hs : sh.Wf := (reach_wf hreach).shared
  have hfull : sh.registry.entries.length = registryCap :=
    (h.length (u := beside sh _ otherThreads) hreach).trans (min_self _)
  -- one more logger drops it, then comes one of its name
  obtain ⟨rs, hnew⟩ := h.run_next unitPrimitives hs (3 + (registryCap - 1))
  let sh₁ := sh.next registryCap rs
  have h₁ : sh₁.Named (registryCap + 1) := h.next rs
  have hdrop : (sh.registry.add (nameOf (registryCap + 1)) sh.nlog).2 = some (nameOf 1, 1) := by
    rw [Lru.add_drops (h.misses_next hs) hfull, List.getLast?_cons, h.oldest]
    rfl
  let a : NewArgs := { filename := nameOf 1 }
  have hgone : sh₁.registry.get? a.filename = none := by
    refine Lru.get?_eq_none_iff.mpr fun hkeys => ?_
    obtain ⟨l, hl⟩ := Lru.mem_keys.mp hkeys
    exact Lru.dropped_not_mem hdrop _ hl rfl
  obtain ⟨rs', hnew'⟩ := solo_create unitPrimitives (3 + (registryCap - 1) + 1) h₁.registryLock
    h₁.newLoggerMutex (fun l => (h₁.quiet l).flushable) hgone
  have hlt : 1 < sh₁.nlog := by
    rw [h₁.nlog]
    decide
  refine ⟨_, (hr.trans (run_beside hidle hnew)).trans (run_beside hidle hnew'), ?_, ?_, 1, sh₁.nlog,
    ⟨⟨[106], 1, 2, 1⟩, .inl ?_, rfl⟩, hlt, Nat.lt_succ_self _, ?_⟩
  · intro l
    show .wait l ∉ sh.panics
    have hone : forgottenState.sh.panics = [.printAdd 1] := by decide +kernel
    rw [hpanics, hone]
    simp
  · intro x hx
    have hx : x ∈ sh.accepted := hx
    rw [hacc] at hx
    have hall : ∀ x ∈ forgottenState.sh.accepted, x.registered = true := by decide +kernel
    exact hall x hx
  · show _ ∈ sh.tologCh
    rw [hqueue]
    decide +kernel
  · show ((sh₁.alloc a).loggers sh₁.nlog).filename = ((sh₁.alloc a).loggers 1).filename
    rw [Shared.alloc_new, Shared.alloc_old hlt]
    exact (h₁.filename 1 Nat.one_pos (Nat.le_add_left 1 registryCap)).symm

/-- Neither the flush of an eviction that goes through nor messages through registered Loggers
    alone keep one writer for each file, nor do both when an `Add(1)` of a `print` panics. -/
theorem single_writer_fails :
    (¬ ∀ u : State, (machine unitPrimitives).ReachIf (fun u _ => noOverlap u = true) u →
      u.sh.panics = [] → u.SingleWriter) ∧
    (¬ ∀ u : State, (machine unitPrimitives).Reach u → u.sh.panics = [] →
      (∀ a ∈ u.sh.accepted, a.registered = true) → u.SingleWriter) ∧
    (¬ ∀ u : State, (machine unitPrimitives).ReachIf (fun u _ => noOverlap u = true) u →
      (∀ l, .wait l ∉ u.sh.panics) → (∀ a ∈ u.sh.accepted, a.registered = true) →
        u.SingleWriter) := by
  refine ⟨fun h => ?_, fun h => ?_, fun h => ?_⟩
  · obtain ⟨u, hrun, hp, l, l', hl, hl', hne, hname⟩ := dropped_writes unitPrimitives
    exact hne ((h u hrun hp).unique l l' hl hl' hname)
  · obtain ⟨u, hr, hp, hreg, l, l', hl, hlt, hlt', hname⟩ := unflushed_writes unitPrimitives
    exact (h u hr hp hreg).newest l l' hl hlt hlt' hname
  · obtain ⟨u, hr, hp, hreg, l, l', hl, hlt, hlt', hname⟩ := forgotten_writes
    exact (h u hr hp hreg).newest l l' hl hlt hlt' hname

end ZipoLogger
