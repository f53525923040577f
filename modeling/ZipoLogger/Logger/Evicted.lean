/-
  The loggers the package-level `Wait` does not see.

  A goroutine alone with an idle worker: a `Wait` on a logger with nothing in flight, a
  `NewLogger`, a `Print` and the walk of the package-level `Wait` all go through
  (`solo_wait`, `solo_newLogger`, `solo_print`, `solo_walk`). After more `NewLogger` calls than the
  registry has room for, one of the loggers is not in it, and a message printed to that logger is
  still in `tologCh` when the package-level `Wait` returns (`evicted_unseen`).
-/
import ZipoLogger.Logger.Loss
import ZipoLogger.Logger.PackageWait

namespace ZipoLogger

open Enc

/-- A run in which no two `Wait`s on one logger overlap. -/
abbrev SerialRun (P : Primitives) (u v : State) : Prop :=
  (machine P).RunIf (fun u _ => noOverlap u = true) u v

/-- One goroutine, and the worker at its receive. -/
def solo (sh : Shared) (pc : Pc) (seq : Nat) : State := { sh, threads := [{ pc, seq }] }

/-- Nothing is in flight for the logger, no file of its is open, and it puts no source path. -/
structure Logger.Quiet (lg : Logger) : Prop where
  m : lg.m = none
  waitStarted : lg.waitStarted = 0
  zlog : lg.zlog = none
  logTasks : lg.logTasks = {}
  logSourcePath : lg.logSourcePath = false

/-- A `Wait` on the logger returns by itself, at once when another one has set the flag, and there
    is no file to close. -/
structure Logger.Flushable (lg : Logger) : Prop where
  m : lg.m = none
  zlog : lg.zlog = none
  flag : lg.waitStarted = 1 ∨ (lg.waitStarted = 0 ∧ lg.logTasks = {})

theorem Logger.Quiet.flushable {lg : Logger} (h : lg.Quiet) : lg.Flushable :=
  ⟨h.m, h.zlog, .inr ⟨h.waitStarted, h.logTasks⟩⟩

section Solo

variable {P : Primitives} {sh sh' : Shared} {pc pc' : Pc} {seq mark : Nat} {l : Ptr} {k : Cont}

theorem Shared.closeWriter_eq_self (h : (sh.loggers l).zlog = none) : sh.closeWriter l = sh := by
  unfold Shared.closeWriter
  rw [h]

theorem noOverlap_solo : noOverlap (solo sh pc seq) = true := by
  unfold noOverlap solo
  cases h : pc.waitsOn <;> simp [h]

theorem solo_step {i : Input} (h : goStep 0 seq pc i sh = some (pc', sh')) :
    SerialRun P (solo sh pc seq) (solo sh' pc' ((Thread.mk pc seq).nextSeq i)) := by
  have hs : (machine P).step (solo sh pc seq) (.go 0 i) =
      some (solo sh' pc' ((Thread.mk pc seq).nextSeq i)) := by
    simp [machine, step, solo, h]
  exact .tail .refl noOverlap_solo hs

theorem solo_tau (h : goStep 0 seq pc .tau sh = some (pc', sh')) :
    SerialRun P (solo sh pc seq) (solo sh' pc' seq) := solo_step h

/-- A `Wait` with nothing in flight returns, and leaves everything as it was. -/
theorem solo_wait (hm : (sh.loggers l).m = none) (hw : (sh.loggers l).waitStarted = 0)
    (ht : (sh.loggers l).logTasks = {}) : SerialRun P (solo sh (.wait l mark k .lock) seq)
      (solo (sh.ret (.wait 0 l mark false)) (afterWait 0 l mark k false sh).1 seq) := by
  have h₁ : goStep 0 seq (.wait l mark k .lock) .tau sh = some (.wait l mark k .test,
      sh.modify l fun lg => { lg with m := some (.go 0) }) := by
    simp [goStep, waitStep, hm]
  have h₂ : goStep 0 seq (.wait l mark k .test) .tau
      (sh.modify l fun lg => { lg with m := some (.go 0) }) = some (.wait l mark k .tasks,
      sh.modify l fun lg => { lg with waitStarted := 1, m := none }) := by
    simp [goStep, waitStep, hw]
  have h₃ : goStep 0 seq (.wait l mark k .tasks) .tau
      (sh.modify l fun lg => { lg with waitStarted := 1, m := none }) =
      some (.wait l mark k .relock,
        sh.modify l fun lg => { lg with waitStarted := 1, m := none }) := by
    simp [goStep, waitStep, ht, WaitGroup.enter]
  have h₄ : goStep 0 seq (.wait l mark k .relock) .tau
      (sh.modify l fun lg => { lg with waitStarted := 1, m := none }) = some (.wait l mark k .clear,
      sh.modify l fun lg => { lg with waitStarted := 1, m := some (.go 0) }) := by
    simp [goStep, waitStep]
  have hsame : (sh.modify l fun lg => { lg with waitStarted := 0, m := none }) = sh := by
    refine Shared.modify_eq_self _ _ _ ?_
    rw [← hm, ← hw]
  have h₅ : goStep 0 seq (.wait l mark k .clear) .tau
      (sh.modify l fun lg => { lg with waitStarted := 1, m := some (.go 0) }) =
      some ((afterWait 0 l mark k false sh).1, sh.ret (.wait 0 l mark false)) := by
    simp only [goStep, waitStep, Shared.modify_modify, hsame]
    rw [← afterWait_snd (k := k)]
  exact ((((solo_tau h₁).trans (solo_tau h₂)).trans (solo_tau h₃)).trans (solo_tau h₄)).trans
    (solo_tau h₅)

/-- A `Wait` that finds the flag set returns, and leaves everything as it was. -/
theorem solo_waitEarly (hm : (sh.loggers l).m = none) (hw : (sh.loggers l).waitStarted = 1) :
    SerialRun P (solo sh (.wait l mark k .lock) seq)
      (solo (sh.ret (.wait 0 l mark true)) (afterWait 0 l mark k true sh).1 seq) := by
  have h₁ : goStep 0 seq (.wait l mark k .lock) .tau sh = some (.wait l mark k .test,
      sh.modify l fun lg => { lg with m := some (.go 0) }) := by
    simp [goStep, waitStep, hm]
  have hsame : (sh.modify l fun lg => { lg with m := none }) = sh := by
    refine Shared.modify_eq_self _ _ _ ?_
    rw [← hm]
  have h₂ : goStep 0 seq (.wait l mark k .test) .tau
      (sh.modify l fun lg => { lg with m := some (.go 0) }) =
      some ((afterWait 0 l mark k true sh).1, sh.ret (.wait 0 l mark true)) := by
    simp only [goStep, waitStep, Shared.modify_modify, hsame]
    rw [if_pos (by simp [hw]), ← afterWait_snd (k := k)]
  exact (solo_tau h₁).trans (solo_tau h₂)

theorem solo_flush (hf : (sh.loggers l).Flushable) : ∃ early,
    SerialRun P (solo sh (.wait l mark k .lock) seq)
      (solo (sh.ret (.wait 0 l mark early)) (afterWait 0 l mark k early sh).1 seq) := by
  rcases hf.flag with hw | ⟨hw, ht⟩
  · exact ⟨true, solo_waitEarly hf.m hw⟩
  · exact ⟨false, solo_wait hf.m hw ht⟩

theorem Logger.Flushable.alloc {a : NewArgs} (hf : ∀ l, (sh.loggers l).Flushable) :
    ((sh.alloc a).loggers l).Flushable := by
  by_cases h : l = sh.nlog
  · subst h
    constructor <;> simp [Shared.alloc]
  · simpa only [Shared.alloc, Function.update_of_ne h] using hf l

theorem Logger.Quiet.alloc {a : NewArgs} (hq : ∀ l, (sh.loggers l).Quiet)
    (ha : a.writeFileline = false) : ((sh.alloc a).loggers l).Quiet := by
  by_cases h : l = sh.nlog
  · subst h
    constructor <;> simp [Shared.alloc, ha]
  · simpa only [Shared.alloc, Function.update_of_ne h] using hq l

/-- `NewLogger` of a new name comes to its `Add` with `newLoggerMutex` held. -/
theorem solo_lookup (P : Primitives) (seq : Nat) {a : NewArgs} (hlock : sh.registryLock = none)
    (hmutex : sh.newLoggerMutex = none) (hmiss : sh.registry.get? a.filename = none) :
    SerialRun P (solo sh .idle seq)
      (solo { sh with newLoggerMutex := some (.go 0) } (.newLogger a .add) (seq + 1)) := by
  have h₁ : goStep 0 seq .idle (.call (.newLogger a)) sh = some (.newLogger a .get, sh) := rfl
  have h₂ : goStep 0 (seq + 1) (.newLogger a .get) .tau sh = some (.newLogger a .lock, sh) := by
    simp [goStep, newLoggerStep, hlock, hmiss]
  have h₃ : goStep 0 (seq + 1) (.newLogger a .lock) .tau sh =
      some (.newLogger a .get2, { sh with newLoggerMutex := some (.go 0) }) := by
    simp [goStep, newLoggerStep, hmutex]
  have h₄ : goStep 0 (seq + 1) (.newLogger a .get2) .tau
      { sh with newLoggerMutex := some (.go 0) } =
      some (.newLogger a .add, { sh with newLoggerMutex := some (.go 0) }) := by
    simp [goStep, newLoggerStep, hlock, hmiss]
  exact (((solo_step h₁).trans (solo_tau h₂)).trans (solo_tau h₃)).trans (solo_tau h₄)

/-- `NewLogger` creates the logger of a new name; what it drops from the registry it flushes. -/
theorem solo_create (P : Primitives) (seq : Nat) {a : NewArgs} (hlock : sh.registryLock = none)
    (hmutex : sh.newLoggerMutex = none) (hf : ∀ l, (sh.loggers l).Flushable)
    (hmiss : sh.registry.get? a.filename = none) :
    ∃ rs, SerialRun P (solo sh .idle seq) (solo { sh.alloc a with
      registry := (sh.registry.add a.filename sh.nlog).1, returned := rs } .idle (seq + 1)) := by
  have hget := solo_lookup P seq hlock hmutex hmiss
  -- with `newLoggerMutex` taken
  let sh₁ : Shared := { sh with newLoggerMutex := some (.go 0) }
  let r := (sh.registry.add a.filename sh.nlog).1
  cases hdrop : (sh.registry.add a.filename sh.nlog).2 with
  | none =>
    refine ⟨sh.returned ++ [.newLogger 0 a.filename sh.nlog], ?_⟩
    have h₅ : goStep 0 (seq + 1) (.newLogger a .add) .tau sh₁ =
        some (.newLogger a (.unlock sh.nlog), { sh₁.alloc a with registry := r }) := by
      simp [goStep, newLoggerStep, hlock, hdrop, sh₁, r]
    have h₆ : goStep 0 (seq + 1) (.newLogger a (.unlock sh.nlog)) .tau
        { sh₁.alloc a with registry := r } = some (.idle,
          { sh.alloc a with
            registry := r, returned := sh.returned ++ [.newLogger 0 a.filename sh.nlog] }) := by
      simp [goStep, newLoggerStep, Shared.alloc, Shared.ret, hmutex, sh₁]
    exact (hget.trans (solo_tau h₅)).trans (solo_tau h₆)
  | some e =>
    obtain ⟨f, old⟩ := e
    let mark := sh.accepted.length
    let sh₂ : Shared := { sh₁.alloc a with registry := r, registryLock := some (.go 0) }
    have h₅ : goStep 0 (seq + 1) (.newLogger a .add) .tau sh₁ =
        some (.wait old mark (.evict a sh.nlog) .lock, sh₂) := by
      simp [goStep, newLoggerStep, hlock, hdrop, sh₁, sh₂, r, mark]
    have hold : (sh₂.loggers old).Flushable := Logger.Flushable.alloc hf
    obtain ⟨early, hflush⟩ : ∃ early, SerialRun P
        (solo sh₂ (.wait old mark (.evict a sh.nlog) .lock) (seq + 1))
        (solo (sh₂.ret (.wait 0 old mark early)) (.newLogger a (.evicted sh.nlog old)) (seq + 1)) :=
      solo_flush hold
    let sh₃ : Shared := sh₂.ret (.wait 0 old mark early)
    have h₆ : goStep 0 (seq + 1) (.newLogger a (.evicted sh.nlog old)) .tau sh₃ =
        some (.newLogger a (.unlock sh.nlog), { sh₃ with registryLock := none }) := by
      have hclose : sh₃.closeWriter old = sh₃ := Shared.closeWriter_eq_self hold.zlog
      simp only [goStep, newLoggerStep, hclose]
    let rs := sh.returned ++ [.wait 0 old mark early] ++ [.newLogger 0 a.filename sh.nlog]
    have h₇ : goStep 0 (seq + 1) (.newLogger a (.unlock sh.nlog)) .tau
        { sh₃ with registryLock := none } = some (.idle,
          { sh.alloc a with registry := r, returned := rs }) := by
      simp [goStep, newLoggerStep, Shared.alloc, Shared.ret, hmutex, hlock, sh₁, sh₂, sh₃, rs]
    exact ⟨rs, (((hget.trans (solo_tau h₅)).trans hflush).trans (solo_tau h₆)).trans
      (solo_tau h₇)⟩

/-- With every logger quiet, `NewLogger` creates the logger of a new name. -/
theorem solo_newLogger (P : Primitives) (seq : Nat) {a : NewArgs} (hlock : sh.registryLock = none)
    (hmutex : sh.newLoggerMutex = none) (hq : ∀ l, (sh.loggers l).Quiet)
    (hmiss : sh.registry.get? a.filename = none) :
    ∃ r rs, SerialRun P (solo sh .idle seq)
      (solo { sh.alloc a with registry := r, returned := rs } .idle (seq + 1)) :=
  ⟨_, solo_create P seq hlock hmutex (fun l => (hq l).flushable) hmiss⟩

/-- From `sh` to `sh'` the message `m` entered `tologCh`. -/
structure Shared.Sent (sh sh' : Shared) (m : LoggerMessage) : Prop where
  loggers : ∀ l, l ≠ m.log → sh'.loggers l = sh.loggers l
  nlog : sh'.nlog = sh.nlog
  registry : sh'.registry = sh.registry
  registryLock : sh'.registryLock = sh.registryLock
  wMutex : sh'.wMutex = sh.wMutex
  accepted : sh'.accepted = sh.accepted ++ [{ message := m, registered := sh.registered m.log }]
  processed : sh'.processed = sh.processed
  panics : sh'.panics = sh.panics

/-- The state after a `Print` on a quiet logger, in the call number `seq`. -/
def Shared.printed (sh : Shared) (l : Ptr) (msg : Bytes) (seq : Nat) : Shared :=
  (((sh.modify l fun lg => { lg with logTasks := { counter := 1 } }).echo l msg).enqueue
    { msg, log := l, call := (0, seq) }).ret (.print (0, seq) l msg true true)

theorem solo_sends (P : Primitives) (seq : Nat) (msg : Bytes) (hl : l < sh.nlog)
    (hnop : sh.isNop l = false) (hq : (sh.loggers l).Quiet) (hslot : sh.slotFree = true) :
    SerialRun P (solo sh .idle seq) (solo (sh.printed l msg (seq + 1)) .idle (seq + 1)) := by
  obtain ⟨-, hw, -, ht, hpath⟩ := hq
  let sh₁ := sh.modify l fun lg => { lg with logTasks := { counter := 1 } }
  have h₁ : goStep 0 seq .idle (.call (.print l msg)) sh = some (.print l msg .gate, sh) := by
    simp [goStep, beginCall, hl, hnop]
  have h₂ : goStep 0 (seq + 1) (.print l msg .gate) .tau sh =
      some (.print l msg (.add false), sh) := by
    simp [goStep, printStep, hw]
  have h₃ : goStep 0 (seq + 1) (.print l msg (.add false)) (.stamp []) sh =
      some (.print l msg .send, sh₁) := by
    simp [goStep, printStep, hpath, ht, WaitGroup.add, Logger.stamped, sh₁]
  have hroom : sh₁.slotFree = true := hslot
  have h₄ : goStep 0 (seq + 1) (.print l msg .send) .tau sh₁ =
      some (.idle, sh.printed l msg (seq + 1)) := by
    simp only [goStep, printStep, hroom, if_true, Shared.printed, sh₁]
  exact (((solo_step h₁).trans (solo_tau h₂)).trans (solo_step h₃)).trans (solo_tau h₄)

theorem Shared.sent_printed {msg : Bytes} :
    sh.Sent (sh.printed l msg seq) { msg, log := l, call := (0, seq) } := by
  let sh₁ := sh.modify l fun lg => { lg with logTasks := { counter := 1 } }
  refine ⟨fun l' hne => ?_, sh₁.echo_nlog l msg, sh₁.echo_registry l msg,
    sh₁.echo_registryLock l msg, sh₁.echo_wMutex l msg, ?_, sh₁.echo_processed l msg,
    sh₁.echo_panics l msg⟩
  · show (sh₁.echo l msg).loggers l' = sh.loggers l'
    rw [Shared.echo_loggers, Shared.modify_loggers, if_neg hne]
  · simp [Shared.printed, Shared.enqueue, Shared.registered]

/-- A `Print` on a quiet logger with room in `tologCh`. -/
theorem solo_print (P : Primitives) (seq : Nat) (msg : Bytes) (hl : l < sh.nlog)
    (hnop : sh.isNop l = false) (hq : (sh.loggers l).Quiet) (hslot : sh.slotFree = true) :
    ∃ sh', SerialRun P (solo sh .idle seq) (solo sh' .idle (seq + 1)) ∧
      sh.Sent sh' { msg, log := l, call := (0, seq + 1) } :=
  ⟨_, solo_sends P seq msg hl hnop hq hslot, Shared.sent_printed⟩

/-- The walk of the package-level `Wait`, with the loggers of the registry quiet. -/
theorem solo_walk (P : Primitives) (mark seq : Nat) (keys : List Bytes)
    (sh : Shared) (hlock : sh.registryLock = none)
    (hq : ∀ e ∈ sh.registry.entries, (sh.loggers e.2).Quiet) :
    ∃ r rs, SerialRun P (solo sh (.waitAll mark (.next keys)) seq)
      (solo { sh with registry := r, returned := rs } (.waitAll mark (.next [])) seq) := by
  induction keys generalizing sh with
  | nil => exact ⟨sh.registry, sh.returned, .refl⟩
  | cons w keys ih =>
    cases hget : sh.registry.get? w with
    | none =>
      have h₁ : goStep 0 seq (.waitAll mark (.next (w :: keys))) .tau sh =
          some (.waitAll mark (.next keys), sh) := by
        simp [goStep, waitAllStep, hlock, hget]
      obtain ⟨r, rs, hrun⟩ := ih sh hlock hq
      exact ⟨r, rs, (solo_tau h₁).trans hrun⟩
    | some l =>
      let sh₁ : Shared := { sh with registry := sh.registry.touch w }
      have h₁ : goStep 0 seq (.waitAll mark (.next (w :: keys))) .tau sh =
          some (.wait l sh.accepted.length (.waitAll mark keys) .lock, sh₁) := by
        simp [goStep, waitAllStep, hlock, hget, sh₁]
      have hquiet : (sh₁.loggers l).Quiet := hq _ (Lru.get?_eq_some_iff.mp hget)
      obtain ⟨r, rs, hrun⟩ := ih (sh₁.ret (.wait 0 l sh.accepted.length false)) hlock
        fun e he => hq e (Lru.mem_touch.mp he)
      exact ⟨r, rs, (solo_tau h₁).trans
        ((solo_wait hquiet.m hquiet.waitStarted hquiet.logTasks).trans hrun)⟩

/-- The package-level `Wait` returns when the loggers of the registry are quiet. -/
theorem solo_waitAll (P : Primitives) (seq : Nat) (hw : sh.wMutex = none)
    (hlock : sh.registryLock = none) (hq : ∀ e ∈ sh.registry.entries, (sh.loggers e.2).Quiet) :
    ∃ r rs, .waitAll 0 sh.accepted.length ∈ rs ∧ SerialRun P (solo sh .idle seq)
      (solo { sh with registry := r, returned := rs } .idle (seq + 1)) := by
  let sh₁ : Shared := { sh with wMutex := some (.go 0) }
  have h₁ : goStep 0 seq .idle (.call .waitAll) sh =
      some (.waitAll sh.accepted.length .lock, sh) := rfl
  have h₂ : goStep 0 (seq + 1) (.waitAll sh.accepted.length .lock) .tau sh =
      some (.waitAll sh.accepted.length .keys, sh₁) := by
    simp [goStep, waitAllStep, hw, sh₁]
  have h₃ : goStep 0 (seq + 1) (.waitAll sh.accepted.length .keys) .tau sh₁ =
      some (.waitAll sh.accepted.length (.next sh.registry.keys), sh₁) := by
    simp [goStep, waitAllStep, hlock, sh₁]
  obtain ⟨r, rs, hrun⟩ :=
    solo_walk P sh.accepted.length (seq + 1) sh.registry.keys sh₁ hlock hq
  have h₄ : goStep 0 (seq + 1) (.waitAll sh.accepted.length (.next [])) .tau
      { sh₁ with registry := r, returned := rs } = some (.idle, { sh with
        registry := r, returned := rs ++ [.waitAll 0 sh.accepted.length] }) := by
    simp [goStep, waitAllStep, Shared.ret, hw, sh₁]
  refine ⟨r, rs ++ [.waitAll 0 sh.accepted.length], by simp, ?_⟩
  exact ((((solo_step h₁).trans (solo_tau h₂)).trans (solo_tau h₃)).trans hrun).trans
    (solo_tau h₄)

end Solo

/-! ## More loggers than the registry has room for -/

/-- The file name of the logger at `l`. -/
def nameOf (l : Ptr) : Bytes := List.replicate l 97

theorem nameOf_injective {l l' : Ptr} (h : nameOf l = nameOf l') : l = l' := by
  have hlen := congrArg List.length h
  simpa only [nameOf, List.length_replicate] using hlen

/-- `k` loggers have been created under their names, and nothing is in flight for them. -/
structure Shared.Named (sh : Shared) (k : Nat) : Prop where
  nlog : sh.nlog = k + 1
  quiet : ∀ l, (sh.loggers l).Quiet
  filename : ∀ l, 0 < l → l ≤ k → (sh.loggers l).filename = nameOf l
  registryLock : sh.registryLock = none
  newLoggerMutex : sh.newLoggerMutex = none

/-- `k` loggers have been created, and nothing was printed. -/
structure Shared.Created (sh : Shared) (k : Nat) : Prop extends sh.Named k where
  wMutex : sh.wMutex = none
  tologCh : sh.tologCh = []
  accepted : sh.accepted = []
  processed : sh.processed = []
  panics : sh.panics = []

section Created

variable {P : Primitives} {sh : Shared} {k seq : Nat}

/-- The registry holds loggers under their names. -/
theorem Shared.Named.entries (h : sh.Named k) (hs : sh.Wf) {e : Bytes × Ptr}
    (he : e ∈ sh.registry.entries) : 0 < e.2 ∧ e.2 ≤ k ∧ e.1 = nameOf e.2 := by
  obtain ⟨hpos, hlt, hname⟩ := hs.registered e he
  rw [h.nlog] at hlt
  have hle : e.2 ≤ k := Nat.le_of_lt_succ hlt
  exact ⟨hpos, hle, hname.symm.trans (h.filename e.2 hpos hle)⟩

/-- The registry holds as many loggers as it has room for. -/
theorem Shared.Named.length {u : State} (h : u.sh.Named k) (hr : (machine P).Reach u) :
    u.sh.registry.entries.length = min k registryCap := by
  rw [reach_registry_length hr, h.nlog, Nat.add_sub_cancel]

/-- The next name is not in the registry. -/
theorem Shared.Named.misses_next (h : sh.Named k) (hs : sh.Wf) :
    sh.registry.get? (nameOf (k + 1)) = none := by
  refine Lru.get?_eq_none_iff.mpr fun hmem => ?_
  obtain ⟨l, hl⟩ := Lru.mem_keys.mp hmem
  obtain ⟨-, hle, hname⟩ := h.entries hs hl
  rw [← nameOf_injective hname] at hle
  exact Nat.not_succ_le_self k hle

/-- The state after `NewLogger` under the next name. -/
def Shared.next (sh : Shared) (k : Nat) (rs : List Returned) : Shared :=
  { sh.alloc { filename := nameOf (k + 1) } with
    registry := (sh.registry.add (nameOf (k + 1)) sh.nlog).1
    returned := rs }

theorem Shared.Named.next (h : sh.Named k) (rs : List Returned) : (sh.next k rs).Named (k + 1) := by
  refine ⟨congrArg (· + 1) h.nlog, fun l => Logger.Quiet.alloc h.quiet rfl, fun l h0 hle => ?_,
    h.registryLock, h.newLoggerMutex⟩
  show (Function.update sh.loggers sh.nlog _ l).filename = nameOf l
  rw [Function.update_apply]
  split
  · rw [‹l = sh.nlog›, h.nlog]
  · have hne : l ≠ k + 1 := h.nlog ▸ ‹¬l = sh.nlog›
    exact h.filename l h0 (Nat.le_of_lt_succ (lt_of_le_of_ne hle hne))

theorem Shared.Named.run_next (P : Primitives) (h : sh.Named k) (hs : sh.Wf) (seq : Nat) :
    ∃ rs, SerialRun P (solo sh .idle seq) (solo (sh.next k rs) .idle (seq + 1)) :=
  solo_create P seq (a := { filename := nameOf (k + 1) }) h.registryLock h.newLoggerMutex
    (fun l => (h.quiet l).flushable) (h.misses_next hs)

theorem created_run (P : Primitives) (k : Nat) : ∃ sh,
    (machine P).ReachIf (fun u _ => noOverlap u = true) (solo sh .idle k) ∧ sh.Created k := by
  induction k with
  | zero =>
    refine ⟨{}, .tail (a := .spawn) .refl rfl rfl, ?_⟩
    refine ⟨⟨rfl, fun l => ⟨rfl, rfl, rfl, rfl, rfl⟩, fun l h0 hle => ?_, rfl, rfl⟩, ?_, ?_, ?_, ?_,
      ?_⟩ <;> first | rfl | omega
  | succ k ih =>
    obtain ⟨sh, hrun, h⟩ := ih
    obtain ⟨rs, hnew⟩ := h.run_next P (reach_wf (Machine.ReachIf.reach hrun)).shared k
    exact ⟨_, hrun.trans hnew, h.next rs, h.wMutex, h.tologCh, h.accepted, h.processed, h.panics⟩

/-- One of more than `registryCap` loggers is not in the registry. -/
theorem Shared.Created.evicted (h : sh.Created k) (hk : registryCap < k) :
    ∃ l, 0 < l ∧ l ≤ k ∧ sh.registered l = false := by
  by_contra hall
  have hall' : ∀ l, 0 < l → l ≤ k → sh.registered l = true := fun l h0 hle =>
    Bool.eq_true_of_not_eq_false fun hr => hall ⟨l, h0, hle, hr⟩
  have hin : (List.range k).map (fun i => (nameOf (i + 1), i + 1)) ⊆ sh.registry.entries := by
    intro e he
    obtain ⟨i, hi, rfl⟩ := List.mem_map.mp he
    have hi : i < k := List.mem_range.mp hi
    have hget := of_decide_eq_true (hall' (i + 1) (Nat.succ_pos i) hi)
    rw [h.filename (i + 1) (Nat.succ_pos i) hi] at hget
    exact Lru.get?_eq_some_iff.mp hget
  have hnodup : ((List.range k).map fun i => (nameOf (i + 1), i + 1)).Nodup := by
    refine List.Nodup.map ?_ List.nodup_range
    intro i j hij
    exact Nat.succ.inj (Prod.mk.inj hij).2
  have hlen := hnodup.length_le_of_subset hin
  rw [List.length_map, List.length_range] at hlen
  have := sh.registry.length_le
  omega

/-- After more `NewLogger` calls than the registry has room for there is a logger whose message
    the package-level `Wait` leaves in `tologCh`, though nothing overlaps and nothing panics. -/
theorem evicted_unseen (P : Primitives) (hk : registryCap < k) (msg : Bytes) : ∃ u : State,
    (machine P).ReachIf (fun u _ => noOverlap u = true) u ∧ u.sh.panics = [] ∧
    ∃ mark a, .waitAll 0 mark ∈ u.sh.returned ∧ a ∈ u.sh.accepted.take mark ∧
      a.message ∉ u.sh.handled := by
  obtain ⟨sh, hrun, h⟩ := created_run P k
  have hs : sh.Wf := (reach_wf (Machine.ReachIf.reach hrun)).shared
  obtain ⟨l, h0, hle, hreg⟩ := h.evicted hk
  have hl : l < sh.nlog := h.nlog ▸ Nat.lt_succ_of_le hle
  have hname : (sh.loggers l).filename ≠ [] := by
    rw [h.filename l h0 hle]
    simpa [nameOf] using h0.ne'
  have hnop : sh.isNop l = false := by
    simp [Shared.isNop, hname, emptyLogger, h0.ne']
  have hslot : sh.slotFree = true := by simp [Shared.slotFree, h.tologCh, tologCap]
  obtain ⟨sh₁, hprint, hsent⟩ :=
    solo_print P k msg hl hnop (h.quiet l) hslot
  -- the loggers the walk visits are still quiet
  have hquiet : ∀ e ∈ sh₁.registry.entries, (sh₁.loggers e.2).Quiet := by
    intro e he
    rw [hsent.registry] at he
    have hne : e.2 ≠ l := by
      intro hel
      subst hel
      obtain ⟨-, -, hkey⟩ := h.entries hs he
      have hget : sh.registry.get? (sh.loggers e.2).filename = some e.2 := by
        rw [h.filename e.2 h0 hle, ← hkey]
        exact Lru.get?_eq_some_iff.mpr he
      exact Bool.false_ne_true (hreg.symm.trans (decide_eq_true hget))
    rw [hsent.loggers e.2 hne]
    exact h.quiet e.2
  obtain ⟨r, rs, hret, hwait⟩ := solo_waitAll P (k + 1)
    (hsent.wMutex.trans h.wMutex) (hsent.registryLock.trans h.registryLock) hquiet
  let a : Accepted := ⟨⟨msg, l, (0, k + 1)⟩, false⟩
  have hacc : sh₁.accepted = [a] := by
    rw [hsent.accepted, h.accepted, hreg]
    rfl
  refine ⟨_, (hrun.trans hprint).trans hwait, hsent.panics.trans h.panics, _, a, hret, ?_, ?_⟩
  · show a ∈ sh₁.accepted.take sh₁.accepted.length
    rw [List.take_length, hacc]
    exact List.mem_singleton_self _
  · show a.message ∉ sh₁.processed.map (·.message)
    rw [hsent.processed, h.processed]
    exact List.not_mem_nil

end Created

/-- The package-level `Wait` after a `Wait` has panicked and left the flag set. -/
def panickedWait : List Action := reusedWait ++ .go 0 (.call .waitAll) :: steps 0 6

theorem panickedWait_runs :
    ((machine unitPrimitives).execIf (fun u _ => noOverlap u) {} panickedWait).isSome := by decide

/-- The package-level `Wait` after an `Add(1)` was forgotten. -/
def forgottenWaitAll : List Action := forgottenAdd ++ .go 0 (.call .waitAll) :: steps 0 9

theorem forgottenWaitAll_runs :
    ((machine unitPrimitives).execIf (fun u _ => noOverlap u) {} forgottenWaitAll).isSome := by
  decide +kernel

theorem forgottenWaitAll_panics : (((machine unitPrimitives).execIf (fun u _ => noOverlap u) {}
    forgottenWaitAll).get forgottenWaitAll_runs).sh.panics = [.printAdd 1] := by decide +kernel

theorem panickedWait_panics : (((machine unitPrimitives).execIf (fun u _ => noOverlap u) {}
    panickedWait).get panickedWait_runs).sh.panics = [.wait 1] := by decide

/-- The package-level `Wait` leaves messages behind: those of a logger that had been evicted, and
    those of a logger whose `logTasks.Wait` or `logTasks.Add(1)` had panicked. -/
theorem waitAll_unsettled :
    (¬ ∀ u : State, (machine unitPrimitives).ReachIf (fun u _ => noOverlap u = true) u →
      (∀ l, .wait l ∉ u.sh.panics) → ∀ g mark, .waitAll g mark ∈ u.sh.returned →
        ∀ a ∈ u.sh.accepted.take mark, a.message ∈ u.sh.handled) ∧
    (¬ ∀ u : State, (machine unitPrimitives).ReachIf (fun u _ => noOverlap u = true) u →
      (∀ l, .printAdd l ∉ u.sh.panics) → ∀ g mark, .waitAll g mark ∈ u.sh.returned →
        ∀ a ∈ u.sh.accepted.take mark, a.registered = true → a.message ∈ u.sh.handled) ∧
    (¬ ∀ u : State, (machine unitPrimitives).ReachIf (fun u _ => noOverlap u = true) u →
      (∀ l, .wait l ∉ u.sh.panics) → ∀ g mark, .waitAll g mark ∈ u.sh.returned →
        ∀ a ∈ u.sh.accepted.take mark, a.registered = true → a.message ∈ u.sh.handled) := by
  refine ⟨fun h => ?_, fun h => ?_, fun h => ?_⟩
  · obtain ⟨u, hrun, hp, mark, a, hret, ha, hnot⟩ :=
      evicted_unseen unitPrimitives (Nat.lt_succ_self registryCap) [104]
    exact hnot (h u hrun (by simp [hp]) 0 mark hret a ha)
  · have hm := h _ (reachIf_exec panickedWait_runs) (by rw [panickedWait_panics]; simp) 0 2
      (by decide) ⟨⟨[105], 1, (1, 1)⟩, true⟩ (by decide) rfl
    exact absurd hm (by decide)
  · have hm := h _ (reachIf_exec forgottenWaitAll_runs) (by rw [forgottenWaitAll_panics]; simp)
      0 2 (by decide +kernel) ⟨⟨[106], 1, (2, 1)⟩, true⟩ (by decide +kernel) rfl
    exact absurd hm (by decide +kernel)

end ZipoLogger
