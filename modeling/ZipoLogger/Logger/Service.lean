/-
  What the package is for: the log service, and that the logger refines it.

  `service` is the package seen from its callers, one atomic step for each event. A `print` is
  taken into the log or refused at one moment between its call and its return; the messages are
  dealt with in the order of the log; a `Wait`, `Flush` or `Close` that has waited returns when
  every message of its logger that was in the log at its call has been dealt with. A call may
  panic; when a `print` does, its logger is broken and a `Wait` of it may return at any time.
  There are no locks in it, no flag, no counter and no queue of bounded length.

  `logger_refines` is the forward simulation: whatever the goroutines and the worker of the logger
  do, the events they show are events of the service. `observed_history` reads the promises of the
  service off the events alone.
-/
import ZipoLogger.Lib.Observe
import ZipoLogger.Logger.Waiting

namespace ZipoLogger

open Enc

/-! ## The service -/

/-- A call under way. -/
inductive Request where
  | print (l : Ptr) (text : Bytes)
  /-- `Wait`, `Flush` or `Close`, called with `mark` messages in the log -/
  | wait (l : Ptr) (mark : Nat)
  deriving DecidableEq

inductive Event where
  | print (g : Gid) (l : Ptr) (text : Bytes)
  /-- The call returns; the message is in the log, with its prefix. -/
  | printed (g : Gid) (l : Ptr) (msg : Bytes)
  /-- The call returns; the gate was closed or `tologCh` was full. -/
  | refused (g : Gid)
  | wait (g : Gid) (l : Ptr)
  | waited (g : Gid)
  /-- The call returns; it has found another `Wait` in progress. -/
  | early (g : Gid)
  /-- The `print` ends in a panic. -/
  | printPanicked (g : Gid) (l : Ptr)
  /-- The `Wait`, `Flush` or `Close` ends in a panic. -/
  | panicked (g : Gid)
  /-- The worker is through with a message; it has given it to a writer, or has skipped it. -/
  | dealt (l : Ptr) (msg : Bytes) (written : Bool)
  deriving DecidableEq

/-- The event shows that a `print` of `l` panicked. -/
def Event.breaks (l : Ptr) : Event → Bool
  | .printPanicked _ l' => l' = l
  | _ => false

structure Service where
  log : List (Ptr × Bytes) := []
  /-- How many messages of the log have been dealt with. -/
  done : Nat := 0
  files : Ptr → List Bytes := fun _ => []
  /-- A `print` of the logger has panicked. -/
  broken : Ptr → Bool := fun _ => false
  calls : Gid → Option Request := fun _ => none

/-- The messages of `l` among the first `mark` have been dealt with. -/
def Service.Settled (S : Service) (l : Ptr) (mark : Nat) : Prop :=
  ∀ m ∈ (S.log.take mark).drop S.done, m.1 ≠ l

instance {S : Service} {l : Ptr} {mark : Nat} : Decidable (S.Settled l mark) :=
  inferInstanceAs (Decidable (∀ m ∈ (S.log.take mark).drop S.done, m.1 ≠ l))

/-- The call of `g` begins or ends. -/
def Service.call (S : Service) (g : Gid) (r : Option Request) : Service :=
  { S with calls := Function.update S.calls g r }

/-- The next message of the log has been dealt with. -/
def Service.deal (S : Service) (l : Ptr) (msg : Bytes) (written : Bool) : Service :=
  { S with
    done := S.done + 1
    files := if written then Function.update S.files l (S.files l ++ [msg]) else S.files }

def Service.step (S : Service) : Event → Option Service
  | .print g l text => if S.calls g = none then some (S.call g (some (.print l text))) else none
  | .printed g l msg =>
    match S.calls g with
    | some (.print l' text) =>
      if l' = l ∧ text <:+ msg then some { S.call g none with log := S.log ++ [(l, msg)] } else none
    | _ => none
  | .refused g =>
    match S.calls g with
    | some (.print _ _) => some (S.call g none)
    | _ => none
  | .wait g l =>
    if S.calls g = none then some (S.call g (some (.wait l S.log.length))) else none
  | .waited g =>
    match S.calls g with
    | some (.wait l mark) =>
      if S.Settled l mark ∨ S.broken l = true then some (S.call g none) else none
    | _ => none
  | .early g =>
    match S.calls g with
    | some (.wait _ _) => some (S.call g none)
    | _ => none
  | .printPanicked g l =>
    match S.calls g with
    | some (.print l' _) =>
      if l' = l then some { S.call g none with broken := Function.update S.broken l true } else none
    | _ => none
  | .panicked g =>
    match S.calls g with
    | some (.wait _ _) => some (S.call g none)
    | _ => none
  | .dealt l msg written =>
    if S.log[S.done]? = some (l, msg) then some (S.deal l msg written) else none

def service : Machine Service Event := { init := {}, step := Service.step }

/-! ## What the logger shows -/

/-- The events of a step of a goroutine. Only `print` and the calls of `Wait`, `Flush` and `Close`
    are shown, not the `Wait`s that other functions of the package make. -/
def observeGo (g : Gid) (s s' : Shared) : Pc → Pc → List Event
  | .idle, .print l text _ => [.print g l text]
  | .print l msg .send, .idle => [.printed g l msg]
  | .print l _ _, .idle => if s'.panics = s.panics then [.refused g] else [.printPanicked g l]
  | .idle, .wait l _ .user _ | .idle, .wait l _ .close _ => [.wait g l]
  | .wait _ _ .user .test, .idle => [.early g]
  | .wait _ _ .user .clear, .idle => [.waited g]
  | .wait _ _ .user _, .idle | .wait _ _ .close _, .idle => [.panicked g]
  | .close _ _ early _, .idle => if early then [.early g] else [.waited g]
  | _, _ => []

/-- The event of a message the worker is through with. -/
def Processed.event (p : Processed) : Event :=
  .dealt p.message.log p.message.msg (p.fate ≠ .skipped)

def observeWorker (s s' : Shared) : List Event :=
  (s'.processed.drop s.processed.length).map Processed.event

def observe (u : State) (a : Action) (v : State) : List Event :=
  match a with
  | .spawn => []
  | .go g _ =>
    match u.threads[g]?, v.threads[g]? with
    | some t, some t' => observeGo g u.sh v.sh t.pc t'.pc
    | _, _ => []
  | .worker _ => observeWorker u.sh v.sh

/-! ## The simulation -/

/-- The call a goroutine is in, as the service sees it. -/
def Pc.Open : Pc → Option Request → Prop
  | .print l msg _, r => ∃ text, r = some (.print l text) ∧ text <:+ msg
  | .wait l mark .user _, r | .wait l mark .close _, r | .close l mark _ _, r =>
    r = some (.wait l mark)
  | _, r => r = none

/-- The service behind a state of the logger. -/
structure State.Serves (u : State) (S : Service) : Prop where
  log : S.log = u.sh.texts
  done : S.done = u.sh.handled.length
  files : ∀ l, S.files l = (u.sh.recordsOf l).map (·.source.msg)
  broken : ∀ l, .printAdd l ∈ u.sh.panics → S.broken l = true
  idle : ∀ g, u.threads[g]? = none → S.calls g = none
  calls : ∀ g (t : Thread), u.threads[g]? = some t → t.pc.Open (S.calls g)

section Steps

variable {P : Primitives} {g : Gid} {seq : Nat} {s s' : Shared} {pc pc' : Pc} {i : Input}
  {S : Service}

/-- An event breaks the logger whose `print` panics. -/
theorem Service.step_broken {S' : Service} {e : Event} (h : S.step e = some S') (l : Ptr) :
    S'.broken l = (S.broken l || e.breaks l) := by
  cases e with
  | printPanicked g l' =>
    simp only [step] at h
    split at h
    · rw [Option.ite_none_right_eq_some] at h
      cases h.2
      by_cases hl : l' = l
      · subst hl
        simp [Event.breaks]
      · simp [Event.breaks, hl, Function.update_of_ne (Ne.symm hl)]
    · cases h
  | printed g l' msg =>
    simp only [step] at h
    split at h
    · rw [Option.ite_none_right_eq_some] at h
      cases h.2
      exact (Bool.or_false _).symm
    · cases h
  | refused g | early g | panicked g =>
    simp only [step] at h
    split at h <;> cases h
    exact (Bool.or_false _).symm
  | print g l' text | wait g l' | dealt l' msg written =>
    simp only [step, Option.ite_none_right_eq_some] at h
    cases h.2
    exact (Bool.or_false _).symm
  | waited g =>
    simp only [step] at h
    split at h
    · rw [Option.ite_none_right_eq_some] at h
      cases h.2
      exact (Bool.or_false _).symm
    · cases h

theorem Service.call_self (S : Service) (g : Gid) : S.call g (S.calls g) = S := by
  rw [call, Function.update_eq_self]

theorem Service.exec_one {S' : Service} {e : Event} (h : S.step e = some S') :
    service.exec S [e] = some S' := by
  rw [Machine.exec]
  show (S.step e).bind _ = _
  rw [h]
  rfl

/-- A step that shows nothing and keeps the log. -/
theorem serves_silent {es : List Event} (hlog : S.log = s.texts) (hes : es = [])
    (htexts : s'.texts = s.texts) (hopen : pc'.Open (S.calls g)) :
    ∃ r b, service.exec S es = some { S.call g r with log := s'.texts, broken := b } ∧
      pc'.Open r := by
  refine ⟨S.calls g, S.broken, ?_, hopen⟩
  rw [hes, htexts, ← hlog, Service.call_self]
  rfl

/-- A step that shows one event the service answers by ending or beginning the call. -/
theorem serves_event {es : List Event} {e : Event} {r : Option Request} (hlog : S.log = s.texts)
    (hes : es = [e]) (hstep : S.step e = some (S.call g r)) (htexts : s'.texts = s.texts)
    (hopen : pc'.Open r) :
    ∃ r b, service.exec S es = some { S.call g r with log := s'.texts, broken := b } ∧
      pc'.Open r := by
  refine ⟨r, S.broken, ?_, hopen⟩
  rw [hes, Service.exec_one hstep, htexts, ← hlog]
  rfl

theorem Service.printed_eq {l : Ptr} {text msg : Bytes} (hr : S.calls g = some (.print l text))
    (hmsg : text <:+ msg) :
    S.step (.printed g l msg) = some { S.call g none with log := S.log ++ [(l, msg)] } := by
  rw [step, hr]
  exact if_pos ⟨rfl, hmsg⟩

theorem Service.refused_eq {l : Ptr} {text : Bytes} (hr : S.calls g = some (.print l text)) :
    S.step (.refused g) = some (S.call g none) := by
  rw [step, hr]

theorem Service.printPanicked_eq {l : Ptr} {text : Bytes}
    (hr : S.calls g = some (.print l text)) : S.step (.printPanicked g l) =
      some { S.call g none with broken := Function.update S.broken l true } := by
  rw [step, hr]
  exact if_pos rfl

theorem Service.panicked_eq {l : Ptr} {mark : Nat} (hr : S.calls g = some (.wait l mark)) :
    S.step (.panicked g) = some (S.call g none) := by
  rw [step, hr]

theorem Service.early_eq {l : Ptr} {mark : Nat} (hr : S.calls g = some (.wait l mark)) :
    S.step (.early g) = some (S.call g none) := by
  rw [step, hr]

theorem Service.waited_eq {l : Ptr} {mark : Nat} (hr : S.calls g = some (.wait l mark))
    (hs : S.Settled l mark ∨ S.broken l = true) : S.step (.waited g) = some (S.call g none) := by
  rw [step, hr]
  exact if_pos hs

/-- The service answers every step of a goroutine. -/
theorem GoStep.serves (h : GoStep g seq s pc i pc' s') (hlog : S.log = s.texts)
    (hopen : pc.Open (S.calls g))
    (hsettled : ∀ l mark, s.Promised l mark → S.Settled l mark ∨ S.broken l = true)
    (hsound : pc.Sound s) :
    ∃ r b, service.exec S (observeGo g s s' pc pc') =
      some { S.call g r with log := s'.texts, broken := b } ∧ pc'.Open r := by
  have hlen : s.accepted.length = S.log.length := by
    rw [hlog, Shared.length_texts, Shared.sent, List.length_map]
  cases h with
  | callPrint => exact serves_event hlog rfl (if_pos hopen) rfl ⟨_, rfl, List.suffix_rfl⟩
  | callWait | callClose => exact serves_event hlog rfl (if_pos hopen) rfl (by rw [hlen]; rfl)
  | gateClosed =>
    obtain ⟨text, hr, -⟩ := hopen
    exact serves_event hlog (if_pos rfl) (Service.refused_eq hr) rfl rfl
  | @headed l msg =>
    obtain ⟨text, hr, hmsg⟩ := hopen
    exact serves_silent hlog rfl rfl ⟨text, hr, hmsg.trans (List.suffix_append _ _)⟩
  | @added l msg stamp | @addWakes l msg stamp =>
    obtain ⟨text, hr, hmsg⟩ := hopen
    exact serves_silent hlog rfl rfl ⟨text, hr, hmsg.trans (Logger.suffix_stamped _ _ _)⟩
  | @addPanics l msg | @dropPanics l msg | @checkPanics l msg =>
    obtain ⟨text, hr, -⟩ := hopen
    refine ⟨none, Function.update S.broken l true, ?_, rfl⟩
    rw [observeGo, if_neg (by simp), Service.exec_one (Service.printPanicked_eq hr)]
    · rw [Service.call, hlog]
      rfl
    · simp
  | @sent l msg =>
    obtain ⟨text, hr, hmsg⟩ := hopen
    refine ⟨none, S.broken, ?_, rfl⟩
    have htexts : Shared.texts (((s.echo l msg).enqueue { msg, log := l, call := (g, seq) }).ret
        (.print (g, seq) l msg true true)) = s.texts ++ [(l, msg)] := by
      simp [Shared.texts, Shared.sent, Shared.enqueue]
    rw [htexts, ← hlog]
    exact Service.exec_one (Service.printed_eq hr hmsg)
  | dropped | released =>
    obtain ⟨text, hr, -⟩ := hopen
    exact serves_event hlog (if_pos rfl) (Service.refused_eq hr) rfl rfl
  | @waitEarly l mark k =>
    rw [afterWait_snd]
    cases k with
    | user => exact serves_event hlog rfl (Service.early_eq hopen) rfl rfl
    | _ => exact serves_silent hlog rfl rfl hopen
  | @waitClear l mark k =>
    rw [afterWait_snd]
    cases k with
    | user =>
      have hs := hsettled l mark (hsound.2 (.inr rfl))
      exact serves_event hlog rfl (Service.waited_eq hopen hs) rfl rfl
    | _ => exact serves_silent hlog rfl rfl hopen
  | @waitPanics l mark k =>
    cases k with
    | user | close => exact serves_event hlog rfl (Service.panicked_eq hopen) rfl rfl
    | _ => exact serves_silent hlog rfl rfl hopen
  | @closeDone l mark early =>
    have htexts : Shared.texts (((s.closeWriter l).modify l fun lg =>
        { lg with zlog := none, em := none }).ret (.close g l mark early)) = s.texts := by
      simp [Shared.texts, Shared.sent]
    cases early with
    | true => exact serves_event hlog rfl (Service.early_eq hopen) htexts rfl
    | false =>
      have hs := hsettled l mark (hsound.2 rfl)
      exact serves_event hlog rfl (Service.waited_eq hopen hs) htexts rfl
  | @waitLock l mark k | @waitSet l mark k | @waitThrough l mark k | @waitPark l mark k
  | @waitWake l mark k | @waitRelock l mark k =>
    cases k <;> exact serves_silent hlog rfl rfl hopen
  | full | newEvicted | setApply =>
    exact serves_silent hlog rfl (by simp [Shared.texts, Shared.sent]) hopen
  | _ => exact serves_silent hlog rfl rfl hopen

/-- A `print` that breaks its logger shows it. -/
theorem GoStep.shows_broken (h : GoStep g seq s pc i pc' s') {l : Ptr}
    (hp : .printAdd l ∈ s'.panics) :
    .printAdd l ∈ s.panics ∨ ∃ e ∈ observeGo g s s' pc pc', e.breaks l = true := by
  cases h with
  | @addPanics l' msg stamp =>
    rcases List.mem_append.mp hp with hp | hp
    · exact .inl hp
    · cases List.mem_singleton.mp hp
      exact .inr ⟨.printPanicked g _, by simp [observeGo], decide_eq_true rfl⟩
  | @checkPanics l' msg added w =>
    rcases List.mem_append.mp hp with hp | hp
    · exact .inl hp
    · cases added <;> cases List.mem_singleton.mp hp
      exact .inr ⟨.printPanicked g _, by simp [observeGo], decide_eq_true rfl⟩
  | dropPanics => exact .inl (by simpa using hp)
  | @waitPanics l' mark k => exact .inl (by cases k <;> simpa [unwindWait] using hp)
  | waitEarly | waitClear => exact .inl (by simpa [afterWait_snd] using hp)
  | sent | full | closeDone | newEvicted | setApply =>
    exact .inl (by simpa [Shared.enqueue] using hp)
  | _ => exact .inl hp

/-- A broken logger stays broken, and an event that breaks it does. -/
theorem Service.broken_exec {S' : Service} {τ : List Event} {l : Ptr}
    (h : service.exec S τ = some S') (hb : S.broken l = true ∨ ∃ e ∈ τ, e.breaks l = true) :
    S'.broken l = true := by
  induction τ generalizing S with
  | nil =>
    cases h
    exact hb.resolve_right (by simp)
  | cons e τ ih =>
    obtain ⟨S₁, hstep, hrun⟩ := Option.bind_eq_some_iff.mp h
    have hbroken := Service.step_broken hstep l
    rcases hb with hb | ⟨e', he', hb⟩
    · exact ih hrun (.inl (by rw [hbroken, hb, Bool.true_or]))
    · rcases List.mem_cons.mp he' with rfl | he'
      · exact ih hrun (.inl (by rw [hbroken, hb, Bool.or_true]))
      · exact ih hrun (.inr ⟨e', he', hb⟩)

theorem Shared.recordsOf_append {p : Processed} (hp : s'.processed = s.processed ++ [p])
    (l : Ptr) : (s'.recordsOf l).map (·.source.msg) = (s.recordsOf l).map (·.source.msg) ++
      if p.message.log = l ∧ p.fate ≠ .skipped then [p.message.msg] else [] := by
  rw [recordsOf, hp, List.filterMap_append, List.map_append, ← recordsOf]
  congr 1
  obtain ⟨m, fate⟩ := p
  cases fate with
  | skipped => simp [Processed.recordOf]
  | written key draws record => by_cases hl : m.log = l <;> simp [Processed.recordOf, hl]

theorem serves_unprocessed (hlog : S.log = s.texts) (hdone : S.done = s.handled.length)
    (hfiles : ∀ l, S.files l = (s.recordsOf l).map (·.source.msg)) (htexts : s'.texts = s.texts)
    (hp : s'.processed = s.processed) :
    ∃ S', service.exec S (observeWorker s s') = some S' ∧ S'.log = s'.texts ∧
      S'.done = s'.handled.length ∧ (∀ l, S'.files l = (s'.recordsOf l).map (·.source.msg)) ∧
      S'.broken = S.broken ∧ S'.calls = S.calls := by
  refine ⟨S, ?_, hlog.trans htexts.symm, ?_, fun l => ?_, rfl, rfl⟩
  · rw [observeWorker, hp, List.drop_length]
    rfl
  · rw [hdone, Shared.handled, Shared.handled, hp]
  · rw [hfiles, Shared.recordsOf, Shared.recordsOf, hp]

/-- The worker is through with a message. -/
theorem serves_process {p : Processed} (hlog : S.log = s.texts) (hdone : S.done = s.handled.length)
    (hfiles : ∀ l, S.files l = (s.recordsOf l).map (·.source.msg))
    (hnext : S.log[S.done]? = some (p.message.log, p.message.msg)) (htexts : s'.texts = s.texts)
    (hp : s'.processed = s.processed ++ [p]) :
    ∃ S', service.exec S (observeWorker s s') = some S' ∧ S'.log = s'.texts ∧
      S'.done = s'.handled.length ∧ (∀ l, S'.files l = (s'.recordsOf l).map (·.source.msg)) ∧
      S'.broken = S.broken ∧ S'.calls = S.calls := by
  refine ⟨S.deal p.message.log p.message.msg (p.fate ≠ .skipped), ?_, hlog.trans htexts.symm, ?_,
    fun l => ?_, rfl, rfl⟩
  · rw [observeWorker, hp, List.drop_left' rfl]
    exact Service.exec_one (if_pos hnext)
  · simp [Service.deal, hdone, Shared.handled, hp]
  · rw [Shared.recordsOf_append hp, ← hfiles, Service.deal]
    by_cases hskip : p.fate = .skipped
    · simp [hskip]
    · by_cases hl : p.message.log = l
      · subst hl
        simp [hskip]
      · simp [hskip, hl, Function.update_of_ne (Ne.symm hl)]

/-- The service answers every step of the worker. -/
theorem WorkerStep.serves {wpc wpc' : WorkerPc} {wi : WorkerInput}
    (h : WorkerStep P s wpc wi wpc' s') (hlog : S.log = s.texts) (hdone : S.done = s.handled.length)
    (hfiles : ∀ l, S.files l = (s.recordsOf l).map (·.source.msg))
    (hfifo : s.sent = s.handled ++ wpc.inHand.toList ++ s.tologCh) :
    ∃ S', service.exec S (observeWorker s s') = some S' ∧ S'.log = s'.texts ∧
      S'.done = s'.handled.length ∧ (∀ l, S'.files l = (s'.recordsOf l).map (·.source.msg)) ∧
      S'.broken = S.broken ∧ S'.calls = S.calls := by
  have hnext : ∀ {elem}, wpc.inHand = some elem → S.log[S.done]? = some (elem.log, elem.msg) := by
    intro elem hhand
    have hget : s.sent[s.handled.length]? = some elem := by
      rw [hfifo, hhand, List.append_assoc, List.getElem?_append_right le_rfl, Nat.sub_self]
      rfl
    rw [hlog, hdone, Shared.texts, List.getElem?_map, hget]
    rfl
  cases h with
  | @skipped elem =>
    exact serves_process (p := ⟨elem, .skipped⟩) hlog hdone hfiles (hnext rfl) rfl rfl
  | @wrote elem enckey draws record w =>
    exact serves_process (p := ⟨elem, .written enckey draws record⟩) hlog hdone hfiles (hnext rfl)
      rfl rfl
  | _ => exact serves_unprocessed hlog hdone hfiles rfl rfl

end Steps

section Runs

variable {P : Primitives} {u v : State} {a : Action} {S : Service} {τ : List Event}

/-- What is settled for the logger is settled for the service. -/
theorem State.Serves.settled (h : u.Serves S) (hr : (machine P).Reach u) {l : Ptr} {mark : Nat}
    (hs : u.sh.Settled l mark) : S.Settled l mark := by
  intro m hm hl
  rw [h.log, h.done, Shared.texts, ← List.map_take, ← List.map_drop, List.mem_map] at hm
  obtain ⟨m', hm', rfl⟩ := hm
  have hdone : m' ∈ u.sh.handled :=
    hs m' (List.mem_of_mem_drop hm') hl
  have hrest : m' ∈ u.sh.sent.drop u.sh.handled.length := by
    rw [List.drop_take] at hm'
    exact List.mem_of_mem_take hm'
  have htake : u.sh.sent.take u.sh.handled.length = u.sh.handled := by
    rw [reach_fifo hr, List.append_assoc, List.take_left' rfl]
  have honce := (delivered_in_order hr l).once
  rw [← htake] at hdone
  exact List.disjoint_take_drop honce le_rfl hdone hrest

theorem State.Serves.promised (h : u.Serves S) (hr : (machine P).Reach u) {l : Ptr} {mark : Nat}
    (hp : u.sh.Promised l mark) : S.Settled l mark ∨ S.broken l = true := by
  by_cases hadd : .printAdd l ∈ u.sh.panics
  · exact .inr (h.broken l hadd)
  · exact .inl (h.settled hr (hp hadd))

theorem step_serves (hr : (machine P).Reach u) (h : u.Serves S) (hs : step P u a = some v) :
    ∃ S', service.exec S (observe u a v) = some S' ∧ v.Serves S' := by
  rcases step_cases hs with ⟨rfl, rfl⟩ | ⟨g, i, t, pc, sh, rfl, ht, hstep, rfl⟩ |
    ⟨i, wpc, sh, rfl, hstep, rfl⟩
  · refine ⟨S, rfl, h.log, h.done, h.files, h.broken, fun g hg => ?_, fun g t ht => ?_⟩
    · refine h.idle g ?_
      rw [List.getElem?_eq_none_iff] at hg ⊢
      rw [List.length_append] at hg
      omega
    · rcases hold : u.threads[g]? with _ | t'
      · have hnew : t = {} := by
          obtain hnew | hold' := threads_spawn ht
          · exact hnew
          · rw [hold] at hold'
            cases hold'
        rw [hnew]
        exact h.idle g hold
      · have hlt := (List.getElem?_eq_some_iff.mp hold).1
        exact h.calls g t ((List.getElem?_append_left hlt).symm.trans ht)
  · have hobs : observe u (.go g i)
        { u with sh, threads := u.threads.set g { pc, seq := t.nextSeq i } } =
          observeGo g u.sh sh t.pc pc := by
      have hset : (u.threads.set g { pc, seq := t.nextSeq i })[g]? =
          some { pc, seq := t.nextSeq i } :=
        List.getElem?_set_self (List.getElem?_eq_some_iff.mp ht).1
      simp only [observe, ht, hset]
    obtain ⟨r, b, hrun, hopen⟩ := hstep.serves h.log (h.calls g t ht)
      (fun l mark => h.promised hr) ((reach_sound hr).threads g t ht)
    refine ⟨_, by rw [hobs, hrun], rfl, ?_, fun l => ?_, fun l hp => ?_, fun g' hg' => ?_,
      fun g' t' ht' => ?_⟩
    · rw [Shared.handled, hstep.processed]
      exact h.done
    · rw [Shared.recordsOf, hstep.processed]
      exact h.files l
    · refine Service.broken_exec hrun ?_
      exact (hstep.shows_broken hp).imp_left (h.broken l)
    · have hout : u.threads[g']? = none := by
        rw [List.getElem?_eq_none_iff, List.length_set] at hg'
        exact List.getElem?_eq_none_iff.mpr hg'
      have hne : g' ≠ g := by
        rintro rfl
        cases hout.symm.trans ht
      show Function.update S.calls g r g' = none
      rw [Function.update_of_ne hne]
      exact h.idle g' hout
    · show t'.pc.Open (Function.update S.calls g r g')
      obtain ⟨rfl, rfl⟩ | ⟨hne, hold⟩ := threads_set ht'
      · rw [Function.update_self]
        exact hopen
      · rw [Function.update_of_ne hne]
        exact h.calls g' t' hold
  · obtain ⟨S', hrun, hlog, hdone, hfiles, hbroken, hcalls⟩ :=
      hstep.serves h.log h.done h.files (reach_fifo hr)
    refine ⟨S', hrun, hlog, hdone, hfiles, fun l hp => ?_, fun g hg => ?_, fun g t ht => ?_⟩
    · rw [hbroken]
      exact h.broken l (hstep.addPanic hp)
    · rw [hcalls]
      exact h.idle g hg
    · rw [hcalls]
      exact h.calls g t ht

theorem observed_serves (h : Machine.Observed (machine P) observe u τ) :
    ∃ S, service.exec {} τ = some S ∧ u.Serves S :=
  h.refines (N := service) (R := State.Serves)
    ⟨rfl, rfl, fun _ => rfl, fun l hp => (by cases hp), fun _ _ => rfl,
      fun g t ht => (by cases ht)⟩
    fun u a v S hr hR hs => step_serves hr hR hs

/-- Every sequence of events the logger shows is one of the service, in every run of any number of
    goroutines and the worker; and the writer of a logger holds the records of the file the service
    has for it. -/
theorem logger_refines (P : Primitives) (h : Machine.Observed (machine P) observe u τ) :
    ∃ S, service.exec {} τ = some S ∧ u.Serves S ∧
      ∀ l w, (u.sh.loggers l).log = some w →
        (u.sh.writers w).records.map (·.source.msg) = S.files l := by
  obtain ⟨S, hS, hserves⟩ := observed_serves h
  refine ⟨S, hS, hserves, fun l w hw => ?_⟩
  rw [(reach_routed h.reach).records l w hw, hserves.files]

/-- What is shown of `fullWait`. -/
def fullWaitEvents : List Event :=
  [.print 0 1 [104], .printed 0 1 [104], .wait 0 1, .dealt 1 [104] true, .waited 0]

theorem fullWait_observed :
    ∃ u, Machine.Observed (machine unitPrimitives) observe u fullWaitEvents :=
  Machine.Observed.init.record fullWait (by decide)

theorem logger_refines_fullWait : ∃ u S, service.exec {} fullWaitEvents = some S ∧
    State.Serves u S ∧ ∀ l w, (u.sh.loggers l).log = some w →
      (u.sh.writers w).records.map (·.source.msg) = S.files l :=
  fullWait_observed.elim fun u h => ⟨u, logger_refines unitPrimitives h⟩

end Runs

/-! ## What the service promises -/

/-- The message the event puts into the log. -/
def Event.accepted : Event → Option (Ptr × Bytes)
  | .printed _ l msg => some (l, msg)
  | _ => none

/-- The message the event deals with. -/
def Event.handled : Event → Option (Ptr × Bytes)
  | .dealt l msg _ => some (l, msg)
  | _ => none

/-- The goroutine whose call the event begins or ends. -/
def Event.caller : Event → Option Gid
  | .print g _ _ | .printed g _ _ | .refused g | .wait g _ | .waited g | .early g
  | .printPanicked g _ | .panicked g => some g
  | .dealt _ _ _ => none

/-- The messages of `l`. -/
def ofLogger (l : Ptr) (ms : List (Ptr × Bytes)) : List (Ptr × Bytes) := ms.filter (·.1 = l)

structure History (τ : List Event) : Prop where
  /-- The messages are dealt with in the order they were accepted, each once. -/
  order : τ.filterMap Event.handled <+: τ.filterMap Event.accepted
  /-- When a `Wait` that has waited returns, and no `print` of its logger has panicked by then,
      every message of the logger that was accepted before its call has been dealt with. -/
  waited : ∀ τ₁ τ₂ τ₃ g l, τ = τ₁ ++ .wait g l :: τ₂ ++ .waited g :: τ₃ →
    (∀ e ∈ τ₂, e.caller ≠ some g) → (∀ e ∈ τ₁ ++ τ₂, e.breaks l = false) →
    ofLogger l (τ₁.filterMap Event.accepted) <+:
      ofLogger l ((τ₁ ++ .wait g l :: τ₂).filterMap Event.handled)

section Promises

variable {S S' : Service} {τ τ' : List Event} {e : Event} {g : Gid} {l : Ptr}

/-- What one event does to the log, to the messages dealt with and to the other calls. -/
theorem Service.step_eq (hle : S.done ≤ S.log.length) (h : S.step e = some S') :
    S'.log = S.log ++ e.accepted.toList ∧
      S'.log.take S'.done = S.log.take S.done ++ e.handled.toList ∧ S'.done ≤ S'.log.length ∧
      ∀ g, e.caller ≠ some g → S'.calls g = S.calls g := by
  have hcall : ∀ {g r}, some g = e.caller → S' = S.call g r → e.accepted = none →
      e.handled = none → S'.log = S.log ++ e.accepted.toList ∧
        S'.log.take S'.done = S.log.take S.done ++ e.handled.toList ∧ S'.done ≤ S'.log.length ∧
        ∀ g, e.caller ≠ some g → S'.calls g = S.calls g := by
    rintro g r hcaller rfl haccepted hhandled
    rw [haccepted, hhandled]
    refine ⟨(List.append_nil _).symm, (List.append_nil _).symm, hle, fun g' hg' => ?_⟩
    have hne : g' ≠ g := by
      rintro rfl
      exact hg' hcaller.symm
    exact Function.update_of_ne hne _ _
  cases e with
  | print g l text =>
    simp only [step, Option.ite_none_right_eq_some] at h
    exact hcall rfl (Option.some.inj h.2).symm rfl rfl
  | printed g l msg =>
    simp only [step] at h
    split at h
    · rw [Option.ite_none_right_eq_some] at h
      obtain ⟨-, h⟩ := h
      cases h
      refine ⟨rfl, ?_, ?_, fun g' hg' => ?_⟩
      · exact (List.take_append_of_le_length hle).trans (List.append_nil _).symm
      · rw [List.length_append]
        exact Nat.le_add_right_of_le hle
      · have hne : g' ≠ g := by
          rintro rfl
          exact hg' rfl
        exact Function.update_of_ne hne _ _
    · cases h
  | refused g | early g | panicked g =>
    simp only [step] at h
    split at h
    · exact hcall rfl (Option.some.inj h).symm rfl rfl
    · cases h
  | wait g l =>
    simp only [step, Option.ite_none_right_eq_some] at h
    exact hcall rfl (Option.some.inj h.2).symm rfl rfl
  | waited g =>
    simp only [step] at h
    split at h
    · rw [Option.ite_none_right_eq_some] at h
      exact hcall rfl (Option.some.inj h.2).symm rfl rfl
    · cases h
  | printPanicked g l =>
    simp only [step] at h
    split at h
    · rw [Option.ite_none_right_eq_some] at h
      cases h.2
      refine ⟨(List.append_nil _).symm, (List.append_nil _).symm, hle, fun g' hg' => ?_⟩
      have hne : g' ≠ g := by
        rintro rfl
        exact hg' rfl
      exact Function.update_of_ne hne _ _
    · cases h
  | dealt l msg written =>
    simp only [step, Option.ite_none_right_eq_some] at h
    obtain ⟨hnext, h⟩ := h
    cases h
    have hlt := (List.getElem?_eq_some_iff.mp hnext).1
    refine ⟨(List.append_nil _).symm, ?_, hlt, fun _ _ => rfl⟩
    show S.log.take (S.done + 1) = _
    rw [List.take_add_one, hnext]
    rfl

/-- What a run of the service has done to them. -/
theorem Service.exec_eq (hle : S.done ≤ S.log.length) (h : service.exec S τ = some S') :
    S'.log = S.log ++ τ.filterMap Event.accepted ∧
      S'.log.take S'.done = S.log.take S.done ++ τ.filterMap Event.handled ∧
      S'.done ≤ S'.log.length ∧
      ∀ g, (∀ e ∈ τ, e.caller ≠ some g) → S'.calls g = S.calls g := by
  induction τ generalizing S with
  | nil =>
    cases h
    exact ⟨(List.append_nil _).symm, (List.append_nil _).symm, hle, fun _ _ => rfl⟩
  | cons e τ ih =>
    obtain ⟨S₁, hstep, hrun⟩ := Option.bind_eq_some_iff.mp h
    obtain ⟨hlog₁, htake₁, hle₁, hcalls₁⟩ := Service.step_eq hle hstep
    obtain ⟨hlog, htake, hle', hcalls⟩ := ih hle₁ hrun
    refine ⟨?_, ?_, hle', fun g hg => ?_⟩
    · rw [hlog, hlog₁, List.append_assoc]
      cases he : e.accepted <;> simp [he]
    · rw [htake, htake₁, List.append_assoc]
      cases he : e.handled <;> simp [he]
    · rw [hcalls g fun e' he' => hg e' (List.mem_cons_of_mem e he'),
        hcalls₁ g (hg e List.mem_cons_self)]

/-- A run in which no `print` of a logger panics breaks it not. -/
theorem Service.exec_broken (h : service.exec S τ = some S') (hb : S.broken l = false)
    (hτ : ∀ e ∈ τ, e.breaks l = false) : S'.broken l = false := by
  induction τ generalizing S with
  | nil =>
    cases h
    exact hb
  | cons e τ ih =>
    obtain ⟨S₁, hstep, hrun⟩ := Option.bind_eq_some_iff.mp h
    refine ih hrun ?_ fun e' he' => hτ e' (List.mem_cons_of_mem e he')
    rw [Service.step_broken hstep, hb, hτ e List.mem_cons_self]
    rfl

/-- When nothing of a logger is left among the first messages, those of it are dealt with. -/
theorem Service.Settled.prefix {mark : Nat} (h : S.Settled l mark) :
    ofLogger l (S.log.take mark) <+: ofLogger l (S.log.take S.done) := by
  rcases Nat.le_total mark S.done with hle | hle
  · exact (List.take_prefix_take_left hle).filter _
  · have hsplit := List.take_append_drop S.done (S.log.take mark)
    rw [List.take_take, Nat.min_eq_left hle] at hsplit
    have hnone : ofLogger l ((S.log.take mark).drop S.done) = [] :=
      List.filter_eq_nil_iff.mpr fun m hm => by simpa using h m hm
    rw [← hsplit, ofLogger, List.filter_append, ← ofLogger, ← ofLogger, hnone, List.append_nil]

/-- Every sequence of events of the service keeps its promises. -/
theorem service_history (h : service.exec {} τ = some S) : History τ := by
  constructor
  · obtain ⟨hlog, htake, -, -⟩ := Service.exec_eq (Nat.le_refl 0) h
    have hprefix := List.take_prefix S.done S.log
    rw [htake, hlog] at hprefix
    simpa using hprefix
  · rintro τ₁ τ₂ τ₃ g l rfl hcaller hbreaks
    rw [List.append_assoc, Machine.exec_append] at h
    obtain ⟨S₁, h₁, h⟩ := Option.bind_eq_some_iff.mp h
    rw [List.cons_append] at h
    obtain ⟨S₂, h₂, h⟩ := Option.bind_eq_some_iff.mp h
    rw [Machine.exec_append] at h
    obtain ⟨S₃, h₃, h⟩ := Option.bind_eq_some_iff.mp h
    obtain ⟨S₄, h₄, -⟩ := Option.bind_eq_some_iff.mp h
    obtain ⟨hlog₁, htake₁, hle₁, -⟩ := Service.exec_eq (Nat.le_refl 0) h₁
    obtain ⟨-, rfl⟩ : S₁.calls g = none ∧ S₁.call g (some (.wait l S₁.log.length)) = S₂ := by
      simpa [service, Service.step] using h₂
    obtain ⟨hlog₃, htake₃, -, hcalls₃⟩ :=
      Service.exec_eq (S := S₁.call g (some (.wait l S₁.log.length))) hle₁ h₃
    -- the call is still open when it returns, with the mark it began with
    have hopen : S₃.calls g = some (.wait l S₁.log.length) := by
      rw [hcalls₃ g hcaller]
      exact Function.update_self g _ S₁.calls
    have hwhole : S₃.broken l = false := by
      have hS₁ := Service.exec_broken (S := {}) h₁ rfl
        fun e he => hbreaks e (List.mem_append_left _ he)
      exact Service.exec_broken (S := S₁.call g (some (.wait l S₁.log.length))) h₃ hS₁
        fun e he => hbreaks e (List.mem_append_right _ he)
    have hsettled : S₃.Settled l S₁.log.length := by
      by_contra hno
      simp [service, Service.step, hopen, hno, hwhole] at h₄
    have hprefix := hsettled.prefix
    have hmark : S₃.log.take S₁.log.length = τ₁.filterMap Event.accepted := by
      rw [hlog₃]
      exact (List.take_left' rfl).trans hlog₁
    have hdealt : S₃.log.take S₃.done =
        (τ₁ ++ .wait g l :: τ₂).filterMap Event.handled := by
      have htake : S₁.log.take S₁.done = τ₁.filterMap Event.handled := htake₁
      rw [List.filterMap_append, ← htake]
      exact htake₃
    rwa [hmark, hdealt] at hprefix

end Promises

/-- In every run of the logger, whatever its goroutines do, the events keep the promises. -/
theorem observed_history (P : Primitives) {u : State} {τ : List Event}
    (h : Machine.Observed (machine P) observe u τ) : History τ := by
  obtain ⟨S, hS, -⟩ := observed_serves h
  exact service_history hS

theorem observed_history_fullWait : History fullWaitEvents :=
  fullWait_observed.elim fun _ h => observed_history unitPrimitives h

end ZipoLogger
