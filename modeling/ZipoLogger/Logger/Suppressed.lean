/-
  What a `LimitedPrintf` call that is left out can rely on.

  The time of a call is stored before its `printf` begins, so the cache knows of attempts, not of
  messages in `tologCh`. A call is left out because of an earlier one with its identifier less
  than its duration before (`suppressed_after_attempt`); the message of that one has been placed
  in the queue, or its `print` has not returned yet, or it was discarded at the closed gate or
  the full queue.
-/
import ZipoLogger.Logger.RateLimit
import ZipoLogger.Logger.Loss
import ZipoLogger.Logger.Registry

namespace ZipoLogger

open Enc

/-! ## What became of a recorded call -/

/-- The `printf` of a recorded call has not returned. -/
inductive LimitRecord.InProgress (s : LimitedState) (r : LimitRecord) : Prop
  /-- it comes next -/
  | waiting {c : LimitedArgs} {seq : Nat} : s.places r.call.1 = .printf c → c.log = r.log →
      s.base.threads[r.call.1]? = some ⟨.idle, seq⟩ → seq + 1 = r.call.2 → InProgress s r
  | printing {msg : Bytes} {ph : PrintPhase} :
      s.base.threads[r.call.1]? = some ⟨.print r.log msg ph, r.call.2⟩ → InProgress s r

/-- The `printf` of a recorded call has returned, having found the gate and the queue as given. -/
def LimitRecord.ReturnedWith (s : LimitedState) (r : LimitRecord) (gateOpen slotFree : Bool) :
    Prop :=
  ∃ text, Returned.print r.call r.log text gateOpen slotFree ∈ s.base.sh.returned

/-- A WaitGroup operation of a `print` of the logger has panicked. -/
def LimitRecord.Panicked (s : LimitedState) (r : LimitRecord) : Prop :=
  .printAdd r.log ∈ s.base.sh.panics ∨ .printDone r.log ∈ s.base.sh.panics

/-- What can have become of a recorded call. -/
inductive LimitRecord.Outcome (s : LimitedState) (r : LimitRecord) : Prop
  | inProgress : r.InProgress s → Outcome s r
  | returned {gateOpen slotFree : Bool} : r.ReturnedWith s gateOpen slotFree → Outcome s r
  | panicked : r.Panicked s → Outcome s r
  /-- a logger without a file name does not print -/
  | nop : r.log < s.base.sh.nlog → (s.base.sh.loggers r.log).filename = [] → Outcome s r

variable {P : Primitives}

/-- A no-op logger has no file name. -/
theorem Shared.Wf.filename_of_isNop {s : Shared} {l : Ptr} (hs : s.Wf) (h : s.isNop l = true) :
    (s.loggers l).filename = [] := by
  by_cases hl : l = emptyLogger
  · rw [hl]
    exact hs.empty
  · have hnop : ((s.loggers l).filename = [] ∧ (s.loggers l).log = none) ∧
        (s.loggers l).zlog = none := by
      simpa [Shared.isNop, hl] using h
    exact hnop.1.1

/-- A step inside a `print` goes on with it, returns from it, or panics. -/
theorem GoStep.print_next {g : Gid} {seq : Nat} {s s' : Shared} {pc' : Pc} {i : Input} {l : Ptr}
    {msg : Bytes} {ph : PrintPhase} (h : GoStep g seq s (.print l msg ph) i pc' s') :
    (∃ msg' ph', pc' = .print l msg' ph' ∧ ∀ c, i ≠ .call c) ∨
    (∃ text gateOpen slotFree, .print (g, seq) l text gateOpen slotFree ∈ s'.returned) ∨
    .printAdd l ∈ s'.panics ∨ .printDone l ∈ s'.panics := by
  cases h with
  | gateClosed => exact .inr (.inl ⟨msg, false, s.slotFree, by simp⟩)
  | sent => exact .inr (.inl ⟨msg, true, true, by simp⟩)
  | dropped | released => exact .inr (.inl ⟨msg, true, false, by simp⟩)
  | gateOpen | sourcePath | depthLock | startRead | fallsBack | headed | added | addWakes | full
  | dropWakes | checked | readded =>
    exact .inl ⟨_, _, rfl, by simp⟩
  | addPanics | dropPanics => exact .inr (.inr (by simp))
  | @checkPanics _ _ added w => cases added <;> exact .inr (.inr (by simp))

/-- Histories and file names stay across a step of the package. -/
theorem LimitRecord.Outcome.ofExtends {s s' : LimitedState} {r : LimitRecord} {a : Action}
    (h : r.Outcome s) (hs : step P s.base a = some s'.base)
    (hprog : r.InProgress s → r.Outcome s') : r.Outcome s' := by
  have hrun : (machine P).Run s.base s'.base := Machine.RunIf.tail .refl trivial hs
  have hext := run_extends hrun
  rcases h with h | h | h | ⟨hl, hname⟩
  · exact hprog h
  · obtain ⟨text, h⟩ := h
    exact .returned ⟨text, hext.returned.subset h⟩
  · exact .panicked (h.imp (fun h => hext.panics.subset h) fun h => hext.panics.subset h)
  · exact .nop (hl.trans_le hext.nlog) ((run_filename hrun hl).trans hname)

/-- A move that keeps the place of the call, if its `printf` comes next. -/
theorem LimitRecord.Outcome.congr {s s' : LimitedState} {r : LimitRecord} (h : r.Outcome s)
    (hb : s'.base = s.base)
    (hp : ∀ c, s.places r.call.1 = .printf c → s'.places r.call.1 = .printf c) :
    r.Outcome s' := by
  rcases h with (⟨hp', hl, ht, hseq⟩ | ht) | h | h | ⟨hl, hname⟩
  · exact .inProgress (.waiting (hp _ hp') hl (hb ▸ ht) hseq)
  · exact .inProgress (.printing (hb ▸ ht))
  · obtain ⟨text, h⟩ := h
    exact .returned ⟨text, hb ▸ h⟩
  · refine .panicked ?_
    rw [LimitRecord.Panicked, hb]
    exact h
  · exact .nop (hb ▸ hl) (hb ▸ hname)

/-! ## The records account for the cache -/

/-- The goroutines inside `LimitedPrintf` are idle otherwise; every stored time, and every time a
    call has read, is that of a recorded call; and the outcomes of these are known. -/
structure LimitedState.Recorded (s : LimitedState) : Prop where
  parked : ∀ g, s.places g ≠ .idle → ∃ seq, s.base.threads[g]? = some ⟨.idle, seq⟩
  stored : ∀ l p e, (s.limitedPrint l).get? p = some e →
    ∃ r ∈ s.records, r.key = (l, p) ∧ r.time = e.value
  known : ∀ g c v mark, s.places g = .test c (some v) mark →
    ∃ r ∈ s.records, r.key = c.key ∧ r.time = v
  outcome : ∀ r ∈ s.records, r.Outcome s

/-- A step of the package keeps the account. -/
theorem LimitedState.Recorded.base {s : LimitedState} {a : Action} {b : State} (hs : s.Recorded)
    (hfree : s.free a = true) (hb : step P s.base a = some b) :
    LimitedState.Recorded { s with base := b } := by
  have hidle : ∀ {g seq}, s.places g ≠ .idle → s.base.threads[g]? = some ⟨.idle, seq⟩ →
      b.threads[g]? = some ⟨.idle, seq⟩ := by
    intro g seq hp ht
    rcases step_thread hb ht with ⟨i, pc, rfl, -⟩ | ⟨-, ht'⟩
    · exact absurd (of_decide_eq_true hfree) hp
    · exact ht'
  refine ⟨fun g hp => ?_, hs.stored, hs.known, fun r hr => ?_⟩
  · obtain ⟨seq, ht⟩ := hs.parked g hp
    exact ⟨seq, hidle hp ht⟩
  · refine (hs.outcome r hr).ofExtends (P := P) hb fun hprog => ?_
    rcases hprog with ⟨hp, hl, ht, hseq⟩ | ht
    · refine .inProgress (.waiting hp hl (hidle ?_ ht) hseq)
      rw [hp]
      exact LimitedPc.noConfusion
    · rcases step_thread hb ht with ⟨i, pc, rfl, hstep, ht'⟩ | ⟨-, ht'⟩
      · rcases hstep.print_next with ⟨msg', ph', rfl, hi⟩ | ⟨text, go, sf, hret⟩ | hpan
        · cases i with
          | call c => exact absurd rfl (hi c)
          | _ => exact .inProgress (.printing ht')
        · exact .returned ⟨text, hret⟩
        · exact .panicked hpan
      · exact .inProgress (.printing ht')

/-- A move inside `LimitedPrintf` that adds nothing and does not start a `printf`. -/
theorem LimitedState.Recorded.move {s s' : LimitedState} {g : Gid} {pc₀ pc : LimitedPc}
    (hs : s.Recorded) (hb : s'.base = s.base) (hr : s'.records = s.records)
    (hpl : ∀ g', s'.places g' = if g' = g then pc else s.places g')
    (hp₀ : s.places g = pc₀) (hnot : ∀ c, pc₀ ≠ .printf c)
    (hpark : pc₀ = .idle → ∃ seq, s.base.threads[g]? = some ⟨.idle, seq⟩)
    (hget : ∀ l p, (s'.limitedPrint l).get? p = (s.limitedPrint l).get? p)
    (hknown : ∀ c v mark, pc = .test c (some v) mark →
      ∃ r ∈ s.records, r.key = c.key ∧ r.time = v) : s'.Recorded := by
  refine ⟨fun g' hp => ?_, fun l p e he => ?_, fun g' c v mark hp => ?_, fun r hmem => ?_⟩
  · rw [hpl] at hp
    rw [hb]
    split at hp
    · rename_i hg
      rw [hg]
      by_cases h0 : pc₀ = .idle
      · exact hpark h0
      · exact hs.parked g (hp₀ ▸ h0)
    · exact hs.parked g' hp
  · rw [hr]
    exact hs.stored l p e (hget l p ▸ he)
  · rw [hpl] at hp
    rw [hr]
    split at hp
    · exact hknown c v mark hp
    · exact hs.known g' c v mark hp
  · rw [hr] at hmem
    refine (hs.outcome r hmem).congr hb fun c hp => ?_
    rw [hpl, if_neg ?_]
    · exact hp
    · intro hg
      exact hnot c (hp₀ ▸ hg ▸ hp)

/-- The `Add` of a call whose `printf` comes next. -/
theorem LimitedState.Recorded.record {s : LimitedState} {g : Gid} {c : LimitedArgs} {t : Int}
    {mark : Nat} {thread : Thread} {r₀ : LimitRecord} (hs : s.Recorded)
    (hp : s.places g = .add c t mark) (ht : s.base.threads[g]? = some thread)
    (hr₀ : r₀ = ⟨c.log, c.printid, t, (g, thread.seq + 1)⟩) :
    LimitedState.Recorded
      ((s.record (limitAdd (s.limitedPrint c.log) s.now c.printid t) r₀).moveTo g
        (.printf c)) := by
  have hplaces : ∀ g', ((s.record (limitAdd (s.limitedPrint c.log) s.now c.printid t)
      r₀).moveTo g (.printf c)).places g' = if g' = g then .printf c else s.places g' :=
    fun g' => LimitedState.moveTo_places _ g g' _
  have hidle : ∃ seq, s.base.threads[g]? = some ⟨.idle, seq⟩ := by
    refine hs.parked g ?_
    rw [hp]
    exact LimitedPc.noConfusion
  refine ⟨fun g' hp' => ?_, fun l p e he => ?_, fun g' c' v mark' hp' => ?_, fun r hr => ?_⟩
  · rw [hplaces] at hp'
    split at hp'
    · rename_i hg
      rw [hg]
      exact hidle
    · exact hs.parked g' hp'
  · -- what the cache holds is the new entry or an old one
    rw [LimitedState.moveTo_limitedPrint, LimitedState.record_limitedPrint] at he
    have hold : (s.limitedPrint l).get? p = some e → ∃ r ∈ s.records ++ [r₀],
        r.key = (l, p) ∧ r.time = e.value := by
      intro he
      obtain ⟨r, hr, hk⟩ := hs.stored l p e he
      exact ⟨r, List.mem_append_left _ hr, hk⟩
    split at he
    · rename_i hl
      subst hr₀
      obtain rfl : l = c.log := hl
      rcases Lru.get?_add he with ⟨rfl, rfl⟩ | ⟨-, he⟩
      · exact ⟨_, List.mem_append_right _ (List.mem_singleton_self _), rfl, rfl⟩
      · exact hold he
    · exact hold he
  · rw [hplaces] at hp'
    split at hp'
    · cases hp'
    · obtain ⟨r, hr, hk⟩ := hs.known g' c' v mark' hp'
      exact ⟨r, List.mem_append_left _ hr, hk⟩
  · rcases List.mem_append.mp hr with hr | hr
    · refine (hs.outcome r hr).congr rfl fun c' hp' => ?_
      rw [hplaces, if_neg ?_]
      · exact hp'
      · intro hg
        rw [hg, hp] at hp'
        cases hp'
    · rw [List.mem_singleton.mp hr]
      subst hr₀
      obtain ⟨seq, hidle⟩ := hidle
      cases Option.some.inj (hidle.symm.trans ht)
      refine .inProgress (.waiting ?_ rfl hidle rfl)
      rw [hplaces, if_pos rfl]

/-- The call of the recorded `printf`: it prints, or the logger has no file name. -/
theorem LimitRecord.begins {s : State} {s' : LimitedState} {r : LimitRecord} {text : Bytes}
    {seq : Nat} (hu : (machine P).Reach s) (ht : s.threads[r.call.1]? = some ⟨.idle, seq⟩)
    (hseq : seq + 1 = r.call.2)
    (hb : step P s (.go r.call.1 (.call (.print r.log text))) = some s'.base) : r.Outcome s' := by
  obtain ⟨t, pc, ht', hstep, hnew⟩ := step_go hb
  cases Option.some.inj (ht'.symm.trans ht)
  generalize hsh : s'.base.sh = sh at hstep
  cases hstep with
  | callNop hlt hnop =>
    refine .nop ?_ ?_
    · rw [hsh]
      exact hlt
    · rw [hsh]
      exact (reach_wf hu).shared.filename_of_isNop hnop
  | callPrint hlt _ =>
    have hprint : s'.base.threads[r.call.1]? = some ⟨.print r.log text .gate, r.call.2⟩ := by
      rw [← hseq]
      exact hnew
    exact .inProgress (.printing hprint)

/-- The call of `printf`. -/
theorem LimitedState.Recorded.printf {s : LimitedState} {g : Gid} {c : LimitedArgs} {b : State}
    (hu : (machine P).Reach s.base) (hs : s.Recorded) (hp : s.places g = .printf c)
    (hb : step P s.base (.go g (.call (.print c.log c.text))) = some b) :
    LimitedState.Recorded
      ({ s with base := b, printfs := s.printfs ++ [(c, s.now)] }.moveTo g .idle) := by
  have hplaces : ∀ g', (({ s with base := b, printfs := s.printfs ++ [(c, s.now)] } :
      LimitedState).moveTo g .idle).places g' = if g' = g then .idle else s.places g' :=
    fun g' => LimitedState.moveTo_places _ g g' _
  have hother : ∀ {g' t}, g' ≠ g → s.base.threads[g']? = some t → b.threads[g']? = some t := by
    intro g' t hne ht
    rcases step_thread hb ht with ⟨i, pc, hx, -⟩ | ⟨-, ht'⟩
    · cases hx
      exact absurd rfl hne
    · exact ht'
  refine ⟨fun g' hp' => ?_, hs.stored, fun g' c' v mark' hp' => ?_, fun r hr => ?_⟩
  · rw [hplaces] at hp'
    split at hp'
    · exact absurd rfl hp'
    · obtain ⟨seq, ht⟩ := hs.parked g' hp'
      exact ⟨seq, hother ‹_› ht⟩
  · rw [hplaces] at hp'
    split at hp'
    · cases hp'
    · exact hs.known g' c' v mark' hp'
  · refine (hs.outcome r hr).ofExtends (P := P) hb fun hprog => ?_
    rcases hprog with ⟨hp', hl, ht, hseq⟩ | ht
    · by_cases hg : r.call.1 = g
      · subst hg
        cases hp.symm.trans hp'
        rw [hl] at hb
        exact LimitRecord.begins hu ht hseq hb
      · refine .inProgress (.waiting ?_ hl (hother hg ht) hseq)
        rw [hplaces, if_neg hg]
        exact hp'
    · refine .inProgress (.printing (hother ?_ ht))
      intro hg
      obtain ⟨seq, hidle⟩ := hs.parked g (by rw [hp]; exact LimitedPc.noConfusion)
      rw [hg, hidle] at ht
      cases Option.some.inj ht

/-- One step keeps the account. -/
theorem LimitedStep.recorded {u v : LimitedState} {a : LimitedAction} (h : LimitedStep P u a v)
    (hu : (machine P).Reach u.base) (hs : u.Recorded) : v.Recorded := by
  cases h with
  | base hfree hb => exact hs.base hfree hb
  | tick | callNil _ =>
    exact ⟨hs.parked, hs.stored, hs.known, fun r hr => (hs.outcome r hr).congr rfl fun c h => h⟩
  | @call g c seq ht hp _ _ =>
    exact hs.move rfl rfl (LimitedState.moveTo_places _ g · _) hp (fun _ => LimitedPc.noConfusion)
      (fun _ => ⟨seq, ht⟩) (fun _ _ => rfl) (fun _ _ _ => LimitedPc.noConfusion)
  | @get g c hp =>
    refine hs.move rfl rfl (LimitedState.moveTo_places _ g · _) hp (fun _ => LimitedPc.noConfusion)
      LimitedPc.noConfusion (fun l p => ?_) (fun c' v mark h => ?_)
    · rw [LimitedState.moveTo_limitedPrint, LimitedState.setCache_limitedPrint]
      split
      · rename_i hl
        rw [get?_limitGet, hl]
      · rfl
    · injection h with hc hold
      obtain ⟨e, he, rfl⟩ := limitGet_some hold
      obtain ⟨r, hr, hk, ht⟩ := hs.stored c.log c.printid e he
      exact ⟨r, hr, hc ▸ hk, ht⟩
  | @suppressed g c old mark hp _ | @passed g c old mark hp _ | @stamp g c mark hp =>
    exact hs.move rfl rfl (LimitedState.moveTo_places _ g · _) hp (fun _ => LimitedPc.noConfusion)
      LimitedPc.noConfusion (fun _ _ => rfl) (fun _ _ _ => LimitedPc.noConfusion)
  | @add g c t mark thread hp ht => exact hs.record hp ht rfl
  | @printf g c b hp hb => exact hs.printf hu hp hb

/-- In every run the records account for the caches. -/
theorem reach_recorded {u : LimitedState} (h : (limitedMachine P).Reach u) : u.Recorded := by
  have hinv : (machine P).Reach u.base ∧ u.Recorded := by
    refine Machine.Reach.invariant
      (P := fun u => (machine P).Reach u.base ∧ u.Recorded) h ?_ ?_
    · refine ⟨.refl, fun g hp => absurd rfl hp, fun l p e he => ?_, fun g c v mark hp => ?_,
        fun r hr => (List.not_mem_nil hr).elim⟩
      · cases he
      · cases hp
    · intro u a v _ hu hs
      have hstep := limitedStep_cases hs
      exact ⟨hstep.base_reach hu.1, hstep.recorded hu.1 hu.2⟩
  exact hinv.2

/-! ## The call that is left out -/

/-- When a call is left out, an earlier one with its identifier has stored its time less than the
    duration before and gone on to `printf`. The message of that one has been put into `tologCh`,
    or its `printf` has not returned, or it was discarded at the closed gate or the full queue, or
    a WaitGroup operation of a `print` of the logger has panicked, or the logger has no file
    name. -/
theorem suppressed_after_attempt {u : LimitedState} {g : Gid} {c : LimitedArgs}
    {old : Option Int} {mark : Nat} (h : (limitedMachine P).Reach u)
    (hp : u.places g = .test c old mark) (hsoon : tooSoon old u.now c.duration = true) :
    ∃ r ∈ u.records, r.key = c.key ∧ u.now - r.time < c.duration ∧
      ((∃ text, u.base.sh.sentBy r.call = [⟨text, r.log, r.call⟩]) ∨ r.InProgress u ∨
        (∃ gateOpen slotFree, (gateOpen && slotFree) = false ∧
          r.ReturnedWith u gateOpen slotFree) ∨
        r.Panicked u ∨ (u.base.sh.loggers r.log).filename = []) := by
  have hs := reach_recorded h
  rcases old with _ | v
  · cases hsoon
  · obtain ⟨r, hr, hk, rfl⟩ := hs.known g c v mark hp
    refine ⟨r, hr, hk, by simpa [tooSoon] using hsoon, ?_⟩
    rcases hs.outcome r hr with h' | @⟨gateOpen, slotFree, h'⟩ | h' | ⟨-, hname⟩
    · exact .inr (.inl h')
    · obtain ⟨text, hret⟩ := h'
      have hsent := (reach_booked (limited_base_reach h) _ hret).2
      rcases hflags : gateOpen && slotFree with _ | _
      · exact .inr (.inr (.inl ⟨gateOpen, slotFree, hflags, text, hret⟩))
      · rw [hflags] at hsent
        exact .inl ⟨text, hsent⟩
    · exact .inr (.inr (.inr (.inl h')))
    · exact .inr (.inr (.inr (.inr hname)))

/-- A message goes through; the next call is left out. -/
def deliveredOnce : List LimitedAction :=
  twoCallers ++ wholeCall 0 onceASecond ++
    [.base (.go 0 .tau), .base (.go 0 (.stamp [])), .base (.go 0 .tau)] ++
    [.call 1 onceASecond, .step 1]

theorem deliveredOnce_runs :
    ((limitedMachine unitPrimitives).exec {} deliveredOnce).isSome := by decide +kernel

theorem suppressed_after_attempt_deliveredOnce :
    let u := ((limitedMachine unitPrimitives).exec {} deliveredOnce).get deliveredOnce_runs
    u.base.sh.sentBy (0, 2) = [⟨[104], 1, (0, 2)⟩] ∧ ∃ r ∈ u.records, r.key = (1, [105]) ∧
      u.now - r.time < second ∧
      ((∃ text, u.base.sh.sentBy r.call = [⟨text, r.log, r.call⟩]) ∨ r.InProgress u ∨
        (∃ gateOpen slotFree, (gateOpen && slotFree) = false ∧
          r.ReturnedWith u gateOpen slotFree) ∨
        r.Panicked u ∨ (u.base.sh.loggers r.log).filename = []) := by
  intro u
  have hp : u.places 1 = .test onceASecond (some 0) 1 := by decide +kernel
  refine ⟨by decide +kernel, ?_⟩
  exact suppressed_after_attempt (Machine.exec_reach (Option.some_get deliveredOnce_runs).symm) hp
    (by decide +kernel)

/-- Goroutine 0 waits for its message; a message of goroutine 1 is discarded at the gate, and the
    next call of goroutine 1 is left out. -/
def discardedOnce : List LimitedAction :=
  twoCallers ++ ((printCall 0 1 [104] ++ .go 0 (.call (.wait 1)) :: steps 0 3).map .base) ++
    wholeCall 1 onceASecond ++ [.base (.go 1 .tau), .call 1 onceASecond, .step 1]

theorem discardedOnce_runs :
    ((limitedMachine unitPrimitives).exec {} discardedOnce).isSome := by decide +kernel

/-- A discarded message causes a later call to be left out. -/
theorem suppressed_after_discard : ¬ ∀ (u : LimitedState) (g : Gid) (c : LimitedArgs)
    (old : Option Int) (mark : Nat), (limitedMachine unitPrimitives).Reach u →
    (u.base.sh.loggers c.log).filename ≠ [] → u.places g = .test c old mark →
    tooSoon old u.now c.duration = true →
    ∃ r ∈ u.records, r.key = c.key ∧ u.now - r.time < c.duration ∧
      u.base.sh.sentBy r.call ≠ [] := by
  intro h
  have hr := h _ 1 onceASecond (some 0) 1
    (Machine.exec_reach (Option.some_get discardedOnce_runs).symm) (by decide +kernel)
    (by decide +kernel) (by decide +kernel)
  exact absurd hr (by decide +kernel)

end ZipoLogger
