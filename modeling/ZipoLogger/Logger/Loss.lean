/-
  What becomes of a message between `print` and `tologCh`.

  A `print` loads `waitStarted` once and makes its select once. `PrintFate` lists what a run can
  make of the call: still at the gate or behind it, sent, stopped at a closed gate, discarded at
  a full queue, ended by a panic of `logTasks.Add(1)`. Only the second puts a message into
  `tologCh`, and no more than one (`print_fate`). The flag is found set only while a `Wait` is in
  progress or after one that panicked in `logTasks.Wait` (`gateHeld_iff`).
-/
import ZipoLogger.Logger.Waiting
import ZipoLogger.Lib.Trace

namespace ZipoLogger

open Enc

/-- The messages a call put into `tologCh`. -/
def Shared.sentBy (s : Shared) (call : Gid × Nat) : List LoggerMessage :=
  s.sent.filter (·.call = call)

/-- A returned `print` has sent what its flags say. -/
def Returned.Booked (u : State) : Returned → Prop
  | .print call l text gateOpen slotFree => u.Past call ∧
      u.sh.sentBy call = if gateOpen && slotFree then [⟨text, l, call⟩] else []
  | _ => True

variable {P : Primitives}

theorem sentBy_append {s s' : Shared} {call : Gid × Nat} {m : LoggerMessage}
    (h : s'.sent = s.sent ++ [m]) :
    s'.sentBy call = s.sentBy call ++ if m.call = call then [m] else [] := by
  rw [Shared.sentBy, h, List.filter_append]
  by_cases hm : m.call = call <;> simp [Shared.sentBy, hm]

/-- A goroutine inside a `print` has sent nothing in this call. -/
theorem sentBy_current {u : State} {g : Gid} {t : Thread} (h : (machine P).Reach u)
    (ht : u.threads[g]? = some t) (hpc : t.pc.inPrint = true) : u.sh.sentBy (g, t.seq) = [] := by
  rw [Shared.sentBy, List.filter_eq_nil_iff]
  intro m hm heq
  exact State.Past.not_current ht hpc (of_decide_eq_true heq ▸ (reach_sequenced h).past m hm)

/-- What a `print` has sent in the step in which it returns. -/
theorem GoStep.books {u : State} {g : Gid} {t : Thread} {i : Input} {pc : Pc} {sh : Shared}
    {r : Returned} (h : (machine P).Reach u) (ht : u.threads[g]? = some t)
    (hstep : GoStep g t.seq u.sh t.pc i pc sh) (hret : Returns g t.seq u.sh t.pc r)
    (hr : sh.returned = u.sh.returned ++ [r]) :
    r.Booked { u with sh, threads := u.threads.set g { pc, seq := t.nextSeq i } } := by
  have hleave := State.Past.leave ht hstep
  have hnone := sentBy_current h ht
  obtain ⟨pc₀, seq⟩ := t
  cases hret with
  | @gated l msg =>
    cases hstep with
    | gateClosed => exact ⟨hleave rfl, hnone rfl⟩
    | gateOpen => simp at hr
  | @sent l msg =>
    cases hstep with
    | sent =>
      refine ⟨hleave rfl, ?_⟩
      have hs : (((u.sh.echo l msg).enqueue ⟨msg, l, (g, seq)⟩).ret
          (.print (g, seq) l msg true true)).sent = u.sh.sent ++ [⟨msg, l, (g, seq)⟩] := by
        simp [Shared.sent, Shared.enqueue]
      rw [sentBy_append hs, hnone rfl]
      simp
    | full => simp at hr
  | @dropped l msg =>
    cases hstep with
    | dropped => exact ⟨hleave rfl, hnone rfl⟩
    | dropWakes | dropPanics => simp at hr
  | released =>
    cases hstep with
    | released => exact ⟨hleave rfl, hnone rfl⟩
  | _ => trivial

/-- The goroutine of the call stands at `pc` in it. -/
def State.Stands (u : State) (call : Gid × Nat) (pc : Pc) : Prop :=
  u.threads[call.1]? = some ⟨pc, call.2⟩

instance (u : State) (call : Gid × Nat) (pc : Pc) : Decidable (u.Stands call pc) :=
  inferInstanceAs (Decidable (_ = _))

/-- A step leaves what a call has sent as it is, or it is the send of the call. -/
theorem sentBy_step {u v : State} {x : Action} {call : Gid × Nat} (hs : step P u x = some v) :
    v.sh.sentBy call = u.sh.sentBy call ∨
    ∃ i l msg, x = .go call.1 i ∧ u.Stands call (.print l msg .send) := by
  have hsame : v.sh.accepted = u.sh.accepted → v.sh.sentBy call = u.sh.sentBy call := fun ha =>
    congrArg (List.filter _) (congrArg (List.map Accepted.message) ha)
  rcases step_cases hs with ⟨-, rfl⟩ | ⟨g, i, t, pc, sh, rfl, ht, hstep, rfl⟩ |
    ⟨i, wpc, sh, -, hstep, rfl⟩
  · exact .inl rfl
  · rcases hstep.queue with ⟨ha, -⟩ | ⟨l, msg, hpc, -, -, -, ha⟩
    · exact .inl (hsame ha)
    · have hsent : sh.sent = u.sh.sent ++ [⟨msg, l, (g, t.seq)⟩] := by simp [Shared.sent, ha]
      by_cases hc : (g, t.seq) = call
      · subst hc
        refine .inr ⟨i, l, msg, rfl, ?_⟩
        rw [State.Stands, ht, ← hpc]
      · left
        rw [sentBy_append hsent, if_neg hc, List.append_nil]
  · exact .inl (hsame hstep.queue.1)

/-- A past call stays past, and nothing is sent in it any more. -/
theorem State.Past.step {u v : State} {x : Action} {call : Gid × Nat} (h : u.Past call)
    (hs : step P u x = some v) : v.Past call ∧ v.sh.sentBy call = u.sh.sentBy call := by
  constructor
  · rcases step_cases hs with ⟨-, rfl⟩ | ⟨g, i, t, pc, sh, -, ht, hstep, rfl⟩ |
      ⟨i, wpc, sh, -, -, rfl⟩
    · exact h.spawn
    · exact h.go ht hstep
    · exact h
  · rcases sentBy_step hs with hsame | ⟨i, l, msg, -, hsend⟩
    · exact hsame
    · exact absurd h (State.Past.not_current hsend rfl)

/-- A booked call stays booked. -/
theorem Returned.Booked.step {u v : State} {x : Action} {r : Returned} (hb : r.Booked u)
    (hs : step P u x = some v) : r.Booked v := by
  cases r with
  | print call l text gateOpen slotFree =>
    obtain ⟨hpast, hsame⟩ := hb.1.step hs
    exact ⟨hpast, hsame.trans hb.2⟩
  | _ => trivial

/-- In every run the returned `print`s are booked. -/
theorem reach_booked {u : State} (h : (machine P).Reach u) :
    ∀ r ∈ u.sh.returned, r.Booked u := by
  refine h.invariant (P := fun u => ∀ r ∈ u.sh.returned, r.Booked u) (by simp [machine]) ?_
  intro u x v hreach hu hs r hr
  have hold : r ∈ u.sh.returned → r.Booked v := fun hr => (hu r hr).step hs
  rcases step_cases hs with ⟨-, rfl⟩ | ⟨g, i, t, pc, sh, -, ht, hstep, rfl⟩ |
    ⟨i, wpc, sh, -, hstep, rfl⟩
  · exact hold hr
  · obtain hsame | ⟨r', hnew, hret⟩ := hstep.returned
    · exact hold (hsame ▸ hr)
    · have hr : r ∈ u.sh.returned ++ [r'] := hnew ▸ hr
      obtain hr | hr := List.mem_append.mp hr
      · exact hold hr
      · cases List.mem_singleton.mp hr
        exact hstep.books hreach ht hret hnew
  · exact hold (hstep.returned ▸ hr)

/-! ## The steps of a print -/

/-- Behind the gate and not through with the select. -/
def PrintPhase.beforeSelect : PrintPhase → Bool
  | .add _ | .depth _ _ | .wake true _ | .reset true _ | .send => true
  | _ => false

/-- The select has found the queue full; the `Done` follows. -/
def PrintPhase.afterFull : PrintPhase → Bool
  | .done | .wake false _ | .reset false _ => true
  | _ => false

/-- At the gate. -/
def Pc.atGate : Pc → Bool
  | .print _ _ .gate => true
  | _ => false

/-- At the gate, or behind it and not through with the select. -/
def Pc.selecting : Pc → Bool
  | .print _ _ .gate => true
  | .print _ _ ph => ph.beforeSelect
  | _ => false

section Steps

variable {g : Gid} {seq : Nat} {s s' : Shared} {l : Ptr} {text msg : Bytes} {ph : PrintPhase}
  {pc pc' : Pc} {i : Input}

/-- What the load of `waitStarted` decides. -/
theorem GoStep.load (h : GoStep g seq s (.print l text .gate) i pc' s') :
    s'.sent = s.sent ∧ ((0 < (s.loggers l).waitStarted ∧ pc' = .idle) ∨
      ((s.loggers l).waitStarted = 0 ∧ pc' = .print l text (.add false))) := by
  cases h with
  | gateClosed hw => exact ⟨rfl, .inl ⟨hw, rfl⟩⟩
  | gateOpen hw => exact ⟨rfl, .inr ⟨hw, rfl⟩⟩

/-- Behind the gate a `print` puts text before the message, sends it, finds the queue full, or its
    `Add(1)` panics. -/
theorem GoStep.beforeSelect (h : GoStep g seq s (.print l msg ph) i pc' s')
    (hph : ph.beforeSelect = true) :
    (ph = .send ∧ s.slotFree = true ∧ pc' = .idle ∧
      s'.tologCh = s.tologCh ++ [⟨msg, l, (g, seq)⟩] ∧
      s'.sent = s.sent ++ [⟨msg, l, (g, seq)⟩] ∧
      .print (g, seq) l msg true true ∈ s'.returned) ∨
    s'.sent = s.sent ∧
      ((∃ msg' ph', pc' = .print l msg' ph' ∧ ph'.beforeSelect = true ∧ msg <:+ msg') ∨
      (ph = .send ∧ s.slotFree = false ∧ pc' = .print l msg .done) ∨
      (pc' = .idle ∧ s'.panics = s.panics ++ [.printAdd l])) := by
  cases h with
  | gateClosed | gateOpen | dropped | dropWakes | dropPanics | released => cases hph
  | sourcePath | depthLock | startRead | fallsBack | readded =>
    exact .inr ⟨rfl, .inl ⟨_, _, rfl, rfl, List.suffix_rfl⟩⟩
  | headed => exact .inr ⟨rfl, .inl ⟨_, _, rfl, rfl, List.suffix_append _ _⟩⟩
  | added | addWakes => exact .inr ⟨rfl, .inl ⟨_, _, rfl, rfl, Logger.suffix_stamped _ _ _⟩⟩
  | addPanics => exact .inr ⟨rfl, .inr (.inr ⟨rfl, rfl⟩)⟩
  | sent hslot =>
    refine .inl ⟨rfl, hslot, rfl, by simp [Shared.enqueue], ?_, by simp [Shared.ret]⟩
    simp [Shared.sent, Shared.enqueue]
  | full hslot => exact .inr ⟨by simp [Shared.sent], .inr (.inl ⟨rfl, hslot, rfl⟩)⟩
  | @checked _ _ added =>
    cases added with
    | false => cases hph
    | true => exact .inr ⟨rfl, .inl ⟨_, _, rfl, rfl, List.suffix_rfl⟩⟩
  | @checkPanics _ _ added =>
    cases added with
    | false => cases hph
    | true => exact .inr ⟨rfl, .inr (.inr ⟨rfl, rfl⟩)⟩

theorem GoStep.afterFull (h : GoStep g seq s (.print l msg ph) i pc' s')
    (hph : ph.afterFull = true) :
    s'.sent = s.sent ∧ (pc' = .idle ∨ ∃ ph', pc' = .print l msg ph' ∧ ph'.afterFull = true) := by
  cases h with
  | dropped | dropPanics | checkPanics | released => exact ⟨rfl, .inl rfl⟩
  | dropWakes => exact ⟨rfl, .inr ⟨_, rfl, rfl⟩⟩
  | @checked _ _ added =>
    cases added with
    | true => cases hph
    | false => exact ⟨rfl, .inr ⟨_, rfl, rfl⟩⟩
  | _ => cases hph

/-- Inside a `print` no call begins. -/
theorem GoStep.seq_print {t : Thread} (h : GoStep g t.seq s t.pc i pc' s')
    (hpc : t.pc.inPrint = true) : t.nextSeq i = t.seq := by
  obtain ⟨pc, seq⟩ := t
  cases h with
  | callNop | callPrint | callWait | callClose | callWaitAll | callNew | callSet | callSetGlobal
  | callStdout | callDepth => cases hpc
  | _ => rfl

/-- Only a call leads to the gate. -/
theorem GoStep.atGate (h : GoStep g seq s pc i pc' s') (hpc : pc'.atGate = true) :
    ∃ c, i = .call c := by
  cases h with
  | callPrint => exact ⟨_, rfl⟩
  | @waitEarly _ _ k | @waitClear _ _ k => cases k <;> cases hpc
  | waitPanics =>
    rw [unwindWait_fst] at hpc
    cases hpc
  | _ => cases hpc

/-- Behind its select a `print` does not come to another one. -/
theorem GoStep.selecting (h : GoStep g seq s pc i pc' s') (hpc : pc'.selecting = true) :
    pc.selecting = true ∨ ∃ c, i = .call c := by
  cases h with
  | callPrint => exact .inr ⟨_, rfl⟩
  | gateOpen | sourcePath | depthLock | startRead | fallsBack | headed | added | addWakes
  | readded => exact .inl rfl
  | @checked _ _ added => cases added <;> exact .inl hpc
  | @waitEarly _ _ k | @waitClear _ _ k => cases k <;> cases hpc
  | waitPanics =>
    rw [unwindWait_fst] at hpc
    cases hpc
  | _ => cases hpc

end Steps

/-! ## The fate of a call -/

/-- A `Wait` of `l` (in `Wait`, `Flush`, `Close`, the package-level `Wait` or an eviction) is
    between setting and clearing the flag, or one has panicked in `logTasks.Wait`. -/
def State.GateHeld (u : State) (l : Ptr) : Prop :=
  (∃ t ∈ u.threads, t.pc.waiting l = true) ∨ .wait l ∈ u.sh.panics

theorem gateHeld_iff {u : State} (h : (machine P).Reach u) (l : Ptr) :
    u.GateHeld l ↔ 0 < (u.sh.loggers l).waitStarted := by
  rw [(reach_gated h l).gate, Nat.add_pos_iff_pos_or_pos, State.waiting, List.countP_pos_iff,
    List.count_pos_iff]
  rfl

section Fate

variable {n : Nat}

/-- The goroutine of the call goes on from `pc` in the step `i`. -/
structure GoesOn (T : (machine P).Trace n) (call : Gid × Nat) (pc : Pc) (i : Nat) : Prop where
  lt : i < n
  action : ∃ inp, T.action i = .go call.1 inp
  stands : (T.state i).Stands call pc

/-- After the step `c` the call loads `waitStarted` in the step `i` and finds it clear. -/
structure FindsOpen (T : (machine P).Trace n) (call : Gid × Nat) (l : Ptr) (text : Bytes)
    (c i : Nat) : Prop where
  after : c < i
  loads : GoesOn T call (.print l text .gate) i
  flag : ((T.state i).sh.loggers l).waitStarted = 0

/-- What has become, at the moment `j`, of the `print` of `text` that began in the step `c`. -/
inductive PrintFate (T : (machine P).Trace n) (call : Gid × Nat) (l : Ptr) (text : Bytes)
    (c j : Nat) : Prop
  | atGate : (T.state j).Stands call (.print l text .gate) → (T.state j).sh.sentBy call = [] →
      PrintFate T call l text c j
  | behindGate {i : Nat} {msg : Bytes} {ph : PrintPhase} : FindsOpen T call l text c i → i < j →
      (T.state j).Stands call (.print l msg ph) → ph.beforeSelect = true → text <:+ msg →
      (T.state j).sh.sentBy call = [] → PrintFate T call l text c j
  /-- The select finds a free slot: the message carries the text that the call returns. -/
  | sent {i k : Nat} {msg : Bytes} : FindsOpen T call l text c i → i < k → k < j →
      GoesOn T call (.print l msg .send) k → (T.state k).sh.slotFree = true →
      (T.state (k + 1)).sh.tologCh = (T.state k).sh.tologCh ++ [⟨msg, l, call⟩] → text <:+ msg →
      .print call l msg true true ∈ (T.state (k + 1)).sh.returned → (T.state j).Past call →
      (T.state j).sh.sentBy call = [⟨msg, l, call⟩] → PrintFate T call l text c j
  | closed {i : Nat} : c < i → i < j → GoesOn T call (.print l text .gate) i →
      0 < ((T.state i).sh.loggers l).waitStarted → (T.state i).GateHeld l →
      (T.state j).Past call → (T.state j).sh.sentBy call = [] → PrintFate T call l text c j
  | full {i k : Nat} {msg : Bytes} : FindsOpen T call l text c i → i < k → k < j →
      GoesOn T call (.print l msg .send) k → (T.state k).sh.slotFree = false →
      ((T.state j).Past call ∨
        ∃ ph, (T.state j).Stands call (.print l msg ph) ∧ ph.afterFull = true) →
      (T.state j).sh.sentBy call = [] → PrintFate T call l text c j
  /-- `logTasks.Add(1)` panics. -/
  | panicked {i k : Nat} {msg : Bytes} {ph : PrintPhase} : FindsOpen T call l text c i → i < k →
      k < j → GoesOn T call (.print l msg ph) k →
      (T.state (k + 1)).sh.panics = (T.state k).sh.panics ++ [.printAdd l] →
      (T.state j).Past call → (T.state j).sh.sentBy call = [] → PrintFate T call l text c j

variable {T : (machine P).Trace n} {call : Gid × Nat} {l : Ptr} {text : Bytes} {c j k : Nat}

theorem past_of_idle {u : State} (h : u.Stands call .idle) : u.Past call :=
  ⟨_, h, le_rfl, fun hin => absurd hin Bool.false_ne_true⟩

theorem sentBy_congr {s s' : Shared} (h : s'.sent = s.sent) : s'.sentBy call = s.sentBy call :=
  congrArg (List.filter _) h

/-- The goroutine of the call makes the step, or it stays where it is and has sent nothing new. -/
theorem State.Stands.next {pc : Pc} (h : (T.state k).Stands call pc) (hk : k < n)
    (hpc : pc.inPrint = true) :
    (∃ i pc', GoesOn T call pc k ∧
      GoStep call.1 call.2 (T.state k).sh pc i pc' (T.state (k + 1)).sh ∧
        (T.state (k + 1)).Stands call pc') ∨
    ((T.state (k + 1)).Stands call pc ∧
      (T.state (k + 1)).sh.sentBy call = (T.state k).sh.sentBy call) := by
  rcases step_thread (T.step k hk) h with ⟨i, pc', hx, hstep, hpc'⟩ | ⟨hother, hstay⟩
  · rw [hstep.seq_print hpc] at hpc'
    exact .inl ⟨i, pc', ⟨hk, ⟨i, hx⟩, h⟩, hstep, hpc'⟩
  · rcases sentBy_step (T.step k hk) with hsame | ⟨i, l, msg, hx, -⟩
    · exact .inr ⟨hstay, hsame⟩
    · exact absurd hx (hother i)

/-- The step lemma. -/
theorem PrintFate.next (hj : j < n) (hc : c < j) (h : PrintFate T call l text c j) :
    PrintFate T call l text c (j + 1) := by
  have hs : step P (T.state j) (T.action j) = some (T.state (j + 1)) := T.step j hj
  have hlast := Nat.lt_succ_self j
  cases h with
  | atGate hpc hnone =>
    rcases hpc.next hj rfl with ⟨i, pc', hgo, hstep, hpc'⟩ | ⟨hstay, hsame⟩
    · obtain ⟨hquiet, hload⟩ := hstep.load
      have hnone' := (sentBy_congr hquiet).trans hnone
      rcases hload with ⟨hflag, rfl⟩ | ⟨hflag, rfl⟩
      · exact .closed hc hlast hgo hflag ((gateHeld_iff (T.reach hj.le) l).mpr hflag)
          (past_of_idle hpc') hnone'
      · exact .behindGate ⟨hc, hgo, hflag⟩ hlast hpc' rfl List.suffix_rfl hnone'
    · exact .atGate hstay (hsame.trans hnone)
  | @behindGate i msg ph hopen hij hpc hph htext hnone =>
    rcases hpc.next hj rfl with ⟨inp, pc', hgo, hstep, hpc'⟩ | ⟨hstay, hsame⟩
    · rcases hstep.beforeSelect hph with ⟨rfl, hslot, rfl, hput, hsent, hret⟩ |
        ⟨hquiet, hwhere⟩
      · refine .sent hopen hij hlast hgo hslot hput htext hret (past_of_idle hpc') ?_
        rw [sentBy_append hsent, hnone, if_pos rfl, List.nil_append]
      · have hnone' := (sentBy_congr hquiet).trans hnone
        rcases hwhere with ⟨msg', ph', rfl, hph', hgrown⟩ | ⟨rfl, hslot, rfl⟩ | ⟨rfl, hpanic⟩
        · exact .behindGate hopen (hij.trans hlast) hpc' hph' (htext.trans hgrown) hnone'
        · exact .full hopen hij hlast hgo hslot (.inr ⟨_, hpc', rfl⟩) hnone'
        · exact .panicked hopen hij hlast hgo hpanic (past_of_idle hpc') hnone'
    · exact .behindGate hopen (hij.trans hlast) hstay hph htext (hsame.trans hnone)
  | sent hopen hik hkj hgo hslot hput htext hret hpast hsent =>
    obtain ⟨hpast', hsame⟩ := hpast.step hs
    exact .sent hopen hik (hkj.trans hlast) hgo hslot hput htext hret hpast' (hsame.trans hsent)
  | closed hci hij hgo hflag hheld hpast hnone =>
    obtain ⟨hpast', hsame⟩ := hpast.step hs
    exact .closed hci (hij.trans hlast) hgo hflag hheld hpast' (hsame.trans hnone)
  | full hopen hik hkj hgo hslot hwhere hnone =>
    have hkj' := hkj.trans hlast
    rcases hwhere with hpast | ⟨ph, hpc, hph⟩
    · obtain ⟨hpast', hsame⟩ := hpast.step hs
      exact .full hopen hik hkj' hgo hslot (.inl hpast') (hsame.trans hnone)
    · rcases hpc.next hj rfl with ⟨inp, pc', -, hstep, hpc'⟩ | ⟨hstay, hsame⟩
      · obtain ⟨hquiet, hleft⟩ := hstep.afterFull hph
        have hnone' := (sentBy_congr hquiet).trans hnone
        rcases hleft with rfl | ⟨ph', rfl, hph'⟩
        · exact .full hopen hik hkj' hgo hslot (.inl (past_of_idle hpc')) hnone'
        · exact .full hopen hik hkj' hgo hslot (.inr ⟨ph', hpc', hph'⟩) hnone'
      · exact .full hopen hik hkj' hgo hslot (.inr ⟨ph, hstay, hph⟩) (hsame.trans hnone)
  | panicked hopen hik hkj hgo hpanic hpast hnone =>
    obtain ⟨hpast', hsame⟩ := hpast.step hs
    exact .panicked hopen hik (hkj.trans hlast) hgo hpanic hpast' (hsame.trans hnone)

/-- In every run, from the call on. -/
theorem PrintFate.run (T : (machine P).Trace n) (hcj : c < j) (hj : j ≤ n) {g : Gid} {t : Thread}
    (hcall : T.action c = .go g (.call (.print l text)))
    (ht : (T.state c).threads[g]? = some t)
    (hname : ((T.state c).sh.loggers l).filename ≠ []) :
    PrintFate T (g, t.seq + 1) l text c j := by
  refine T.along (P := fun j => PrintFate T (g, t.seq + 1) l text c j)
    (Nat.succ_le_of_lt hcj) hj ?_ fun k hck hkj _ h => h.next (hkj.trans_le hj) hck
  have hcn : c < n := hcj.trans_le hj
  have hs : step P (T.state c) (T.action c) = some (T.state (c + 1)) := T.step c hcn
  rcases step_thread hs ht with ⟨i, pc, hx, hstep, hpc⟩ | ⟨hother, -⟩
  · rw [hcall] at hx
    cases hx
    have hgate : pc = .print l text .gate := by
      have hnop : (T.state c).sh.isNop l = false := by
        have hne : l ≠ emptyLogger := by
          rintro rfl
          exact hname (reach_wf (T.reach hcn.le)).shared.empty
        simp [Shared.isNop, hne, hname]
      generalize t.pc = pc₀ at hstep
      generalize (T.state (c + 1)).sh = sh at hstep
      cases hstep with
      | callNop _ h => exact absurd (hnop.symm.trans h) Bool.false_ne_true
      | callPrint => rfl
    subst hgate
    exact .atGate hpc (sentBy_current (T.reach hcn) hpc rfl)
  · exact absurd hcall (hother _)

/-- A call comes once only to the step out of the places of a kind that nothing but a new call
    leads back to. -/
theorem GoesOn.unique {S : Pc → Bool}
    (hS : ∀ {g seq s pc i pc' s'}, GoStep g seq s pc i pc' s' → S pc' = true →
      S pc = true ∨ ∃ c, i = .call c)
    {i i' : Nat} {pc pc' : Pc} (hin : pc.inPrint = true)
    (hout : ∀ {s i pc'' s'}, GoStep call.1 call.2 s pc i pc'' s' → S pc'' = false)
    (hin' : S pc' = true) (h : GoesOn T call pc i) (h' : GoesOn T call pc' i') : i' ≤ i := by
  by_contra hlt
  have hleft : ∃ t, (T.state i').threads[call.1]? = some t ∧ call.2 ≤ t.seq ∧
      (S t.pc = true → call.2 < t.seq) := by
    refine T.along (P := fun k => ∃ t, (T.state k).threads[call.1]? = some t ∧ call.2 ≤ t.seq ∧
      (S t.pc = true → call.2 < t.seq)) (Nat.succ_le_of_lt (Nat.not_le.mp hlt)) h'.lt.le ?_ ?_
    · rcases step_thread (T.step i h.lt) h.stands with ⟨inp, pc₁, -, hstep, ht⟩ | ⟨hother, -⟩
      · rw [hstep.seq_print hin] at ht
        exact ⟨_, ht, le_rfl, fun hin₁ => absurd (hout hstep) (by simp [hin₁])⟩
      · obtain ⟨inp, hx⟩ := h.action
        exact absurd hx (hother inp)
    · rintro k - - hs ⟨t, ht, hle, hlate⟩
      rcases step_thread hs ht with ⟨inp, pc₁, -, hstep, ht₁⟩ | ⟨-, hstay⟩
      · have hseq : t.seq ≤ t.nextSeq inp := by
          rcases hstep.nextSeq with hlt | ⟨heq, -⟩
          · exact hlt.le
          · exact heq.ge
        refine ⟨_, ht₁, hle.trans hseq, fun hin₁ => ?_⟩
        rcases hS hstep hin₁ with hin₀ | ⟨c, rfl⟩
        · exact (hlate hin₀).trans_le hseq
        · exact Nat.lt_succ_of_le hle
      · exact ⟨t, hstay, hle, hlate⟩
  obtain ⟨t, ht, -, hlate⟩ := hleft
  cases Option.some.inj (ht.symm.trans h'.stands)
  exact lt_irrefl _ (hlate hin')

/-- A call loads `waitStarted` once. -/
theorem load_unique {i i' : Nat} {l' : Ptr} {text' : Bytes}
    (h : GoesOn T call (.print l text .gate) i) (h' : GoesOn T call (.print l' text' .gate) i') :
    i = i' := by
  have hlate : ∀ {l l' : Ptr} {text text' : Bytes} {i i' : Nat},
      GoesOn T call (.print l text .gate) i → GoesOn T call (.print l' text' .gate) i' → i' ≤ i :=
    fun h h' => h.unique (S := Pc.atGate) (fun hstep hpc => .inr (hstep.atGate hpc)) rfl
      (fun hstep => by rcases hstep.load.2 with ⟨-, rfl⟩ | ⟨-, rfl⟩ <;> rfl) rfl h'
  exact Nat.le_antisymm (hlate h' h) (hlate h h')

/-- A call makes its select once. -/
theorem select_unique {k' : Nat} {l' : Ptr} {msg msg' : Bytes}
    (h : GoesOn T call (.print l msg .send) k) (h' : GoesOn T call (.print l' msg' .send) k') :
    k = k' := by
  have hlate : ∀ {l l' : Ptr} {msg msg' : Bytes} {k k' : Nat},
      GoesOn T call (.print l msg .send) k → GoesOn T call (.print l' msg' .send) k' → k' ≤ k :=
    fun h h' => h.unique (S := Pc.selecting) (fun hstep hpc => hstep.selecting hpc) rfl
      (fun hstep => by cases hstep <;> rfl) rfl h'
  exact Nat.le_antisymm (hlate h' h) (hlate h h')

/-- A `print` of a logger with a file name puts one message with the returned text into `tologCh`
    when it loads a clear flag and its select finds a free slot, and none otherwise: it finds the
    queue full, or the gate held by a `Wait` of the logger, or its `logTasks.Add(1)` panics. It
    loads the flag once and makes its select once. -/
theorem print_fate (T : (machine P).Trace n) (hcj : c < j) (hj : j ≤ n) {g : Gid} {t : Thread}
    (hcall : T.action c = .go g (.call (.print l text)))
    (ht : (T.state c).threads[g]? = some t)
    (hname : ((T.state c).sh.loggers l).filename ≠ []) :
    PrintFate T (g, t.seq + 1) l text c j ∧
    (∀ i i' text', GoesOn T (g, t.seq + 1) (.print l text .gate) i →
      GoesOn T (g, t.seq + 1) (.print l text' .gate) i' → i = i') ∧
    ∀ k k' msg msg', GoesOn T (g, t.seq + 1) (.print l msg .send) k →
      GoesOn T (g, t.seq + 1) (.print l msg' .send) k' → k = k' :=
  ⟨.run T hcj hj hcall ht hname, fun _ _ _ => load_unique, fun _ _ _ _ => select_unique⟩

end Fate

/-- One `print` finds the gate open and a free slot. -/
def onePrint : List Action := .spawn :: newLoggerCall 0 [97] ++ printCall 0 1 [104]

theorem onePrint_runs : ((machine unitPrimitives).exec {} onePrint).isSome := by decide

def onePrintTrace : (machine unitPrimitives).Trace onePrint.length := .ofExec _ onePrint_runs

theorem print_fate_onePrintTrace : PrintFate onePrintTrace (0, 2) 1 [104] 7 11 :=
  (print_fate (t := ⟨.idle, 1⟩) onePrintTrace (by decide) (by decide) (by decide) (by decide)
    (by decide)).1

/-- A message is queued, goroutine 0 waits for it, goroutine 1 prints to the same logger. -/
def printDuringWait : List Action :=
  .spawn :: .spawn :: newLoggerCall 0 [97] ++ printCall 0 1 [104] ++
    .go 0 (.call (.wait 1)) :: steps 0 3 ++ .go 1 (.call (.print 1 [105])) :: steps 1 1

theorem printDuringWait_runs : ((machine unitPrimitives).exec {} printDuringWait).isSome := by
  decide

def printDuringWaitTrace : (machine unitPrimitives).Trace printDuringWait.length :=
  .ofExec _ printDuringWait_runs

/-- A `print` that passed the gate raises the counter as the worker releases a sleeping `Wait`:
    that `Wait` panics and leaves the flag set. -/
def reusedWait : List Action :=
  .spawn :: .spawn :: newLoggerCall 0 [97] ++ printCall 0 1 [104] ++
    [.go 1 (.call (.print 1 [105])), .go 1 .tau, .go 0 (.call (.wait 1))] ++ steps 0 3 ++
    workerWrites unitDraws ++ [.worker .tau, .worker .tau, .worker .tau, .go 1 (.stamp []),
      .go 0 .tau, .go 1 .tau]

/-- Goroutine 0 prints once more. -/
def printAfterReuse : List Action := reusedWait ++ [.go 0 (.call (.print 1 [106])), .go 0 .tau]

theorem printAfterReuse_runs : ((machine unitPrimitives).exec {} printAfterReuse).isSome := by
  decide

def printAfterReuseTrace : (machine unitPrimitives).Trace printAfterReuse.length :=
  .ofExec _ printAfterReuse_runs

theorem forgottenAdd_runs : ((machine unitPrimitives).exec {} forgottenAdd).isSome := by
  decide +kernel

/-- The `Add(1)` of goroutine 1 panics. -/
def forgottenAddTrace : (machine unitPrimitives).Trace forgottenAdd.length :=
  .ofExec _ forgottenAdd_runs

/-- A whole `print` to a logger with a file name, in a run in which `tologCh` has a free slot all
    along. -/
structure PrintsWithRoom {n : Nat} (T : (machine unitPrimitives).Trace n) (c : Nat)
    (call : Gid × Nat) (l : Ptr) (text : Bytes) : Prop where
  lt : c < n
  calls : T.action c = .go call.1 (.call (.print l text))
  begins : (T.state (c + 1)).Stands call (.print l text .gate)
  named : ((T.state c).sh.loggers l).filename ≠ []
  room : ∀ j ≤ n, (T.state j).sh.slotFree = true
  ends : (T.state n).Stands call .idle

/-- Such a `print` sends nothing: while a `Wait` holds the gate, with nobody inside a `Wait` after
    one has panicked, and with the flag clear at its load when its own `Add(1)` panics. -/
theorem print_during_wait_lost :
    (¬ ∀ (n : Nat) (T : (machine unitPrimitives).Trace n) c call l text,
      PrintsWithRoom T c call l text → (∀ j ≤ n, (T.state j).sh.panics = []) →
        (T.state n).sh.sentBy call ≠ []) ∧
    (¬ ∀ (n : Nat) (T : (machine unitPrimitives).Trace n) c call l text,
      PrintsWithRoom T c call l text →
      (∀ j ≤ n, c ≤ j → ∀ t ∈ (T.state j).threads, t.pc.waiting l = false) →
        (T.state n).sh.sentBy call ≠ []) ∧
    (¬ ∀ (n : Nat) (T : (machine unitPrimitives).Trace n) c call l text,
      PrintsWithRoom T c call l text →
      (∀ j ≤ n, (T.state j).Stands call (.print l text .gate) →
        ((T.state j).sh.loggers l).waitStarted = 0) →
        (T.state n).sh.sentBy call ≠ []) := by
  refine ⟨fun h => ?_, fun h => ?_, fun h => ?_⟩
  · refine h _ printDuringWaitTrace 16 (1, 1) 1 [105] ?_ (by decide) (by decide)
    constructor <;> decide
  · refine h _ printAfterReuseTrace 31 (0, 4) 1 [106] ?_ (by decide) (by decide)
    constructor <;> decide
  · refine h _ forgottenAddTrace 13 (1, 1) 1 [105] ?_ (by decide +kernel) (by decide +kernel)
    constructor <;> decide +kernel

end ZipoLogger
