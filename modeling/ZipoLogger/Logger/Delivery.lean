/-
  From `print` to the writer: exactly once and in order.

  `fifo`: what entered `tologCh` is what the worker is through with, what it has in its hands and
  what is still queued, in this order. `Routed`: the writer of a logger holds the records of its
  processed messages, no other writer does. `Sequenced`: the messages of one goroutine enter in
  the order of its calls.
-/
import ZipoLogger.Logger.Calls

namespace ZipoLogger

open Enc

/-- The message the worker has received and is not through with. -/
def WorkerPc.inHand : WorkerPc → Option LoggerMessage
  | .done _ => none
  | w => w.owed

theorem WorkerPc.owed_of_inHand {w : WorkerPc} {m : LoggerMessage} (h : w.inHand = some m) :
    w.owed = some m := by
  unfold WorkerPc.inHand at h
  split at h
  · cases h
  · exact h

/-- The messages that entered `tologCh`, in order. -/
def Shared.sent (s : Shared) : List LoggerMessage := s.accepted.map (·.message)

/-- The messages the worker is through with, in order. -/
def Shared.handled (s : Shared) : List LoggerMessage := s.processed.map (·.message)

/-- What the messages of `sent` say, and to which logger. -/
def Shared.texts (s : Shared) : List (Ptr × Bytes) := s.sent.map fun m => (m.log, m.msg)

theorem Shared.length_texts (s : Shared) : s.texts.length = s.sent.length := List.length_map _

/-- The record a processed message of `l` left in a writer. -/
def Processed.recordOf (l : Ptr) (p : Processed) : Option Record :=
  match p.fate with
  | .skipped => none
  | .written _ _ record => if p.message.log = l then some ⟨record, p.message⟩ else none

theorem Processed.recordOf_eq_some {l : Ptr} {p : Processed} {r : Record}
    (h : p.recordOf l = some r) : ∃ key draws record, p.fate = .written key draws record ∧
      p.message.log = l ∧ r = ⟨record, p.message⟩ := by
  unfold Processed.recordOf at h
  split at h
  · cases h
  · rename_i key draws record hf
    split at h
    · cases h
      exact ⟨key, draws, record, hf, ‹_›, rfl⟩
    · cases h

/-- The records of `l`: one for each processed message of `l` that was not skipped. -/
def Shared.recordsOf (s : Shared) (l : Ptr) : List Record :=
  s.processed.filterMap (Processed.recordOf l)

section Steps

variable {P : Primitives} {g : Gid} {seq : Nat} {s s' : Shared} {pc pc' : Pc} {i : Input}
  {wpc wpc' : WorkerPc} {wi : WorkerInput}

/-! ## The queue -/

/-- A goroutine touches the queue by sending one message of the call it is in, or not at all. -/
theorem GoStep.queue (h : GoStep g seq s pc i pc' s') :
    (s'.accepted = s.accepted ∧ s'.tologCh = s.tologCh) ∨
    ∃ l msg, pc = .print l msg .send ∧ pc' = .idle ∧ s.slotFree = true ∧
      s'.tologCh = s.tologCh ++ [⟨msg, l, (g, seq)⟩] ∧
      s'.accepted = s.accepted ++ [⟨⟨msg, l, (g, seq)⟩, s.registered l⟩] := by
  cases h with
  | @sent l msg hslot =>
    refine .inr ⟨l, msg, rfl, rfl, hslot, by simp [Shared.enqueue], ?_⟩
    simp [Shared.enqueue, Shared.registered]
  | waitEarly | waitClear => exact .inl (by simp [afterWait_snd])
  | @waitPanics l mark k => exact .inl (by cases k <;> exact ⟨rfl, rfl⟩)
  | full | closeDone | newEvicted | setApply => exact .inl (by simp)
  | _ => exact .inl ⟨rfl, rfl⟩

theorem GoStep.processed (h : GoStep g seq s pc i pc' s') : s'.processed = s.processed := by
  cases h with
  | waitEarly | waitClear => simp [afterWait_snd]
  | @waitPanics l mark k => cases k <;> rfl
  | sent | full | closeDone | newEvicted | setApply => simp [Shared.enqueue]
  | _ => rfl

/-- The worker moves messages from the queue through its hands, and drops none. -/
theorem WorkerStep.queue (h : WorkerStep P s wpc wi wpc' s') :
    s'.accepted = s.accepted ∧
    s'.handled ++ wpc'.inHand.toList ++ s'.tologCh =
      s.handled ++ wpc.inHand.toList ++ s.tologCh := by
  cases h with
  | receive hq => exact ⟨rfl, by simp [Shared.handled, WorkerPc.inHand, WorkerPc.owed, hq]⟩
  | skipped | wrote =>
    exact ⟨rfl, by simp [Shared.handled, WorkerPc.inHand, WorkerPc.owed, Shared.process]⟩
  | _ => exact ⟨rfl, rfl⟩

theorem WorkerStep.texts (h : WorkerStep P s wpc wi wpc' s') : s'.texts = s.texts := by
  cases h <;> rfl

/-! ## The writers -/

/-- No user goroutine gives a logger a writer or takes it away. -/
theorem GoStep.log (h : GoStep g seq s pc i pc' s') (hs : s.Wf) (l : Ptr) :
    (s'.loggers l).log = (s.loggers l).log :=
  h.field Logger.log l (fun _ _ _ _ _ _ => rfl) (fun x lg => x.apply_log lg) fun _ =>
    hs.alloc_field Logger.log (by simp [Shared.alloc]) l

/-- Of the goroutines only one in `Close` assigns `zlog`. -/
theorem GoStep.zlog (h : GoStep g seq s pc i pc' s') (hs : s.Wf) (l : Ptr) :
    (s'.loggers l).zlog = (s.loggers l).zlog ∨
      ((s'.loggers l).zlog = none ∧ ∃ mark early, pc = .close l mark early true) := by
  have ht := h.touches l
  generalize s'.loggers l = lg at ht ⊢
  cases ht with
  | locks | print | wait => exact .inl rfl
  | close => exact .inr ⟨rfl, _, _, rfl⟩
  | set => exact .inl (Setter.apply_zlog _ _)
  | alloc hl => exact .inl (hs.alloc_field Logger.zlog (by simp [Shared.alloc]) l)

/-- A goroutine closes writers and does nothing else to them. -/
theorem GoStep.writers (h : GoStep g seq s pc i pc' s') :
    s'.writers = s.writers ∨ ∃ l, s'.writers = (s.closeWriter l).writers := by
  cases h with
  | @closeDone l | @newEvicted _ _ l => exact .inr ⟨l, rfl⟩
  | waitEarly | waitClear =>
    left
    rw [afterWait_snd]
    rfl
  | @waitPanics l mark k => cases k <;> exact .inl rfl
  | sent | full | setApply => exact .inl (by simp [Shared.enqueue])
  | _ => exact .inl rfl

theorem GoStep.records (h : GoStep g seq s pc i pc' s') (w : Wid) :
    (s'.writers w).records = (s.writers w).records := by
  rcases h.writers with hw | ⟨l, hw⟩
  · rw [hw]
  · rw [hw, Shared.closeWriter_records]

theorem GoStep.nwri (h : GoStep g seq s pc i pc' s') : s'.nwri = s.nwri := by
  cases h with
  | waitEarly | waitClear => rw [afterWait_snd]; rfl
  | @waitPanics l mark k => cases k <;> rfl
  | sent | full | closeDone | newEvicted => simp [Shared.enqueue]
  | setApply => simp
  | _ => rfl

/-- The writer of a logger holds the records of its processed messages; no two loggers share a
    writer, and every writer is some logger's. -/
structure Shared.Routed (s : Shared) : Prop where
  records : ∀ l w, (s.loggers l).log = some w → (s.writers w).records = s.recordsOf l
  unopened : ∀ l, (s.loggers l).log = none → s.recordsOf l = []
  unique : ∀ l l' w, (s.loggers l).log = some w → (s.loggers l').log = some w → l = l'
  allocated : ∀ l w, (s.loggers l).log = some w → w < s.nwri
  owned : ∀ w r, r ∈ (s.writers w).records → (s.loggers r.source.log).log = some w

theorem Shared.Routed.congr (hs : s.Routed) (hl : ∀ l, (s'.loggers l).log = (s.loggers l).log)
    (hr : ∀ w, (s'.writers w).records = (s.writers w).records) (hn : s'.nwri = s.nwri)
    (hp : s'.processed = s.processed) : s'.Routed where
  records l w h := by
    rw [hr, Shared.recordsOf, hp]
    exact hs.records l w (hl l ▸ h)
  unopened l h := by
    rw [Shared.recordsOf, hp]
    exact hs.unopened l (hl l ▸ h)
  unique l l' w h h' := hs.unique l l' w (hl l ▸ h) (hl l' ▸ h')
  allocated l w h := hn ▸ hs.allocated l w (hl l ▸ h)
  owned w r h := by
    rw [hl]
    exact hs.owned w r (hr w ▸ h)

theorem GoStep.routed (h : GoStep g seq s pc i pc' s') (hs : s.Wf) (hr : s.Routed) : s'.Routed :=
  hr.congr (h.log hs) h.records h.nwri h.processed

theorem Shared.createWriter_log (s : Shared) (l l' : Ptr) :
    ((s.createWriter l).loggers l').log = if l' = l then some s.nwri else (s.loggers l').log := by
  simp only [Shared.createWriter, Function.update_apply]
  split <;> rfl

theorem Shared.createWriter_records (s : Shared) (l : Ptr) (w : Wid) :
    ((s.createWriter l).writers w).records = if w = s.nwri then [] else (s.writers w).records := by
  simp only [Shared.createWriter, Function.update_apply]
  split <;> rfl

theorem Shared.recordsOf_process (s : Shared) (m : LoggerMessage) (f : Fate) (l : Ptr) :
    (s.process m f).recordsOf l = s.recordsOf l ++ (Processed.recordOf l ⟨m, f⟩).toList := by
  simp only [Shared.recordsOf, Shared.process, List.filterMap_append, List.filterMap_cons,
    List.filterMap_nil]
  cases Processed.recordOf l ⟨m, f⟩ <;> rfl

@[simp] theorem Shared.recordsOf_modifyWriter (s : Shared) (w : Wid) (h : Writer → Writer)
    (l : Ptr) : (s.modifyWriter w h).recordsOf l = s.recordsOf l := rfl

/-- A fresh writer for a logger that had none. -/
theorem Shared.Routed.createWriter {l : Ptr} (hs : s.Routed) (h : (s.loggers l).log = none) :
    (s.createWriter l).Routed where
  records l' w hw := by
    rw [Shared.createWriter_log] at hw
    rw [Shared.createWriter_records]
    change _ = s.recordsOf l'
    split at hw
    · cases hw
      rw [if_pos rfl, ‹l' = l›, hs.unopened l h]
    · rw [if_neg (hs.allocated l' w hw).ne, hs.records l' w hw]
  unopened l' hl := by
    rw [Shared.createWriter_log] at hl
    split at hl
    · cases hl
    · exact hs.unopened l' hl
  unique l₁ l₂ w h₁ h₂ := by
    rw [Shared.createWriter_log] at h₁ h₂
    split at h₁ <;> split at h₂
    · rw [‹l₁ = l›, ‹l₂ = l›]
    · cases h₁
      exact absurd (hs.allocated l₂ _ h₂) (lt_irrefl _)
    · cases h₂
      exact absurd (hs.allocated l₁ _ h₁) (lt_irrefl _)
    · exact hs.unique l₁ l₂ w h₁ h₂
  allocated l' w hw := by
    rw [Shared.createWriter_log] at hw
    split at hw
    · cases hw
      exact Nat.lt_succ_self _
    · exact Nat.lt_succ_of_lt (hs.allocated l' w hw)
  owned w r hr := by
    rw [Shared.createWriter_records] at hr
    rw [Shared.createWriter_log]
    split at hr
    · cases hr
    · have ho := hs.owned w r hr
      rw [if_neg fun he => by rw [he, h] at ho; cases ho]
      exact ho

/-- One more record for the writer of the message's logger. -/
theorem Shared.Routed.write {elem : LoggerMessage} {w : Wid} {key : Option KeyEncrypt}
    {draws : Draws} {record : Bytes} (hs : s.Routed) (h : (s.loggers elem.log).log = some w) :
    ((s.modifyWriter w fun z =>
      { z with isOpen := true, records := z.records ++ [⟨record, elem⟩] }).process elem
        (.written key draws record)).Routed where
  records l w' hw := by
    have hw : (s.loggers l).log = some w' := hw
    rw [Shared.recordsOf_process, Shared.process_writers, Shared.modifyWriter_writers,
      Shared.recordsOf_modifyWriter]
    split
    · subst w'
      rw [← hs.unique _ _ w h hw, ← hs.records _ w h]
      simp [Processed.recordOf]
    · have hne : elem.log ≠ l := fun he => ‹¬w' = w› (Option.some.inj (hw.symm.trans (he ▸ h)))
      rw [hs.records l w' hw]
      simp [Processed.recordOf, hne]
  unopened l hl := by
    have hl : (s.loggers l).log = none := hl
    have hne : elem.log ≠ l := fun he => by rw [← he, h] at hl; cases hl
    rw [Shared.recordsOf_process, Shared.recordsOf_modifyWriter]
    simpa [Processed.recordOf, hne] using hs.unopened l hl
  unique := hs.unique
  allocated := hs.allocated
  owned w' r hr := by
    rw [Shared.process_writers, Shared.modifyWriter_writers] at hr
    split at hr
    · subst w'
      obtain hr | hr := List.mem_append.mp hr
      · exact hs.owned w r hr
      · rw [List.mem_singleton.mp hr]
        exact h
    · exact hs.owned w' r hr

theorem Shared.Routed.skip {elem : LoggerMessage} (hs : s.Routed) :
    (s.process elem .skipped).Routed where
  records l w h := by
    rw [Shared.recordsOf_process, Shared.process_writers]
    simpa [Processed.recordOf] using hs.records l w h
  unopened l h := by
    rw [Shared.recordsOf_process]
    simpa [Processed.recordOf] using hs.unopened l h
  unique := hs.unique
  allocated := hs.allocated
  owned := hs.owned

theorem Shared.Routed.panic {p : PanicSite} (hs : s.Routed) : (s.panic p).Routed :=
  hs.congr (fun _ => rfl) (fun _ => rfl) rfl rfl

theorem Shared.Routed.modify {l : Ptr} {f : Logger → Logger} (hs : s.Routed)
    (hf : (f (s.loggers l)).log = (s.loggers l).log) : (s.modify l f).Routed :=
  hs.congr (fun _ => Shared.modify_field _ _ _ _ Logger.log hf) (fun _ => rfl) rfl rfl

theorem WorkerStep.routed (h : WorkerStep P s wpc wi wpc' s') (hs : s.Routed) : s'.Routed := by
  cases h with
  | receive | createPanics | lockEncryptor | encryptPanics | writePanics | checked | checkPanics =>
    exact hs.congr (fun _ => rfl) (fun _ => rfl) rfl rfl
  | lock | ready | lockKey | doneReturns | doneWakes | woke => exact hs.modify rfl
  | created hlog => exact (hs.createWriter hlog).modify rfl
  | skipped hlog => exact (hs.modify hlog.symm).skip
  | @key elem =>
    have hm := hs.modify (l := elem.log) (f := fun lg => { lg with em := none }) rfl
    exact hm.congr (fun _ => rfl) (fun _ => rfl) rfl rfl
  | wrote hrec hlog => exact hs.write hlog
  | donePanics => exact (hs.modify rfl).panic

/-! ## The order of one goroutine -/

/-- Inside a `print`. A `print` returns as it sends, so it has not sent its message yet. -/
def Pc.inPrint : Pc → Bool
  | .print _ _ _ => true
  | _ => false

/-- A goroutine begins its next call or stays in the one it is in; only the former makes it a
    `print`. -/
theorem GoStep.nextSeq {t : Thread} (h : GoStep g t.seq s t.pc i pc' s') :
    t.seq < t.nextSeq i ∨ (t.nextSeq i = t.seq ∧ (pc'.inPrint = true → t.pc.inPrint = true)) := by
  obtain ⟨pc, seq⟩ := t
  cases h with
  | callNop | callPrint | callWait | callClose | callWaitAll | callNew | callSet | callSetGlobal
  | callStdout | callDepth => exact .inl (Nat.lt_succ_self _)
  | @waitEarly l mark k | @waitClear l mark k =>
    exact .inr ⟨rfl, by cases k <;> simp [afterWait, Pc.inPrint]⟩
  | waitPanics => exact .inr ⟨rfl, by rw [unwindWait_fst]; simp [Pc.inPrint]⟩
  | _ => exact .inr ⟨rfl, by simp [Pc.inPrint]⟩

end Steps

/-- The call is over, or its goroutine is in it but in no `print`. -/
def State.Past (u : State) (call : Gid × Nat) : Prop :=
  ∃ t, u.threads[call.1]? = some t ∧ call.2 ≤ t.seq ∧ (t.pc.inPrint = true → call.2 < t.seq)

section Past

variable {u : State} {call : Gid × Nat} {g : Gid} {t : Thread} {sh : Shared} {pc : Pc} {i : Input}

theorem State.Past.spawn (h : u.Past call) :
    State.Past { u with threads := u.threads ++ [{}] } call := by
  obtain ⟨t, ht, h⟩ := h
  exact ⟨t, by rw [List.getElem?_append_left (List.getElem?_eq_some_iff.mp ht).1, ht], h⟩

theorem State.Past.go (h : u.Past call) (ht : u.threads[g]? = some t)
    (hstep : GoStep g t.seq u.sh t.pc i pc sh) :
    State.Past { u with sh, threads := u.threads.set g { pc, seq := t.nextSeq i } } call := by
  obtain ⟨t', ht', hle, hlt⟩ := h
  by_cases hg : g = call.1
  · subst hg
    cases Option.some.inj (ht.symm.trans ht')
    refine ⟨_, List.getElem?_set_self (List.getElem?_eq_some_iff.mp ht).1, ?_⟩
    obtain hs | ⟨hs, hin⟩ := hstep.nextSeq
    · exact ⟨hle.trans hs.le, fun _ => hle.trans_lt hs⟩
    · exact ⟨hs ▸ hle, fun h => hs ▸ hlt (hin h)⟩
  · exact ⟨t', by rw [List.getElem?_set_ne hg, ht'], hle, hlt⟩

/-- A step out of `print` makes its call past. -/
theorem State.Past.leave (ht : u.threads[g]? = some t)
    (hstep : GoStep g t.seq u.sh t.pc i pc sh) (hpc : pc.inPrint = false) :
    State.Past { u with sh, threads := u.threads.set g { pc, seq := t.nextSeq i } } (g, t.seq) := by
  refine ⟨_, List.getElem?_set_self (List.getElem?_eq_some_iff.mp ht).1, ?_, by simp [hpc]⟩
  obtain hs | ⟨hs, -⟩ := hstep.nextSeq
  · exact hs.le
  · exact hs.ge

/-- A goroutine inside a `print` has not sent anything in this call. -/
theorem State.Past.not_current (ht : u.threads[g]? = some t) (hpc : t.pc.inPrint = true) :
    ¬ u.Past (g, t.seq) := by
  rintro ⟨t', ht', -, hlt⟩
  cases Option.some.inj (ht.symm.trans ht')
  exact lt_irrefl _ (hlt hpc)

end Past

/-- The messages of one goroutine enter in the order of its calls, at most one for each call. -/
structure State.Sequenced (s : State) : Prop where
  increasing : s.sh.sent.Pairwise fun a b => a.call.1 = b.call.1 → a.call.2 < b.call.2
  past : ∀ m ∈ s.sh.sent, s.Past m.call

/-! ## Every run -/

section Runs

variable {P : Primitives} {s : State}

theorem reach_fifo (h : (machine P).Reach s) :
    s.sh.sent = s.sh.handled ++ s.worker.inHand.toList ++ s.sh.tologCh := by
  refine reach_invariant
    (I := fun s => s.sh.sent = s.sh.handled ++ s.worker.inHand.toList ++ s.sh.tologCh) h rfl
    (fun _ _ hu => hu) ?_ ?_
  · intro u g t i pc sh _ hu _ hstep
    have hp : sh.handled = u.sh.handled := congrArg (List.map _) hstep.processed
    obtain ⟨ha, hq⟩ | ⟨l, msg, -, -, -, hq, ha⟩ := hstep.queue
    · simpa only [Shared.sent, ha, hq, hp] using hu
    · simp only [Shared.sent, ha, hq, hp, List.map_append, ← List.append_assoc] at hu ⊢
      rw [hu]
      rfl
  · intro u i wpc sh _ hu hstep
    obtain ⟨ha, hq⟩ := hstep.queue
    simp only [Shared.sent, ha] at hu ⊢
    rw [hq]
    exact hu

theorem reach_routed (h : (machine P).Reach s) : s.sh.Routed := by
  refine reach_invariant (I := fun s => s.sh.Routed) h ?_ (fun _ _ hu => hu) ?_ ?_
  · exact ⟨by simp, fun _ _ => rfl, by simp, by simp, by simp⟩
  · intro u g t i pc sh hr hu _ hstep
    exact hstep.routed (reach_wf hr).shared hu
  · intro u i wpc sh _ hu hstep
    exact hstep.routed hu

theorem reach_sequenced (h : (machine P).Reach s) : s.Sequenced := by
  refine reach_invariant (I := State.Sequenced) h ?_ ?_ ?_ ?_
  · exact ⟨List.Pairwise.nil, by simp [Shared.sent]⟩
  · exact fun u _ hu => ⟨hu.increasing, fun m hm => (hu.past m hm).spawn⟩
  · intro u g t i pc sh _ hu ht hstep
    obtain ⟨ha, -⟩ | ⟨l, msg, hpc, rfl, -, -, ha⟩ := hstep.queue
    · have hs : sh.sent = u.sh.sent := congrArg (List.map _) ha
      exact ⟨hs ▸ hu.increasing, fun m hm => (hu.past m (hs ▸ hm)).go ht hstep⟩
    · have hs : sh.sent = u.sh.sent ++ [⟨msg, l, (g, t.seq)⟩] := by simp [Shared.sent, ha]
      refine ⟨?_, fun m hm => ?_⟩
      · show sh.sent.Pairwise _
        rw [hs, List.pairwise_append]
        refine ⟨hu.increasing, List.pairwise_singleton _ _, fun a ha b hb hab => ?_⟩
        cases List.mem_singleton.mp hb
        obtain ⟨t', ht', -, hlt⟩ := hu.past a ha
        cases Option.some.inj (ht.symm.trans (hab ▸ ht'))
        exact hlt (by rw [hpc]; rfl)
      · have hm : m ∈ u.sh.sent ++ [⟨msg, l, (g, t.seq)⟩] := hs ▸ hm
        obtain hm | hm := List.mem_append.mp hm
        · exact (hu.past m hm).go ht hstep
        · cases List.mem_singleton.mp hm
          exact .leave ht hstep rfl
  · intro u i wpc sh _ hu hstep
    have hs : sh.sent = u.sh.sent := congrArg (List.map _) hstep.queue.1
    exact ⟨hs ▸ hu.increasing, fun m hm => hu.past m (hs ▸ hm)⟩

/-- What holds of the deliveries of `l`. -/
structure State.Delivered (s : State) (l : Ptr) : Prop where
  /-- Accepted is processed, then in the worker's hands, then queued. -/
  order : s.sh.sent.filter (·.log = l) = s.sh.handled.filter (·.log = l) ++
    s.worker.inHand.toList.filter (·.log = l) ++ s.sh.tologCh.filter (·.log = l)
  /-- No message enters twice. -/
  once : s.sh.sent.Nodup
  /-- The writer of `l` holds one record for each processed message that was not skipped. -/
  records : ∀ w, (s.sh.loggers l).log = some w → (s.sh.writers w).records = s.sh.recordsOf l
  unopened : (s.sh.loggers l).log = none → s.sh.recordsOf l = []
  /-- No record of `l` is in another writer. -/
  routed : ∀ w, ∀ r ∈ (s.sh.writers w).records, r.source.log = l → (s.sh.loggers l).log = some w
  /-- No other logger has the writer of `l`. -/
  unshared : ∀ l' w, (s.sh.loggers l).log = some w → (s.sh.loggers l').log = some w → l' = l
  /-- The messages of one goroutine stand in its program order. -/
  program : ∀ g, ((s.sh.sent.filter fun m => m.log = l ∧ m.call.1 = g).map (·.call.2)).Pairwise
    (· < ·)

theorem delivered_in_order (h : (machine P).Reach s) (l : Ptr) : s.Delivered l where
  order := by rw [reach_fifo h, List.filter_append, List.filter_append]
  once := (reach_sequenced h).increasing.imp fun hlt heq => by simp [heq] at hlt
  records w := (reach_routed h).records l w
  unopened := (reach_routed h).unopened l
  routed w r hr hl := hl ▸ (reach_routed h).owned w r hr
  unshared l' w hl hl' := (reach_routed h).unique l' l w hl' hl
  program g := by
    rw [List.pairwise_map, List.pairwise_filter]
    refine (reach_sequenced h).increasing.imp fun hlt ha hb => ?_
    simp only [decide_eq_true_eq] at ha hb
    exact hlt (ha.2.trans hb.2.symm)

/-- Two loggers, three messages; the worker has written the first and received the second. -/
def twoLoggers : List Action :=
  .spawn :: newLoggerCall 0 [97] ++ newLoggerCall 0 [98] ++ printCall 0 1 [104] ++
    printCall 0 2 [105] ++ printCall 0 1 [106] ++ workerWrites unitDraws ++
    [.worker .tau, .worker .tau]

theorem twoLoggers_runs : ((machine unitPrimitives).exec {} twoLoggers).isSome := by decide

theorem delivered_in_order_twoLoggers :
    (((machine unitPrimitives).exec {} twoLoggers).get twoLoggers_runs).Delivered 1 :=
  delivered_in_order (reach_exec twoLoggers_runs) 1

end Runs

end ZipoLogger
