/-
  logger.go: `HandlePanicLog` and `HandlePanic` in several goroutines at once.

  `HandlePanicLog` holds `panicMutex` while it saves its report, `HandlePanic` does not. A call is
  split at the lock, at each candidate directory, at each chunk that goes through inside
  `WriteString`, and at its return; what the file system does to it is its input, as for the calls
  one after the other (`PanicCall`).

  With `HandlePanicLog` only, every run is one of calls one after the other, in the order in
  which they got the mutex (`reports_serialized`). In general a file is in order as long as nobody
  creates it while somebody else is writing to it (`reports_untorn`); otherwise the two texts run
  into each other byte by byte (`report_bytes`), and both can be lost (`reports_torn`).

  Left out: what the handlers print, the message to `errLog`, the sending by `ErrorCatcher`.
-/
import ZipoLogger.Lib.Handle
import ZipoLogger.Lib.Machine
import ZipoLogger.Logger.PanicLog
import ZipoLogger.Logger.State

namespace ZipoLogger

open Text Handle

/-! ## The machine -/

/-- Where a goroutine stands. -/
inductive ReportPc where
  | idle
  /-- `panicMutex.Lock` of `HandlePanicLog` -/
  | lock (c : PanicCall)
  /-- the loop of `savePanicToFile`, with the candidates left -/
  | next (c : PanicCall) (rest : List (Bytes × Attempt))
  /-- inside `f.WriteString`, of which `written` bytes will go through and `off` have -/
  | write (c : PanicCall) (path : Path) (written off : Nat)
  /-- `savePanicToFile` has returned -/
  | ret (c : PanicCall) (str : Bytes)
  deriving DecidableEq

structure ReportState where
  files : FileSystem
  panicMutex : Option Gid := none
  places : Gid → ReportPc := fun _ => .idle
  /-- history: the calls, in the order in which they came to `savePanicToFile` -/
  served : List PanicCall := []
  /-- history: the call that created a file last -/
  creator : Path → Option PanicCall := fun _ => none
  /-- history: what the calls returned -/
  returned : List Bytes := []

inductive ReportAction where
  /-- a goroutine calls `HandlePanicLog`, or panics below a deferred `HandlePanic` -/
  | call (g : Gid) (c : PanicCall)
  /-- its next step; inside `WriteString` up to `n` bytes go through -/
  | step (g : Gid) (n : Nat)
  deriving DecidableEq

def ReportState.moveTo (s : ReportState) (g : Gid) (pc : ReportPc) : ReportState :=
  { s with places := Function.update s.places g pc }

/-- `HandlePanicLog` gets the mutex, `HandlePanic` goes on without it. -/
def ReportState.enter (p : Process) (s : ReportState) (g : Gid) (c : PanicCall) : ReportState :=
  { s with served := s.served ++ [c] }.moveTo g (.next c (candidates p c))

/-- `os.Create`: the file is empty. -/
def ReportState.create (s : ReportState) (path : Path) (c : PanicCall) : ReportState :=
  { s with
    files := Function.update s.files path (some [])
    creator := Function.update s.creator path (some c) }

/-- A chunk goes through. -/
def ReportState.pwrite (s : ReportState) (path : Path) (off : Nat) (chunk : Bytes) :
    ReportState :=
  { s with
    files := Function.update s.files path
      ((s.files path).map fun content => Handle.pwrite content off chunk) }

/-- The bytes that go through of a report. -/
def goesThrough (p : Process) (c : PanicCall) (written : Nat) : Bytes := (report p c).take written

def reportStep (p : Process) (s : ReportState) : ReportAction → Option ReportState
  | .call g c =>
    if s.places g = .idle then
      match c.handler with
      | .handlePanicLog => some (s.moveTo g (.lock c))
      | .handlePanic => some (s.enter p g c)
    else none
  | .step g n =>
    match s.places g with
    | .idle => none
    | .lock c =>
      if s.panicMutex = none then some ({ s with panicMutex := some g }.enter p g c) else none
    | .next c [] => some (s.moveTo g (.ret c []))
    | .next c ((targetDir, a) :: rest) =>
      if !a.mkdirAll then some (s.moveTo g (.next c rest))
      else if !a.create then some (s.moveTo g (.next c rest))
      else
        let path := (targetDir, p.panicName a.label)
        some ((s.create path c).moveTo g (.write c path a.written 0))
    | .write c path written off =>
      let str := goesThrough p c written
      let chunk := (str.drop off).take n
      if off < str.length then
        some ((s.pwrite path off chunk).moveTo g (.write c path written (off + chunk.length)))
      else some (s.moveTo g (.ret c (report p c)))
    | .ret c str =>
      let s' := { s with returned := s.returned ++ [str] }.moveTo g .idle
      match c.handler with
      | .handlePanicLog => some { s' with panicMutex := none }
      | .handlePanic => some s'

/-- From a file system, with nobody in a call. -/
def reportMachine (p : Process) (fs : FileSystem) : Machine ReportState ReportAction where
  init := { files := fs }
  step := reportStep p

/-! ## The steps by their effect -/

inductive ReportStep (p : Process) (s : ReportState) : ReportAction → ReportState → Prop
  | callLog {g : Gid} {c : PanicCall} : s.places g = .idle → c.handler = .handlePanicLog →
      ReportStep p s (.call g c) (s.moveTo g (.lock c))
  | call {g : Gid} {c : PanicCall} : s.places g = .idle → c.handler = .handlePanic →
      ReportStep p s (.call g c) (s.enter p g c)
  | lock {g : Gid} {n : Nat} {c : PanicCall} : s.places g = .lock c → s.panicMutex = none →
      ReportStep p s (.step g n) ({ s with panicMutex := some g }.enter p g c)
  | none {g : Gid} {n : Nat} {c : PanicCall} : s.places g = .next c [] →
      ReportStep p s (.step g n) (s.moveTo g (.ret c []))
  | skip {g : Gid} {n : Nat} {c : PanicCall} {dir : Bytes} {a : Attempt}
      {rest : List (Bytes × Attempt)} : s.places g = .next c ((dir, a) :: rest) →
      a.takes = false → ReportStep p s (.step g n) (s.moveTo g (.next c rest))
  | create {g : Gid} {n : Nat} {c : PanicCall} {dir : Bytes} {a : Attempt}
      {rest : List (Bytes × Attempt)} : s.places g = .next c ((dir, a) :: rest) →
      a.takes = true → ReportStep p s (.step g n)
        ((s.create (dir, p.panicName a.label) c).moveTo g
          (.write c (dir, p.panicName a.label) a.written 0))
  | chunk {g : Gid} {n : Nat} {c : PanicCall} {path : Path} {written off : Nat} :
      s.places g = .write c path written off → off < (goesThrough p c written).length →
      ReportStep p s (.step g n)
        ((s.pwrite path off (((goesThrough p c written).drop off).take n)).moveTo g
          (.write c path written (off + (((goesThrough p c written).drop off).take n).length)))
  | wrote {g : Gid} {n : Nat} {c : PanicCall} {path : Path} {written off : Nat} :
      s.places g = .write c path written off → (goesThrough p c written).length ≤ off →
      ReportStep p s (.step g n) (s.moveTo g (.ret c (report p c)))
  | retLog {g : Gid} {n : Nat} {c : PanicCall} {str : Bytes} : s.places g = .ret c str →
      c.handler = .handlePanicLog → ReportStep p s (.step g n)
        { { s with returned := s.returned ++ [str] }.moveTo g .idle with panicMutex := none }
  | ret {g : Gid} {n : Nat} {c : PanicCall} {str : Bytes} : s.places g = .ret c str →
      c.handler = .handlePanic →
      ReportStep p s (.step g n) ({ s with returned := s.returned ++ [str] }.moveTo g .idle)

section Steps

variable {p : Process} {fs : FileSystem} {u v : ReportState} {a : ReportAction}

theorem reportStep_cases (h : reportStep p u a = some v) : ReportStep p u a v := by
  cases a with
  | call g c =>
    rw [reportStep] at h
    split at h
    · rcases hc : c.handler with _ | _
      · rw [hc] at h
        cases h
        exact .call ‹_› hc
      · rw [hc] at h
        cases h
        exact .callLog ‹_› hc
    · cases h
  | step g n =>
    rw [reportStep] at h
    rcases hp : u.places g with _ | c | ⟨c, rest⟩ | ⟨c, path, written, off⟩ | ⟨c, str⟩ <;>
      rw [hp] at h
    · cases h
    · dsimp only at h
      split at h
      · cases h
        exact .lock hp ‹_›
      · cases h
    · rcases rest with _ | ⟨⟨dir, a⟩, rest⟩
      · cases h
        exact .none hp
      · rcases hm : a.mkdirAll with _ | _
        · simp only [hm] at h
          cases h
          exact .skip hp (by simp [Attempt.takes, hm])
        · rcases hc : a.create with _ | _
          · simp only [hm, hc] at h
            cases h
            exact .skip hp (by simp [Attempt.takes, hc])
          · simp only [hm, hc] at h
            cases h
            exact .create hp (by simp [Attempt.takes, hm, hc])
    · dsimp only at h
      split at h
      · cases h
        exact .chunk hp ‹_›
      · cases h
        exact .wrote hp (Nat.le_of_not_lt ‹_›)
    · rcases hc : c.handler with _ | _
      · simp only [hc] at h
        cases h
        exact .ret hp hc
      · simp only [hc] at h
        cases h
        exact .retLog hp hc

end Steps

@[simp] theorem ReportState.moveTo_files (s : ReportState) (g : Gid) (pc : ReportPc) :
    (s.moveTo g pc).files = s.files := rfl
@[simp] theorem ReportState.moveTo_served (s : ReportState) (g : Gid) (pc : ReportPc) :
    (s.moveTo g pc).served = s.served := rfl
@[simp] theorem ReportState.moveTo_creator (s : ReportState) (g : Gid) (pc : ReportPc) :
    (s.moveTo g pc).creator = s.creator := rfl

theorem ReportState.moveTo_places (s : ReportState) (g g' : Gid) (pc : ReportPc) :
    (s.moveTo g pc).places g' = if g' = g then pc else s.places g' :=
  Function.update_apply ..

theorem ReportState.create_files (s : ReportState) (path path' : Path) (c : PanicCall) :
    (s.create path c).files path' = if path' = path then some [] else s.files path' :=
  Function.update_apply ..

theorem ReportState.create_creator (s : ReportState) (path path' : Path) (c : PanicCall) :
    (s.create path c).creator path' = if path' = path then some c else s.creator path' :=
  Function.update_apply ..

theorem ReportState.pwrite_files (s : ReportState) (path path' : Path) (off : Nat)
    (chunk : Bytes) : (s.pwrite path off chunk).files path' =
      if path' = path then (s.files path).map fun content => Handle.pwrite content off chunk
      else s.files path' :=
  Function.update_apply ..

/-! ## What a place says about its call -/

/-- The place fits the candidates of its call. -/
def ReportPc.Fits (p : Process) (served : List PanicCall) : ReportPc → Prop
  | .idle | .lock _ | .ret _ _ => True
  | .next c rest => c ∈ served ∧ opened p c = (rest.find? fun t => t.2.takes).map fun t =>
      ((t.1, p.panicName t.2.label), t.2.written)
  | .write c path written off => c ∈ served ∧ opened p c = some (path, written) ∧
      off ≤ (goesThrough p c written).length

/-- It is the place of a goroutine that writes to the file. -/
def ReportPc.Writes (path : Path) : ReportPc → Prop
  | .write _ path' _ _ => path' = path
  | _ => False

structure ReportState.Sound (p : Process) (u : ReportState) : Prop where
  fits : ∀ g, (u.places g).Fits p u.served
  created : ∀ g path, (u.places g).Writes path → u.creator path ≠ none
  creator : ∀ path c, u.creator path = some c → c ∈ u.served ∧ ∃ n, opened p c = some (path, n)

section Sound

variable {p : Process} {fs : FileSystem} {u v : ReportState} {a : ReportAction} {g : Gid}

theorem ReportPc.Fits.mono {served served' : List PanicCall} {pc : ReportPc}
    (h : pc.Fits p served) (hsub : ∀ c ∈ served, c ∈ served') : pc.Fits p served' := by
  cases pc with
  | next => exact ⟨hsub _ h.1, h.2⟩
  | write => exact ⟨hsub _ h.1, h.2⟩
  | _ => trivial

theorem ReportState.Sound.moveTo (h : u.Sound p) {pc : ReportPc} (hfits : pc.Fits p u.served)
    (hcreated : ∀ path, pc.Writes path → u.creator path ≠ none) : (u.moveTo g pc).Sound p := by
  refine ⟨fun g' => ?_, fun g' path hw => ?_, h.creator⟩
  · rw [ReportState.moveTo_places]
    split
    · exact hfits
    · exact h.fits g'
  · rw [ReportState.moveTo_places] at hw
    split at hw
    · exact hcreated path hw
    · exact h.created g' path hw

theorem ReportState.Sound.enter (h : u.Sound p) (c : PanicCall) : (u.enter p g c).Sound p := by
  refine ReportState.Sound.moveTo ?_ ⟨List.mem_append_right _ (List.mem_singleton_self c), rfl⟩
    (fun _ hw => hw.elim)
  exact ⟨fun g' => (h.fits g').mono fun _ hc => List.mem_append_left _ hc, h.created,
    fun path c' hc => ⟨List.mem_append_left _ (h.creator path c' hc).1, (h.creator path c' hc).2⟩⟩

theorem ReportStep.sound (h : ReportStep p u a v) (hu : u.Sound p) : v.Sound p := by
  cases h with
  | callLog => exact hu.moveTo trivial fun _ hw => hw.elim
  | call => exact hu.enter _
  | @lock g =>
    have hmutex : ({ u with panicMutex := some g } : ReportState).Sound p :=
      ⟨hu.fits, hu.created, hu.creator⟩
    exact hmutex.enter _
  | none => exact hu.moveTo trivial fun _ hw => hw.elim
  | skip hp ha =>
    obtain ⟨hc, ho⟩ : ReportPc.Fits p u.served (.next _ (_ :: _)) := hp ▸ hu.fits _
    refine hu.moveTo ⟨hc, ?_⟩ fun _ hw => hw.elim
    rw [ho, List.find?_cons_of_neg (by simp [ha])]
  | @create g n c dir a rest hp ha =>
    obtain ⟨hc, ho⟩ : ReportPc.Fits p u.served (.next _ (_ :: _)) := hp ▸ hu.fits _
    rw [List.find?_cons_of_pos (by exact ha)] at ho
    have hfits : ReportPc.Fits p u.served (.write c (dir, p.panicName a.label) a.written 0) :=
      ⟨hc, ho, Nat.zero_le _⟩
    have hcreate : (u.create (dir, p.panicName a.label) c).Sound p := by
      refine ⟨hu.fits, fun g' path hw => ?_, fun path c' hcr => ?_⟩
      · rw [ReportState.create_creator]
        split
        · exact Option.some_ne_none _
        · exact hu.created g' path hw
      · rw [ReportState.create_creator] at hcr
        split at hcr
        · cases hcr
          subst path
          exact ⟨hc, _, ho⟩
        · exact hu.creator path c' hcr
    refine hcreate.moveTo hfits fun path hw => ?_
    cases hw
    rw [ReportState.create_creator, if_pos rfl]
    exact Option.some_ne_none _
  | @chunk g n c path written off hp hoff =>
    obtain ⟨hc, ho, -⟩ : ReportPc.Fits p u.served (.write _ _ _ _) := hp ▸ hu.fits _
    have hpwrite : (u.pwrite path off (((goesThrough p c written).drop off).take n)).Sound p :=
      ⟨hu.fits, hu.created, hu.creator⟩
    refine hpwrite.moveTo ⟨hc, ho, ?_⟩ fun path' hw => ?_
    · rw [List.length_take, List.length_drop]
      omega
    · exact hu.created g path' (hp ▸ hw)
  | wrote => exact hu.moveTo trivial fun _ hw => hw.elim
  | @retLog g | @ret g =>
    have hmove : (u.moveTo g .idle).Sound p := hu.moveTo trivial fun _ hw => hw.elim
    exact ⟨hmove.fits, hmove.created, hmove.creator⟩

theorem report_sound (h : (reportMachine p fs).Reach u) : u.Sound p := by
  refine h.invariant (P := ReportState.Sound p) ?_ fun u a v _ hu hs => ?_
  · exact ⟨fun _ => trivial, fun _ _ hw => hw.elim, fun _ _ hc => nomatch hc⟩
  · exact (reportStep_cases hs).sound hu

end Sound

/-! ## Steps by what they do to the files -/

/-- The file the step creates. -/
def ReportState.creates (p : Process) (s : ReportState) : ReportAction → Option Path
  | .call _ _ => none
  | .step g _ =>
    match s.places g with
    | .next _ ((dir, a) :: _) => if a.takes then some (dir, p.panicName a.label) else none
    | _ => none

inductive ReportState.Effect (p : Process) (u v : ReportState) (a : ReportAction) : Prop
  /-- None, and the same goroutines are inside `WriteString`. -/
  | none : v.files = u.files → v.creator = u.creator → (∀ c ∈ u.served, c ∈ v.served) →
      (∀ g c path n off, v.places g = .write c path n off ↔ u.places g = .write c path n off) →
      Effect p u v a
  | create {g : Gid} {c : PanicCall} {path : Path} {n : Nat} : u.creates p a = some path →
      (∀ path, ¬ (u.places g).Writes path) → v = (u.create path c).moveTo g (.write c path n 0) →
      Effect p u v a
  | chunk {g : Gid} {c : PanicCall} {path : Path} {n off m : Nat} :
      u.places g = .write c path n off →
      v = (u.pwrite path off (((goesThrough p c n).drop off).take m)).moveTo g
        (.write c path n (off + (((goesThrough p c n).drop off).take m).length)) →
      Effect p u v a
  /-- The text is through. -/
  | wrote {g : Gid} {c : PanicCall} {path : Path} {n off : Nat} {str : Bytes} :
      u.places g = .write c path n off → (goesThrough p c n).length ≤ off →
      v = u.moveTo g (.ret c str) → Effect p u v a

section Effects

variable {p : Process} {fs : FileSystem} {u v : ReportState} {a : ReportAction} {g : Gid}

/-- A goroutine outside `WriteString` moves to a place outside it. -/
theorem write_iff_of_outside {pc : ReportPc} (hv : v.places = Function.update u.places g pc)
    (hbefore : ∀ path, ¬ (u.places g).Writes path) (hafter : ∀ path, ¬ pc.Writes path) (g' : Gid)
    (c : PanicCall) (path : Path) (n off : Nat) :
    v.places g' = .write c path n off ↔ u.places g' = .write c path n off := by
  rw [hv, Function.update_apply]
  split
  · subst g'
    refine iff_of_false (fun h => ?_) (fun h => ?_)
    · exact hafter path (by rw [h]; rfl)
    · exact hbefore path (by rw [h]; rfl)
  · rfl

theorem ReportStep.effect (h : ReportStep p u a v) : u.Effect p v a := by
  cases h with
  | callLog hp | none hp | skip hp | retLog hp | ret hp =>
    exact .none rfl rfl (fun _ hc => hc)
      (write_iff_of_outside rfl (fun _ hw => by rw [hp] at hw; exact hw) fun _ hw => hw)
  | call hp | lock hp =>
    exact .none rfl rfl (fun _ hc => List.mem_append_left _ hc)
      (write_iff_of_outside rfl (fun _ hw => by rw [hp] at hw; exact hw) fun _ hw => hw)
  | create hp ha =>
    refine .create (by simp [ReportState.creates, hp, ha]) (fun path hw => ?_) rfl
    rw [hp] at hw
    exact hw
  | chunk hp => exact .chunk hp rfl
  | wrote hp hoff => exact .wrote hp hoff rfl

/-! ## Any calls -/

/-- Every byte is a zero or stands at the same place in a text that goes to this file. -/
def FromReports (p : Process) (calls : List PanicCall) (path : Path) (content : Bytes) : Prop :=
  ∀ (i : Nat) (b : UInt8), content[i]? = some b → b = 0 ∨
    ∃ c ∈ calls, ∃ n, opened p c = some (path, n) ∧ (goesThrough p c n)[i]? = some b

theorem FromReports.mono {calls calls' : List PanicCall} {path : Path} {content : Bytes}
    (h : FromReports p calls path content) (hsub : ∀ c ∈ calls, c ∈ calls') :
    FromReports p calls' path content := by
  intro i b hb
  exact (h i b hb).imp_right fun ⟨c, hc, hrest⟩ => ⟨c, hsub c hc, hrest⟩

structure ReportState.Mixed (p : Process) (fs : FileSystem) (u : ReportState) : Prop where
  untouched : ∀ path, u.creator path = none → u.files path = fs path
  created : ∀ path, u.creator path ≠ none →
    ∃ content, u.files path = some content ∧ FromReports p u.served path content

theorem ReportState.Effect.mixed (h : u.Effect p v a) (hsound : u.Sound p)
    (hu : u.Mixed p fs) : v.Mixed p fs := by
  cases h with
  | none hfiles hcreator hserved =>
    refine ⟨fun path hc => ?_, fun path hc => ?_⟩
    · rw [hfiles]
      exact hu.untouched path (hcreator ▸ hc)
    · obtain ⟨content, hf, hmix⟩ := hu.created path (hcreator ▸ hc)
      exact ⟨content, by rw [hfiles, hf], hmix.mono hserved⟩
  | @create g c path n _ _ hv =>
    subst hv
    refine ⟨fun path' hc => ?_, fun path' hc => ?_⟩ <;>
      simp only [ReportState.moveTo_creator, ReportState.create_creator] at hc <;>
      simp only [ReportState.moveTo_files, ReportState.create_files]
    · split at hc
      · cases hc
      · rw [if_neg ‹_›]
        exact hu.untouched path' hc
    · split at hc
      · exact ⟨[], if_pos ‹_›, fun i b hb => nomatch hb⟩
      · rw [if_neg ‹_›]
        exact hu.created path' hc
  | @chunk g c path n off m hp hv =>
    subst hv
    obtain ⟨hmem, ho, -⟩ : ReportPc.Fits p u.served (.write c path n off) := hp ▸ hsound.fits g
    have hpath : u.creator path ≠ Option.none := hsound.created g path (by rw [hp]; rfl)
    refine ⟨fun path' hc => ?_, fun path' hc => ?_⟩ <;>
      rw [ReportState.moveTo_files, ReportState.pwrite_files]
    · have hne : path' ≠ path := by
        rintro rfl
        exact hpath hc
      rw [if_neg hne]
      exact hu.untouched path' hc
    · obtain ⟨content, hf, hmix⟩ := hu.created path' hc
      split
      · subst path'
        refine ⟨_, by rw [hf, Option.map_some], fun i b hb => ?_⟩
        rcases getElem?_pwrite hb with ⟨hle, hchunk⟩ | hold | hzero
        · refine .inr ⟨c, hmem, n, ho, ?_⟩
          have hlt : i - off < m := by
            by_contra hge
            rw [List.getElem?_take_eq_none (by omega)] at hchunk
            cases hchunk
          rw [List.getElem?_take_of_lt hlt, List.getElem?_drop,
            show off + (i - off) = i by omega] at hchunk
          exact hchunk
        · exact hmix i b hold
        · exact .inl hzero
      · exact ⟨content, hf, hmix⟩
  | wrote _ _ hv =>
    subst hv
    exact ⟨hu.untouched, hu.created⟩

/-- In every run of any calls: a file nobody has created is as it was, and every byte of another
    one is a zero or stands at the same place in a report written to this file. -/
theorem report_bytes (h : (reportMachine p fs).Reach u) : u.Mixed p fs := by
  refine h.invariant (P := ReportState.Mixed p fs) ⟨fun _ _ => rfl, fun _ hc => absurd rfl hc⟩
    fun u a v hr hu hs => ?_
  exact (reportStep_cases hs).effect.mixed (report_sound hr) hu

/-! ## Calls that keep apart -/

/-- The step creates no file that somebody is writing to. -/
def ReportState.Apart (p : Process) (s : ReportState) (a : ReportAction) : Prop :=
  ∀ path, s.creates p a = some path → ∀ g, ¬ (s.places g).Writes path

/-- What a call writes to the file it creates. -/
def PanicCall.text (p : Process) (c : PanicCall) : Bytes :=
  goesThrough p c ((opened p c).elim 0 Prod.snd)

structure ReportState.Untorn (p : Process) (fs : FileSystem) (u : ReportState) : Prop where
  /-- A file has one writer. -/
  one : ∀ path g g', (u.places g).Writes path → (u.places g').Writes path → g = g'
  /-- Its file holds what has gone through. -/
  writing : ∀ g c path n off, u.places g = .write c path n off →
    u.creator path = some c ∧ u.files path = some ((c.text p).take off)
  /-- A file without a writer holds the text of the call that created it last. -/
  quiet : ∀ path, (∀ g, ¬ (u.places g).Writes path) →
    u.files path = match u.creator path with
      | none => fs path
      | some c => some (c.text p)

theorem ReportPc.writes_iff {pc : ReportPc} {path : Path} :
    pc.Writes path ↔ ∃ c n off, pc = .write c path n off := by
  constructor
  · intro h
    cases pc with
    | write c path' n off =>
      cases h
      exact ⟨c, n, off, rfl⟩
    | _ => exact h.elim
  · rintro ⟨c, n, off, rfl⟩
    rfl

theorem text_of_opened {c : PanicCall} {path : Path} {n : Nat} (h : opened p c = some (path, n)) :
    c.text p = goesThrough p c n := by
  rw [PanicCall.text, h]
  rfl

theorem ReportState.Untorn.same (hu : u.Untorn p fs) (hfiles : v.files = u.files)
    (hcreator : v.creator = u.creator)
    (hplaces : ∀ g c path n off, v.places g = .write c path n off ↔
      u.places g = .write c path n off) : v.Untorn p fs := by
  have hwrites : ∀ g path, (v.places g).Writes path ↔ (u.places g).Writes path := by
    intro g path
    simp only [ReportPc.writes_iff, hplaces]
  refine ⟨fun path g g' hg hg' => ?_, fun g c path n off hp => ?_, fun path hfree => ?_⟩
  · exact hu.one path g g' ((hwrites g path).mp hg) ((hwrites g' path).mp hg')
  · rw [hfiles, hcreator]
    exact hu.writing g c path n off ((hplaces g c path n off).mp hp)
  · rw [hfiles, hcreator]
    exact hu.quiet path fun g hw => hfree g ((hwrites g path).mpr hw)

theorem ReportState.Untorn.create (hu : u.Untorn p fs) {c : PanicCall} {path : Path} {n : Nat}
    (hfree : ∀ g, ¬ (u.places g).Writes path) (hbefore : ∀ path, ¬ (u.places g).Writes path)
    (heq : v = (u.create path c).moveTo g (.write c path n 0)) : v.Untorn p fs := by
  have hself : v.places g = .write c path n 0 := by
    rw [heq, ReportState.moveTo_places, if_pos rfl]
  have hother : ∀ g', g' ≠ g → v.places g' = u.places g' := fun g' hne => by
    rw [heq, ReportState.moveTo_places, if_neg hne]
    rfl
  have hcreator : ∀ path', v.creator path' = if path' = path then some c else u.creator path' :=
    fun path' => by rw [heq, ReportState.moveTo_creator, ReportState.create_creator]
  have hfiles : ∀ path', v.files path' = if path' = path then some [] else u.files path' :=
    fun path' => by rw [heq, ReportState.moveTo_files, ReportState.create_files]
  refine ⟨fun path' g₁ g₂ h₁ h₂ => ?_, fun g' c' path' n' off hp => ?_, fun path' hnone => ?_⟩
  · by_cases hg₁ : g₁ = g <;> by_cases hg₂ : g₂ = g
    · rw [hg₁, hg₂]
    · rw [hg₁, hself] at h₁
      cases h₁
      rw [hother g₂ hg₂] at h₂
      exact absurd h₂ (hfree g₂)
    · rw [hg₂, hself] at h₂
      cases h₂
      rw [hother g₁ hg₁] at h₁
      exact absurd h₁ (hfree g₁)
    · rw [hother g₁ hg₁] at h₁
      rw [hother g₂ hg₂] at h₂
      exact hu.one path' g₁ g₂ h₁ h₂
  · by_cases hg : g' = g
    · rw [hg, hself] at hp
      cases hp
      rw [hcreator, hfiles, if_pos rfl, if_pos rfl, List.take_zero]
      exact ⟨rfl, rfl⟩
    · rw [hother g' hg] at hp
      have hne : path' ≠ path := by
        rintro rfl
        exact hfree g' (by rw [hp]; rfl)
      rw [hcreator, hfiles, if_neg hne, if_neg hne]
      exact hu.writing g' c' path' n' off hp
  · have hne : path' ≠ path := by
      rintro rfl
      exact hnone g (by rw [hself]; rfl)
    rw [hcreator, hfiles, if_neg hne, if_neg hne]
    refine hu.quiet path' fun g' hw => ?_
    by_cases hg : g' = g
    · exact hbefore path' (hg ▸ hw)
    · exact hnone g' (by rwa [hother g' hg])

theorem ReportState.Untorn.chunk (hu : u.Untorn p fs) (hsound : u.Sound p) {c : PanicCall}
    {path : Path} {n off m : Nat} (hp : u.places g = .write c path n off)
    (heq : v = (u.pwrite path off (((goesThrough p c n).drop off).take m)).moveTo g
      (.write c path n (off + (((goesThrough p c n).drop off).take m).length))) :
    v.Untorn p fs := by
  obtain ⟨-, ho, hoff⟩ : ReportPc.Fits p u.served (.write c path n off) := hp ▸ hsound.fits g
  obtain ⟨hc, hf⟩ := hu.writing g c path n off hp
  rw [text_of_opened ho] at hf
  have hself : v.places g = .write c path n
      (off + (((goesThrough p c n).drop off).take m).length) := by
    rw [heq, ReportState.moveTo_places, if_pos rfl]
  have hother : ∀ g', g' ≠ g → v.places g' = u.places g' := fun g' hne => by
    rw [heq, ReportState.moveTo_places, if_neg hne]
    rfl
  have hcreator : v.creator = u.creator := by rw [heq]; rfl
  have hfiles : ∀ path', v.files path' =
      if path' = path then
        some ((goesThrough p c n).take
          (off + (((goesThrough p c n).drop off).take m).length))
      else u.files path' := fun path' => by
    rw [heq, ReportState.moveTo_files, ReportState.pwrite_files, hf, Option.map_some,
      pwrite_take hoff]
  have hwrites : ∀ g' path', (v.places g').Writes path' ↔ (u.places g').Writes path' := by
    intro g' path'
    by_cases hg : g' = g
    · rw [hg, hself, hp]
      rfl
    · rw [hother g' hg]
  refine ⟨fun path' g₁ g₂ h₁ h₂ => ?_, fun g' c' path' n' off' hp' => ?_, fun path' hnone => ?_⟩
  · exact hu.one path' g₁ g₂ ((hwrites g₁ path').mp h₁) ((hwrites g₂ path').mp h₂)
  · by_cases hg : g' = g
    · rw [hg, hself] at hp'
      cases hp'
      rw [hcreator, hfiles, if_pos rfl, text_of_opened ho]
      exact ⟨hc, rfl⟩
    · rw [hother g' hg] at hp'
      have hne : path' ≠ path := by
        rintro rfl
        exact hg (hu.one path' g' g (by rw [hp']; rfl) (by rw [hp]; rfl))
      rw [hcreator, hfiles, if_neg hne]
      exact hu.writing g' c' path' n' off' hp'
  · have hne : path' ≠ path := by
      rintro rfl
      exact hnone g (by rw [hself]; rfl)
    rw [hcreator, hfiles, if_neg hne]
    exact hu.quiet path' fun g' hw => hnone g' ((hwrites g' path').mpr hw)

theorem ReportState.Untorn.wrote (hu : u.Untorn p fs) (hsound : u.Sound p) {c : PanicCall}
    {path : Path} {n off : Nat} {str : Bytes} (hp : u.places g = .write c path n off)
    (hoff : (goesThrough p c n).length ≤ off) (heq : v = u.moveTo g (.ret c str)) :
    v.Untorn p fs := by
  obtain ⟨-, ho, -⟩ : ReportPc.Fits p u.served (.write c path n off) := hp ▸ hsound.fits g
  obtain ⟨hc, hf⟩ := hu.writing g c path n off hp
  have hother : ∀ g', g' ≠ g → v.places g' = u.places g' := fun g' hne => by
    rw [heq, ReportState.moveTo_places, if_neg hne]
  have hself : ∀ path', ¬ (v.places g).Writes path' := fun path' hw => by
    rw [heq, ReportState.moveTo_places, if_pos rfl] at hw
    exact hw
  have hkept : ∀ g' path', (v.places g').Writes path' → g' ≠ g ∧ (u.places g').Writes path' := by
    intro g' path' hw
    have hne : g' ≠ g := by
      rintro rfl
      exact hself path' hw
    exact ⟨hne, by rwa [hother g' hne] at hw⟩
  have hcreator : v.creator = u.creator := by rw [heq]; rfl
  have hfiles : v.files = u.files := by rw [heq]; rfl
  refine ⟨fun path' g₁ g₂ h₁ h₂ => ?_, fun g' c' path' n' off' hp' => ?_, fun path' hnone => ?_⟩
  · exact hu.one path' g₁ g₂ (hkept g₁ path' h₁).2 (hkept g₂ path' h₂).2
  · obtain ⟨hne, -⟩ := hkept g' path' (by rw [hp']; rfl)
    rw [hcreator, hfiles]
    exact hu.writing g' c' path' n' off' (by rw [← hother g' hne, hp'])
  · rw [hcreator, hfiles]
    by_cases hpath : path' = path
    · -- the text is in the file in full
      rw [hpath, hc, hf, List.take_of_length_le (by rw [text_of_opened ho]; exact hoff)]
    · refine hu.quiet path' fun g' hw => ?_
      by_cases hg : g' = g
      · rw [hg, hp] at hw
        exact hpath hw.symm
      · exact hnone g' (by rwa [hother g' hg])

theorem ReportState.Effect.untorn (h : u.Effect p v a) (hapart : u.Apart p a)
    (hsound : u.Sound p) (hu : u.Untorn p fs) : v.Untorn p fs := by
  cases h with
  | none hfiles hcreator _ hplaces => exact hu.same hfiles hcreator hplaces
  | create hcreates hbefore heq => exact hu.create (hapart _ hcreates) hbefore heq
  | chunk hp heq => exact hu.chunk hsound hp heq
  | wrote hp hoff heq => exact hu.wrote hsound hp hoff heq

/-- In every run in which nobody creates a file that somebody is writing to. -/
theorem reports_untorn (h : (reportMachine p fs).ReachIf (ReportState.Apart p) u) :
    u.Untorn p fs := by
  refine Machine.RunIf.invariant (P := ReportState.Untorn p fs) h ?_ fun u a v hr hu hapart hs => ?_
  · exact ⟨fun _ _ _ hw => hw.elim, nofun, fun _ _ => rfl⟩
  · exact (reportStep_cases hs).effect.untorn hapart (report_sound (Machine.ReachIf.reach hr)) hu

end Effects

/-! ## Only `HandlePanicLog` -/

/-- The step is none of a `HandlePanic`. -/
def ReportAction.locked : ReportAction → Bool
  | .call _ c => c.handler = .handlePanicLog
  | .step _ _ => true

/-- The call a goroutine is in. -/
def ReportPc.call : ReportPc → Option PanicCall
  | .idle => none
  | .lock c | .next c _ | .write c _ _ _ | .ret c _ => some c

/-- Inside `savePanicToFile`. -/
def ReportPc.inside : ReportPc → Bool
  | .idle | .lock _ => false
  | _ => true

/-- How far the call has come whose goroutine is at a place, from the state `s`, with the files
    as they are now. -/
def ReportPc.Progress (p : Process) (s : PanicState) (c : PanicCall) (files : FileSystem) :
    ReportPc → Prop
  | .idle | .lock _ => False
  | .next c' rest => c' = c ∧ files = s.files ∧
      savePanicToFile p c s.files = tryCandidates p (report p c) s.files rest
  | .write c' path written off => c' = c ∧
      files = s.files.createAndWrite path ((goesThrough p c written).take off) ∧
      savePanicToFile p c s.files =
        (report p c, s.files.createAndWrite path (goesThrough p c written))
  | .ret c' str => c' = c ∧ savePanicToFile p c s.files = (str, files)

/-- Whoever holds the mutex runs its call alone, after the calls that had it before. -/
structure ReportState.Serialized (p : Process) (fs : FileSystem) (u : ReportState) : Prop where
  handler : ∀ g c, (u.places g).call = some c → c.handler = .handlePanicLog
  inside : ∀ g, (u.places g).inside = true → u.panicMutex = some g
  free : u.panicMutex = none →
    panicRun p fs u.served = { files := u.files, returned := u.returned }
  held : ∀ g, u.panicMutex = some g → ∃ done c, u.served = done ++ [c] ∧
    (panicRun p fs done).returned = u.returned ∧
    (u.places g).Progress p (panicRun p fs done) c u.files

section Locked

variable {p : Process} {fs : FileSystem} {u v : ReportState} {a : ReportAction} {g : Gid}

/-- The holder takes a step inside `savePanicToFile`. -/
theorem ReportState.Serialized.advance (hu : u.Serialized p fs) {pc : ReportPc}
    (hin : (u.places g).inside = true) (hcall : pc.call = (u.places g).call)
    (hplaces : v.places = Function.update u.places g pc) (hmutex : v.panicMutex = u.panicMutex)
    (hserved : v.served = u.served) (hreturned : v.returned = u.returned)
    (hprogress : ∀ s c, (u.places g).Progress p s c u.files → pc.Progress p s c v.files) :
    v.Serialized p fs := by
  have hg : u.panicMutex = some g := hu.inside g hin
  refine ⟨fun g' c hc => ?_, fun g' hin' => ?_, fun hfree => ?_, fun g' hheld => ?_⟩
  · rw [hplaces, Function.update_apply] at hc
    split at hc
    · exact hu.handler g c (hcall ▸ hc)
    · exact hu.handler g' c hc
  · rw [hmutex]
    rw [hplaces, Function.update_apply] at hin'
    split at hin'
    · subst g'
      exact hg
    · exact hu.inside g' hin'
  · rw [hmutex, hg] at hfree
    cases hfree
  · rw [hmutex, hg] at hheld
    cases hheld
    obtain ⟨done, c, hdone, hret, hpc⟩ := hu.held g hg
    refine ⟨done, c, hserved.trans hdone, hret.trans hreturned.symm, ?_⟩
    rw [hplaces, Function.update_self]
    exact hprogress _ c hpc

/-- A call waits for the mutex. -/
theorem ReportState.Serialized.callLog (hu : u.Serialized p fs) {c : PanicCall}
    (hp : u.places g = .idle) (hc : c.handler = .handlePanicLog) :
    (u.moveTo g (.lock c)).Serialized p fs := by
  refine ⟨fun g' c' hc' => ?_, fun g' hin => ?_, hu.free, fun g' hheld => ?_⟩
  · rw [ReportState.moveTo_places] at hc'
    split at hc'
    · cases hc'
      exact hc
    · exact hu.handler g' c' hc'
  · rw [ReportState.moveTo_places] at hin
    split at hin
    · cases hin
    · exact hu.inside g' hin
  · obtain ⟨done, c', hdone, hret, hpc⟩ := hu.held g' hheld
    have hne : g' ≠ g := by
      rintro rfl
      rw [hp] at hpc
      exact hpc
    refine ⟨done, c', hdone, hret, ?_⟩
    rw [ReportState.moveTo_places, if_neg hne]
    exact hpc

/-- A call gets the mutex: nobody is inside. -/
theorem ReportState.Serialized.lock (hu : u.Serialized p fs) {c : PanicCall}
    (hp : u.places g = .lock c) (hfree : u.panicMutex = none) :
    ({ u with panicMutex := some g }.enter p g c).Serialized p fs := by
  have hnobody : ∀ g', (u.places g').inside = false := fun g' => by
    by_contra hin
    rw [hu.inside g' (by simpa using hin)] at hfree
    cases hfree
  refine ⟨fun g' c' hc' => ?_, fun g' hin => ?_, (by cases ·),
    fun g' hheld => ?_⟩
  · rw [ReportState.enter, ReportState.moveTo_places] at hc'
    split at hc'
    · cases hc'
      exact hu.handler g c (by rw [hp]; rfl)
    · exact hu.handler g' c' hc'
  · rw [ReportState.enter, ReportState.moveTo_places] at hin
    split at hin
    · subst g'
      rfl
    · exact absurd hin (by simp [hnobody g'])
  · cases hheld
    have hrun := hu.free hfree
    refine ⟨u.served, c, rfl, by rw [hrun]; rfl, ?_⟩
    rw [ReportState.enter, ReportState.moveTo_places, if_pos rfl, hrun]
    exact ⟨rfl, rfl, rfl⟩

/-- A call gives the mutex back: it is the last one of the sequence. -/
theorem ReportState.Serialized.retLog (hu : u.Serialized p fs) {c : PanicCall} {str : Bytes}
    (hp : u.places g = .ret c str) :
    ({ { u with returned := u.returned ++ [str] }.moveTo g .idle with
      panicMutex := none }).Serialized p fs := by
  have hin : (u.places g).inside = true := by rw [hp]; rfl
  have hg := hu.inside g hin
  have hother : ∀ g', g' ≠ g → (u.places g').inside = false := fun g' hne => by
    by_contra hin'
    have hg' := hu.inside g' (by simpa using hin')
    rw [hg] at hg'
    exact hne (Option.some.inj hg').symm
  refine ⟨fun g' c' hc' => ?_, fun g' hin' => ?_, fun _ => ?_, fun _ => (by cases ·)⟩
  · rw [ReportState.moveTo_places] at hc'
    split at hc'
    · cases hc'
    · exact hu.handler g' c' hc'
  · rw [ReportState.moveTo_places] at hin'
    split at hin'
    · cases hin'
    · exact absurd hin' (by simp [hother g' ‹_›])
  · obtain ⟨done, c', hdone, hret, hpc⟩ := hu.held g hg
    rw [hp] at hpc
    obtain ⟨rfl, hsave⟩ := hpc
    have hrun : panicRun p fs (done ++ [c]) = (panicRun p fs done).call p c := by
      rw [panicRun, List.foldl_append]
      rfl
    simp only [ReportState.moveTo_served, hdone, hrun, PanicState.call, hsave, hret]
    rfl

theorem ReportStep.serialized (h : ReportStep p u a v) (ha : a.locked = true)
    (hu : u.Serialized p fs) : v.Serialized p fs := by
  cases h with
  | callLog hp hc => exact hu.callLog hp hc
  | call _ hc =>
    rw [ReportAction.locked, hc] at ha
    cases ha
  | lock hp hfree => exact hu.lock hp hfree
  | @none g n c hp =>
    refine hu.advance (by rw [hp]; rfl) (by rw [hp]; rfl) rfl rfl rfl rfl fun s c' hpc => ?_
    rw [hp] at hpc
    obtain ⟨rfl, hfiles, hsave⟩ := hpc
    exact ⟨rfl, by rw [hsave, ← hfiles]; rfl⟩
  | @skip g n c dir a rest hp htakes =>
    refine hu.advance (by rw [hp]; rfl) (by rw [hp]; rfl) rfl rfl rfl rfl fun s c' hpc => ?_
    rw [hp] at hpc
    obtain ⟨rfl, hfiles, hsave⟩ := hpc
    refine ⟨rfl, hfiles, hsave.trans ?_⟩
    rw [tryCandidates_eq, tryCandidates_eq, List.find?_cons_of_neg (by simp [htakes])]
  | @create g n c dir a rest hp htakes =>
    refine hu.advance (by rw [hp]; rfl) (by rw [hp]; rfl) rfl rfl rfl rfl fun s c' hpc => ?_
    rw [hp] at hpc
    obtain ⟨rfl, hfiles, hsave⟩ := hpc
    refine ⟨rfl, ?_, hsave.trans ?_⟩
    · rw [List.take_zero, ← hfiles]
      rfl
    · rw [tryCandidates_eq, List.find?_cons_of_pos (by exact htakes)]
      rfl
  | @chunk g n c path written off hp hlt =>
    refine hu.advance (by rw [hp]; rfl) (by rw [hp]; rfl) rfl rfl rfl rfl fun s c' hpc => ?_
    rw [hp] at hpc
    obtain ⟨rfl, hfiles, hsave⟩ := hpc
    refine ⟨rfl, ?_, hsave⟩
    have hself : u.files path = some ((goesThrough p c written).take off) := by
      rw [hfiles, FileSystem.createAndWrite, Function.update_self]
    rw [ReportState.moveTo_files, ReportState.pwrite, hself, Option.map_some,
      pwrite_take hlt.le, hfiles, FileSystem.createAndWrite, FileSystem.createAndWrite,
      Function.update_idem]
  | @wrote g n c path written off hp hle =>
    refine hu.advance (by rw [hp]; rfl) (by rw [hp]; rfl) rfl rfl rfl rfl fun s c' hpc => ?_
    rw [hp] at hpc
    obtain ⟨rfl, hfiles, hsave⟩ := hpc
    refine ⟨rfl, ?_⟩
    rw [hsave, ReportState.moveTo_files, hfiles, List.take_of_length_le hle]
  | retLog hp hc => exact hu.retLog hp
  | ret hp hc =>
    have hlog := hu.handler _ _ (by rw [hp]; rfl)
    rw [hc] at hlog
    cases hlog

/-- In every run of `HandlePanicLog` calls. -/
theorem reports_serialized
    (h : (reportMachine p fs).ReachIf (fun _ a => a.locked = true) u) : u.Serialized p fs := by
  refine Machine.RunIf.invariant (P := ReportState.Serialized p fs) h ?_ fun u a v _ hu ha hs => ?_
  · exact ⟨nofun, nofun, fun _ => rfl, nofun⟩
  · exact (reportStep_cases hs).serialized ha hu

/-- The mutex keeps the calls apart. -/
theorem ReportState.Serialized.apart (hu : u.Serialized p fs) : u.Apart p a := by
  intro path hcreates g hw
  cases a with
  | call => cases hcreates
  | step g' n =>
    have hin : (u.places g).inside = true := by
      obtain ⟨c, k, off, hp⟩ := ReportPc.writes_iff.mp hw
      rw [hp]
      rfl
    have hin' : (u.places g').inside = true := by
      rw [ReportState.creates] at hcreates
      split at hcreates
      · rename_i hp
        rw [hp]
        rfl
      · cases hcreates
    have hg := hu.inside g hin
    rw [hu.inside g' hin'] at hg
    cases hg
    rw [ReportState.creates] at hcreates
    split at hcreates
    · rename_i hp
      rw [hp] at hw
      exact hw
    · cases hcreates

theorem locked_apart (h : (reportMachine p fs).ReachIf (fun _ a => a.locked = true) u) :
    (reportMachine p fs).ReachIf (ReportState.Apart p) u := by
  induction h with
  | refl => exact .refl
  | tail hr ha hs ih => exact .tail ih (reports_serialized hr).apart hs

end Locked

/-! ## Two panics in one hour -/

/-- Two `HandlePanicLog` calls that wait for each other; the text of each goes through in two
    parts. -/
def twoInTurn : List ReportAction :=
  let c := fun pdesc => { panicAt15 pdesc with handler := .handlePanicLog }
  [.call 0 (c (ascii "first")), .call 1 (c (ascii "second")), .step 1 0, .step 1 0, .step 1 20,
    .step 1 1000, .step 1 0, .step 1 0, .step 0 0, .step 0 0, .step 0 20]

theorem twoInTurn_runs : ((reportMachine app fun _ => none).execIf (fun _ a => a.locked)
    { files := fun _ => none } twoInTurn).isSome := by
  decide +kernel

theorem twoInTurn_locked : (reportMachine app fun _ => none).ReachIf (fun _ a => a.locked = true)
    (((reportMachine app fun _ => none).execIf (fun _ a => a.locked) { files := fun _ => none }
      twoInTurn).get twoInTurn_runs) :=
  Machine.execIf_run (Option.some_get twoInTurn_runs).symm

theorem reports_serialized_twoInTurn :
    (((reportMachine app fun _ => none).execIf (fun _ a => a.locked) { files := fun _ => none }
      twoInTurn).get twoInTurn_runs).Serialized app fun _ => none :=
  reports_serialized twoInTurn_locked

theorem reports_untorn_twoInTurn :
    (((reportMachine app fun _ => none).execIf (fun _ a => a.locked) { files := fun _ => none }
      twoInTurn).get twoInTurn_runs).Untorn app fun _ => none :=
  reports_untorn (locked_apart twoInTurn_locked)

theorem report_bytes_twoInTurn :
    (((reportMachine app fun _ => none).execIf (fun _ a => a.locked) { files := fun _ => none }
      twoInTurn).get twoInTurn_runs).Mixed app fun _ => none :=
  report_bytes (Machine.ReachIf.reach twoInTurn_locked)

/-- Two goroutines that panic at once. The second one creates the file of the first again, and
    the first writes while the second is at the word it writes. -/
def twoAtOnce : List ReportAction :=
  [.call 0 (panicAt15 (ascii "first")), .step 0 0, .call 1 (panicAt15 (ascii "second")), .step 1 0,
    .step 1 34, .step 0 1000, .step 1 1000, .step 0 0, .step 0 0, .step 1 0, .step 1 0]

theorem twoAtOnce_runs : ((reportMachine app fun _ => none).exec { files := fun _ => none }
    twoAtOnce).isSome := by
  decide +kernel

/-- Both texts went through in full and neither is in the file. -/
theorem reports_torn : ∃ u content, (reportMachine app fun _ => none).Reach u ∧
    u.returned = [report app (panicAt15 (ascii "first")),
      report app (panicAt15 (ascii "second"))] ∧
    u.files fileAt15 = some content ∧ ∀ str ∈ u.returned, ¬ str <:+: content :=
  ⟨_, ascii "Panic in [/src/logger.go:497] :\nficond\nSTACK:\ngoroutine 1",
    Machine.exec_reach (Option.some_get twoAtOnce_runs).symm, by decide +kernel,
    by decide +kernel, by decide +kernel⟩

end ZipoLogger
