/-
  logger.go: `savePanicToFile`, the reports of `HandlePanic` and `HandlePanicLog`.

  A report goes to the first of two candidate directories in which the directory can be made and
  the file created. The file is named after the program and the hour, creating it empties it, and
  the result of the write is not looked at. What the file system does is the call's input: per
  candidate, whether `MkdirAll` and `Create` succeed, the clock's hour there, and how many bytes
  `WriteString` gets through.

  `reports_kept` says which sequences of calls lose no report, in terms of the files they create
  and the bytes they write. A panic in the same hour as an earlier one, or a write that stops
  short, is what loses one: all is kept when every write gets through and no file is created
  twice, and but for reports that stand inside one another only then.

  Left out: what the two handlers print, the message to `errLog` and the sending of the report by
  `ErrorCatcher`. The working directory stays the same.
-/
import ZipoLogger.Lib.Overwrite
import ZipoLogger.Logger.Caller

namespace ZipoLogger

open Text Overwrite

/-! ## Files -/

/-- A file: its directory and its name. -/
abbrev Path := Bytes × Bytes

abbrev FileSystem := Path → Option Bytes

/-- The running program. -/
structure Process where
  /-- the name of the executable, `filepath.Base(os.Args[0])` -/
  base : Bytes
  /-- `logs` next to the executable -/
  exeLogs : Bytes
  /-- `logs` in the working directory; the two may be one directory -/
  logs : Bytes
  /-- the directory of logger.go, as `runtime.Caller` reports it -/
  source : Bytes

/-- The name of a panic log file; the label is the clock's `_2006-Jan-02_15`. -/
def Process.panicName (p : Process) (label : Bytes) : Bytes :=
  ascii "panic_" ++ p.base ++ label ++ ascii ".log"

/-- A panic log file in a candidate directory. -/
def Process.PanicFile (p : Process) (path : Path) : Prop :=
  (path.1 = p.exeLogs ∨ path.1 = p.logs) ∧ ∃ label, path.2 = p.panicName label

/-! ## A call -/

/-- What happens at one candidate directory. -/
structure Attempt where
  mkdirAll : Bool
  /-- the clock's hour -/
  label : Bytes
  create : Bool
  /-- the bytes `WriteString` gets through -/
  written : Nat
  deriving DecidableEq

inductive Handler where
  | handlePanic
  | handlePanicLog
  deriving DecidableEq

structure PanicCall where
  handler : Handler
  /-- the recovered value, formatted with `%v` or `%s` -/
  pdesc : Bytes
  /-- the stacks of all goroutines -/
  trace : Bytes
  /-- the attempt next to the executable -/
  exe : Attempt
  /-- the attempt in the working directory -/
  work : Attempt
  deriving DecidableEq

/-- `runtime.Caller(1)` inside `savePanicToFile`. -/
def Handler.caller (h : Handler) (source : Bytes) : Frame :=
  match h with
  | .handlePanic => ⟨source ++ ascii "/logger.go", 497⟩
  | .handlePanicLog => ⟨source ++ ascii "/logger.go", 413⟩

/-- `Stack`: as much as its buffer holds. -/
def Stack (trace : Bytes) : Bytes := trace.take (2 ^ 16)

/-- `str` of `savePanicToFile`. -/
def report (p : Process) (c : PanicCall) : Bytes :=
  let f := c.handler.caller p.source
  ascii "Panic in [" ++ f.file ++ ascii ":" ++ decimal f.line ++ ascii "] :\n" ++ c.pdesc ++
    ascii "\nSTACK:\n" ++ Stack c.trace

/-- `candidates` of `savePanicToFile`, with what happens at each. -/
def candidates (p : Process) (c : PanicCall) : List (Bytes × Attempt) :=
  [(p.exeLogs, c.exe), (p.logs, c.work)]

/-- `os.Create` and `f.WriteString`. -/
def FileSystem.createAndWrite (fs : FileSystem) (path : Path) (str : Bytes) : FileSystem :=
  Function.update fs path (some str)

/-- The loop of `savePanicToFile`. -/
def tryCandidates (p : Process) (str : Bytes) (fs : FileSystem) :
    List (Bytes × Attempt) → Bytes × FileSystem
  | [] => ([], fs)
  | (targetDir, a) :: rest =>
    if !a.mkdirAll then tryCandidates p str fs rest
    else if !a.create then tryCandidates p str fs rest
    else (str, fs.createAndWrite (targetDir, p.panicName a.label) (str.take a.written))

def savePanicToFile (p : Process) (c : PanicCall) (fs : FileSystem) : Bytes × FileSystem :=
  tryCandidates p (report p c) fs (candidates p c)

/-! ## Sequences of calls -/

structure PanicState where
  files : FileSystem
  /-- history: what the calls returned -/
  returned : List Bytes := []

def PanicState.call (p : Process) (s : PanicState) (c : PanicCall) : PanicState :=
  let r := savePanicToFile p c s.files
  { files := r.2, returned := s.returned ++ [r.1] }

/-- The calls one after the other. -/
def panicRun (p : Process) (fs : FileSystem) (calls : List PanicCall) : PanicState :=
  calls.foldl (PanicState.call p) { files := fs }

/-- A panic log file in a candidate directory contains `str` in full. -/
def PanicState.Logged (p : Process) (s : PanicState) (str : Bytes) : Prop :=
  ∃ path content, p.PanicFile path ∧ s.files path = some content ∧ str <:+: content

/-- A candidate directory can take a report. -/
def Attempt.takes (a : Attempt) : Bool := a.mkdirAll && a.create

/-- No report is lost, right after its call and after every later one, and a call returns the
    empty text only when no candidate could take its report. -/
structure NeverLost (p : Process) (fs : FileSystem) (calls : List PanicCall) : Prop where
  kept : ∀ n, ∀ str ∈ (panicRun p fs (calls.take n)).returned, str ≠ [] →
    (panicRun p fs (calls.take n)).Logged p str
  empty : ∀ n c, calls[n]? = some c →
    (savePanicToFile p c (panicRun p fs (calls.take n)).files).1 = [] →
    ∀ t ∈ candidates p c, t.2.takes = false

/-- The file a call creates, and the bytes written to it: at the first candidate that can take
    the report. -/
def opened (p : Process) (c : PanicCall) : Option (Path × Nat) :=
  ((candidates p c).find? fun t => t.2.takes).map fun t =>
    ((t.1, p.panicName t.2.label), t.2.written)

/-- The file a call creates. -/
def created (p : Process) (c : PanicCall) : Option Path := (opened p c).map Prod.fst

/-- Of the calls, the last one to create some file writes `str` to it; or `str` stands in a panic
    log file from before that none of them creates. -/
inductive Outlasts (p : Process) (fs : FileSystem) (calls : List PanicCall) (str : Bytes) : Prop
  | written {earlier later : List PanicCall} {d : PanicCall} {path : Path} {n : Nat} :
      calls = earlier ++ d :: later → opened p d = some (path, n) →
      (∀ d' ∈ later, created p d' ≠ some path) → str <:+: (report p d).take n →
      Outlasts p fs calls str
  | untouched {path : Path} {content : Bytes} : p.PanicFile path → fs path = some content →
      (∀ d ∈ calls, created p d ≠ some path) → str <:+: content → Outlasts p fs calls str

/-- Every write gets through, and no file is created twice. -/
structure Separate (p : Process) (calls : List PanicCall) : Prop where
  whole : ∀ c ∈ calls, ∀ path n, opened p c = some (path, n) → (report p c).length ≤ n
  distinct : calls.Pairwise fun c d => ∀ path, created p c = some path → created p d ≠ some path

/-- No report is part of another one, or of a panic log file from before. -/
structure Unrelated (p : Process) (fs : FileSystem) (calls : List PanicCall) : Prop where
  reports : calls.Pairwise fun c d => ¬ report p c <:+: report p d ∧ ¬ report p d <:+: report p c
  files : ∀ c ∈ calls, ∀ path content, p.PanicFile path → fs path = some content →
    ¬ report p c <:+: content

/-! ## What one call does -/

theorem report_ne_nil (p : Process) (c : PanicCall) : report p c ≠ [] := by
  intro h
  have hlen := congrArg List.length h
  simp only [report, List.length_append] at hlen
  have hstart : (ascii "Panic in [").length = 10 := by decide
  rw [hstart, List.length_nil] at hlen
  omega

theorem take_infix_iff {str : Bytes} {n : Nat} : str <:+: str.take n ↔ str.length ≤ n := by
  constructor
  · intro h
    have hle := h.length_le
    rw [List.length_take] at hle
    omega
  · intro h
    rw [List.take_of_length_le h]

theorem tryCandidates_eq (p : Process) (str : Bytes) (fs : FileSystem)
    (ts : List (Bytes × Attempt)) : tryCandidates p str fs ts =
      match ts.find? fun t => t.2.takes with
      | none => ([], fs)
      | some (dir, a) =>
        (str, fs.createAndWrite (dir, p.panicName a.label) (str.take a.written)) := by
  induction ts with
  | nil => rfl
  | cons t ts ih =>
    obtain ⟨dir, a⟩ := t
    rw [tryCandidates, List.find?_cons]
    rcases hm : a.mkdirAll with _ | _
    · simp [Attempt.takes, hm, ih]
    · rcases hc : a.create with _ | _
      · simp [Attempt.takes, hm, hc, ih]
      · simp [Attempt.takes, hm, hc]

/-- The call writes its report to the file it creates, or returns the empty text. -/
theorem savePanicToFile_eq (p : Process) (c : PanicCall) (fs : FileSystem) :
    savePanicToFile p c fs =
      match opened p c with
      | none => ([], fs)
      | some (path, n) => (report p c, fs.createAndWrite path ((report p c).take n)) := by
  rw [savePanicToFile, tryCandidates_eq, opened]
  cases (candidates p c).find? fun t => t.2.takes <;> rfl

/-- It returns the empty text exactly when no candidate can take the report. -/
theorem savePanicToFile_eq_nil (p : Process) (c : PanicCall) (fs : FileSystem) :
    (savePanicToFile p c fs).1 = [] ↔ ∀ t ∈ candidates p c, t.2.takes = false := by
  rw [savePanicToFile_eq]
  rcases ho : opened p c with _ | ⟨path, n⟩
  · have hnone : ∀ t ∈ candidates p c, ¬ t.2.takes = true :=
      List.find?_eq_none.mp (Option.map_eq_none_iff.mp ho)
    simpa using hnone
  · obtain ⟨t, ht, -⟩ := Option.map_eq_some_iff.mp ho
    constructor
    · intro h
      exact absurd h (report_ne_nil p c)
    · intro h
      have htakes := List.find?_some ht
      rw [h t (List.mem_of_find?_eq_some ht)] at htakes
      cases htakes

/-- A created file is a panic log file in a candidate directory. -/
theorem panicFile_of_opened {p : Process} {c : PanicCall} {path : Path} {n : Nat}
    (h : opened p c = some (path, n)) : p.PanicFile path := by
  obtain ⟨t, ht, heq⟩ := Option.map_eq_some_iff.mp h
  cases heq
  refine ⟨?_, t.2.label, rfl⟩
  have hmem := List.mem_of_find?_eq_some ht
  rcases List.mem_cons.mp hmem with rfl | hmem
  · exact .inl rfl
  · rw [List.mem_singleton.mp hmem]
    exact .inr rfl

/-! ## The calls as writes to cells -/

/-- A file content holds a text. -/
def Holds (content str : Bytes) : Prop := str <:+: content

/-- What a call writes. -/
def PanicCall.write (p : Process) (c : PanicCall) : Option (Write Path Bytes Bytes) :=
  (opened p c).map fun o => ⟨o.1, (report p c).take o.2, report p c⟩

/-- The files as cells, the returned reports as the items stored in them. -/
def PanicState.store (s : PanicState) : Store Path Bytes Bytes where
  cells := s.files
  items := s.returned.filter (· ≠ [])

theorem PanicState.store_call (p : Process) (s : PanicState) (c : PanicCall) :
    (s.call p c).store = s.store.step (c.write p) := by
  rw [PanicState.call, savePanicToFile_eq, PanicCall.write]
  rcases opened p c with _ | ⟨path, n⟩
  · simp [PanicState.store, Store.step]
  · simp [PanicState.store, Store.step, Store.write, FileSystem.createAndWrite, report_ne_nil]

theorem panicRun_store (p : Process) (fs : FileSystem) (calls : List PanicCall) :
    (panicRun p fs calls).store =
      Store.run { cells := fs } (calls.map (PanicCall.write p)) := by
  induction calls using List.reverseRecOn with
  | nil => rfl
  | append_singleton calls c ih =>
    have hrun : panicRun p fs (calls ++ [c]) = (panicRun p fs calls).call p c := by
      rw [panicRun, List.foldl_append]
      rfl
    rw [hrun, PanicState.store_call, ih, List.map_append, Store.run, Store.run,
      List.foldl_append]
    rfl

theorem PanicState.kept_iff (p : Process) (s : PanicState) :
    s.store.Kept p.PanicFile Holds ↔ ∀ str ∈ s.returned, str ≠ [] → s.Logged p str := by
  constructor
  · intro h str hstr hne
    exact h str (List.mem_filter.mpr ⟨hstr, by simpa using hne⟩)
  · intro h str hstr
    obtain ⟨hstr, hne⟩ := List.mem_filter.mp hstr
    exact h str hstr (by simpa using hne)

theorem PanicCall.write_eq_some {p : Process} {c : PanicCall} {w : Write Path Bytes Bytes}
    (h : c.write p = some w) :
    ∃ n, opened p c = some (w.cell, n) ∧ w.value = (report p c).take n ∧ w.item = report p c := by
  obtain ⟨⟨path, n⟩, ho, rfl⟩ := Option.map_eq_some_iff.mp h
  exact ⟨n, ho, rfl, rfl⟩

theorem PanicCall.write_of_opened {p : Process} {c : PanicCall} {path : Path} {n : Nat}
    (h : opened p c = some (path, n)) :
    c.write p = some ⟨path, (report p c).take n, report p c⟩ := by
  rw [PanicCall.write, h, Option.map_some]

theorem created_eq_some {p : Process} {c : PanicCall} {path : Path} :
    created p c = some path ↔ ∃ w, c.write p = some w ∧ w.cell = path := by
  rw [created, PanicCall.write]
  rcases opened p c with _ | ⟨path', n⟩ <;> simp

/-- A file is not created by calls whose writes go to other cells. -/
theorem created_ne_iff {p : Process} {calls : List PanicCall} {path : Path} :
    (∀ d ∈ calls, created p d ≠ some path) ↔
      ∀ w, some w ∈ calls.map (PanicCall.write p) → w.cell ≠ path := by
  simp only [ne_eq, created_eq_some, List.mem_map, not_exists, not_and]
  constructor
  · rintro h w ⟨d, hd, hw⟩
    exact h d hd w hw
  · intro h d hd w hw
    exact h w ⟨d, hd, hw⟩

/-- The writes of calls go to panic log files. -/
theorem panicFile_of_write {p : Process} {calls : List PanicCall} {w : Write Path Bytes Bytes}
    (h : some w ∈ calls.map (PanicCall.write p)) : p.PanicFile w.cell := by
  obtain ⟨c, -, hc⟩ := List.mem_map.mp h
  obtain ⟨n, ho, -⟩ := PanicCall.write_eq_some hc
  exact panicFile_of_opened ho

theorem outlasts_iff {p : Process} {fs : FileSystem} {calls : List PanicCall} {str : Bytes} :
    ({ cells := fs } : Store Path Bytes Bytes).Outlasts p.PanicFile Holds
      (calls.map (PanicCall.write p)) str ↔ Outlasts p fs calls str := by
  constructor
  · intro h
    cases h with
    | @written us vs w hws hlast hin =>
      obtain ⟨earlier, rest, rfl, -, hrest⟩ := List.map_eq_append_iff.mp hws
      obtain ⟨d, later, rfl, hd, rfl⟩ := List.map_eq_cons_iff.mp hrest
      obtain ⟨n, ho, hv, -⟩ := PanicCall.write_eq_some hd
      exact .written rfl ho (created_ne_iff.mpr hlast) (hv ▸ hin)
    | @untouched path content hpath hcontent hnone hin =>
      exact .untouched hpath hcontent (created_ne_iff.mpr hnone) hin
  · intro h
    cases h with
    | @written earlier later d path n hcalls ho hlast hin =>
      subst hcalls
      have hws : (earlier ++ d :: later).map (PanicCall.write p) =
          earlier.map (PanicCall.write p) ++ some ⟨path, (report p d).take n, report p d⟩ ::
            later.map (PanicCall.write p) := by
        rw [List.map_append, List.map_cons, PanicCall.write_of_opened ho]
      exact .written hws (created_ne_iff.mp hlast) hin
    | @untouched path content hpath hcontent hnone hin =>
      exact .untouched hpath hcontent (created_ne_iff.mp hnone) hin

theorem separate_iff {p : Process} {calls : List PanicCall} :
    Store.Separate Holds (calls.map (PanicCall.write p)) ↔ Separate p calls := by
  constructor
  · intro h
    refine ⟨fun c hc path n ho => ?_, ?_⟩
    · have hw := PanicCall.write_of_opened ho
      exact take_infix_iff.mp (h.whole _ (List.mem_map.mpr ⟨c, hc, hw⟩))
    · refine (List.pairwise_map.mp h.distinct).imp fun hne path hc hd => ?_
      obtain ⟨w, hw, rfl⟩ := created_eq_some.mp hc
      obtain ⟨w', hw', hcell⟩ := created_eq_some.mp hd
      exact hne w hw w' hw' hcell
  · intro h
    refine ⟨fun w hw => ?_, ?_⟩
    · obtain ⟨c, hc, hw⟩ := List.mem_map.mp hw
      obtain ⟨n, ho, hv, hi⟩ := PanicCall.write_eq_some hw
      rw [hv, hi]
      exact take_infix_iff.mpr (h.whole c hc _ n ho)
    · refine List.pairwise_map.mpr (h.distinct.imp fun hne w hw w' hw' hcell => ?_)
      exact hne w.cell (created_eq_some.mpr ⟨w, hw, rfl⟩) (created_eq_some.mpr ⟨w', hw', hcell⟩)

theorem Unrelated.writes {p : Process} {fs : FileSystem} {calls : List PanicCall}
    (h : Unrelated p fs calls) :
    Store.Unrelated p.PanicFile Holds { cells := fs } (calls.map (PanicCall.write p)) := by
  -- what is written is part of the report
  have hpart : ∀ {c : PanicCall} {w : Write Path Bytes Bytes} {str : Bytes},
      c.write p = some w → Holds w.value str → str <:+: report p c := by
    intro c w str hw hin
    obtain ⟨n, -, hv, -⟩ := PanicCall.write_eq_some hw
    rw [hv] at hin
    exact hin.trans (List.take_prefix _ _).isInfix
  refine ⟨List.pairwise_map.mpr (h.reports.imp fun hne w hw w' hw' => ?_), ?_⟩
  · obtain ⟨-, -, -, hi⟩ := PanicCall.write_eq_some hw
    obtain ⟨-, -, -, hi'⟩ := PanicCall.write_eq_some hw'
    exact ⟨fun hin => hne.2 (hi' ▸ hpart hw hin), fun hin => hne.1 (hi ▸ hpart hw' hin)⟩
  · intro w hw path content hpath hcontent hin
    obtain ⟨c, hc, hw⟩ := List.mem_map.mp hw
    obtain ⟨-, -, -, hi⟩ := PanicCall.write_eq_some hw
    exact h.files c hc path content hpath hcontent (hi ▸ hin)

/-! ## Sequences of calls -/

/-- No report is lost exactly when after every prefix of the calls every item is kept. -/
theorem neverLost_iff (p : Process) (fs : FileSystem) (calls : List PanicCall) :
    NeverLost p fs calls ↔ ∀ n, (Store.run { cells := fs }
      ((calls.take n).map (PanicCall.write p))).Kept p.PanicFile Holds := by
  simp only [← panicRun_store, PanicState.kept_iff]
  exact ⟨fun h => h.kept, fun h => ⟨h, fun n c _ => (savePanicToFile_eq_nil p c _).mp⟩⟩

/-- A sequence of calls, from any file system, loses no report exactly when each report outlasts
    the calls that follow. It does when every write gets through and no file is created twice;
    and only then, when no report is part of another one or of an earlier file. -/
theorem reports_kept (p : Process) (fs : FileSystem) (calls : List PanicCall) :
    (NeverLost p fs calls ↔ ∀ n, ∀ c ∈ calls.take n, created p c ≠ none →
      Outlasts p fs (calls.take n) (report p c)) ∧
    (Separate p calls → NeverLost p fs calls) ∧
    (Unrelated p fs calls → NeverLost p fs calls → Separate p calls) := by
  rw [neverLost_iff]
  refine ⟨forall_congr' fun n => ?_, fun h n => ?_, fun hun h => ?_⟩
  · rw [Store.kept_run_iff rfl fun _ => panicFile_of_write]
    simp only [outlasts_iff]
    constructor
    · intro h c hc hsome
      obtain ⟨path, hpath⟩ := Option.ne_none_iff_exists'.mp hsome
      obtain ⟨w, hw, -⟩ := created_eq_some.mp hpath
      obtain ⟨-, -, -, hi⟩ := PanicCall.write_eq_some hw
      exact hi ▸ h w (List.mem_map.mpr ⟨c, hc, hw⟩)
    · intro h w hw
      obtain ⟨c, hc, hw⟩ := List.mem_map.mp hw
      obtain ⟨-, -, -, hi⟩ := PanicCall.write_eq_some hw
      have hcreated := created_eq_some.mpr ⟨w, hw, rfl⟩
      exact hi ▸ h c hc (by simp [hcreated])
  · have hsep : Separate p (calls.take n) := ⟨fun c hc => h.whole c (List.mem_of_mem_take hc),
      h.distinct.sublist (List.take_sublist n calls)⟩
    exact Store.kept_of_separate rfl (fun _ => panicFile_of_write) (separate_iff.mpr hsep)
  · refine separate_iff.mp ((Store.kept_iff_of_unrelated rfl (fun _ => panicFile_of_write)
      hun.writes).mp fun us vs hsplit => ?_)
    obtain ⟨earlier, later, rfl, rfl, -⟩ := List.map_eq_append_iff.mp hsplit
    simpa using h earlier.length

/-! ## Two panics in one hour -/

/-- A program run from `/srv`. -/
def app : Process where
  base := ascii "app"
  exeLogs := ascii "/opt/logs"
  logs := ascii "/srv/logs"
  source := ascii "/src"

/-- A panic between 15 and 16 hours; nothing fails. -/
def panicAt15 (pdesc : Bytes) : PanicCall where
  handler := .handlePanic
  pdesc
  trace := ascii "goroutine 1"
  exe := ⟨true, ascii "_2024-May-06_15", true, 1000⟩
  work := ⟨true, ascii "_2024-May-06_15", true, 1000⟩

/-- One between 16 and 17 hours. -/
def panicAt16 (pdesc : Bytes) : PanicCall :=
  { panicAt15 pdesc with
    exe := ⟨true, ascii "_2024-May-06_16", true, 1000⟩
    work := ⟨true, ascii "_2024-May-06_16", true, 1000⟩ }

theorem reports_kept_twoHours :
    NeverLost app (fun _ => none) [panicAt15 (ascii "first"), panicAt16 (ascii "second")] := by
  refine (reports_kept app _ _).2.1 ⟨fun c hc path n ho => ?_, ?_⟩
  · rcases List.mem_pair.mp hc with rfl | rfl
    · cases ho
      decide +kernel
    · cases ho
      decide +kernel
  · refine List.pairwise_pair.mpr fun path hc hd => ?_
    cases hc
    exact absurd hd (by decide +kernel)

/-- The file of the former. -/
def fileAt15 : Path := (app.exeLogs, app.panicName (ascii "_2024-May-06_15"))

theorem opened_panicAt15 (pdesc : Bytes) :
    opened app (panicAt15 pdesc) = some (fileAt15, 1000) := rfl

def twoPanics : List PanicCall := [panicAt15 (ascii "first"), panicAt15 (ascii "second")]

/-- The second report empties the file of the first. -/
theorem panic_report_lost : ¬ ∀ p fs calls, NeverLost p fs calls := by
  intro h
  have hkept := (h app (fun _ => none) twoPanics).kept 2 (report app (panicAt15 (ascii "first")))
    (by decide +kernel) (report_ne_nil _ _)
  obtain ⟨path, content, -, hcontent, hin⟩ := hkept
  have hlast : (panicRun app (fun _ => none) (twoPanics.take 2)).files path =
      if path = fileAt15 then some ((report app (panicAt15 (ascii "second"))).take 1000)
      else none := by
    simp [panicRun, twoPanics, PanicState.call, savePanicToFile_eq, opened_panicAt15,
      FileSystem.createAndWrite, Function.update_apply]
  rw [hlast] at hcontent
  split at hcontent
  · cases hcontent
    exact absurd hin (by decide +kernel)
  · cases hcontent

end ZipoLogger
