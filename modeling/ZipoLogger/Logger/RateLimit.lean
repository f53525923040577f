/-
  `LimitedPrintf` called by any number of goroutines.

  `limitedMachine` runs beside the steps of `machine` the steps of `LimitedPrintf`: the `Get` of
  the cache, the age test, the reading of the clock, the `Add`, and the call of `printf`. Its
  clock never goes back. A goroutine inside `LimitedPrintf` does nothing else; with no other call
  in between, the steps do what `limitedPrintf` does (`limited_alone`).

  Reading and writing the cache are two steps and no lock is held across them. Two calls with one
  identifier can both read before either writes, and both go on to `printf`. Where no call does
  so, the stored times of an identifier lie a duration apart. The stored time is read before the
  `Add`; a call that stalls between that reading and its `printf` lets its message out together with
  the next one. Where no call does that either, a stretch of the run shorter than the duration sees
  one message at most (`limit_spaced`).

  History: `records` lists the `Add`s and `printfs` the calls of `printf`, `mark` is how many `Add`s
  there were when a call read the cache.
-/
import ZipoLogger.Logger.Calls
import ZipoLogger.Logger.Limited

namespace ZipoLogger

open Enc

/-! ## The machine -/

/-- The arguments of `LimitedPrintf`, with the text its format gives. -/
structure LimitedArgs where
  log : Ptr
  printid : Bytes
  duration : Int
  text : Bytes
  deriving DecidableEq

/-- Where a goroutine stands inside `LimitedPrintf`. -/
inductive LimitedPc where
  | idle
  /-- `limitedPrint.Get` -/
  | get (c : LimitedArgs)
  /-- the age test on what `Get` returned -/
  | test (c : LimitedArgs) (old : Option Int) (mark : Nat)
  /-- `time.Now()` -/
  | stamp (c : LimitedArgs) (mark : Nat)
  /-- `limitedPrint.Add` -/
  | add (c : LimitedArgs) (t : Int) (mark : Nat)
  /-- the call of `printf` -/
  | printf (c : LimitedArgs)
  deriving DecidableEq

/-- history: an `Add`, with the number of the `printf` call that follows it. -/
structure LimitRecord where
  log : Ptr
  printid : Bytes
  time : Int
  call : Gid × Nat
  deriving DecidableEq

structure LimitedState where
  base : State := {}
  /-- the caches; a logger is allocated with an empty one -/
  limitedPrint : Ptr → LimitCache := fun _ => Lru.empty
  now : Int := 0
  places : Gid → LimitedPc := fun _ => .idle
  records : List LimitRecord := []
  /-- history: the calls of `printf`, with the clock -/
  printfs : List (LimitedArgs × Int) := []
  /-- history: the goroutines that called a method of a nil cache -/
  nilPanics : List Gid := []

inductive LimitedAction where
  /-- a step of the rest of the package -/
  | base (a : Action)
  | tick (δ : Nat)
  | call (g : Gid) (c : LimitedArgs)
  | step (g : Gid)
  deriving DecidableEq

/-- A goroutine inside `LimitedPrintf` takes no other step. -/
def LimitedState.free (s : LimitedState) : Action → Bool
  | .go g _ => s.places g = .idle
  | _ => true

def LimitedState.moveTo (s : LimitedState) (g : Gid) (pc : LimitedPc) : LimitedState :=
  { s with places := Function.update s.places g pc }

def LimitedState.setCache (s : LimitedState) (l : Ptr) (c : LimitCache) : LimitedState :=
  { s with limitedPrint := Function.update s.limitedPrint l c }

/-- The cache of a logger is assigned in an `Add`. -/
def LimitedState.record (s : LimitedState) (c : LimitCache) (r : LimitRecord) : LimitedState :=
  { s.setCache r.log c with records := s.records ++ [r] }

/-- The call of `LimitedPrintf`. The cache of `EmptyLogger` is nil. -/
def beginLimited (s : LimitedState) (g : Gid) (c : LimitedArgs) : Option LimitedState :=
  match s.base.threads[g]? with
  | some ⟨.idle, _⟩ =>
    if s.places g = .idle ∧ c.log < s.base.sh.nlog then
      if c.log = emptyLogger then some { s with nilPanics := s.nilPanics ++ [g] }
      else some (s.moveTo g (.get c))
    else none
  | _ => none

/-- One step inside `LimitedPrintf`. -/
def insideLimited (P : Primitives) (s : LimitedState) (g : Gid) : Option LimitedState :=
  match s.places g with
  | .idle => none
  | .get c =>
    let r := limitGet (s.limitedPrint c.log) s.now c.printid
    some ((s.setCache c.log r.2).moveTo g (.test c r.1 s.records.length))
  | .test c old mark =>
    if tooSoon old s.now c.duration then some (s.moveTo g .idle)
    else some (s.moveTo g (.stamp c mark))
  | .stamp c mark => some (s.moveTo g (.add c s.now mark))
  | .add c t _ =>
    match s.base.threads[g]? with
    | none => none
    | some thread =>
      some ((s.record (limitAdd (s.limitedPrint c.log) s.now c.printid t)
        ⟨c.log, c.printid, t, (g, thread.seq + 1)⟩).moveTo g (.printf c))
  | .printf c =>
    match ZipoLogger.step P s.base (.go g (.call (.print c.log c.text))) with
    | none => none
    | some base => some ({ s with base, printfs := s.printfs ++ [(c, s.now)] }.moveTo g .idle)

def limitedStep (P : Primitives) (s : LimitedState) : LimitedAction → Option LimitedState
  | .base a =>
    if s.free a then
      match ZipoLogger.step P s.base a with
      | none => none
      | some base => some { s with base }
    else none
  | .tick δ => some { s with now := s.now + δ }
  | .call g c => beginLimited s g c
  | .step g => insideLimited P s g

/-- The package with `LimitedPrintf`. -/
def limitedMachine (P : Primitives) : Machine LimitedState LimitedAction where
  init := {}
  step := limitedStep P

/-! ## What a step can do -/

/-- The ways the machine can move. -/
inductive LimitedStep (P : Primitives) (s : LimitedState) : LimitedAction → LimitedState → Prop
  | base {a : Action} {b : State} : s.free a = true → ZipoLogger.step P s.base a = some b →
      LimitedStep P s (.base a) { s with base := b }
  | tick {δ : Nat} : LimitedStep P s (.tick δ) { s with now := s.now + δ }
  | callNil {g : Gid} {c : LimitedArgs} : c.log = emptyLogger →
      LimitedStep P s (.call g c) { s with nilPanics := s.nilPanics ++ [g] }
  | call {g : Gid} {c : LimitedArgs} {seq : Nat} : s.base.threads[g]? = some ⟨.idle, seq⟩ →
      s.places g = .idle → c.log < s.base.sh.nlog → c.log ≠ emptyLogger →
      LimitedStep P s (.call g c) (s.moveTo g (.get c))
  | get {g : Gid} {c : LimitedArgs} : s.places g = .get c →
      LimitedStep P s (.step g)
        ((s.setCache c.log (limitGet (s.limitedPrint c.log) s.now c.printid).2).moveTo g
          (.test c (limitGet (s.limitedPrint c.log) s.now c.printid).1 s.records.length))
  | suppressed {g : Gid} {c : LimitedArgs} {old : Option Int} {mark : Nat} :
      s.places g = .test c old mark → tooSoon old s.now c.duration = true →
      LimitedStep P s (.step g) (s.moveTo g .idle)
  | passed {g : Gid} {c : LimitedArgs} {old : Option Int} {mark : Nat} :
      s.places g = .test c old mark → tooSoon old s.now c.duration = false →
      LimitedStep P s (.step g) (s.moveTo g (.stamp c mark))
  | stamp {g : Gid} {c : LimitedArgs} {mark : Nat} : s.places g = .stamp c mark →
      LimitedStep P s (.step g) (s.moveTo g (.add c s.now mark))
  | add {g : Gid} {c : LimitedArgs} {t : Int} {mark : Nat} {thread : Thread} :
      s.places g = .add c t mark → s.base.threads[g]? = some thread →
      LimitedStep P s (.step g)
        ((s.record (limitAdd (s.limitedPrint c.log) s.now c.printid t)
          ⟨c.log, c.printid, t, (g, thread.seq + 1)⟩).moveTo g (.printf c))
  | printf {g : Gid} {c : LimitedArgs} {b : State} : s.places g = .printf c →
      ZipoLogger.step P s.base (.go g (.call (.print c.log c.text))) = some b →
      LimitedStep P s (.step g)
        ({ s with base := b, printfs := s.printfs ++ [(c, s.now)] }.moveTo g .idle)

variable {P : Primitives} {u v : LimitedState} {a : LimitedAction}

theorem beginLimited_cases {g : Gid} {c : LimitedArgs} (h : beginLimited u g c = some v) :
    LimitedStep P u (.call g c) v := by
  unfold beginLimited at h
  split at h
  · rename_i seq ht
    split at h
    · rename_i hfree
      split at h
      · cases h
        exact .callNil ‹_›
      · cases h
        exact .call ht hfree.1 hfree.2 ‹_›
    · cases h
  · cases h

theorem insideLimited_cases {g : Gid} (h : insideLimited P u g = some v) :
    LimitedStep P u (.step g) v := by
  unfold insideLimited at h
  split at h
  · cases h
  · cases h
    exact .get ‹_›
  · split at h
    · cases h
      exact .suppressed ‹_› ‹_›
    · cases h
      exact .passed ‹_› (Bool.eq_false_iff.mpr ‹_›)
  · cases h
    exact .stamp ‹_›
  · split at h
    · cases h
    · cases h
      exact .add ‹_› ‹_›
  · split at h
    · cases h
    · cases h
      exact .printf ‹_› ‹_›

theorem limitedStep_cases (h : limitedStep P u a = some v) : LimitedStep P u a v := by
  unfold limitedStep at h
  split at h
  · split at h
    · split at h
      · cases h
      · cases h
        exact .base ‹_› ‹_›
    · cases h
  · cases h
    exact .tick
  · exact beginLimited_cases h
  · exact insideLimited_cases h

/-- What `LimitedPrintf` adds leaves the package alone: a run is a run of the package. -/
theorem LimitedStep.base_reach (h : LimitedStep P u a v) (hu : (machine P).Reach u.base) :
    (machine P).Reach v.base := by
  cases h with
  | base _ hs => exact reach_step hu hs
  | printf _ hs => exact reach_step hu hs
  | _ => exact hu

theorem limited_base_reach (h : (limitedMachine P).Reach u) : (machine P).Reach u.base := by
  refine Machine.Reach.invariant (P := fun u => (machine P).Reach u.base) h ?_ ?_
  · exact .refl
  · intro u a v _ hu hs
    exact (limitedStep_cases hs).base_reach hu

/-! ## The conditions on a run -/

/-- What the limit is about: a logger and an identifier. -/
def LimitedArgs.key (c : LimitedArgs) : Ptr × Bytes := (c.log, c.printid)

def LimitRecord.key (r : LimitRecord) : Ptr × Bytes := (r.log, r.printid)

/-- The recorded times of a key, in the order of the `Add`s. -/
def LimitedState.times (s : LimitedState) (k : Ptr × Bytes) : List Int :=
  (s.records.filter fun r => r.key = k).map LimitRecord.time

/-- The clock at the calls of `printf` for a key. -/
def LimitedState.printTimes (s : LimitedState) (k : Ptr × Bytes) : List Int :=
  (s.printfs.filter fun p => p.1.key = k).map Prod.snd

/-- Every call with the key has the duration `d`, and no `Add` to the cache of its logger drops an
    entry. -/
def inSetting (k : Ptr × Bytes) (d : Int) (s : LimitedState) : LimitedAction → Bool
  | .call _ c => c.key ≠ k || c.duration = d
  | .step g =>
    match s.places g with
    | .add c t _ => c.log ≠ k.1 || ((s.limitedPrint c.log).add c.printid ⟨t, s.now⟩).2 = none
    | _ => true
  | _ => true

/-- A call with the key stores its time only when no other has since its `Get`. -/
def inOrder (k : Ptr × Bytes) (s : LimitedState) : LimitedAction → Bool
  | .step g =>
    match s.places g with
    | .add c _ mark => c.key ≠ k || (s.records.drop mark).all fun r => r.key ≠ k
    | _ => true
  | _ => true

/-- A call with the key has read the clock and not called `printf` yet. -/
def LimitedPc.timed (k : Ptr × Bytes) : LimitedPc → Bool
  | .add c _ _ | .printf c => c.key = k
  | _ => false

/-- The clock moves only while no call with the key is between its reading of the clock and its
    `printf`. -/
def inTime (k : Ptr × Bytes) (s : LimitedState) : LimitedAction → Bool
  | .tick δ => δ = 0 || (List.range s.base.threads.length).all fun g => !(s.places g).timed k
  | _ => true

theorem inSetting_add {k : Ptr × Bytes} {d : Int} {s : LimitedState} {g : Gid} {c : LimitedArgs}
    {t : Int} {mark : Nat} (h : inSetting k d s (.step g) = true) (hp : s.places g = .add c t mark)
    (hl : c.log = k.1) : ((s.limitedPrint c.log).add c.printid ⟨t, s.now⟩).2 = none := by
  simpa [inSetting, hp, hl] using h

theorem inOrder_add {k : Ptr × Bytes} {s : LimitedState} {g : Gid} {c : LimitedArgs} {t : Int}
    {mark : Nat} (h : inOrder k s (.step g) = true) (hp : s.places g = .add c t mark)
    (hk : c.key = k) : ∀ r ∈ s.records.drop mark, r.key ≠ k := by
  simpa [inOrder, hp, hk] using h

/-! ## What a call knows of the times before -/

/-- What holds of the times of `k` among the first `mark` records. -/
structure LimitedState.Seen (s : LimitedState) (k : Ptr × Bytes) (mark : Nat) (Q : Int → Prop) :
    Prop where
  mark_le : mark ≤ s.records.length
  holds : ∀ r ∈ s.records.take mark, r.key = k → Q r.time

/-- What a place inside a call with the key `k` knows. -/
def LimitedPc.Clear (s : LimitedState) (k : Ptr × Bytes) (d : Int) : LimitedPc → Prop
  | .get c => c.key = k → c.duration = d
  | .test c none mark => c.key = k → c.duration = d ∧ s.Seen k mark fun t => t + d ≤ s.now
  | .test c (some v) mark => c.key = k → c.duration = d ∧ s.Seen k mark fun t => t ≤ v
  | .stamp c mark => c.key = k → s.Seen k mark fun t => t + d ≤ s.now
  | .add c t mark => c.key = k → t ≤ s.now ∧ s.Seen k mark fun t' => t' + d ≤ t
  | _ => True

theorem LimitedState.Seen.mono {s s' : LimitedState} {k : Ptr × Bytes} {mark : Nat}
    {Q Q' : Int → Prop} (h : s.Seen k mark Q) (hr : s.records <+: s'.records)
    (hQ : ∀ t, Q t → Q' t) : s'.Seen k mark Q' := by
  obtain ⟨rest, hrest⟩ := hr
  have hle := h.mark_le
  refine ⟨?_, fun r hm hk => hQ _ (h.holds r ?_ hk)⟩
  · rw [← hrest, List.length_append]
    omega
  · rwa [← hrest, List.take_append_of_le_length hle] at hm

/-- What a place knows stays true when time passes and records are added. -/
theorem LimitedPc.Clear.mono {s s' : LimitedState} {k : Ptr × Bytes} {d : Int} {pc : LimitedPc}
    (h : pc.Clear s k d) (hr : s.records <+: s'.records) (hn : s.now ≤ s'.now) :
    pc.Clear s' k d := by
  rcases pc with _ | c | ⟨c, old, mark⟩ | ⟨c, mark⟩ | ⟨c, t, mark⟩ | c
  · trivial
  · exact h
  · rcases old with _ | v
    · intro hk
      obtain ⟨hd, hs⟩ := h hk
      exact ⟨hd, hs.mono hr fun t ht => ht.trans hn⟩
    · intro hk
      obtain ⟨hd, hs⟩ := h hk
      exact ⟨hd, hs.mono hr fun t ht => ht⟩
  · intro hk
    exact (h hk).mono hr fun t ht => ht.trans hn
  · intro hk
    obtain ⟨ht, hs⟩ := h hk
    exact ⟨ht.trans hn, hs.mono hr fun t' ht' => ht'⟩
  · trivial

/-- The times of `k` lie `d` apart, the cache holds a time no earlier than any of them, and every
    goroutine knows what its place says. -/
structure LimitedState.Spaced (s : LimitedState) (k : Ptr × Bytes) (d : Int) : Prop where
  pairwise : (s.times k).Pairwise fun t t' => t + d ≤ t'
  kept : ∀ t ∈ s.times k, ∃ e, (s.limitedPrint k.1).get? k.2 = some e ∧
    t ≤ e.value ∧ e.value ≤ e.added ∧ e.added ≤ s.now
  clear : ∀ g, (s.places g).Clear s k d

section Frame

variable (s : LimitedState) (g g' : Gid) (pc : LimitedPc) (l l' : Ptr) (c : LimitCache)
  (r : LimitRecord)

theorem LimitedState.moveTo_places :
    (s.moveTo g pc).places g' = if g' = g then pc else s.places g' := by
  simp [LimitedState.moveTo, Function.update_apply]

theorem LimitedState.setCache_limitedPrint :
    (s.setCache l c).limitedPrint l' = if l' = l then c else s.limitedPrint l' := by
  simp [LimitedState.setCache, Function.update_apply]

@[simp] theorem LimitedState.moveTo_base : (s.moveTo g pc).base = s.base := rfl
@[simp] theorem LimitedState.setCache_base : (s.setCache l c).base = s.base := rfl
@[simp] theorem LimitedState.record_base : (s.record c r).base = s.base := rfl
@[simp] theorem LimitedState.moveTo_printfs : (s.moveTo g pc).printfs = s.printfs := rfl
@[simp] theorem LimitedState.moveTo_records : (s.moveTo g pc).records = s.records := rfl
@[simp] theorem LimitedState.moveTo_now : (s.moveTo g pc).now = s.now := rfl
@[simp] theorem LimitedState.moveTo_limitedPrint :
    (s.moveTo g pc).limitedPrint = s.limitedPrint := rfl
@[simp] theorem LimitedState.moveTo_times (k : Ptr × Bytes) :
    (s.moveTo g pc).times k = s.times k := rfl
@[simp] theorem LimitedState.setCache_records : (s.setCache l c).records = s.records := rfl
@[simp] theorem LimitedState.setCache_now : (s.setCache l c).now = s.now := rfl
@[simp] theorem LimitedState.setCache_places : (s.setCache l c).places = s.places := rfl
@[simp] theorem LimitedState.setCache_times (k : Ptr × Bytes) :
    (s.setCache l c).times k = s.times k := rfl
@[simp] theorem LimitedState.record_records : (s.record c r).records = s.records ++ [r] := rfl
@[simp] theorem LimitedState.record_now : (s.record c r).now = s.now := rfl
@[simp] theorem LimitedState.record_places : (s.record c r).places = s.places := rfl

theorem LimitedState.record_limitedPrint :
    (s.record c r).limitedPrint l = if l = r.log then c else s.limitedPrint l :=
  LimitedState.setCache_limitedPrint s r.log l c

theorem LimitedState.record_times (k : Ptr × Bytes) :
    (s.record c r).times k = s.times k ++ if r.key = k then [r.time] else [] := by
  rw [LimitedState.times, LimitedState.record_records, List.filter_append, List.map_append]
  by_cases hk : r.key = k <;> simp [hk, LimitedState.times]

end Frame

/-- A goroutine moves: what the others know is kept. -/
theorem LimitedState.clear_moveTo {s s' : LimitedState} {k : Ptr × Bytes} {d : Int} {g : Gid}
    {pc : LimitedPc} (h : ∀ g, (s.places g).Clear s k d) (hp : s'.places = s.places)
    (hr : s.records <+: s'.records) (hn : s.now ≤ s'.now) (hpc : pc.Clear s' k d) :
    ∀ g', ((s'.moveTo g pc).places g').Clear (s'.moveTo g pc) k d := by
  intro g'
  rw [LimitedState.moveTo_places]
  split
  · exact hpc.mono (List.prefix_refl _) (Int.le_refl _)
  · rw [hp]
    exact (h g').mono hr hn

/-- What a call learns from its `Get`. -/
theorem LimitedState.Spaced.get {s : LimitedState} {k : Ptr × Bytes} {d : Int}
    (hs : s.Spaced k d) (hd : d ≤ expire) {c : LimitedArgs} (hk : c.key = k)
    (hdur : c.duration = d) :
    (LimitedPc.test c (limitGet (s.limitedPrint c.log) s.now c.printid).1 s.records.length).Clear
      s k d := by
  obtain rfl := hk
  have hmem : ∀ r ∈ s.records.take s.records.length, r.key = c.key → r.time ∈ s.times c.key := by
    intro r hr hk
    rw [List.take_length] at hr
    exact List.mem_map_of_mem (List.mem_filter.mpr ⟨hr, by simpa using hk⟩)
  have hkept := hs.kept
  unfold limitGet
  split
  · rename_i e he
    split
    · -- the entry is found: no time is later
      refine fun _ => ⟨hdur, Nat.le_refl _, fun r hr hk => ?_⟩
      obtain ⟨e', he', hle, -, -⟩ := hkept _ (hmem r hr hk)
      rw [Option.some.inj (he.symm.trans he')]
      exact hle
    · -- the entry has expired: every time is a day old
      rename_i hexp
      refine fun _ => ⟨hdur, Nat.le_refl _, fun r hr hk => ?_⟩
      obtain ⟨e', he', hle, hle', -⟩ := hkept _ (hmem r hr hk)
      obtain rfl := Option.some.inj (he.symm.trans he')
      omega
  · -- no entry: no time was recorded
    rename_i hnone
    refine fun _ => ⟨hdur, Nat.le_refl _, fun r hr hk => ?_⟩
    obtain ⟨e', he', -⟩ := hkept _ (hmem r hr hk)
    rw [show s.limitedPrint c.key.1 = s.limitedPrint c.log from rfl] at he'
    exact absurd (hnone.symm.trans he') (by simp)

/-- An `Add` in order. -/
theorem LimitedState.Spaced.record {s : LimitedState} {k : Ptr × Bytes} {d : Int}
    (hs : s.Spaced k d) (hd : 0 < d) {c : LimitedArgs} {t : Int} {mark : Nat} (call : Gid × Nat)
    (hclear : (LimitedPc.add c t mark).Clear s k d)
    (hdrop : c.log = k.1 → ((s.limitedPrint c.log).add c.printid ⟨t, s.now⟩).2 = none)
    (horder : c.key = k → ∀ r ∈ s.records.drop mark, r.key ≠ k) :
    let s' := s.record (limitAdd (s.limitedPrint c.log) s.now c.printid t)
      ⟨c.log, c.printid, t, call⟩
    (s'.times k).Pairwise (fun t t' => t + d ≤ t') ∧
      ∀ t ∈ s'.times k, ∃ e, (s'.limitedPrint k.1).get? k.2 = some e ∧
        t ≤ e.value ∧ e.value ≤ e.added ∧ e.added ≤ s'.now := by
  intro s'
  have htimes : s'.times k = s.times k ++ if c.key = k then [t] else [] :=
    s.record_times _ _ k
  have hcache : ∀ l, s'.limitedPrint l = if l = c.log then
      limitAdd (s.limitedPrint c.log) s.now c.printid t else s.limitedPrint l :=
    fun l => s.record_limitedPrint l _ _
  by_cases hk : c.key = k
  · -- every earlier time is a duration before this one
    obtain ⟨hnow, hseen⟩ := hclear hk
    have hbefore : ∀ t' ∈ s.times k, t' + d ≤ t := by
      intro t' ht'
      obtain ⟨r, hr, rfl⟩ := List.mem_map.mp ht'
      obtain ⟨hr, hrk⟩ := List.mem_filter.mp hr
      have hrk : r.key = k := by simpa using hrk
      rw [← List.take_append_drop mark s.records, List.mem_append] at hr
      rcases hr with hr | hr
      · exact hseen.holds r hr hrk
      · exact absurd hrk (horder hk r hr)
    rw [htimes, if_pos hk]
    refine ⟨List.pairwise_append.mpr ⟨hs.pairwise, List.pairwise_singleton _ _, ?_⟩, ?_⟩
    · intro t' ht' t'' ht''
      rw [List.mem_singleton.mp ht'']
      exact hbefore t' ht'
    · intro t' ht'
      refine ⟨⟨t, s.now⟩, ?_, ?_, hnow, Int.le_refl _⟩
      · rw [← hk, hcache]
        exact (congrArg (fun c' : LimitCache => c'.get? c.printid) (if_pos rfl)).trans
          (Lru.get?_add_self (by decide) _ _)
      · rcases List.mem_append.mp ht' with h | h
        · have := hbefore t' h
          show t' ≤ t
          omega
        · rw [List.mem_singleton.mp h]
  · rw [htimes, if_neg hk, List.append_nil]
    refine ⟨hs.pairwise, fun t' ht' => ?_⟩
    obtain ⟨e, he, hle⟩ := hs.kept t' ht'
    refine ⟨e, ?_, hle⟩
    rw [hcache]
    split
    · rename_i hl
      have hne : k.2 ≠ c.printid := by
        intro hp
        exact hk (Prod.ext hl.symm hp.symm)
      rw [hl] at he
      exact Lru.get?_add_of_ne (hdrop hl.symm) hne he
    · exact he

/-- A goroutine moves to a place of which it knows enough. -/
theorem LimitedState.Spaced.moveTo {s : LimitedState} {k : Ptr × Bytes} {d : Int} {g : Gid}
    {pc : LimitedPc} (hs : s.Spaced k d) (hpc : pc.Clear s k d) : (s.moveTo g pc).Spaced k d :=
  ⟨hs.pairwise, hs.kept,
    LimitedState.clear_moveTo hs.clear rfl (List.prefix_refl _) (Int.le_refl _) hpc⟩

/-- A step of the rest of the package. -/
theorem LimitedState.Spaced.base {s : LimitedState} {k : Ptr × Bytes} {d : Int}
    (hs : s.Spaced k d) (b : State) (ps : List (LimitedArgs × Int)) :
    LimitedState.Spaced { s with base := b, printfs := ps } k d :=
  ⟨hs.pairwise, hs.kept, fun g => (hs.clear g).mono (List.prefix_refl _) (Int.le_refl _)⟩

/-- A `Get` keeps what the caches hold. -/
theorem LimitedState.Spaced.setCache {s : LimitedState} {k : Ptr × Bytes} {d : Int}
    (hs : s.Spaced k d) (l : Ptr) (p : Bytes) :
    (s.setCache l (limitGet (s.limitedPrint l) s.now p).2).Spaced k d := by
  refine ⟨hs.pairwise, fun t ht => ?_,
    fun g => (hs.clear g).mono (List.prefix_refl _) (Int.le_refl _)⟩
  obtain ⟨e, he, hle⟩ := hs.kept t ht
  refine ⟨e, ?_, hle⟩
  rw [LimitedState.setCache_limitedPrint]
  split
  · rename_i hl
    rw [get?_limitGet, ← hl, he]
  · exact he

/-- One step under the conditions keeps the times apart. -/
theorem LimitedStep.spaced {k : Ptr × Bytes} {d : Int} (h : LimitedStep P u a v)
    (hs : u.Spaced k d) (hd : 0 < d) (hd' : d ≤ expire) (hset : inSetting k d u a = true)
    (hord : inOrder k u a = true) : v.Spaced k d := by
  have hrefl := List.prefix_refl u.records
  cases h with
  | base _ _ => exact hs.base _ _
  | tick =>
    have hle : ∀ δ : Nat, u.now ≤ u.now + δ := fun δ =>
      Int.le_add_of_nonneg_right (Int.natCast_nonneg δ)
    refine ⟨hs.pairwise, fun t ht => ?_, fun g => (hs.clear g).mono hrefl (hle _)⟩
    obtain ⟨e, he, h1, h2, h3⟩ := hs.kept t ht
    exact ⟨e, he, h1, h2, h3.trans (hle _)⟩
  | callNil _ => exact ⟨hs.pairwise, hs.kept, fun g => (hs.clear g).mono hrefl (Int.le_refl _)⟩
  | @call g c seq _ _ _ _ =>
    apply hs.moveTo
    intro hk
    simpa [inSetting, hk] using hset
  | @get g c hp =>
    apply (hs.setCache c.log c.printid).moveTo
    have hget := hs.clear g
    rw [hp] at hget
    by_cases hk : c.key = k
    · exact (hs.get hd' hk (hget hk)).mono hrefl (Int.le_refl _)
    · cases (limitGet (u.limitedPrint c.log) u.now c.printid).1 with
      | none => exact fun h => absurd h hk
      | some w => exact fun h => absurd h hk
  | @suppressed g c old mark hp _ => exact hs.moveTo trivial
  | @passed g c old mark hp hsoon =>
    apply hs.moveTo
    have htest := hs.clear g
    rw [hp] at htest
    intro hk
    rcases old with _ | w
    · exact (htest hk).2
    · obtain ⟨hdur, hseen⟩ := htest hk
      have hold : ¬ u.now - w < c.duration := by simpa [tooSoon] using hsoon
      refine hseen.mono hrefl fun t ht => ?_
      omega
  | @stamp g c mark hp =>
    apply hs.moveTo
    have hstamp := hs.clear g
    rw [hp] at hstamp
    exact fun hk => ⟨Int.le_refl _, hstamp hk⟩
  | @add g c t mark thread hp _ =>
    have hadd := hs.clear g
    rw [hp] at hadd
    obtain ⟨hpair, hkept⟩ := hs.record hd (g, thread.seq + 1) hadd (inSetting_add hset hp)
      (inOrder_add hord hp)
    exact ⟨hpair, hkept, LimitedState.clear_moveTo hs.clear rfl (List.prefix_append _ _)
      (Int.le_refl _) trivial⟩
  | @printf g c b hp _ => exact (hs.base b _).moveTo trivial

theorem reachIf_spaced {k : Ptr × Bytes} {d : Int} (hd : 0 < d) (hd' : d ≤ expire)
    (h : (limitedMachine P).ReachIf
      (fun s a => inSetting k d s a = true ∧ inOrder k s a = true) u) : u.Spaced k d := by
  refine Machine.RunIf.invariant (P := fun u => u.Spaced k d) h ?_ ?_
  · exact ⟨List.Pairwise.nil, fun t ht => (List.not_mem_nil ht).elim, fun g => trivial⟩
  · intro u a v _ hu hc hs
    exact (limitedStep_cases hs).spaced hu hd hd' hc.1 hc.2

/-! ## The calls of `printf` -/

theorem step_threads_length {s s' : State} {x : Action} (h : step P s x = some s') :
    s.threads.length ≤ s'.threads.length := by
  rcases step_cases h with ⟨-, rfl⟩ | ⟨g, i, t, pc, sh, -, -, -, rfl⟩ | ⟨i, wpc, sh, -, -, rfl⟩
  · rw [List.length_append]
    exact Nat.le_add_right _ _
  · rw [List.length_set]
  · exact le_rfl

/-- The goroutine is about to call `printf` for the key. -/
def LimitedState.Due (s : LimitedState) (k : Ptr × Bytes) (g : Gid) : Prop :=
  ∃ c, s.places g = .printf c ∧ c.key = k

/-- Every stored time is that of a `printf`, but for one that is due at once. -/
inductive LimitedState.Settled (s : LimitedState) (k : Ptr × Bytes) : Prop
  | none : (∀ g, ¬ s.Due k g) → s.times k = s.printTimes k → Settled s k
  | one (g : Gid) : (∀ g', s.Due k g' ↔ g' = g) → s.times k = s.printTimes k ++ [s.now] →
      Settled s k

structure LimitedState.Prompt (s : LimitedState) (k : Ptr × Bytes) : Prop where
  /-- Only a goroutine is inside a call. -/
  thread : ∀ g, s.places g ≠ .idle → g < s.base.threads.length
  /-- A time that was read is what the clock says. -/
  read : ∀ g c t mark, s.places g = .add c t mark → c.key = k → t = s.now
  settled : s.Settled k

section Prompt

variable {k : Ptr × Bytes} {d : Int} {g : Gid}

theorem LimitedState.Settled.congr {s s' : LimitedState} (hs : s.Settled k)
    (hdue : ∀ g, s'.Due k g ↔ s.Due k g) (hnow : s'.now = s.now) (htimes : s'.times k = s.times k)
    (hprints : s'.printTimes k = s.printTimes k) : s'.Settled k := by
  cases hs with
  | none hno ht =>
    refine .none (fun g h => hno g ((hdue g).mp h)) ?_
    rw [htimes, hprints, ht]
  | one g hone ht =>
    refine .one g (fun g' => (hdue g').trans (hone g')) ?_
    rw [htimes, hprints, hnow, ht]

/-- A goroutine moves, and is not about to call `printf` for the key, before or after. -/
theorem LimitedState.Prompt.move {s s' : LimitedState} {pc : LimitedPc} (hs : s.Prompt k)
    (hplaces : s'.places = Function.update s.places g pc) (hnow : s'.now = s.now)
    (htimes : s'.times k = s.times k) (hprints : s'.printTimes k = s.printTimes k)
    (hlen : s.base.threads.length ≤ s'.base.threads.length) (hg : g < s'.base.threads.length)
    (hnot : ¬ s.Due k g) (hpc : ∀ c, pc = .printf c → c.key ≠ k)
    (hread : ∀ c t mark, pc = .add c t mark → c.key = k → t = s.now) : s'.Prompt k := by
  have hat : ∀ g', s'.places g' = if g' = g then pc else s.places g' := fun g' => by
    rw [hplaces, Function.update_apply]
  have hdue : ∀ g', s'.Due k g' ↔ s.Due k g' := by
    intro g'
    unfold LimitedState.Due
    rw [hat]
    split
    · rename_i hgg
      subst g'
      exact iff_of_false (fun ⟨c, hc, hk⟩ => hpc c hc hk) hnot
    · rfl
  refine ⟨fun g' hne => ?_, fun g' c t mark hp hk => ?_,
    hs.settled.congr hdue hnow htimes hprints⟩
  · rw [hat] at hne
    split at hne
    · subst g'
      exact hg
    · exact (hs.thread g' hne).trans_le hlen
  · rw [hat] at hp
    rw [hnow]
    split at hp
    · exact hread c t mark hp hk
    · exact hs.read g' c t mark hp hk

/-- Time passes while nobody has read the clock. -/
theorem LimitedState.Prompt.tick {s : LimitedState} {δ : Nat} (hs : s.Prompt k)
    (htime : inTime k s (.tick δ) = true) :
    LimitedState.Prompt { s with now := s.now + δ } k := by
  by_cases hδ : δ = 0
  · subst hδ
    have hsame : s.now + ((0 : Nat) : Int) = s.now := Int.add_zero _
    rw [hsame]
    exact hs
  · have hall : ∀ g, (s.places g).timed k = false := by
      intro g
      by_cases hp : s.places g = .idle
      · rw [hp]
        rfl
      · have hrange : ∀ g < s.base.threads.length, (s.places g).timed k = false := by
          simpa [inTime, hδ] using htime
        exact hrange g (hs.thread g hp)
    have hadd : ∀ g c t mark, s.places g = .add c t mark → c.key ≠ k := by
      intro g c t mark hp hk
      have := hall g
      simp [hp, LimitedPc.timed, hk] at this
    have hdue : ∀ g, ¬ s.Due k g := by
      rintro g ⟨c, hp, hk⟩
      have := hall g
      simp [hp, LimitedPc.timed, hk] at this
    refine ⟨hs.thread, fun g c t mark hp hk => absurd hk (hadd g c t mark hp), ?_⟩
    cases hs.settled with
    | none hno ht => exact .none hno ht
    | one g₀ hone _ => exact absurd ((hone g₀).mpr rfl) (hdue g₀)

/-- A stored time is one duration after the others, so nobody else is about to call `printf`. -/
theorem LimitedState.Prompt.record {s : LimitedState} {c : LimitedArgs} {t : Int} {mark : Nat}
    {cache : LimitCache} {call : Gid × Nat} (hs : s.Prompt k) (hd : 0 < d)
    (hp : s.places g = .add c t mark)
    (hspaced : ((s.record cache ⟨c.log, c.printid, t, call⟩).times k).Pairwise
      fun t t' => t + d ≤ t') :
    ((s.record cache ⟨c.log, c.printid, t, call⟩).moveTo g (.printf c)).Prompt k := by
  have hg : g < s.base.threads.length := hs.thread g (by rw [hp]; exact LimitedPc.noConfusion)
  have htimes : (s.record cache ⟨c.log, c.printid, t, call⟩).times k =
      s.times k ++ if c.key = k then [t] else [] := s.record_times _ _ k
  have hnot : ¬ s.Due k g := by
    rintro ⟨c', hc', -⟩
    cases hp.symm.trans hc'
  by_cases hk : c.key = k
  · have hnow := hs.read g c t mark hp hk
    rw [if_pos hk] at htimes
    cases hs.settled with
    | one g₀ _ ht =>
      rw [htimes, ht, hnow, List.append_assoc] at hspaced
      have hlast := List.rel_of_pairwise_cons (List.pairwise_append.mp hspaced).2.1
        (List.mem_singleton_self s.now)
      omega
    | none hno ht =>
      refine ⟨fun g' hne => ?_, fun g' c' t' mark' hp' hk' => ?_, .one g (fun g' => ?_) ?_⟩
      · rw [LimitedState.moveTo_places] at hne
        split at hne
        · subst g'
          exact hg
        · exact hs.thread g' hne
      · rw [LimitedState.moveTo_places] at hp'
        split at hp'
        · cases hp'
        · exact hs.read g' c' t' mark' hp' hk'
      · unfold LimitedState.Due
        rw [LimitedState.moveTo_places]
        split
        · rename_i hgg
          exact iff_of_true ⟨c, rfl, hk⟩ hgg
        · rename_i hgg
          exact iff_of_false (hno g') hgg
      · rw [LimitedState.moveTo_times, htimes, ht, hnow]
        rfl
  · rw [if_neg hk, List.append_nil] at htimes
    refine hs.move rfl rfl htimes rfl le_rfl hg hnot ?_ fun _ _ _ h => LimitedPc.noConfusion h
    intro c' hc'
    cases hc'
    exact hk

/-- The call of `printf`. -/
theorem LimitedState.Prompt.printf {s : LimitedState} {c : LimitedArgs} {b : State}
    (hs : s.Prompt k) (hp : s.places g = .printf c)
    (hlen : s.base.threads.length ≤ b.threads.length) :
    ({ s with base := b, printfs := s.printfs ++ [(c, s.now)] }.moveTo g .idle :
      LimitedState).Prompt k := by
  let s' : LimitedState := { s with base := b, printfs := s.printfs ++ [(c, s.now)] }
  have hg : g < s.base.threads.length := hs.thread g (by rw [hp]; exact LimitedPc.noConfusion)
  have hprints : s'.printTimes k = s.printTimes k ++ if c.key = k then [s.now] else [] := by
    unfold LimitedState.printTimes
    rw [List.filter_append, List.map_append]
    by_cases hk : c.key = k <;> simp [hk]
  by_cases hk : c.key = k
  · rw [if_pos hk] at hprints
    cases hs.settled with
    | none hno _ => exact absurd ⟨c, hp, hk⟩ (hno g)
    | one g₀ hone ht =>
      obtain rfl : g = g₀ := (hone g).mp ⟨c, hp, hk⟩
      refine ⟨fun g' hne => ?_, fun g' c' t' mark' hp' hk' => ?_, .none (fun g' => ?_) ?_⟩
      · rw [LimitedState.moveTo_places] at hne
        split at hne
        · exact absurd rfl hne
        · exact (hs.thread g' hne).trans_le hlen
      · rw [LimitedState.moveTo_places] at hp'
        split at hp'
        · cases hp'
        · exact hs.read g' c' t' mark' hp' hk'
      · unfold LimitedState.Due
        rw [LimitedState.moveTo_places]
        split
        · rintro ⟨c', hc', -⟩
          cases hc'
        · rename_i hgg
          exact fun hdue => hgg ((hone g').mp hdue)
      · exact ht.trans hprints.symm
  · rw [if_neg hk, List.append_nil] at hprints
    refine hs.move rfl rfl rfl hprints hlen (hg.trans_le hlen) ?_
      (fun _ h => LimitedPc.noConfusion h) fun _ _ _ h => LimitedPc.noConfusion h
    rintro ⟨c', hc', hk'⟩
    cases hp.symm.trans hc'
    exact hk hk'

theorem LimitedStep.prompt (h : LimitedStep P u a v) (hu : u.Prompt k) (hd : 0 < d)
    (htime : inTime k u a = true) (hv : v.Spaced k d) : v.Prompt k := by
  have hin : ∀ {g pc}, u.places g = pc → pc ≠ .idle → g < u.base.threads.length :=
    fun hp hne => hu.thread _ (hp ▸ hne)
  have hnot : ∀ {g pc}, u.places g = pc → (∀ c, pc ≠ .printf c) → ¬ u.Due k g := by
    rintro g pc hp hne ⟨c, hc, -⟩
    exact hne c (hp.symm.trans hc)
  cases h with
  | base _ hs =>
    exact ⟨fun g hne => (hu.thread g hne).trans_le (step_threads_length hs), hu.read,
      hu.settled.congr (fun _ => Iff.rfl) rfl rfl rfl⟩
  | tick => exact hu.tick htime
  | callNil _ => exact ⟨hu.thread, hu.read, hu.settled.congr (fun _ => Iff.rfl) rfl rfl rfl⟩
  | @call g c seq ht hp _ _ =>
    exact hu.move rfl rfl rfl rfl le_rfl (List.getElem?_eq_some_iff.mp ht).1
      (hnot hp fun _ => LimitedPc.noConfusion) (fun _ => LimitedPc.noConfusion)
      fun _ _ _ => LimitedPc.noConfusion
  | @get g c hp | @suppressed g c old mark hp _ | @passed g c old mark hp _ =>
    exact hu.move rfl rfl rfl rfl le_rfl (hin hp LimitedPc.noConfusion)
      (hnot hp fun _ => LimitedPc.noConfusion) (fun _ => LimitedPc.noConfusion)
      fun _ _ _ => LimitedPc.noConfusion
  | @stamp g c mark hp =>
    refine hu.move rfl rfl rfl rfl le_rfl (hin hp LimitedPc.noConfusion)
      (hnot hp fun _ => LimitedPc.noConfusion) (fun _ => LimitedPc.noConfusion) ?_
    intro c' t mark' hpc _
    cases hpc
    rfl
  | @add g c t mark thread hp _ => exact hu.record hd hp hv.pairwise
  | @printf g c b hp hs => exact hu.printf hp (step_threads_length hs)

theorem reachIf_prompt (hd : 0 < d) (hd' : d ≤ expire)
    (h : (limitedMachine P).ReachIf (fun s a => inSetting k d s a = true ∧
      inOrder k s a = true ∧ inTime k s a = true) u) : u.Spaced k d ∧ u.Prompt k := by
  refine Machine.RunIf.invariant (P := fun u => u.Spaced k d ∧ u.Prompt k) h ?_ ?_
  · refine ⟨⟨List.Pairwise.nil, fun t ht => (List.not_mem_nil ht).elim, fun g => trivial⟩, ?_⟩
    refine ⟨fun g hne => absurd rfl hne, fun g c t mark hp => ?_, .none ?_ rfl⟩
    · cases hp
    · rintro g ⟨c, hc, -⟩
      cases hc
  · intro u a v _ hu hc hs
    have hstep := limitedStep_cases hs
    have hspaced := hstep.spaced hu.1 hd hd' hc.1 hc.2.1
    exact ⟨hspaced, hstep.prompt hu.2 hd hc.2.2 hspaced⟩

/-- The `printf` calls of a stretch of a run are made while its time passes. -/
theorem LimitedStep.prints (h : LimitedStep P u a v) (k : Ptr × Bytes) :
    u.now ≤ v.now ∧ ∃ ts, v.printTimes k = u.printTimes k ++ ts ∧
      ∀ t ∈ ts, u.now ≤ t ∧ t ≤ v.now := by
  cases h with
  | @printf g c b hp hs =>
    refine ⟨le_rfl, if c.key = k then [u.now] else [], ?_, fun t ht => ?_⟩
    · rw [LimitedState.printTimes, LimitedState.printTimes, LimitedState.moveTo_printfs,
        List.filter_append, List.map_append]
      by_cases hk : c.key = k <;> simp [hk]
    · split at ht
      · rw [List.mem_singleton.mp ht]
        exact ⟨le_rfl, le_rfl⟩
      · cases ht
  | tick => exact ⟨Int.le_add_of_nonneg_right (Int.natCast_nonneg _), [],
      (List.append_nil _).symm, fun t ht => by cases ht⟩
  | _ => exact ⟨le_rfl, [], (List.append_nil _).symm, fun t ht => by cases ht⟩

theorem run_prints {C : LimitedState → LimitedAction → Prop}
    (h : (limitedMachine P).RunIf C u v) (k : Ptr × Bytes) :
    u.now ≤ v.now ∧ ∃ ts, v.printTimes k = u.printTimes k ++ ts ∧
      ∀ t ∈ ts, u.now ≤ t ∧ t ≤ v.now := by
  induction h with
  | refl => exact ⟨le_rfl, [], (List.append_nil _).symm, fun t ht => by cases ht⟩
  | tail _ _ hs ih =>
    obtain ⟨hle, ts, hts, hin⟩ := ih
    obtain ⟨hle', ts', hts', hin'⟩ := (limitedStep_cases hs).prints k
    refine ⟨hle.trans hle', ts ++ ts', by rw [hts', hts, List.append_assoc], fun t ht => ?_⟩
    rcases List.mem_append.mp ht with ht | ht
    · exact ⟨(hin t ht).1, (hin t ht).2.trans hle'⟩
    · exact ⟨hle.trans (hin' t ht).1, (hin' t ht).2⟩

/-- The `printf` calls are those of the stored times, up to one that is due. -/
theorem LimitedState.Settled.prefix {s : LimitedState} (h : s.Settled k) :
    s.printTimes k <+: s.times k := by
  cases h with
  | none _ ht => exact ht ▸ List.prefix_refl _
  | one _ _ ht => exact ht ▸ List.prefix_append _ _

end Prompt

/-! ## The limit -/

/-- Times that lie `d` apart, all in a window shorter than `d`: there is one at most. -/
theorem window_length {ts : List Int} {d w w' : Int}
    (h : ts.Pairwise fun t t' => t + d ≤ t') (hin : ∀ t ∈ ts, w ≤ t ∧ t ≤ w')
    (hw : w' < w + d) : ts.length ≤ 1 := by
  rcases ts with _ | ⟨t, _ | ⟨t', rest⟩⟩
  · exact Nat.zero_le 1
  · exact Nat.le_refl 1
  · have hle := (List.pairwise_cons.mp h).1 t' List.mem_cons_self
    have ht := hin t List.mem_cons_self
    have ht' := hin t' (List.mem_cons_of_mem _ List.mem_cons_self)
    omega

/-- In a run in which every call with a key stores its time only when no other has since it read
    the cache, the stored times of the key lie `d` apart. When the clock besides stands still from
    each such call's reading of it to the call of `printf`, every stretch of the run in which less
    than `d` passes sees one call of `printf` for the key at most. -/
theorem limit_spaced {k : Ptr × Bytes} {d : Int} (hd : 0 < d) (hd' : d ≤ expire) :
    (∀ u, (limitedMachine P).ReachIf
        (fun s a => inSetting k d s a = true ∧ inOrder k s a = true) u →
      (u.times k).Pairwise fun t t' => t + d ≤ t') ∧
    (∀ u v, (limitedMachine P).ReachIf (fun s a => inSetting k d s a = true ∧
        inOrder k s a = true ∧ inTime k s a = true) u →
      (limitedMachine P).RunIf (fun s a => inSetting k d s a = true ∧
        inOrder k s a = true ∧ inTime k s a = true) u v →
      v.now < u.now + d → (v.printTimes k).length ≤ (u.printTimes k).length + 1) := by
  refine ⟨fun u h => (reachIf_spaced hd hd' h).pairwise, fun u v hu hrun hnow => ?_⟩
  obtain ⟨hspaced, hprompt⟩ := reachIf_prompt hd hd' (Machine.RunIf.trans hu hrun)
  obtain ⟨-, ts, hts, hin⟩ := run_prints hrun k
  have hpair := hspaced.pairwise.sublist hprompt.settled.prefix.sublist
  rw [hts] at hpair ⊢
  have hlen := window_length (List.pairwise_append.mp hpair).2.1 hin hnow
  rw [List.length_append]
  omega

/-! ## Two goroutines -/

/-- One second. -/
def second : Int := 1000000000

/-- `LimitedPrintf` of logger 1, once in a second. -/
def onceASecond : LimitedArgs := ⟨1, [105], second, [104]⟩

/-- Two goroutines and a logger. -/
def twoCallers : List LimitedAction :=
  (.spawn :: .spawn :: newLoggerCall 0 [97]).map .base

/-- The whole of a call that nothing interferes with. -/
def wholeCall (g : Gid) (c : LimitedArgs) : List LimitedAction :=
  .call g c :: List.replicate 5 (.step g)

/-- Both goroutines read the cache before either stores its time. -/
def bothRead : List LimitedAction :=
  twoCallers ++ [.call 0 onceASecond, .step 0, .call 1 onceASecond, .step 1] ++
    List.replicate 3 (.step 0) ++ List.replicate 3 (.step 1)

theorem bothRead_runs : ((limitedMachine unitPrimitives).execIf
    (inSetting (1, [105]) second) {} bothRead).isSome := by decide +kernel

/-- Both messages go through, at one time. -/
theorem limit_broken : ¬ ∀ u : LimitedState,
    (limitedMachine unitPrimitives).ReachIf
      (fun s a => inSetting (1, [105]) second s a = true) u →
    (u.times (1, [105])).Pairwise fun t t' => t + second ≤ t' := by
  intro h
  have hp := h _ (Machine.execIf_run (Option.some_get bothRead_runs).symm)
  exact absurd hp (by decide +kernel)

/-- A call of each goroutine, the second one when `δ` has passed. -/
def oneAfterTheOther (δ steps : Nat) : List LimitedAction :=
  twoCallers ++ wholeCall 0 onceASecond ++ [.tick δ] ++
    .call 1 onceASecond :: List.replicate steps (.step 1)

/-- The conditions, as one test. -/
def limited (s : LimitedState) (a : LimitedAction) : Bool :=
  inSetting (1, [105]) second s a && (inOrder (1, [105]) s a && inTime (1, [105]) s a)

theorem aSecond_runs : ((limitedMachine unitPrimitives).execIf limited {}
    (oneAfterTheOther 1000000000 5)).isSome := by decide +kernel

theorem lessThanASecond_runs : ((limitedMachine unitPrimitives).execIf limited {}
    (oneAfterTheOther 999999999 2)).isSome := by decide +kernel

/-- After a second the other message goes out, before it does not. -/
theorem limit_spaced_oneAfterTheOther :
    let u := ((limitedMachine unitPrimitives).execIf limited {}
      (oneAfterTheOther 1000000000 5)).get aSecond_runs
    let v := ((limitedMachine unitPrimitives).execIf limited {}
      (oneAfterTheOther 999999999 2)).get lessThanASecond_runs
    u.printTimes (1, [105]) = [0, second] ∧
      (u.times (1, [105])).Pairwise (fun t t' => t + second ≤ t') ∧
      v.printTimes (1, [105]) = [0] ∧ (v.printTimes (1, [105])).length ≤ 0 + 1 := by
  intro u v
  have hu := Machine.execIf_run (Option.some_get aSecond_runs).symm
  have hv := Machine.execIf_run (Option.some_get lessThanASecond_runs).symm
  have hlimit := limit_spaced (P := unitPrimitives) (k := (1, [105])) (d := second) (by decide)
    (by decide)
  refine ⟨by decide +kernel, hlimit.1 u (Machine.RunIf.mono (fun s a hc => ?_) hu),
    by decide +kernel, hlimit.2 {} v .refl (Machine.RunIf.mono (fun s a hc => ?_) hv)
      (by decide +kernel)⟩
  · simp only [limited, Bool.and_eq_true] at hc
    exact ⟨hc.1, hc.2.1⟩
  · simpa only [limited, Bool.and_eq_true] using hc

/-! ## One call alone -/

/-- Without interference the steps of a call do to the cache what `limitedPrintf` does, and go on to
    `printf` when it says so. -/
theorem limited_alone {g : Gid} {c : LimitedArgs} {thread : Thread} (hp : u.places g = .get c)
    (ht : u.base.threads[g]? = some thread) :
    let r := limitedPrintf (u.limitedPrint c.log) ⟨c.printid, c.duration, u.now⟩
    ∃ v, (limitedMachine P).exec u (List.replicate (if r.1 then 4 else 2) (.step g)) = some v ∧
      v.places g = (if r.1 then .printf c else .idle) ∧ v.limitedPrint c.log = r.2 ∧
      v.base = u.base := by
  intro r
  by_cases hs : tooSoon (limitGet (u.limitedPrint c.log) u.now c.printid).1 u.now c.duration
  · have hr : r = (false, (limitGet (u.limitedPrint c.log) u.now c.printid).2) := by
      simp [r, limitedPrintf, hs]
    rw [hr]
    simp [Machine.exec, limitedMachine, limitedStep, insideLimited, hp, hs,
      LimitedState.moveTo_places, LimitedState.setCache_limitedPrint]
  · have hr : r = (true, limitAdd (limitGet (u.limitedPrint c.log) u.now c.printid).2 u.now
        c.printid u.now) := by
      simp [r, limitedPrintf, hs]
    rw [hr]
    simp [Machine.exec, limitedMachine, limitedStep, insideLimited, hp, hs, ht,
      LimitedState.moveTo_places, LimitedState.setCache_limitedPrint,
      LimitedState.record_limitedPrint]

end ZipoLogger
