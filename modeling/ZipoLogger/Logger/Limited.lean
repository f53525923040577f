/-
  `LimitedPrintf` and its cache, called by one goroutine.

  `NewLogger` gives every logger a cache of 1000 entries that expire after 24 hours. What the code
  relies on: a hit of `Get` and every `Add` make the entry the most recent one, `Add` restarts
  its age, `Get` does not, and an entry of 24 hours or more is not found. That such an entry keeps
  its place in the order until it is replaced or dropped is an assumption about the cache, a
  third-party package; one that removed it early would keep others longer.

  `limitedPrintf_exact` says which calls of a sequence go on to `printf`, in terms of the calls
  before them. Times and durations are nanoseconds; a duration may be negative.
-/
import ZipoLogger.Lib.Recency
import ZipoLogger.Lib.BigEndian

namespace ZipoLogger

open Recency

/-! ## The cache -/

/-- `time.Hour`. -/
def hour : Int := 3600 * 1000000000

/-- The age at which an entry of the cache expires. -/
def expire : Int := hour * 24

/-- A value of the cache: the stored time, and when it was stored. -/
structure Stamp where
  value : Int
  added : Int
  deriving DecidableEq

/-- `Logger.limitedPrint`. -/
abbrev LimitCache := Lru Bytes Stamp 1000

/-- `limitedPrint.Get`. An expired entry is not found; assumed of the cache: it stays in its
    place. -/
def limitGet (c : LimitCache) (now : Int) (printid : Bytes) : Option Int × LimitCache :=
  match c.get? printid with
  | some s => if now - s.added < expire then (some s.value, c.touch printid) else (none, c)
  | none => (none, c)

/-- `limitedPrint.Add`. -/
def limitAdd (c : LimitCache) (now : Int) (printid : Bytes) (value : Int) : LimitCache :=
  (c.add printid ⟨value, now⟩).1

/-- The test after `Get`: the message is left out. -/
def tooSoon (old : Option Int) (now duration : Int) : Bool :=
  match old with
  | some oldV => now - oldV < duration
  | none => false

/-! ## `LimitedPrintf` -/

/-- A call of `LimitedPrintf`: its identifier and duration, and the reading of the clock. -/
structure LimitedCall where
  printid : Bytes
  duration : Int
  now : Int
  deriving DecidableEq

/-- `LimitedPrintf` up to its call of `printf`: whether that call is made, and the cache. -/
def limitedPrintf (c : LimitCache) (call : LimitedCall) : Bool × LimitCache :=
  let r := limitGet c call.now call.printid
  if tooSoon r.1 call.now call.duration then (false, r.2)
  else (true, limitAdd r.2 call.now call.printid call.now)

/-- The cache after a sequence of calls. -/
def cacheAfter (calls : List LimitedCall) : LimitCache :=
  calls.foldl (fun c call => (limitedPrintf c call).2) Lru.empty

/-- Call `i` goes on to `printf`. -/
def PassedOn (calls : List LimitedCall) (i : Nat) : Prop :=
  ∃ call, calls[i]? = some call ∧ (limitedPrintf (cacheAfter (calls.take i)) call).1

/-- Call `i` has the identifier `p`. -/
def HasId (calls : List LimitedCall) (p : Bytes) (i : Nat) : Prop :=
  ∃ call, calls[i]? = some call ∧ call.printid = p

/-- `j` is the latest call before `i` with the identifier `p` that was passed on. -/
structure LatestPassed (calls : List LimitedCall) (p : Bytes) (i j : Nat) : Prop where
  lt : j < i
  hasId : HasId calls p j
  passed : PassedOn calls j
  latest : ∀ k, j < k → k < i → HasId calls p k → ¬ PassedOn calls k

theorem cacheAfter_succ {calls : List LimitedCall} {i : Nat} {call : LimitedCall}
    (h : calls[i]? = some call) :
    cacheAfter (calls.take (i + 1)) = (limitedPrintf (cacheAfter (calls.take i)) call).2 := by
  rw [List.take_add_one, h, cacheAfter, List.foldl_append]
  rfl

theorem LatestPassed.unique {calls : List LimitedCall} {p : Bytes} {i j k : Nat}
    (hj : LatestPassed calls p i j) (hk : LatestPassed calls p i k) : j = k := by
  rcases Nat.lt_trichotomy j k with h | h | h
  · exact absurd hk.passed (hj.latest k h hk.lt hk.hasId)
  · exact h
  · exact absurd hj.passed (hk.latest j h hj.lt hj.hasId)

/-! ## One call -/

/-- A message is passed on unless an entry is found, not expired, and too young. -/
theorem limitedPrintf_fst {c : LimitCache} {call : LimitedCall} :
    (limitedPrintf c call).1 = true ↔ ∀ s, c.get? call.printid = some s →
      expire ≤ call.now - s.added ∨ call.duration ≤ call.now - s.value := by
  rcases hg : c.get? call.printid with _ | s
  · simp [limitedPrintf, limitGet, hg, tooSoon]
  · by_cases hexp : call.now - s.added < expire
    · by_cases hsoon : call.now - s.value < call.duration
      · simp [limitedPrintf, limitGet, hg, hexp, tooSoon, hsoon]
      · simp [limitedPrintf, limitGet, hg, hexp, tooSoon, hsoon, Int.not_lt.mp hsoon]
    · simp [limitedPrintf, limitGet, hg, hexp, tooSoon, Int.not_lt.mp hexp]

/-- A found entry becomes the most recent one when the message is left out. -/
theorem limitedPrintf_suppressed {c : LimitCache} {call : LimitedCall}
    (h : (limitedPrintf c call).1 = false) :
    (∃ s, c.get? call.printid = some s) ∧ (limitedPrintf c call).2 = c.touch call.printid := by
  rcases hg : c.get? call.printid with _ | s
  · simp [limitedPrintf, limitGet, hg, tooSoon] at h
  · refine ⟨⟨s, rfl⟩, ?_⟩
    by_cases hexp : call.now - s.added < expire
    · by_cases hsoon : call.now - s.value < call.duration
      · simp [limitedPrintf, limitGet, hg, hexp, tooSoon, hsoon]
      · simp [limitedPrintf, limitGet, hg, hexp, tooSoon, hsoon] at h
    · simp [limitedPrintf, limitGet, hg, hexp, tooSoon] at h

/-- When it is passed on the time is stored, whatever the cache held. -/
theorem limitedPrintf_passed {c : LimitCache} {call : LimitedCall}
    (h : (limitedPrintf c call).1 = true) :
    (limitedPrintf c call).2 =
      limitAdd (limitGet c call.now call.printid).2 call.now call.printid call.now := by
  by_cases hs : tooSoon (limitGet c call.now call.printid).1 call.now call.duration
  · simp [limitedPrintf, hs] at h
  · simp [limitedPrintf, hs]

/-- `Get` changes nothing but the order. -/
theorem get?_limitGet (c : LimitCache) (now : Int) (p q : Bytes) :
    (limitGet c now p).2.get? q = c.get? q := by
  unfold limitGet
  split
  · split
    · exact Lru.get?_touch c p q
    · rfl
  · rfl

/-- What `Get` finds is the value of an entry. -/
theorem limitGet_some {c : LimitCache} {now v : Int} {p : Bytes}
    (h : (limitGet c now p).1 = some v) : ∃ s, c.get? p = some s ∧ s.value = v := by
  unfold limitGet at h
  split at h
  · split at h
    · exact ⟨_, ‹_›, Option.some.inj h⟩
    · cases h
  · cases h

theorem holds_limitGet {c : LimitCache} {ks : List Bytes} (h : c.Holds ks) (now : Int)
    (p : Bytes) : (limitGet c now p).2.Holds ks ∨ (limitGet c now p).2.Holds (ks ++ [p]) := by
  unfold limitGet
  split
  · rename_i s hs
    split
    · exact .inr (h.touch hs)
    · exact .inl h
  · exact .inl h

/-! ## The cache and the calls before -/

/-- What the cache holds before call `i`: the identifiers used last, each with the time of its
    latest call that was passed on. -/
structure Follows (calls : List LimitedCall) (i : Nat) (c : LimitCache) : Prop where
  holds : c.Holds ((calls.take i).map LimitedCall.printid)
  stamps : ∀ p s, c.get? p = some s → s.added = s.value ∧
    ∃ j call, LatestPassed calls p i j ∧ calls[j]? = some call ∧ call.now = s.value

section Step

variable {calls : List LimitedCall} {i : Nat} {call : LimitedCall}

theorem passedOn_iff (h : calls[i]? = some call) :
    PassedOn calls i ↔ (limitedPrintf (cacheAfter (calls.take i)) call).1 = true := by
  constructor
  · intro hp
    obtain ⟨call', h', hp⟩ := hp
    rw [h] at h'
    rw [Option.some.inj h']
    exact hp
  · intro hp
    exact ⟨call, h, hp⟩

/-- The latest call that was passed on is still the latest one after a call that was not, or had
    another identifier. -/
theorem LatestPassed.succ {p : Bytes} {j : Nat} (hl : LatestPassed calls p i j)
    (h : HasId calls p i → ¬ PassedOn calls i) : LatestPassed calls p (i + 1) j := by
  refine ⟨Nat.lt_succ_of_lt hl.lt, hl.hasId, hl.passed, fun k hjk hk hid => ?_⟩
  rcases Nat.lt_succ_iff_lt_or_eq.mp hk with hk | rfl
  · exact hl.latest k hjk hk hid
  · exact h hid

theorem latestPassed_self (h : calls[i]? = some call) (hp : PassedOn calls i) :
    LatestPassed calls call.printid (i + 1) i :=
  ⟨Nat.lt_succ_self i, ⟨call, h, rfl⟩, hp, fun k hik hk _ => by omega⟩

theorem follows_zero (calls : List LimitedCall) : Follows calls 0 (cacheAfter (calls.take 0)) := by
  refine ⟨Lru.holds_empty, fun p s h => ?_⟩
  cases h

/-- One call keeps what the cache says about the calls before. -/
theorem Follows.succ (hf : Follows calls i (cacheAfter (calls.take i)))
    (h : calls[i]? = some call) : Follows calls (i + 1) (cacheAfter (calls.take (i + 1))) := by
  have hids : (calls.take (i + 1)).map LimitedCall.printid =
      (calls.take i).map LimitedCall.printid ++ [call.printid] := by
    rw [List.take_add_one, h, List.map_append]
    rfl
  have hpass := passedOn_iff h
  have hid : ∀ {p}, HasId calls p i → p = call.printid := by
    intro p hp
    obtain ⟨call', h', rfl⟩ := hp
    rw [h] at h'
    rw [Option.some.inj h']
  rw [cacheAfter_succ h]
  rcases hv : (limitedPrintf (cacheAfter (calls.take i)) call).1 with _ | _
  · -- left out: the entry moves to the front
    obtain ⟨⟨s, hs⟩, hcache⟩ := limitedPrintf_suppressed hv
    rw [hv] at hpass
    rw [hcache]
    constructor
    · rw [hids]
      exact hf.holds.touch hs
    · intro p s hp
      rw [Lru.get?_touch] at hp
      obtain ⟨heq, j, call', hl, hj, hnow⟩ := hf.stamps p s hp
      exact ⟨heq, j, call', hl.succ fun _ => by simp [hpass], hj, hnow⟩
  · -- passed on: the time of the call is stored
    rw [hv] at hpass
    rw [limitedPrintf_passed hv, limitAdd]
    constructor
    · rw [hids]
      rcases holds_limitGet hf.holds call.now call.printid with hg | hg
      · exact hg.add _ _
      · have hadd := hg.add call.printid ⟨call.now, call.now⟩
        rwa [Lru.Holds, recent_append_self] at hadd
    · intro p s hp
      rcases Lru.get?_add hp with ⟨rfl, rfl⟩ | ⟨hne, hp⟩
      · exact ⟨rfl, i, call, latestPassed_self h (hpass.mpr rfl), h, rfl⟩
      · rw [get?_limitGet] at hp
        obtain ⟨heq, j, call', hl, hj, hnow⟩ := hf.stamps p s hp
        exact ⟨heq, j, call', hl.succ fun hi => absurd (hid hi) hne, hj, hnow⟩

end Step

theorem follows (calls : List LimitedCall) {i : Nat} (h : i ≤ calls.length) :
    Follows calls i (cacheAfter (calls.take i)) := by
  induction i with
  | zero => exact follows_zero calls
  | succ i ih => exact (ih (Nat.le_of_lt h)).succ (List.getElem?_eq_getElem h)

/-! ## Which calls are passed on -/

/-- Call `i` goes on to `printf` exactly when no earlier call with its identifier did, or the
    latest one that did is as old as the duration or 24 hours, or 1000 other identifiers were used
    since the previous call with its identifier. For the last case expired entries count, as the
    cache is assumed to keep them in their places. -/
theorem limitedPrintf_exact (calls : List LimitedCall) (i : Fin calls.length) :
    PassedOn calls i ↔
      (¬ ∃ j < i.val, HasId calls calls[i].printid j ∧ PassedOn calls j) ∨
      (∃ j : Fin calls.length, LatestPassed calls calls[i].printid i j ∧
        min calls[i].duration expire ≤ calls[i].now - calls[j].now) ∨
      ∃ pre post, (calls.take i).map LimitedCall.printid = pre ++ calls[i].printid :: post ∧
        calls[i].printid ∉ post ∧ 1000 ≤ post.toFinset.card := by
  have hf := follows calls (Nat.le_of_lt i.isLt)
  have hi : calls[i.val]? = some calls[i] := List.getElem?_eq_getElem i.isLt
  rw [passedOn_iff hi, limitedPrintf_fst]
  constructor
  · intro h
    rcases hg : (cacheAfter (calls.take i)).get? calls[i].printid with _ | s
    · -- not in the cache: never passed on, or dropped since
      by_cases hex : ∃ j < i.val, HasId calls calls[i].printid j ∧ PassedOn calls j
      · obtain ⟨j, hj, ⟨call, hcall, hid⟩, -⟩ := hex
        have hmem : calls[i].printid ∈ (calls.take i).map LimitedCall.printid := by
          rw [← hid]
          exact List.mem_map_of_mem
            (List.mem_of_getElem? ((List.getElem?_take_of_lt hj).trans hcall))
        obtain ⟨pre, post, hks, hno⟩ := exists_last_use hmem
        refine .inr (.inr ⟨pre, post, hks, hno, ?_⟩)
        by_contra hlt
        obtain ⟨s, hs⟩ := hf.holds.present_iff.mpr ⟨pre, post, hks, hno, Nat.not_le.mp hlt⟩
        rw [hg] at hs
        cases hs
      · exact .inl hex
    · -- in the cache with the time of the latest call that was passed on
      obtain ⟨heq, j, call, hl, hj, hnow⟩ := hf.stamps _ s hg
      obtain ⟨hlt, hcall⟩ := List.getElem?_eq_some_iff.mp hj
      have hnow' : calls[j].now = s.value := hcall ▸ hnow
      have hage := h s hg
      refine .inr (.inl ⟨⟨j, hlt⟩, hl, ?_⟩)
      show _ ≤ calls[i].now - calls[j].now
      omega
  · intro h s hs
    obtain ⟨heq, j, call, hl, hj, hnow⟩ := hf.stamps _ s hs
    rcases h with hnone | ⟨j', hl', hage⟩ | ⟨pre, post, hks, hno, hcard⟩
    · exact absurd ⟨j, hl.lt, hl.hasId, hl.passed⟩ hnone
    · obtain ⟨hlt, hcall⟩ := List.getElem?_eq_some_iff.mp hj
      have hnow' : calls[j].now = s.value := hcall ▸ hnow
      obtain rfl : j = j'.val := hl.unique hl'
      have hage' : min calls[i].duration expire ≤ calls[i].now - calls[j'.val].now := hage
      omega
    · have hmem := hf.holds.mem_iff.mp ⟨s, hs⟩
      rw [hks, mem_take_recent hno] at hmem
      omega

end ZipoLogger
