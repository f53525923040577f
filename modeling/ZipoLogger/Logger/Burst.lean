/-
  `LimitedPrintf` with its race: how many messages can get past the limit at once.

  Two calls that read the cache before either writes it both go on, and a call that stalls between
  the reading of the clock and its `Add` brings back an old time, which opens the limit again.
  `budget` bounds what `n` goroutines can still do in a window of the clock: a call on its way
  with a time from before the window counts `n + 1` (its message, and one more for everybody
  else), any other call on its way one, and while the cache holds no time of the window everybody
  counts at least one. No step raises it and every `Add` lowers it (`LimitedStep.budget`), so at
  most `n * (n + 1)` messages of a key get through in a window of length `d` (`limit_burst`).
-/
import ZipoLogger.Logger.RateLimit
import ZipoLogger.Lib.Count

namespace ZipoLogger

open Enc Finset

/-! ## What a goroutine can still do -/

/-- A time from before the window, or none. -/
def before (w : Int) : Option Int → Bool
  | none => true
  | some t => t < w

/-- The messages of the key `k` that a goroutine at this place can still bring about. -/
def LimitedPc.weight (k : Ptr × Bytes) (w : Int) (n : Nat) : LimitedPc → Nat
  | .test c old _ => if c.key = k ∧ before w old = true then 1 else 0
  | .stamp c _ => if c.key = k then 1 else 0
  | .add c t _ => if c.key = k then if t < w then n + 1 else 1 else 0
  | _ => 0

/-- The cache holds no time of the window for `k`. -/
def LimitedState.stale (s : LimitedState) (k : Ptr × Bytes) (w : Int) : Bool :=
  before w (((s.limitedPrint k.1).get? k.2).map Stamp.value)

/-- A goroutine's share: while the cache is stale at least one. -/
def LimitedPc.share (k : Ptr × Bytes) (w : Int) (n : Nat) (stale : Bool) (pc : LimitedPc) : Nat :=
  max stale.toNat (pc.weight k w n)

/-- The messages of `k` that the first `n` goroutines can still bring about in the window that
    begins at `w`. -/
def LimitedState.budget (s : LimitedState) (k : Ptr × Bytes) (w : Int) (n : Nat) : Nat :=
  ∑ g ∈ range n, (s.places g).share k w n (s.stale k w)

/-! ## What the places and the caches hold -/

/-- The times a place holds are in order, and a call with the key has the duration `d`. -/
def LimitedPc.Dated (now : Int) (k : Ptr × Bytes) (d : Int) : LimitedPc → Prop
  | .get c | .test c _ _ => c.key = k → c.duration = d
  | .add _ t _ => t ≤ now
  | _ => True

structure LimitedState.Dated (s : LimitedState) (k : Ptr × Bytes) (d : Int) : Prop where
  place : ∀ g, (s.places g).Dated s.now k d
  /-- Only a goroutine is inside a call. -/
  thread : ∀ g, s.places g ≠ .idle → g < s.base.threads.length
  /-- No entry holds a time from after it was stored. -/
  entry : ∀ l p e, (s.limitedPrint l).get? p = some e → e.value ≤ e.added

section Dated

variable {P : Primitives} {u v : LimitedState} {a : LimitedAction} {k : Ptr × Bytes} {d : Int}

theorem LimitedPc.Dated.mono {pc : LimitedPc} {now now' : Int} (h : pc.Dated now k d)
    (hle : now ≤ now') : pc.Dated now' k d := by
  cases pc with
  | add => exact le_trans h hle
  | get | test => exact h
  | _ => trivial

theorem LimitedState.Dated.moveTo (hu : u.Dated k d) {g : Gid} {pc : LimitedPc}
    (hg : g < u.base.threads.length) (hpc : pc.Dated u.now k d) : (u.moveTo g pc).Dated k d := by
  refine ⟨fun g' => ?_, fun g' hne => ?_, hu.entry⟩
  · rw [LimitedState.moveTo_places]
    split
    · exact hpc
    · exact hu.place g'
  · rw [LimitedState.moveTo_places] at hne
    split at hne
    · subst g'
      exact hg
    · exact hu.thread g' hne

/-- A new entry for one cache. -/
theorem LimitedState.Dated.setCache (hu : u.Dated k d) (l : Ptr) {c : LimitCache}
    (hc : ∀ p e, c.get? p = some e → e.value ≤ e.added) : (u.setCache l c).Dated k d := by
  refine ⟨hu.place, hu.thread, fun l' p e he => ?_⟩
  rw [LimitedState.setCache_limitedPrint] at he
  split at he
  · exact hc p e he
  · exact hu.entry l' p e he

theorem LimitedStep.dated (h : LimitedStep P u a v) (hset : inSetting k d u a = true)
    (hu : u.Dated k d) : v.Dated k d := by
  have hin : ∀ {g pc}, u.places g = pc → pc ≠ .idle → g < u.base.threads.length :=
    fun hp hne => hu.thread _ (hp ▸ hne)
  cases h with
  | base _ hs =>
    exact ⟨hu.place, fun g hne => (hu.thread g hne).trans_le (step_threads_length hs), hu.entry⟩
  | tick =>
    refine ⟨fun g => (hu.place g).mono ?_, hu.thread, hu.entry⟩
    exact Int.le_add_of_nonneg_right (Int.natCast_nonneg _)
  | callNil => exact ⟨hu.place, hu.thread, hu.entry⟩
  | @call g c seq ht _ _ _ =>
    refine hu.moveTo (List.getElem?_eq_some_iff.mp ht).1 fun hk => ?_
    simpa [inSetting, hk] using hset
  | @get g c hp =>
    have hget : (LimitedPc.get c).Dated u.now k d := hp ▸ hu.place g
    refine (hu.setCache c.log fun p e he => ?_).moveTo (hin hp (by simp)) hget
    rw [get?_limitGet] at he
    exact hu.entry _ p e he
  | suppressed hp => exact hu.moveTo (hin hp (by simp)) trivial
  | passed hp => exact hu.moveTo (hin hp (by simp)) trivial
  | stamp hp => exact hu.moveTo (hin hp (by simp)) le_rfl
  | @add g c t mark thread hp ht =>
    have hle : t ≤ u.now := (hp ▸ hu.place g : (LimitedPc.add c t mark).Dated u.now k d)
    have hrecord := hu.setCache c.log (c := limitAdd (u.limitedPrint c.log) u.now c.printid t)
      fun p e he => by
        rcases Lru.get?_add he with ⟨-, rfl⟩ | ⟨-, he⟩
        · exact hle
        · exact hu.entry _ p e he
    have hplace : (LimitedPc.printf c).Dated u.now k d := trivial
    have hmove := hrecord.moveTo (hin hp (by simp)) hplace
    exact ⟨hmove.place, hmove.thread, hmove.entry⟩
  | @printf g c b hp hs =>
    have hbase : ({ u with base := b, printfs := u.printfs ++ [(c, u.now)] } :
        LimitedState).Dated k d :=
      ⟨hu.place, fun g hne => (hu.thread g hne).trans_le (step_threads_length hs), hu.entry⟩
    exact hbase.moveTo ((hin hp (by simp)).trans_le (step_threads_length hs)) trivial

theorem reachIf_dated (h : (limitedMachine P).ReachIf (fun s a => inSetting k d s a = true) u) :
    u.Dated k d := by
  refine Machine.RunIf.invariant (P := fun u => u.Dated k d) h ?_ fun u a v _ hu hc hs => ?_
  · exact ⟨fun _ => trivial, fun _ hne => absurd rfl hne, nofun⟩
  · exact (limitedStep_cases hs).dated hc hu

end Dated

/-! ## No step raises the budget, every message lowers it -/

section Budget

variable {P : Primitives} {u v : LimitedState} {a : LimitedAction} {k : Ptr × Bytes} {d w : Int}
  {n : Nat} {g : Gid}

theorem LimitedPc.share_le (pc : LimitedPc) (st : Bool) : pc.share k w n st ≤ n + 1 := by
  have hweight : pc.weight k w n ≤ n + 1 := by
    unfold LimitedPc.weight
    split
    · split <;> omega
    · split <;> omega
    · split
      · split <;> omega
      · omega
    · omega
  have hst : st.toNat ≤ 1 := st.toNat_le
  exact max_le (by omega) hweight

theorem LimitedState.budget_le (s : LimitedState) : s.budget k w n ≤ n * (n + 1) := by
  have hsum := sum_le_card_nsmul (range n)
    (fun g => (s.places g).share k w n (s.stale k w)) (n + 1) fun g _ => LimitedPc.share_le _ _
  rwa [card_range, smul_eq_mul] at hsum

/-- The budget with a goroutine at another place. -/
theorem LimitedState.budget_update {pc : LimitedPc}
    (hplaces : v.places = Function.update u.places g pc) (hg : g < n) :
    v.budget k w n + (u.places g).share k w n (v.stale k w) =
      (∑ g ∈ range n, (u.places g).share k w n (v.stale k w)) + pc.share k w n (v.stale k w) := by
  rw [LimitedState.budget, hplaces]
  exact sum_range_update _ u.places hg pc

/-- A goroutine moves on, the cache stays as stale as it is. -/
theorem budget_le_of_move {pc : LimitedPc} (hplaces : v.places = Function.update u.places g pc)
    (htimes : v.times k = u.times k) (hg : g < n) (hstale : v.stale k w = u.stale k w)
    (hshare : pc.share k w n (u.stale k w) ≤ (u.places g).share k w n (u.stale k w)) :
    (v.times k).length + v.budget k w n ≤ (u.times k).length + u.budget k w n := by
  have hsum := LimitedState.budget_update (v := v) (k := k) (w := w) hplaces hg
  rw [hstale] at hsum
  have hbudget : u.budget k w n = ∑ g ∈ range n, (u.places g).share k w n (u.stale k w) := rfl
  rw [htimes]
  omega

/-- What `Get` returns when the cache holds a time of the window. -/
theorem get_of_fresh (hu : u.Dated k d) (hd : d ≤ expire) (hnow : u.now < w + d)
    (hfresh : u.stale k w = false) :
    before w (limitGet (u.limitedPrint k.1) u.now k.2).1 = false := by
  unfold LimitedState.stale at hfresh
  rcases he : (u.limitedPrint k.1).get? k.2 with _ | e
  · rw [he] at hfresh
    cases hfresh
  · rw [he] at hfresh
    have hw : w ≤ e.value := by simpa [before] using hfresh
    have hadded := hu.entry _ _ e he
    have hyoung : u.now - e.added < expire := by omega
    rw [limitGet, he]
    simp [hyoung, before, hw]

/-- An `Add` of the key: the message gets through. -/
theorem budget_add {pc : LimitedPc} (hplaces : v.places = Function.update u.places g pc)
    (hg : g < n) (hpc : pc.weight k w n = 0) {t : Int}
    (hweight : (u.places g).weight k w n = if t < w then n + 1 else 1)
    (hstale : v.stale k w = decide (t < w)) : v.budget k w n + 1 ≤ u.budget k w n := by
  have hsum := LimitedState.budget_update (v := v) (k := k) (w := w) hplaces hg
  have hbudget : u.budget k w n = ∑ g ∈ range n, (u.places g).share k w n (u.stale k w) := rfl
  by_cases ht : t < w
  · -- the limit is open again
    rw [if_pos ht] at hweight
    rw [hstale, decide_eq_true ht] at hsum
    have hpcshare : pc.share k w n true = 1 := by rw [LimitedPc.share, hpc]; rfl
    have hmine : ∀ st, (u.places g).share k w n st = n + 1 := fun st => by
      rw [LimitedPc.share, hweight]
      exact max_eq_right ((st.toNat_le).trans (by omega))
    rw [hpcshare, hmine] at hsum
    have hmore : ∑ g ∈ range n, (u.places g).share k w n true <
        ∑ g ∈ range n, ((u.places g).share k w n (u.stale k w) + 1) := by
      refine sum_lt_sum (fun g' _ => ?_) ⟨g, mem_range.mpr hg, by rw [hmine, hmine]; omega⟩
      exact max_le (Nat.le_add_left 1 _) ((le_max_right _ _).trans (Nat.le_add_right _ 1))
    rw [sum_add_distrib, sum_const, card_range, smul_eq_mul, Nat.mul_one] at hmore
    omega
  · rw [if_neg ht] at hweight
    rw [hstale, decide_eq_false ht] at hsum
    have hpcshare : pc.share k w n false = 0 := by rw [LimitedPc.share, hpc]; rfl
    have hmine : (u.places g).share k w n false = 1 := by rw [LimitedPc.share, hweight]; rfl
    have hless : ∑ g ∈ range n, (u.places g).share k w n false ≤ u.budget k w n :=
      sum_le_sum fun g _ => max_le_max_right _ (Nat.zero_le _)
    omega

/-- An `Add` that drops nothing changes nothing for the other identifiers. -/
theorem get?_add_other {c : LimitCache} {p q : Bytes} {e : Stamp} (hdrop : (c.add p e).2 = none)
    (hne : q ≠ p) : (c.add p e).1.get? q = c.get? q := by
  rcases hq : c.get? q with _ | e'
  · rcases hq' : (c.add p e).1.get? q with _ | e'
    · rfl
    · rcases Lru.get?_add hq' with ⟨rfl, -⟩ | ⟨-, hold⟩
      · exact absurd rfl hne
      · rw [hq] at hold
        cases hold
  · exact Lru.get?_add_of_ne hdrop hne hq

/-- A call reads the cache. -/
theorem LimitedState.budget_get (hu : u.Dated k d) (hd : d ≤ expire) (hnow : u.now < w + d)
    {c : LimitedArgs} (hp : u.places g = .get c) (hg : g < n) :
    let s := (u.setCache c.log (limitGet (u.limitedPrint c.log) u.now c.printid).2).moveTo g
      (.test c (limitGet (u.limitedPrint c.log) u.now c.printid).1 u.records.length)
    (s.times k).length + s.budget k w n ≤ (u.times k).length + u.budget k w n := by
  have hstale : LimitedState.stale ((u.setCache c.log
      (limitGet (u.limitedPrint c.log) u.now c.printid).2).moveTo g
      (.test c (limitGet (u.limitedPrint c.log) u.now c.printid).1 u.records.length)) k w =
      u.stale k w := by
    rw [LimitedState.stale, LimitedState.moveTo_limitedPrint, LimitedState.setCache_limitedPrint]
    split
    · rename_i hl
      rw [get?_limitGet, ← hl, LimitedState.stale]
    · rfl
  refine budget_le_of_move rfl rfl hg hstale ?_
  rw [hp, LimitedPc.share, LimitedPc.share]
  rcases hst : u.stale k w with _ | _
  · -- a call that reads a time of the window is left out
    have hweight : (LimitedPc.test c (limitGet (u.limitedPrint c.log) u.now c.printid).1
        u.records.length).weight k w n = 0 := by
      refine if_neg fun hboth => ?_
      obtain ⟨hk, hold⟩ := hboth
      subst hk
      have hget := get_of_fresh hu hd hnow hst
      exact absurd hold (by rw [LimitedArgs.key] at hget; simp [hget])
    rw [hweight]
    exact le_rfl
  · refine max_le (le_max_left _ _) ((?_ : _ ≤ 1).trans (le_max_left _ _))
    simp only [LimitedPc.weight]
    split <;> omega

/-- A call writes its time to the cache; for the limit that is counted this uses the budget up. -/
theorem LimitedState.budget_limitAdd (hset : inSetting k d u (.step g) = true) {c : LimitedArgs}
    {t : Int} {mark : Nat} {thread : Thread} (hp : u.places g = .add c t mark) (hg : g < n) :
    let s := (u.record (limitAdd (u.limitedPrint c.log) u.now c.printid t)
      ⟨c.log, c.printid, t, (g, thread.seq + 1)⟩).moveTo g (.printf c)
    (s.times k).length + s.budget k w n ≤ (u.times k).length + u.budget k w n := by
  let r : LimitRecord := ⟨c.log, c.printid, t, (g, thread.seq + 1)⟩
  let cache := limitAdd (u.limitedPrint c.log) u.now c.printid t
  let s := (u.record cache r).moveTo g (.printf c)
  have htimes : s.times k = u.times k ++ if c.key = k then [t] else [] :=
    u.record_times cache r k
  have hcache : ∀ l, s.limitedPrint l = if l = c.log then cache else u.limitedPrint l :=
    fun l => u.record_limitedPrint l cache r
  by_cases hk : c.key = k
  · have hstale : s.stale k w = decide (t < w) := by
      subst hk
      have hmine : s.limitedPrint c.log = cache := (hcache c.log).trans (if_pos rfl)
      have hself : cache.get? c.printid = some ⟨t, u.now⟩ :=
        Lru.get?_add_self (by decide) _ _
      show before w (((s.limitedPrint c.log).get? c.printid).map Stamp.value) = _
      rw [hmine, hself]
      rfl
    have hweight : (u.places g).weight k w n = if t < w then n + 1 else 1 := by
      rw [hp]
      exact if_pos hk
    have hless : s.budget k w n + 1 ≤ u.budget k w n :=
      budget_add rfl hg rfl hweight hstale
    show (s.times k).length + s.budget k w n ≤ _
    rw [htimes, if_pos hk, List.length_append, List.length_singleton]
    omega
  · rw [if_neg hk, List.append_nil] at htimes
    refine budget_le_of_move rfl htimes hg ?_ ?_
    · rw [LimitedState.stale, hcache, LimitedState.stale]
      split
      · rename_i hl
        have hne : k.2 ≠ c.printid := fun hid => hk (Prod.ext hl.symm hid.symm)
        rw [hl]
        exact congrArg (fun e => before w (e.map Stamp.value))
          (get?_add_other (inSetting_add hset hp hl.symm) hne)
      · rfl
    · rw [hp]
      refine max_le_max_left _ ?_
      simp [LimitedPc.weight]

theorem LimitedStep.budget (h : LimitedStep P u a v) (hset : inSetting k d u a = true)
    (hu : u.Dated k d) (hd : d ≤ expire) (hw : w ≤ u.now) (hnow : u.now < w + d)
    (hn : u.base.threads.length ≤ n) :
    (v.times k).length + v.budget k w n ≤ (u.times k).length + u.budget k w n := by
  have hin : ∀ {g pc}, u.places g = pc → pc ≠ .idle → g < n :=
    fun hp hne => (hu.thread _ (hp ▸ hne)).trans_le hn
  cases h with
  | base | tick | callNil => exact le_rfl
  | @call g c seq ht hp _ _ =>
    have hg : g < n := (List.getElem?_eq_some_iff.mp ht).1.trans_le hn
    refine budget_le_of_move rfl rfl hg rfl ?_
    rw [hp]
    exact le_rfl
  | get hp => exact LimitedState.budget_get hu hd hnow hp (hin hp (by simp))
  | @suppressed g c old mark hp _ =>
    refine budget_le_of_move rfl rfl (hin hp (by simp)) rfl ?_
    exact max_le_max_left _ (Nat.zero_le _)
  | @passed g c old mark hp hsoon =>
    refine budget_le_of_move rfl rfl (hin hp (by simp)) rfl ?_
    rw [hp]
    refine max_le_max_left _ ?_
    by_cases hk : c.key = k
    · have hdur : c.duration = d := (hp ▸ hu.place g : (LimitedPc.test c old mark).Dated _ k d) hk
      have hbefore : before w old = true := by
        rcases old with _ | t
        · rfl
        · have hold : ¬ u.now - t < c.duration := by simpa [tooSoon] using hsoon
          exact decide_eq_true (by omega)
      simp [LimitedPc.weight, hk, hbefore]
    · simp [LimitedPc.weight, hk]
  | @stamp g c mark hp =>
    refine budget_le_of_move rfl rfl (hin hp (by simp)) rfl ?_
    rw [hp]
    refine max_le_max_left _ ?_
    simp [LimitedPc.weight, Int.not_lt.mpr hw]
  | add hp ht => exact LimitedState.budget_limitAdd hset hp (hin hp (by simp))
  | @printf g c b hp _ =>
    refine budget_le_of_move rfl rfl (hin hp (by simp)) rfl ?_
    rw [hp]
    exact le_rfl

theorem LimitedStep.monotone (h : LimitedStep P u a v) :
    u.now ≤ v.now ∧ u.base.threads.length ≤ v.base.threads.length := by
  cases h with
  | base _ hs => exact ⟨le_rfl, step_threads_length hs⟩
  | tick => exact ⟨Int.le_add_of_nonneg_right (Int.natCast_nonneg _), le_rfl⟩
  | printf _ hs => exact ⟨le_rfl, step_threads_length hs⟩
  | _ => exact ⟨le_rfl, le_rfl⟩

/-- What gets through in a window, and what still can at its end. -/
theorem run_budget (hd : d ≤ expire)
    (hu : (limitedMachine P).ReachIf (fun s a => inSetting k d s a = true) u)
    (hrun : (limitedMachine P).RunIf (fun s a => inSetting k d s a = true) u v)
    (hwindow : v.now < u.now + d) (hn : v.base.threads.length ≤ n) :
    u.now ≤ v.now ∧
      (v.times k).length + v.budget k u.now n ≤ (u.times k).length + u.budget k u.now n := by
  induction hrun with
  | refl => exact ⟨le_rfl, le_rfl⟩
  | tail hrun hset hs ih =>
    have hstep := limitedStep_cases hs
    obtain ⟨hnow, hthreads⟩ := hstep.monotone
    obtain ⟨hle, hbudget⟩ := ih (hnow.trans_lt hwindow) (hthreads.trans hn)
    have hdated := reachIf_dated (Machine.RunIf.trans hu hrun)
    exact ⟨hle.trans hnow, (hstep.budget hset hdated hd hle (hnow.trans_lt hwindow)
      (hthreads.trans hn)).trans hbudget⟩

end Budget

/-- Two goroutines and a logger. -/
theorem twoCallers_runs : ((limitedMachine unitPrimitives).execIf
    (inSetting (1, [105]) second) {} twoCallers).isSome := by decide +kernel

/-- Both read the cache before either stores its time. -/
def bothReadFirst : List LimitedAction :=
  [.call 0 onceASecond, .step 0, .call 1 onceASecond, .step 1] ++
    List.replicate 3 (.step 0) ++ List.replicate 3 (.step 1)

theorem bothReadFirst_runs : ((limitedMachine unitPrimitives).execIf (inSetting (1, [105]) second)
    (((limitedMachine unitPrimitives).execIf (inSetting (1, [105]) second) {} twoCallers).get
      twoCallers_runs) bothReadFirst).isSome := by decide +kernel

end ZipoLogger
