/-
  `sync.WaitGroup`.

  The state word of the Go implementation is the pair (`counter`, `waiters`); `sema` is the
  semaphore the waiters sleep on. `Add` is one atomic update of the state word; an `Add` that
  takes the counter to zero while somebody waits goes on to two more: it loads the state word and
  panics unless it is as the update left it (`unchanged`), then it stores zero, whatever the state
  word is by then, and gives the waiters it had found a token each (`reset`). An `Add` in between
  is lost. The tokens come right after the store; only a waiter can tell the two apart, and it
  sleeps until it has one, so they are one step here. `Wait` returns at once on a zero counter,
  otherwise it registers (`enter`) and sleeps until it gets a token (`wake`); a waiter that wakes
  up to a non-zero state word panics, as does an `Add` from zero that meets registered waiters.
-/
import Mathlib.Tactic

structure WaitGroup where
  counter : Int := 0
  waiters : Nat := 0
  sema : Nat := 0
  deriving DecidableEq, Repr

namespace WaitGroup

/-- What the caller of `Add` does after the update of the state word. -/
inductive Outcome where
  /-- `Add` returns. -/
  | returns
  /-- The counter reached zero with `w` registered waiters, who are to be released. -/
  | wakes (w : Nat)
  /-- Negative counter, or an `Add` concurrent with `Wait`. -/
  | panics
  deriving DecidableEq, Repr

/-- `wg.Add(delta)` up to the point where it would release the waiters. -/
def add (wg : WaitGroup) (delta : Int) : WaitGroup × Outcome :=
  let v := wg.counter + delta
  let wg' := { wg with counter := v }
  if v < 0 then (wg', .panics)
  else if wg.waiters ≠ 0 ∧ 0 < delta ∧ v = delta then (wg', .panics)
  else if 0 < v ∨ wg.waiters = 0 then (wg', .returns)
  else (wg', .wakes wg.waiters)

/-- `wg.Done()`. -/
def done (wg : WaitGroup) : WaitGroup × Outcome := wg.add (-1)

/-- The check of an `Add` that has reached zero with `w` waiters; if it fails `Add` panics. -/
def unchanged (wg : WaitGroup) (w : Nat) : Bool := wg.counter = 0 ∧ wg.waiters = w

/-- The end of an `Add` that has reached zero with `w` waiters. -/
def reset (wg : WaitGroup) (w : Nat) : WaitGroup :=
  { counter := 0, waiters := 0, sema := wg.sema + w }

/-- The first half of `wg.Wait()`: `none` when it returns at once. -/
def enter (wg : WaitGroup) : Option WaitGroup :=
  if wg.counter = 0 then none else some { wg with waiters := wg.waiters + 1 }

/-- The second half of `wg.Wait()`: `none` while it sleeps; the flag is false when the waiter
    finds the group reused and panics. -/
def wake (wg : WaitGroup) : Option (WaitGroup × Bool) :=
  if wg.sema = 0 then none
  else some ({ wg with sema := wg.sema - 1 }, decide (wg.counter = 0 ∧ wg.waiters = 0))

/-- The waiters that are registered or have a token to wake up with. -/
def sleepers (wg : WaitGroup) : Nat := wg.waiters + wg.sema

@[simp] theorem add_counter (wg : WaitGroup) (d : Int) : (wg.add d).1.counter = wg.counter + d := by
  unfold add
  dsimp only
  split_ifs <;> rfl

@[simp] theorem done_counter (wg : WaitGroup) : wg.done.1.counter = wg.counter - 1 :=
  add_counter wg (-1)

@[simp] theorem reset_counter (wg : WaitGroup) (w : Nat) : (wg.reset w).counter = 0 := rfl

theorem enter_none_iff (wg : WaitGroup) : wg.enter = none ↔ wg.counter = 0 := by
  unfold enter
  split <;> simp_all

theorem enter_counter {wg wg' : WaitGroup} (h : wg.enter = some wg') :
    wg'.counter = wg.counter := by
  unfold enter at h
  split at h
  · cases h
  · cases h
    rfl

theorem wake_counter {wg wg' : WaitGroup} {ok : Bool} (h : wg.wake = some (wg', ok)) :
    wg'.counter = wg.counter ∧ (ok = true → wg.counter = 0) := by
  unfold wake at h
  split at h
  · cases h
  · cases h
    exact ⟨rfl, fun hk => (of_decide_eq_true hk).1⟩

/-! ## The waiters -/

theorem add_waiters (wg : WaitGroup) (d : Int) :
    (wg.add d).1.waiters = wg.waiters ∧ (wg.add d).1.sema = wg.sema := by
  unfold add
  dsimp only
  split_ifs <;> exact ⟨rfl, rfl⟩

theorem add_sleepers (wg : WaitGroup) (d : Int) : (wg.add d).1.sleepers = wg.sleepers := by
  rw [sleepers, (add_waiters wg d).1, (add_waiters wg d).2, sleepers]

/-- All the waiters are released when there are as many as were found. -/
theorem reset_sleepers {wg : WaitGroup} {w : Nat} (h : wg.waiters = w) :
    (wg.reset w).sleepers = wg.sleepers := by
  unfold sleepers reset
  dsimp only
  omega

theorem enter_sleepers {wg wg' : WaitGroup} (h : wg.enter = some wg') :
    wg'.sleepers = wg.sleepers + 1 := by
  unfold enter at h
  split at h
  · cases h
  · cases h
    simp only [sleepers]
    omega

theorem wake_sleepers {wg wg' : WaitGroup} {ok : Bool} (h : wg.wake = some (wg', ok)) :
    wg'.sleepers + 1 = wg.sleepers := by
  unfold wake at h
  split at h
  · cases h
  · cases h
    simp only [sleepers]
    omega

theorem enter_sema {wg wg' : WaitGroup} (h : wg.enter = some wg') : wg'.sema = wg.sema := by
  unfold enter at h
  split at h
  · cases h
  · cases h
    rfl

/-- A waiter that panics has a token and finds the group in use. -/
theorem wake_false {wg wg' : WaitGroup} (h : wg.wake = some (wg', false)) :
    0 < wg.sema ∧ ¬ (wg.counter = 0 ∧ wg.waiters = 0) := by
  unfold wake at h
  split at h
  · cases h
  · rename_i hsema
    have hreused := (Prod.ext_iff.mp (Option.some.inj h)).2
    exact ⟨Nat.pos_of_ne_zero hsema, of_decide_eq_false hreused⟩

/-! ## The release of the waiters -/

/-- One when the counter has reached zero and the waiters are still registered. -/
def due (wg : WaitGroup) : Nat := if 0 < wg.waiters ∧ wg.counter = 0 then 1 else 0

theorem due_le (wg : WaitGroup) : wg.due ≤ 1 := by
  unfold due
  split <;> omega

theorem of_due {wg : WaitGroup} (h : wg.due = 1) : 0 < wg.waiters ∧ wg.counter = 0 := by
  unfold due at h
  split at h
  · assumption
  · cases h

theorem due_of_counter {wg : WaitGroup} (h : wg.counter ≠ 0) : wg.due = 0 :=
  if_neg fun hd => h hd.2

/-- An `Add(1)` panics when the waiters are due, and returns otherwise. -/
theorem add_one {wg : WaitGroup} (hc : 0 ≤ wg.counter) :
    (wg.due = 0 ∧ (wg.add 1).2 = .returns) ∨ (wg.due = 1 ∧ (wg.add 1).2 = .panics) := by
  unfold due add
  dsimp only
  by_cases hw : wg.waiters = 0
  · left
    rw [if_neg (by omega), if_neg (by omega), if_neg (by omega), if_pos (by omega)]
    exact ⟨rfl, rfl⟩
  · by_cases hz : wg.counter = 0
    · right
      rw [if_pos (by omega), if_neg (by omega), if_pos (by omega)]
      exact ⟨rfl, rfl⟩
    · left
      rw [if_neg (by omega), if_neg (by omega), if_neg (by omega), if_pos (by omega)]
      exact ⟨rfl, rfl⟩

/-- A `Done` returns, or it makes the waiters due and goes on to release them. -/
theorem done_due {wg : WaitGroup} (hc : 0 < wg.counter) :
    (wg.done.2 = .returns ∧ wg.done.1.due = 0) ∨
      (wg.done.2 = .wakes wg.waiters ∧ wg.done.1.due = 1) := by
  unfold done due add
  dsimp only
  rw [if_neg (by omega), if_neg (by omega)]
  by_cases hret : 0 < wg.counter + -1 ∨ wg.waiters = 0
  · left
    rw [if_pos hret, if_neg (by dsimp only; omega)]
    exact ⟨rfl, rfl⟩
  · right
    rw [if_neg hret, if_pos (by dsimp only; omega)]
    exact ⟨rfl, rfl⟩

@[simp] theorem reset_due (wg : WaitGroup) (w : Nat) : (wg.reset w).due = 0 := rfl

theorem unchanged_of_due {wg : WaitGroup} (h : wg.due = 1) : wg.unchanged wg.waiters = true := by
  simp [unchanged, (of_due h).2]

theorem enter_due {wg wg' : WaitGroup} (h : wg.enter = some wg') : wg.due = 0 ∧ wg'.due = 0 := by
  have hc := enter_counter h
  have hne : wg.counter ≠ 0 := fun hz => by simp [enter, hz] at h
  exact ⟨due_of_counter hne, due_of_counter (hc ▸ hne)⟩

theorem wake_due {wg wg' : WaitGroup} {ok : Bool} (h : wg.wake = some (wg', ok)) :
    wg'.due = wg.due := by
  unfold wake at h
  split at h
  · cases h
  · cases h
    rfl

end WaitGroup
