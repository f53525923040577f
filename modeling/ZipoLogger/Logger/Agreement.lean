/-
  What the callers of `NewLogger` agree on.

  `CallReturns T g a l i j`: in the run `T` the step `i` is the call of `NewLogger` by `g`, and
  the step `j` returns `l` from it. Whatever the other goroutines do, `l` stood in the registry
  under the name at a moment between the two: the lookups return what they find, and what a call
  adds it returns (`GoStep.creating`). An entry leaves the registry by eviction only and is never
  replaced (`step_registered`), so two calls with one name and no eviction between their moments
  return one logger; the name of a logger is for good, so calls with different names never do.
-/
import ZipoLogger.Logger.Registry
import ZipoLogger.Logger.Calls
import ZipoLogger.Lib.Trace

namespace ZipoLogger

open Enc

/-- The step is a call of the goroutine. -/
def Action.calls (g : Gid) : Action → Bool
  | .go g' (.call _) => g' = g
  | _ => false

/-- A `NewLogger` with the arguments `a` that has not returned; `R` holds of what it has added. -/
def Pc.Creating (a : NewArgs) (R : Ptr → Prop) : Pc → Prop
  | .idle => True
  | .newLogger a' (.evicted new _) | .newLogger a' (.unlock new) => a' = a ∧ R new
  | .newLogger a' _ => a' = a
  | .wait _ _ (.evict a' new) _ => a' = a ∧ R new
  | _ => False

section Steps

variable {P : Primitives} {g : Gid} {seq : Nat} {s s' : Shared} {pc pc' : Pc} {i : Input}
  {a : NewArgs} {R R' : Ptr → Prop}

theorem Pc.Creating.mono (h : pc.Creating a R) (hR : ∀ l, R l → R' l) : pc.Creating a R' := by
  unfold Pc.Creating at h ⊢
  split at h
  · trivial
  · exact h.imp_right (hR _)
  · exact h.imp_right (hR _)
  · exact h
  · exact h.imp_right (hR _)
  · exact h.elim

/-- A logger is in the registry right after its `Add`. -/
theorem Shared.get?_add {r : Lru Bytes Ptr registryCap}
    (hr : r = (s.registry.add a.filename s.nlog).1) : r.get? a.filename = some s.nlog := by
  rw [hr]
  exact Lru.get?_eq_some_iff.mpr (Lru.self_mem_add (by decide))

theorem GoStep.callNew_eq (h : GoStep g seq s pc (.call (.newLogger a)) pc' s') :
    pc' = .newLogger a .get := by
  cases h
  rfl

/-- A call of `NewLogger` goes on to return what it has added. -/
theorem GoStep.creating (h : GoStep g seq s pc i pc' s') (hcall : ∀ c, i ≠ .call c)
    (hpc : pc.Creating a R) :
    pc'.Creating a fun l => R l ∨ s'.registry.get? a.filename = some l := by
  cases h with
  | callNop | callPrint | callWait | callClose | callWaitAll | callNew | callSet | callSetGlobal
  | callStdout | callDepth => exact absurd rfl (hcall _)
  | newHit | newHit2 | newUnlock => trivial
  | newMiss | newLock | newMiss2 => exact hpc
  | newAdd =>
    cases hpc
    exact ⟨rfl, .inr (Shared.get?_add rfl)⟩
  | newEvict =>
    cases hpc
    exact ⟨rfl, .inr (Shared.get?_add rfl)⟩
  | newEvicted => exact ⟨hpc.1, .inl hpc.2⟩
  | @waitLock l mark k | @waitSet l mark k | @waitThrough l mark k | @waitPark l mark k
  | @waitWake l mark k | @waitRelock l mark k =>
    cases k with
    | evict a' new => exact ⟨hpc.1, .inl hpc.2⟩
    | _ => exact hpc.elim
  | @waitEarly l mark k | @waitClear l mark k =>
    cases k with
    | evict a' new => exact ⟨hpc.1, .inl hpc.2⟩
    | _ => exact hpc.elim
  | waitPanics =>
    rw [unwindWait_fst]
    trivial
  | _ => exact hpc.elim

/-- What a call of `NewLogger` returns it has added, or it is in the registry. -/
theorem GoStep.newReturns {f : Bytes} {l : Ptr} (h : GoStep g seq s pc i pc' s')
    (hpc : pc.Creating a R) (hr : s'.returned = s.returned ++ [.newLogger g f l]) :
    R l ∨ s.registry.get? a.filename = some l := by
  rcases h.returned with hsame | ⟨r, hnew, hret⟩
  · rw [hsame] at hr
    simp at hr
  · rw [hr] at hnew
    have hrr : .newLogger g f l = r := by simpa using hnew
    subst hrr
    cases hret with
    | newLogger =>
      cases h with
      | @newHit _ l' hlock hget | @newHit2 _ l' hlock hget =>
        cases hpc
        have hl : l' = l := by simpa using hr
        exact .inr (hl ▸ hget)
      | @newUnlock _ new =>
        have hl : new = l := by simpa using hr
        exact .inl (hl ▸ hpc.2)
      | newMiss | newLock | newMiss2 | newAdd | newEvict | newEvicted =>
        simp [Shared.alloc] at hr

/-- The goroutine drops the entry under `f` from the registry. -/
def Evicts (u : State) (x : Action) (f : Bytes) : Prop :=
  ∃ g t a old, x = .go g .tau ∧ u.threads[g]? = some t ∧ t.pc = .newLogger a .add ∧
    (u.sh.registry.add a.filename u.sh.nlog).2 = some (f, old)

/-- An entry of the registry stays, or it is evicted; none is replaced. -/
theorem step_registered {u v : State} {x : Action} {f : Bytes} {l : Ptr}
    (hu : (machine P).Reach u) (hs : step P u x = some v) (hget : u.sh.registry.get? f = some l) :
    v.sh.registry.get? f = some l ∨ (Evicts u x f ∧ v.sh.registry.get? f = none) := by
  rcases step_cases hs with ⟨-, rfl⟩ | ⟨g, i, t, pc, sh, hx, ht, hstep, rfl⟩ |
    ⟨i, wpc, sh, -, hstep, rfl⟩
  · exact .inl hget
  · rcases hstep.registry with hsame | ⟨a, hpc, hadd, hdrop⟩
    · exact .inl ((hsame f).trans hget)
    · have hmiss := reach_add_misses hu g t a ht hpc
      have hne : f ≠ a.filename := by
        intro he
        rw [he, hmiss] at hget
        cases hget
      have hi : i = .tau := by
        rw [hpc] at hstep
        cases hstep <;> rfl
      subst hi
      show sh.registry.get? f = some l ∨ _ ∧ sh.registry.get? f = none
      rw [hadd]
      rcases Lru.add_keeps (Lru.get?_eq_some_iff.mp hget) hne with hmem | hlost
      · exact .inl (Lru.get?_eq_some_iff.mpr hmem)
      · refine .inr ⟨⟨g, t, a, l, hx, ht, hpc, hlost⟩, ?_⟩
        rw [Lru.get?_eq_none_iff, Lru.mem_keys]
        intro hmem
        obtain ⟨l', hl'⟩ := hmem
        exact Lru.dropped_not_mem hlost _ hl' rfl
  · left
    show sh.registry.get? f = some l
    rw [hstep.registry]
    exact hget

end Steps

/-! ## Every run -/

section Runs

variable {P : Primitives} {n : Nat} {g : Gid} {a : NewArgs} {l : Ptr} {i j k : Nat}

/-- The step `i` of the run is the call of `NewLogger` by `g`, its step `j` the return of that
    call. -/
structure CallReturns (T : (machine P).Trace n) (g : Gid) (a : NewArgs) (l : Ptr) (i j : Nat) :
    Prop where
  lt : i < j
  le : j < n
  begins : T.action i = .go g (.call (.newLogger a))
  inside : ∀ k, i < k → k ≤ j → (T.action k).calls g = false
  returns : ∃ inp f, T.action j = .go g inp ∧
    (T.state (j + 1)).sh.returned = (T.state j).sh.returned ++ [.newLogger g f l]

variable {T : (machine P).Trace n}

/-- After `k` steps the logger has stood in the registry under the name, at a moment after the
    step `i`. -/
def RegisteredSince (T : (machine P).Trace n) (f : Bytes) (i k : Nat) (l : Ptr) : Prop :=
  ∃ m, i < m ∧ m ≤ k ∧ (T.state m).sh.registry.get? f = some l

theorem RegisteredSince.succ {f : Bytes} (h : RegisteredSince T f i k l) :
    RegisteredSince T f i (k + 1) l := by
  obtain ⟨m, him, hmk, hget⟩ := h
  exact ⟨m, him, Nat.le_succ_of_le hmk, hget⟩

/-- Between its call and its return the goroutine stands where it has added nothing, or what it
    has added was registered. -/
theorem CallReturns.creating (h : CallReturns T g a l i j) : ∃ t, (T.state j).threads[g]? = some t ∧
    t.pc.Creating a (RegisteredSince T a.filename i j) := by
  have hlt : i < n := h.lt.trans h.le
  refine T.along (P := fun k => k ≤ j → ∃ t, (T.state k).threads[g]? = some t ∧
    t.pc.Creating a (RegisteredSince T a.filename i k)) (Nat.succ_le_of_lt h.lt) h.le.le ?_ ?_
    le_rfl
  · intro _
    have hs : step P (T.state i) (T.action i) = some (T.state (i + 1)) := T.step i hlt
    rw [h.begins] at hs
    obtain ⟨t, pc, -, hstep, ht⟩ := step_go hs
    have hpc : pc = .newLogger a .get := hstep.callNew_eq
    subst hpc
    exact ⟨_, ht, rfl⟩
  · intro k hik hkj hs ih _
    obtain ⟨t, ht, hpc⟩ := ih hkj.le
    rcases step_thread hs ht with ⟨inp, pc, hx, hstep, ht'⟩ | ⟨-, ht'⟩
    · refine ⟨_, ht', ?_⟩
      have hcall : ∀ c, inp ≠ .call c := by
        intro c hc
        have hno := h.inside k hik hkj.le
        simp [hx, hc, Action.calls] at hno
      refine (hstep.creating hcall hpc).mono fun l hl => ?_
      rcases hl with hl | hget
      · exact hl.succ
      · exact ⟨k + 1, by omega, le_rfl, hget⟩
    · exact ⟨t, ht', hpc.mono fun l hl => hl.succ⟩

/-- The logger a call returns was registered under the name during the call. -/
theorem CallReturns.registered (h : CallReturns T g a l i j) :
    RegisteredSince T a.filename i j l := by
  obtain ⟨t, ht, hpc⟩ := h.creating
  obtain ⟨inp, f, hx, hr⟩ := h.returns
  rcases step_thread (T.step j h.le) ht with ⟨inp', pc, -, hstep, -⟩ | ⟨hno, -⟩
  · rcases hstep.newReturns hpc hr with hl | hget
    · exact hl
    · exact ⟨j, h.lt, le_rfl, hget⟩
  · exact absurd hx (hno inp)

/-- Between two moments without an eviction of the name, the registry keeps its logger. -/
theorem registered_unique {f : Bytes} {l₁ l₂ : Ptr} {k₁ k₂ : Nat} (hle : k₁ ≤ k₂) (hn : k₂ ≤ n)
    (h₁ : (T.state k₁).sh.registry.get? f = some l₁)
    (h₂ : (T.state k₂).sh.registry.get? f = some l₂)
    (hno : ∀ k, k₁ ≤ k → k < k₂ → ¬ Evicts (T.state k) (T.action k) f) : l₁ = l₂ := by
  have hkeep : (T.state k₂).sh.registry.get? f = some l₁ := by
    refine T.along (P := fun k => (T.state k).sh.registry.get? f = some l₁) hle hn h₁ ?_
    intro k hk hkj hs hget
    rcases step_registered (T.reach (by omega)) hs hget with hsame | ⟨hev, -⟩
    · exact hsame
    · exact absurd hev (hno k hk hkj)
  exact Option.some.inj (hkeep.symm.trans h₂)

/-- The name a logger was registered under is its name for good. -/
theorem RegisteredSince.filename {f : Bytes} (h : RegisteredSince T f i k l) (hn : k ≤ n) :
    ((T.state n).sh.loggers l).filename = f := by
  obtain ⟨m, -, hmk, hget⟩ := h
  obtain ⟨-, hlt, hname⟩ := (reach_wf (T.reach (hmk.trans hn))).shared.registered _
    (Lru.get?_eq_some_iff.mp hget)
  exact (run_filename (T.run (hmk.trans hn) le_rfl) hlt).trans hname

/-- The callers of `NewLogger` agree in the run. -/
structure Agreed (T : (machine P).Trace n) : Prop where
  /-- One logger for each name, and the name is its own. -/
  names : ∀ k ≤ n, ∀ e ∈ (T.state k).sh.registry.entries,
    ((T.state k).sh.loggers e.2).filename = e.1 ∧
      ∀ e' ∈ (T.state k).sh.registry.entries, e'.1 = e.1 → e' = e
  /-- No logger is overwritten by another one: it stays, or it is evicted. -/
  kept : ∀ k < n, ∀ f l, (T.state k).sh.registry.get? f = some l →
    (T.state (k + 1)).sh.registry.get? f = some l ∨
      (Evicts (T.state k) (T.action k) f ∧ (T.state (k + 1)).sh.registry.get? f = none)
  /-- A call returns a logger that was registered under the name during the call. -/
  registered : ∀ g a l i j, CallReturns T g a l i j → RegisteredSince T a.filename i j l
  /-- Two calls with one name return one logger if the name was not evicted between. -/
  same : ∀ g₁ g₂ a₁ a₂ l₁ l₂ i₁ j₁ i₂ j₂,
    CallReturns T g₁ a₁ l₁ i₁ j₁ → CallReturns T g₂ a₂ l₂ i₂ j₂ → a₁.filename = a₂.filename →
      ∃ k₁ k₂, i₁ < k₁ ∧ k₁ ≤ j₁ ∧ (T.state k₁).sh.registry.get? a₁.filename = some l₁ ∧
        i₂ < k₂ ∧ k₂ ≤ j₂ ∧ (T.state k₂).sh.registry.get? a₂.filename = some l₂ ∧
        ((∀ k, min k₁ k₂ ≤ k → k < max k₁ k₂ →
          ¬ Evicts (T.state k) (T.action k) a₁.filename) → l₁ = l₂)
  /-- Calls with different names return different loggers. -/
  differ : ∀ g₁ g₂ a₁ a₂ l₁ l₂ i₁ j₁ i₂ j₂,
    CallReturns T g₁ a₁ l₁ i₁ j₁ → CallReturns T g₂ a₂ l₂ i₂ j₂ →
      a₁.filename ≠ a₂.filename → l₁ ≠ l₂

/-- In every run, of any calls in any order, the callers of `NewLogger` agree. -/
theorem newLogger_agrees (T : (machine P).Trace n) : Agreed T where
  names k hk e he := by
    refine ⟨((reach_wf (T.reach hk)).shared.registered e he).2.2, fun e' he' hkey => ?_⟩
    have hval : e'.2 = e.2 := by
      refine Lru.value_unique (c := (T.state k).sh.registry) (k := e.1) ?_ he
      rw [← hkey]
      exact he'
    exact Prod.ext hkey hval
  kept k hk f l hget := step_registered (T.reach hk.le) (T.step k hk) hget
  registered g a l i j h := h.registered
  same g₁ g₂ a₁ a₂ l₁ l₂ i₁ j₁ i₂ j₂ h₁ h₂ hname := by
    obtain ⟨k₁, hi₁, hj₁, hget₁⟩ := h₁.registered
    obtain ⟨k₂, hi₂, hj₂, hget₂⟩ := h₂.registered
    refine ⟨k₁, k₂, hi₁, hj₁, hget₁, hi₂, hj₂, hget₂, fun hno => ?_⟩
    rw [← hname] at hget₂
    rcases Nat.le_total k₁ k₂ with hle | hle
    · rw [Nat.min_eq_left hle, Nat.max_eq_right hle] at hno
      exact registered_unique hle (hj₂.trans h₂.le.le) hget₁ hget₂ hno
    · rw [Nat.min_eq_right hle, Nat.max_eq_left hle] at hno
      exact (registered_unique hle (hj₁.trans h₁.le.le) hget₂ hget₁ hno).symm
  differ g₁ g₂ a₁ a₂ l₁ l₂ i₁ j₁ i₂ j₂ h₁ h₂ hname hl := by
    subst hl
    exact hname ((h₁.registered.filename h₁.le.le).symm.trans (h₂.registered.filename h₂.le.le))

/-- A call that creates the logger of a name, and one that finds it. -/
def createAndFind : List Action :=
  .spawn :: newLoggerCall 0 [97] ++ [.go 0 (.call (.newLogger { filename := [97] })), .go 0 .tau]

theorem createAndFind_runs :
    ((machine unitPrimitives).exec (machine unitPrimitives).init createAndFind).isSome := by decide

theorem newLogger_agrees_createAndFind :
    let T := Machine.Trace.ofExec createAndFind createAndFind_runs
    RegisteredSince T [97] 7 8 1 := by
  intro T
  refine (newLogger_agrees T).registered 0 { filename := [97] } 1 7 8 ?_
  refine ⟨by decide, by decide, rfl, fun k hk hkj => ?_, .tau, [97], rfl, ?_⟩
  · have hk : k = 8 := by omega
    subst hk
    rfl
  · decide

end Runs

end ZipoLogger
