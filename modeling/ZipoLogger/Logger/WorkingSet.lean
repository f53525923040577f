/-
  How long a logger stays in the registry.

  A name is used when a `Get` finds it, in `NewLogger` or in the package-level `Wait`, and when
  it is added. `initializedLoggers` keeps the 1000 names used last: in every run a name is
  registered exactly when fewer than 1000 other names were used since its last use, and as long
  as that is so it stands for the same logger (`registry_workingSet`). The package-level `Wait`
  counts: it uses every name that it still finds.
-/
import ZipoLogger.Logger.Agreement
import ZipoLogger.Lib.Recency

namespace ZipoLogger

open Enc Recency

/-! ## The uses -/

/-- The name whose entry the step from a place finds or adds. -/
def Pc.usesName (s : Shared) : Pc → Option Bytes
  | .waitAll _ (.next (w :: _)) => if (s.registry.get? w).isSome then some w else none
  | .newLogger a .get | .newLogger a .get2 =>
    if (s.registry.get? a.filename).isSome then some a.filename else none
  | .newLogger a .add => some a.filename
  | _ => none

/-- The name a step uses. -/
def State.usesName (u : State) : Action → Option Bytes
  | .go g _ => (u.threads[g]?).bind fun t => t.pc.usesName u.sh
  | _ => none

section Steps

variable {P : Primitives} {g : Gid} {seq : Nat} {s s' : Shared} {pc pc' : Pc} {i : Input}
  {ks : List Bytes}

theorem GoStep.holds (h : GoStep g seq s pc i pc' s') (hks : s.registry.Holds ks) :
    s'.registry.Holds (ks ++ (pc.usesName s).toList) := by
  have hsame : pc.usesName s = none → s'.registry = s.registry →
      s'.registry.Holds (ks ++ (pc.usesName s).toList) := by
    intro huses hreg
    rw [huses, hreg, Option.toList_none, List.append_nil]
    exact hks
  cases h with
  | @allHit mark w keys l _ hget =>
    have huses : Pc.usesName s (.waitAll mark (.next (w :: keys))) = some w := by
      simp [Pc.usesName, hget]
    rw [huses]
    exact hks.touch hget
  | @newHit a l _ hget =>
    have huses : Pc.usesName s (.newLogger a .get) = some a.filename := by simp [Pc.usesName, hget]
    rw [huses]
    exact hks.touch hget
  | @newHit2 a l _ hget =>
    have huses : Pc.usesName s (.newLogger a .get2) = some a.filename := by simp [Pc.usesName, hget]
    rw [huses]
    exact hks.touch hget
  | newAdd | newEvict => exact hks.add _ _
  | allMiss _ hget | newMiss _ hget | newMiss2 _ hget =>
    exact hsame (by simp [Pc.usesName, hget]) rfl
  | waitEarly | waitClear => exact hsame rfl (by rw [afterWait_snd]; simp)
  | @waitPanics l mark k => exact hsame rfl (by cases k <;> rfl)
  | sent | full | closeDone | newEvicted | setApply => exact hsame rfl (by simp [Shared.enqueue])
  | _ => exact hsame rfl rfl

theorem step_holds {u v : State} {x : Action} (hs : step P u x = some v)
    (hks : u.sh.registry.Holds ks) : v.sh.registry.Holds (ks ++ (u.usesName x).toList) := by
  rcases step_cases hs with ⟨rfl, rfl⟩ | ⟨g, i, t, pc, sh, rfl, ht, hstep, rfl⟩ |
    ⟨i, wpc, sh, rfl, hstep, rfl⟩
  · simpa [State.usesName] using hks
  · have huses : u.usesName (.go g i) = t.pc.usesName u.sh := by
      rw [State.usesName, ht, Option.bind_some]
    rw [huses]
    exact hstep.holds hks
  · show sh.registry.Holds (ks ++ [])
    rw [hstep.registry, List.append_nil]
    exact hks

end Steps

/-! ## Every run -/

section Runs

variable {P : Primitives} {n : Nat} (T : (machine P).Trace n)

/-- The names used by the steps from `i` up to `k`. -/
def namesUsed (i k : Nat) : List Bytes :=
  (List.range' i (k - i)).filterMap fun j => (T.state j).usesName (T.action j)

variable {T}

theorem namesUsed_append {i j k : Nat} (hij : i ≤ j) (hjk : j ≤ k) :
    namesUsed T i k = namesUsed T i j ++ namesUsed T j k := by
  have hrange : List.range' i (k - i) = List.range' i (j - i) ++ List.range' j (k - j) := by
    have hsplit : List.range' i (j - i) ++ List.range' (i + (j - i)) (k - j) =
        List.range' i (j - i + (k - j)) := List.range'_append_1
    rw [show i + (j - i) = j by omega, show j - i + (k - j) = k - i by omega] at hsplit
    exact hsplit.symm
  rw [namesUsed, hrange, List.filterMap_append]
  rfl

theorem namesUsed_one (k : Nat) :
    namesUsed T k (k + 1) = ((T.state k).usesName (T.action k)).toList := by
  rw [namesUsed, Nat.add_sub_cancel_left, List.range'_one, List.filterMap_cons]
  cases (T.state k).usesName (T.action k) <;> rfl

theorem namesUsed_succ {i k : Nat} (h : i ≤ k) :
    namesUsed T i (k + 1) = namesUsed T i k ++ ((T.state k).usesName (T.action k)).toList := by
  rw [namesUsed_append h (Nat.le_succ k), namesUsed_one]

/-- The uses, split at one. -/
theorem namesUsed_split {i k : Nat} {f : Bytes} (h : i < k)
    (huse : (T.state i).usesName (T.action i) = some f) :
    namesUsed T 0 k = namesUsed T 0 i ++ f :: namesUsed T (i + 1) k := by
  rw [namesUsed_append (Nat.zero_le i) h.le, namesUsed_append (Nat.le_succ i) h, namesUsed_one,
    huse]
  rfl

/-- The step `i` is the last one before the moment `k` that uses the name. -/
structure LastUse (T : (machine P).Trace n) (f : Bytes) (i k : Nat) : Prop where
  lt : i < k
  uses : (T.state i).usesName (T.action i) = some f
  last : f ∉ namesUsed T (i + 1) k

theorem exists_lastUse {k : Nat} {f : Bytes} (h : f ∈ namesUsed T 0 k) :
    ∃ i, LastUse T f i k := by
  induction k with
  | zero => cases h
  | succ k ih =>
    by_cases huse : (T.state k).usesName (T.action k) = some f
    · refine ⟨k, Nat.lt_succ_self k, huse, ?_⟩
      rw [namesUsed, Nat.sub_self]
      exact List.not_mem_nil
    · have hother : f ∉ ((T.state k).usesName (T.action k)).toList := by
        rwa [Option.mem_toList]
      rw [namesUsed_succ (Nat.zero_le k), List.mem_append] at h
      obtain ⟨i, hi⟩ := ih (h.resolve_right hother)
      refine ⟨i, Nat.lt_succ_of_lt hi.lt, hi.uses, ?_⟩
      rw [namesUsed_succ hi.lt, List.mem_append, not_or]
      exact ⟨hi.last, hother⟩

theorem trace_holds {k : Nat} (hk : k ≤ n) : (T.state k).sh.registry.Holds (namesUsed T 0 k) := by
  refine T.along (P := fun k => (T.state k).sh.registry.Holds (namesUsed T 0 k)) (Nat.zero_le k) hk
    ?_ fun j hj _ hs hholds => ?_
  · rw [T.start]
    exact Lru.holds_empty
  · rw [namesUsed_succ hj]
    exact step_holds hs hholds

theorem registered_iff {k : Nat} (hk : k ≤ n) {f : Bytes} :
    (∃ l, (T.state k).sh.registry.get? f = some l) ↔
      ∃ i, LastUse T f i k ∧ (namesUsed T (i + 1) k).toFinset.card < registryCap := by
  rw [(trace_holds hk).mem_iff]
  constructor
  · intro h
    obtain ⟨i, hi⟩ := exists_lastUse (mem_recent.mp (List.mem_of_mem_take h))
    rw [namesUsed_split hi.lt hi.uses] at h
    exact ⟨i, hi, (mem_take_recent hi.last _).mp h⟩
  · rintro ⟨i, hi, hcard⟩
    rw [namesUsed_split hi.lt hi.uses]
    exact (mem_take_recent hi.last _).mpr hcard

/-- The registry holds the names used last. -/
structure WorkingSet (T : (machine P).Trace n) : Prop where
  /-- A name is registered exactly when few enough others were used since its last use. -/
  registered : ∀ k ≤ n, ∀ f, (∃ l, (T.state k).sh.registry.get? f = some l) ↔
    ∃ i, LastUse T f i k ∧ (namesUsed T (i + 1) k).toFinset.card < registryCap
  /-- From a use of it on a name stands for the same logger, as long as few enough others are
      used. -/
  same : ∀ i k, i < k → k ≤ n → ∀ f l, (T.state i).usesName (T.action i) = some f →
    (T.state (i + 1)).sh.registry.get? f = some l →
    ((namesUsed T (i + 1) k).toFinset.erase f).card < registryCap →
    (T.state k).sh.registry.get? f = some l

theorem registry_workingSet (T : (machine P).Trace n) : WorkingSet T where
  registered k hk f := registered_iff hk
  same i k hik hk f l huse hget hcard := by
    refine T.along (P := fun m => (T.state m).sh.registry.get? f = some l) hik hk hget ?_
    intro m him hmk hs hget
    rcases step_registered (T.reach (hmk.le.trans hk)) hs hget with hstay | ⟨-, hgone⟩
    · exact hstay
    · -- the names used since the last use of `f` are among the others used from `i` on
      have hm : m + 1 ≤ n := hmk.trans_le hk
      have hmem : f ∈ namesUsed T 0 (m + 1) := by
        rw [namesUsed_split (show i < m + 1 by omega) huse]
        exact List.mem_append_right _ List.mem_cons_self
      obtain ⟨j, hj⟩ := exists_lastUse hmem
      have hij : i ≤ j := by
        by_contra hlt
        refine hj.last ?_
        rw [namesUsed_append (show j + 1 ≤ i by omega) (show i ≤ m + 1 by omega),
          namesUsed_append (Nat.le_succ i) (show i + 1 ≤ m + 1 by omega), namesUsed_one, huse]
        simp
      have hsub : (namesUsed T (j + 1) (m + 1)).toFinset ⊆
          (namesUsed T (i + 1) k).toFinset.erase f := by
        intro f' hf'
        rw [List.mem_toFinset] at hf'
        have hlt := hj.lt
        rw [Finset.mem_erase, List.mem_toFinset,
          namesUsed_append (show i + 1 ≤ j + 1 by omega) (show j + 1 ≤ k by omega),
          namesUsed_append (show j + 1 ≤ m + 1 by omega) (show m + 1 ≤ k by omega)]
        refine ⟨?_, List.mem_append_right _ (List.mem_append_left _ hf')⟩
        rintro rfl
        exact hj.last hf'
      have hreg := (registered_iff hm).mpr ⟨j, hj, (Finset.card_le_card hsub).trans_lt hcard⟩
      rw [hgone] at hreg
      simp at hreg

end Runs

end ZipoLogger
