/-
  The fallback of `formatCaller` when a positive start depth shows no frame.

  It calls `formatCaller(0)` from one frame deeper, so the window that depth 0 would read,
  `3, …, max`, becomes `2, …, max-1`, and the line break at the end of the function is
  appended a second time. `fallback_eq_iff` says when this is not seen: both windows show the
  same single frame, and its header is too short for a line break.
-/
import ZipoLogger.Logger.Caller

namespace ZipoLogger

open Text

/-! ## Windows -/

theorem mem_downFrom {hi lo i : Int} : i ∈ downFrom hi lo ↔ lo ≤ i ∧ i ≤ hi := by
  simp only [downFrom, List.mem_map, List.mem_range]
  constructor
  · intro h
    obtain ⟨k, hk, rfl⟩ := h
    omega
  · intro h
    exact ⟨(hi - i).toNat, by omega, by omega⟩

theorem frameAt_cons {rt f : Frame} {stack : List Frame} {i : Int} (h : 1 ≤ i) :
    frameAt rt (f :: stack) i = frameAt rt stack (i - 1) := by
  obtain ⟨n, rfl⟩ : ∃ n : Nat, i = n + 1 := ⟨(i - 1).toNat, by omega⟩
  have hn : ((n : Int) + 1).toNat = n + 1 := by omega
  have h0 : (0 : Int) ≤ n + 1 := by omega
  have h0' : (0 : Int) ≤ n + 1 - 1 := by omega
  have hn' : ((n : Int) + 1 - 1).toNat = n := by omega
  rw [frameAt, frameAt, if_pos h0, if_pos h0', hn, hn', List.getElem?_cons_succ]

/-- A window above the innermost frame does not see it. -/
theorem shown_cons (rt f : Frame) (stack : List Frame) {lo hi : Int} (h : 1 ≤ lo) :
    shown rt (f :: stack) lo hi = shown rt stack (lo - 1) (hi - 1) := by
  have hlen : hi - 1 - (lo - 1) + 1 = hi - lo + 1 := by omega
  have hdown : downFrom (hi - 1) (lo - 1) = (downFrom hi lo).map fun i => i - 1 := by
    rw [downFrom, downFrom, hlen, List.map_map]
    apply List.map_congr_left
    intro k _
    simp only [Function.comp]
    omega
  rw [shown, shown, hdown, List.filterMap_map]
  apply List.filterMap_congr
  intro i hi
  have hlo := (mem_downFrom.mp hi).1
  rw [frameAt_cons (by omega)]
  rfl

/-! ## The header of a window -/

/-- The header before the line break. -/
def bare (ps : List (Bytes × Nat)) : Bytes :=
  if (chainText ps).length < 3 then ascii "unknown: " else chainText ps ++ ascii ": "

/-- The header of a window that shows the frames `ps`, at depth 0. -/
def headerText (ps : List (Bytes × Nat)) : Bytes := breakLine (bare ps)

theorem formatCallerRec_of_nonpos (dir : Bytes) (rt : Frame) (callers : List Frame) {max add : Int}
    (h : add ≤ 0) : formatCallerRec dir rt callers max add =
      (0, headerText (shown rt (ownFrame dir :: callers) (3 + add) (max + add))) := by
  have hadd : ¬ 0 < add := by omega
  rw [formatCallerRec, loop_eq_chain, headerText, bare]
  simp only [if_neg hadd]
  split
  · rfl
  · rfl

/-- The inner call reads the stack from one frame deeper. -/
theorem formatCallerRec_fallback (dir : Bytes) (rt : Frame) (callers : List Frame) {max add : Int}
    (hadd : 0 < add)
    (h : (chainText (shown rt (ownFrame dir :: callers) (3 + add) (max + add))).length < 3) :
    formatCallerRec dir rt callers max add =
      (1, breakLine (headerText (shown rt (ownFrame dir :: callers) 2 (max - 1)))) := by
  have hshift : shown rt (ownFrame dir :: fallbackFrame dir :: callers) (3 + 0) (max + 0) =
      shown rt (ownFrame dir :: callers) 2 (max - 1) := by
    have h1 : (max + 0 - 1 : Int) - 1 = max - 1 - 1 := by omega
    rw [shown_cons _ _ _ (by omega), shown_cons _ _ _ (by omega), shown_cons _ _ _ (by omega), h1]
    rfl
  rw [formatCallerRec, loop_eq_chain]
  simp only [if_pos h, if_pos hadd]
  rw [formatCallerRec_of_nonpos _ _ _ (Int.le_refl 0), hshift]

theorem formatCallerRec_of_shown (dir : Bytes) (rt : Frame) (callers : List Frame) {max add : Int}
    (h : 3 ≤ (chainText (shown rt (ownFrame dir :: callers) (3 + add) (max + add))).length) :
    formatCallerRec dir rt callers max add =
      (0, headerText (shown rt (ownFrame dir :: callers) (3 + add) (max + add))) := by
  have hlen := Nat.not_lt.mpr h
  rw [formatCallerRec, loop_eq_chain, headerText, bare]
  simp only [if_neg hlen]

/-- No call of `formatCaller` nests more than one call of itself. -/
theorem formatCallerRec_levels (dir : Bytes) (rt : Frame) (callers : List Frame) (max add : Int) :
    (formatCallerRec dir rt callers max add).1 ≤ 1 := by
  by_cases hadd : 0 < add
  · by_cases h : (chainText (shown rt (ownFrame dir :: callers) (3 + add) (max + add))).length < 3
    · rw [formatCallerRec_fallback dir rt callers hadd h]
    · rw [formatCallerRec_of_shown dir rt callers (Nat.not_lt.mp h)]
      exact Nat.zero_le 1
  · rw [formatCallerRec_of_nonpos dir rt callers (Int.not_lt.mp hadd)]
    exact Nat.zero_le 1

/-! ## Short headers -/

theorem length_item (previous name : Bytes) (line : Nat) :
    2 ≤ (callerFormat.item previous name line).length := by
  have hdig := List.length_pos_of_ne_nil (decimal_ne_nil line)
  rw [Format.item]
  simp only [List.length_append, List.length_cons, callerFormat]
  omega

theorem chainText_singleton (p : Bytes × Nat) : chainText [p] = p.1 ++ 58 :: decimal p.2 := by
  rw [chainText, Format.chain, Format.tail, List.append_nil, Format.item]
  split
  · rename_i h
    rw [← h]
    rfl
  · rfl

theorem length_chainText_singleton (p : Bytes × Nat) :
    (chainText [p]).length = p.1.length + 1 + (decimal p.2).length := by
  rw [chainText_singleton, List.length_append, List.length_cons]
  omega

/-- A chain of three characters shows one frame. -/
theorem length_chainText_eq_three {ps : List (Bytes × Nat)} :
    (chainText ps).length = 3 ↔ ∃ p, ps = [p] ∧ p.1.length + (decimal p.2).length = 2 := by
  constructor
  · intro h
    rcases ps with _ | ⟨p, _ | ⟨q, ps⟩⟩
    · cases h
    · rw [length_chainText_singleton] at h
      exact ⟨p, rfl, by omega⟩
    · have hp := length_item [] p.1 p.2
      have hq := length_item p.1 q.1 q.2
      have harrow : (ascii "=>").length = 2 := by decide
      rw [chainText, Format.chain, Format.tail] at h
      simp only [List.length_append, callerFormat, harrow] at h hp hq
      omega
  · intro h
    obtain ⟨p, rfl, hp⟩ := h
    rw [length_chainText_singleton]
    omega

/-- Chains of three characters are told apart, whatever the names are. -/
theorem chainText_injective_of_three {ps qs : List (Bytes × Nat)}
    (h : (chainText ps).length = 3) (he : chainText ps = chainText qs) : ps = qs := by
  obtain ⟨p, rfl, hp⟩ := length_chainText_eq_three.mp h
  rw [he] at h
  obtain ⟨q, rfl, hq⟩ := length_chainText_eq_three.mp h
  rw [chainText_singleton, chainText_singleton] at he
  have hp0 := List.length_pos_of_ne_nil (decimal_ne_nil p.2)
  have hq0 := List.length_pos_of_ne_nil (decimal_ne_nil q.2)
  have hcolon : ∀ n, (58 : UInt8) ∉ decimal n := by
    intro n hn
    exact absurd (isDigit_decimal n _ hn) (by decide)
  obtain ⟨name, line⟩ := p
  obtain ⟨name', line'⟩ := q
  dsimp only at he hp hq hp0 hq0
  -- the second character is the colon or a digit, by the length of the name
  rcases name with _ | ⟨c, _ | ⟨d, name⟩⟩
  · rcases name' with _ | ⟨c', name'⟩
    · rw [decimal_injective (List.cons.inj he).2]
    · have htail := (List.cons.inj he).2
      rcases name' with _ | ⟨d', name'⟩
      · exact absurd (htail ▸ List.mem_cons_self) (hcolon line)
      · simp only [List.length_cons] at hq
        omega
  · rcases name' with _ | ⟨c', _ | ⟨d', name'⟩⟩
    · have htail := (List.cons.inj he).2
      exact absurd (htail ▸ List.mem_cons_self) (hcolon line')
    · have htail := (List.cons.inj (List.cons.inj he).2).2
      rw [(List.cons.inj he).1, decimal_injective htail]
    · simp only [List.length_cons] at hq
      omega
  · simp only [List.length_cons] at hp
    omega

/-! ## The line break -/

theorem bare_eq_append (ps : List (Bytes × Nat)) : ∃ r, bare ps = r ++ [32] := by
  unfold bare
  split
  · exact ⟨ascii "unknown:", by decide⟩
  · exact ⟨chainText ps ++ [58], by rw [List.append_assoc]; rfl⟩

theorem length_bare {ps : List (Bytes × Nat)} :
    (bare ps).length = if (chainText ps).length < 3 then 9 else (chainText ps).length + 2 := by
  unfold bare
  split
  · decide
  · rw [List.length_append]
    rfl

/-- A header that is as short as can be shows one frame and has no line break. -/
theorem length_bare_le {ps : List (Bytes × Nat)} :
    (bare ps).length ≤ 5 ↔ (chainText ps).length = 3 := by
  rw [length_bare]
  split <;> omega

theorem breakLine_of_le {ret : Bytes} (h : ret.length ≤ 5) : breakLine ret = ret :=
  if_neg (Nat.not_lt.mpr h)

theorem breakLine_of_lt {ret : Bytes} (h : 5 < ret.length) : breakLine ret = ret ++ [10] :=
  if_pos h

/-- Six characters are never written, so the line break can be taken off again. -/
theorem breakLine_injective : Function.Injective breakLine := by
  intro r s h
  have hlen := congrArg List.length h
  by_cases hr : 5 < r.length
  · by_cases hs : 5 < s.length
    · rw [breakLine_of_lt hr, breakLine_of_lt hs] at h
      exact List.append_cancel_right h
    · rw [breakLine_of_lt hr, breakLine_of_le (Nat.not_lt.mp hs), List.length_append] at hlen
      omega
  · by_cases hs : 5 < s.length
    · rw [breakLine_of_le (Nat.not_lt.mp hr), breakLine_of_lt hs, List.length_append] at hlen
      omega
    · rw [breakLine_of_le (Nat.not_lt.mp hr), breakLine_of_le (Nat.not_lt.mp hs)] at h
      exact h

/-- A header never ends in two line breaks. -/
theorem headerText_ne {ps : List (Bytes × Nat)} (ret : Bytes) :
    headerText ps ≠ ret ++ [10] ++ [10] := by
  obtain ⟨r, hr⟩ := bare_eq_append ps
  intro h
  rw [headerText] at h
  by_cases hlen : 5 < (bare ps).length
  · rw [breakLine_of_lt hlen, hr] at h
    have hlast := List.append_inj_right' (List.append_cancel_right h) rfl
    cases hlast
  · rw [breakLine_of_le (Nat.not_lt.mp hlen), hr] at h
    have hlast := List.append_inj_right' h rfl
    cases hlast

/-- The second line break is not appended to a header that is as short as can be. -/
theorem breakLine_headerText {ps : List (Bytes × Nat)} :
    breakLine (headerText ps) =
      if (chainText ps).length = 3 then headerText ps else bare ps ++ [10] ++ [10] := by
  split
  · rename_i h
    have hle := length_bare_le.mpr h
    rw [headerText, breakLine_of_le hle, breakLine_of_le hle]
  · rename_i h
    have hlt : 5 < (bare ps).length := Nat.not_le.mp fun hle => h (length_bare_le.mp hle)
    have hlt' : 5 < (bare ps ++ [10]).length := by
      rw [List.length_append]
      omega
    rw [headerText, breakLine_of_lt hlt, breakLine_of_lt hlt']

/-- Two headers of which the first is as short as can be. -/
theorem headerText_eq_of_three {ps qs : List (Bytes × Nat)} (h : (chainText ps).length = 3)
    (he : headerText ps = headerText qs) : ps = qs := by
  have hbare : bare ps = bare qs := breakLine_injective he
  have hq : (chainText qs).length = 3 := length_bare_le.mp (hbare ▸ length_bare_le.mpr h)
  rw [bare, bare, if_neg (by omega), if_neg (by omega)] at hbare
  exact chainText_injective_of_three h (List.append_cancel_right hbare)

/-! ## The fallback against depth 0 -/

/-- Both windows show one frame, the same one, and its header has no line break. -/
def SameShortFrame (dir : Bytes) (rt : Frame) (callers : List Frame) (max : Int) : Prop :=
  ∃ p, shown rt (ownFrame dir :: callers) 2 (max - 1) = [p] ∧
    shown rt (ownFrame dir :: callers) 3 max = [p] ∧ p.1.length + (decimal p.2).length = 2

theorem formatCaller_zero (dir : Bytes) (rt : Frame) (callers : List Frame) (max : Int) :
    formatCaller dir rt callers max 0 = headerText (shown rt (ownFrame dir :: callers) 3 max) := by
  rw [formatCaller, formatCallerRec_of_nonpos _ _ _ (Int.le_refl 0), Int.add_zero, Int.add_zero]

/-- The fallback gives the header of depth 0 in one case only. -/
theorem fallback_eq_iff (dir : Bytes) (rt : Frame) (callers : List Frame) {max add : Int}
    (hadd : 0 < add)
    (h : shown rt (ownFrame dir :: callers) (3 + add) (max + add) = []) :
    formatCaller dir rt callers max add = formatCaller dir rt callers max 0 ↔
      SameShortFrame dir rt callers max := by
  have hlen :
      (chainText (shown rt (ownFrame dir :: callers) (3 + add) (max + add))).length < 3 := by
    rw [h]
    decide
  rw [formatCaller_zero, formatCaller, formatCallerRec_fallback dir rt callers hadd hlen,
    breakLine_headerText]
  constructor
  · intro he
    split at he
    · rename_i h3
      have hsame := headerText_eq_of_three h3 he
      obtain ⟨p, hp, hp2⟩ := length_chainText_eq_three.mp h3
      exact ⟨p, hp, hsame ▸ hp, hp2⟩
    · exact absurd he.symm (headerText_ne _)
  · intro hs
    obtain ⟨p, hp, hq, hp2⟩ := hs
    rw [hp, hq, if_pos (length_chainText_eq_three.mpr ⟨p, rfl, hp2⟩)]

/-- A stack in which the frame below the user's call site looks like the call site. -/
def twinStack : List Frame := [⟨ascii "/p/logger.go", 328⟩, ⟨ascii "x", 1⟩, ⟨ascii "x", 1⟩]

/-- A message printed from `main.go`, line 5, through `Print`. -/
def printStack : List Frame :=
  [⟨ascii "/p/logger.go", 328⟩, ⟨ascii "/p/logger.go", 363⟩, ⟨ascii "/m/main.go", 5⟩]

end ZipoLogger
