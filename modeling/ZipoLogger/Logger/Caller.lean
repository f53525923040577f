/-
  The source-path header: `formatCaller` over the call stack.

  A stack is the list of the logical frames from `formatCaller` on, innermost first, index 0 being
  its own; `frameAt` is `runtime.Caller` as `formatCaller` calls it. Below index 0 stands the frame
  of `runtime.Caller` itself, whatever the index: a negative number of frames to skip skips none.
  The loop runs from the outermost index of the window down to the innermost, skips what is missing
  or hidden and appends the rest; its text is the `chain` of the frames it shows (`loop_eq_chain`).

  Depths are integers of any sign. Sums that leave 64 bits are not modelled: they need a depth
  setting next to the largest `int`.
-/
import ZipoLogger.Lib.Text
import ZipoLogger.Lib.Chain

namespace ZipoLogger

open Text

/-! ## Frames -/

/-- What `runtime.Caller` reports of a frame. -/
structure Frame where
  file : Bytes
  line : Nat
  deriving DecidableEq

/-- The frames that are left out of the header. -/
def hidden (file : Bytes) : Bool :=
  hasSuffix file (ascii "src/testing/testing.go") ||
    (hasSuffix file (ascii "runtime/asm_amd64.s") || hasSuffix file (ascii "runtime/proc.go"))

/-- The file name behind the last slash; a slash at the front stays. -/
def baseName (file : Bytes) : Bytes :=
  let t := lastIndex file 47
  if 0 < t then file.drop (t + 1).toNat else file

/-- A frame of `formatCaller` itself, at the line of its call of `runtime.Caller`. -/
def ownFrame (dir : Bytes) : Frame := ⟨dir ++ ascii "/logger.go", 278⟩

/-- The frame of a `formatCaller` that has called itself. -/
def fallbackFrame (dir : Bytes) : Frame := ⟨dir ++ ascii "/logger.go", 305⟩

/-- `runtime.Caller(i)`: the `i`-th frame of a stack; `rt` is the frame of `runtime.Caller`,
    at its line in runtime/extern.go. -/
def frameAt (rt : Frame) (stack : List Frame) (i : Int) : Option Frame :=
  if 0 ≤ i then stack[i.toNat]? else some rt

/-- `i = hi, …, lo`, downwards. -/
def downFrom (hi lo : Int) : List Int :=
  (List.range (hi - lo + 1).toNat).map fun (k : Nat) => hi - k

/-! ## The loop -/

/-- The variables of the loop. -/
structure LoopState where
  ret : Bytes
  previous : Bytes

/-- One pass of the loop, on what `runtime.Caller(i)` reports. -/
def pass (c : LoopState) : Option Frame → LoopState
  | none => c    -- `file` and `line` are set to `???` and 0 and not used
  | some f =>
    if hidden f.file then c
    else
      let file := baseName f.file
      let ret := if 0 < c.ret.length then c.ret ++ ascii "=>" else c.ret
      { ret :=
          if c.previous = file then ret ++ (ascii ":" ++ decimal f.line)
          else ret ++ (file ++ ascii ":" ++ decimal f.line)
        previous := file }

/-- The loop over the indices `hi, …, lo`. -/
def loop (rt : Frame) (stack : List Frame) (hi lo : Int) : Bytes :=
  ((downFrom hi lo).foldl (fun c i => pass c (frameAt rt stack i)) ⟨[], []⟩).ret

/-! ## `formatCaller` -/

/-- The end of the function: a line break behind a header that is long enough. -/
def breakLine (ret : Bytes) : Bytes := if 5 < ret.length then ret ++ ascii "\n" else ret

/-- `formatCaller` with the maximum depth `max`: how many calls of itself were nested, and the
    header. `callers` are the frames above its own. -/
def formatCallerRec (dir : Bytes) (rt : Frame) (callers : List Frame) (max add : Int) :
    Nat × Bytes :=
  let ret := loop rt (ownFrame dir :: callers) (max + add) (3 + add)
  if ret.length < 3 then
    if 0 < add then
      let r := formatCallerRec dir rt (fallbackFrame dir :: callers) max 0
      (r.1 + 1, breakLine r.2)
    else (0, breakLine (ascii "unknown: "))
  else (0, breakLine (ret ++ ascii ": "))
termination_by add.toNat

/-- `formatCaller`. -/
def formatCaller (dir : Bytes) (rt : Frame) (callers : List Frame) (max add : Int) : Bytes :=
  (formatCallerRec dir rt callers max add).2

/-- One activation of `formatCaller`, without the line break at its end; `none` when it calls itself
    with depth 0. -/
def activation (dir : Bytes) (rt : Frame) (callers : List Frame) (max add : Int) :
    Option Bytes :=
  let ret := loop rt (ownFrame dir :: callers) (max + add) (3 + add)
  if ret.length < 3 then
    if 0 < add then none else some (ascii "unknown: ")
  else some (ret ++ ascii ": ")

/-- Only a positive depth falls back. -/
theorem pos_of_activation {dir : Bytes} {rt : Frame} {callers : List Frame} {max add : Int}
    (h : activation dir rt callers max add = none) : 0 < add := by
  unfold activation at h
  dsimp only at h
  split at h
  · split at h
    · assumption
    · cases h
  · cases h

/-- The activations that make up a call: the first one, or the one inside it. -/
theorem formatCaller_eq_activation (dir : Bytes) (rt : Frame) (callers : List Frame)
    (max add : Int) : some (formatCaller dir rt callers max add) =
      ((activation dir rt callers max add).map breakLine).or
        ((activation dir rt (fallbackFrame dir :: callers) max 0).map
          fun ret => breakLine (breakLine ret)) := by
  rw [formatCaller, formatCallerRec, activation, activation]
  dsimp only
  split
  · split
    · rw [formatCallerRec]
      dsimp only
      split
      · rw [if_neg (Int.lt_irrefl 0), if_neg (Int.lt_irrefl 0)]
        rfl
      · rfl
    · rfl
  · rfl

/-! ## What the loop shows -/

/-- The name and the line that what is at an index puts into the header. -/
def printable : Option Frame → Option (Bytes × Nat)
  | none => none
  | some f => if hidden f.file then none else some (baseName f.file, f.line)

/-- The frames with index `lo` to `hi` that the header shows, outermost first. -/
def shown (rt : Frame) (stack : List Frame) (lo hi : Int) : List (Bytes × Nat) :=
  (downFrom hi lo).filterMap fun i => printable (frameAt rt stack i)

/-- How the header is written. -/
def callerFormat : Format UInt8 Nat where
  colon := 58
  arrow := ascii "=>"
  digits := decimal
  isDigit := isDigit
  digits_ne_nil := decimal_ne_nil
  isDigit_digits := isDigit_decimal
  digits_injective := decimal_injective
  arrow_head := ⟨61, [62], by decide, by decide⟩

/-- The text of a list of names and lines. -/
def chainText (ps : List (Bytes × Nat)) : Bytes := callerFormat.chain ps

/-- A file name that is not empty and contains no colon. -/
def PlainName (name : Bytes) : Prop := callerFormat.Plain name

instance (name : Bytes) : Decidable (PlainName name) :=
  inferInstanceAs (Decidable (name ≠ [] ∧ 58 ∉ name))

/-- A pass over a frame that is shown appends its item, behind an arrow when there is a text. -/
theorem pass_some {c : LoopState} {o : Option Frame} {p : Bytes × Nat} (h : printable o = some p) :
    pass c o =
      ⟨c.ret ++ ((if 0 < c.ret.length then ascii "=>" else []) ++
        callerFormat.item c.previous p.1 p.2), p.1⟩ := by
  rcases o with _ | f
  · cases h
  · by_cases hh : hidden f.file
    · rw [printable, if_pos hh] at h
      cases h
    · rw [printable, if_neg hh] at h
      cases h
      have hcolon : ascii ":" = [58] := by decide
      simp only [pass, if_neg hh, Format.item, callerFormat, hcolon]
      split <;> split <;> simp

theorem pass_none {c : LoopState} {o : Option Frame} (h : printable o = none) :
    pass c o = c := by
  rcases o with _ | f
  · rfl
  · have hh : hidden f.file := by
      by_contra hn
      simp [printable, hn] at h
    rw [pass, if_pos hh]

/-- The passes behind a first shown frame. -/
theorem foldl_pass (os : List (Option Frame)) (c : LoopState) (h : 0 < c.ret.length) :
    (os.foldl pass c).ret = c.ret ++ callerFormat.tail c.previous (os.filterMap printable) := by
  induction os generalizing c with
  | nil => simp [Format.tail]
  | cons o os ih =>
    rcases hp : printable o with _ | p
    · rw [List.foldl_cons, pass_none hp, ih c h, List.filterMap_cons_none hp]
    · have hlen : 0 < (pass c o).ret.length := by
        rw [pass_some hp, List.length_append]
        omega
      rw [List.foldl_cons, ih _ hlen, List.filterMap_cons_some hp, pass_some hp, if_pos h,
        Format.tail, List.append_assoc, List.append_assoc]
      rfl

/-- The passes from the start. -/
theorem foldl_pass_start (os : List (Option Frame)) :
    (os.foldl pass ⟨[], []⟩).ret = chainText (os.filterMap printable) := by
  induction os with
  | nil => rfl
  | cons o os ih =>
    rcases hp : printable o with _ | p
    · rw [List.foldl_cons, pass_none hp, ih, List.filterMap_cons_none hp]
    · have hlen : 0 < (pass ⟨[], []⟩ o).ret.length := by
        rw [pass_some hp]
        simp [Format.item]
      rw [List.foldl_cons, foldl_pass os _ hlen, List.filterMap_cons_some hp, pass_some hp,
        chainText, Format.chain]
      simp

/-- The text of the loop is the chain of the frames it shows. -/
theorem loop_eq_chain (rt : Frame) (stack : List Frame) (hi lo : Int) :
    loop rt stack hi lo = chainText (shown rt stack lo hi) := by
  have hmap : loop rt stack hi lo =
      (((downFrom hi lo).map (frameAt rt stack)).foldl pass ⟨[], []⟩).ret := by
    rw [loop, List.foldl_map]
  rw [hmap, foldl_pass_start, List.filterMap_map]
  rfl

theorem three_le_length_chainText {ps : List (Bytes × Nat)} (hp : ∀ p ∈ ps, PlainName p.1)
    (h : ps ≠ []) : 3 ≤ (chainText ps).length :=
  Format.three_le_length_chain hp h

/-- The chain determines the names and lines it was built from, and is long enough to be told
    from that of a window in which nothing is shown. -/
theorem loop_decodable (rt : Frame) (stack stack' : List Frame) (hi lo hi' lo' : Int)
    (h : ∀ p ∈ shown rt stack lo hi, PlainName p.1)
    (h' : ∀ p ∈ shown rt stack' lo' hi', PlainName p.1) :
    (loop rt stack hi lo = loop rt stack' hi' lo' →
      shown rt stack lo hi = shown rt stack' lo' hi') ∧
    (shown rt stack lo hi ≠ [] → 3 ≤ (loop rt stack hi lo).length) := by
  rw [loop_eq_chain, loop_eq_chain]
  exact ⟨Format.chain_injective h h', three_le_length_chainText h⟩

/-- A frame of `runtime.Caller`. -/
def runtimeFrame : Frame := ⟨ascii "/go/src/runtime/extern.go", 331⟩

/-- A stack with a frame of the test runner in the middle. -/
def testStack : List Frame :=
  [⟨ascii "/p/logger.go", 278⟩, ⟨ascii "/p/a.go", 7⟩, ⟨ascii "/go/src/testing/testing.go", 9⟩,
    ⟨ascii "/q/a.go", 12⟩]

example : loop runtimeFrame testStack 5 (-1) =
    ascii "a.go:12=>:7=>logger.go:278=>extern.go:331" := by decide +kernel

theorem loop_decodable_testStack :
    (loop runtimeFrame testStack 5 0 = loop runtimeFrame testStack.tail 4 0 →
      shown runtimeFrame testStack 0 5 = shown runtimeFrame testStack.tail 0 4) ∧
    (shown runtimeFrame testStack 0 5 ≠ [] → 3 ≤ (loop runtimeFrame testStack 5 0).length) :=
  loop_decodable runtimeFrame testStack testStack.tail 5 0 4 0 (by decide +kernel)
    (by decide +kernel)

end ZipoLogger
