/-
  `bufio.Scanner` with the default split function `ScanLines`.

  The scanner keeps the line it is reading in a buffer of at most `maxTokenSize` bytes. A line is
  delivered when its newline is in the buffer, or at the end of the input; a line that fills the
  whole buffer without a newline ends the scan with `ErrTooLong`, which only `Scanner.Err`
  reports. `scanLines_eq`: the tokens are the lines of the input before the first one that is too
  long.
-/
import ZipoLogger.Lib.BigEndian

namespace Scanner

/-- `bufio.MaxScanTokenSize`. -/
def maxTokenSize : Nat := 64 * 1024

/-- `ScanLines` drops one carriage return at the end of a token. -/
def dropCR (line : Bytes) : Bytes := if line.getLast? = some 13 then line.dropLast else line

/-- The tokens of the rest of the input, `cur` being the line read so far; the flag says that
    the scan ended with `ErrTooLong`. -/
def scanFrom (max : Nat) : Bytes → Bytes → List Bytes × Bool
  | cur, [] => if cur = [] then ([], false) else ([dropCR cur], false)
  | cur, c :: r =>
    if c = 10 then
      let rest := scanFrom max [] r
      (dropCR cur :: rest.1, rest.2)
    else if max ≤ cur.length + 1 then ([], true)
    else scanFrom max (cur ++ [c]) r

/-- All tokens of `data` up to the end of the scan. -/
def scanLines (max : Nat) (data : Bytes) : List Bytes × Bool := scanFrom max [] data

variable {max : Nat}

/-- A token is its line, or its line without a carriage return at the end. -/
theorem dropCR_cases (line : Bytes) : dropCR line = line ∨ dropCR line ++ [13] = line := by
  unfold dropCR
  split
  · rename_i h
    exact .inr (List.dropLast_append_getLast? 13 h)
  · exact .inl rfl

/-! ## The lines of the input -/

/-- The lines of the rest of the input, however long, `cur` being the line read so far. The last
    one may lack its newline. -/
def linesFrom : Bytes → Bytes → List Bytes
  | cur, [] => if cur = [] then [] else [cur]
  | cur, c :: r => if c = 10 then cur :: linesFrom [] r else linesFrom (cur ++ [c]) r

def lines (data : Bytes) : List Bytes := linesFrom [] data

@[simp] theorem lines_nil : lines [] = [] := rfl

/-- A line grows until its newline. -/
theorem linesFrom_head {cur data : Bytes} (hcur : cur ≠ []) :
    ∃ r ls, linesFrom cur data = (cur ++ r) :: ls := by
  induction data generalizing cur with
  | nil => exact ⟨[], [], by simp [linesFrom, hcur]⟩
  | cons c data ih =>
    rw [linesFrom]
    split
    · exact ⟨[], _, by rw [List.append_nil]⟩
    · have hne : cur ++ [c] ≠ [] := by simp
      obtain ⟨r, ls, h⟩ := ih hne
      exact ⟨c :: r, ls, by rw [h, List.append_assoc, List.singleton_append]⟩

theorem linesFrom_line {cur line rest : Bytes} (hn : ∀ c ∈ line, c ≠ 10) :
    linesFrom cur (line ++ 10 :: rest) = (cur ++ line) :: lines rest := by
  induction line generalizing cur with
  | nil => simp [linesFrom, lines]
  | cons c line ih =>
    rw [List.cons_append, linesFrom, if_neg (hn c List.mem_cons_self),
      ih fun x hx => hn x (List.mem_cons_of_mem _ hx), List.append_assoc, List.singleton_append]

theorem lines_cons {line rest : Bytes} (hn : ∀ c ∈ line, c ≠ 10) :
    lines (line ++ 10 :: rest) = line :: lines rest := by
  rw [lines, linesFrom_line hn, List.nil_append]

theorem linesFrom_append {cur a b : Bytes} :
    linesFrom cur ((a ++ [10]) ++ b) = linesFrom cur (a ++ [10]) ++ lines b := by
  induction a generalizing cur with
  | nil => simp [linesFrom, lines]
  | cons c a ih =>
    rw [List.cons_append, List.cons_append, linesFrom, linesFrom]
    split
    · rw [ih, List.cons_append]
    · exact ih

/-- The scan stops before the first line that is too long. -/
theorem scanFrom_eq {cur data : Bytes} (hcur : cur.length < max) :
    scanFrom max cur data =
      (((linesFrom cur data).takeWhile (·.length < max)).map dropCR,
        (linesFrom cur data).any (max ≤ ·.length)) := by
  induction data generalizing cur with
  | nil =>
    rw [scanFrom, linesFrom]
    split
    · rfl
    · simp [hcur]
  | cons c data ih =>
    have hmax : ([] : Bytes).length < max := (Nat.zero_le _).trans_lt hcur
    rw [scanFrom, linesFrom]
    split
    · rw [ih hmax]
      simp [hcur]
    · by_cases hlong : max ≤ cur.length + 1
      · have hne : cur ++ [c] ≠ [] := by simp
        obtain ⟨r, ls, h⟩ := linesFrom_head hne
        have hlen : max ≤ (cur ++ [c] ++ r).length := by
          rw [List.length_append, List.length_append, List.length_singleton]
          omega
        have hnot : ¬ (cur ++ [c] ++ r).length < max := Nat.not_lt.mpr hlen
        rw [if_pos hlong, h, List.takeWhile_cons_of_neg (by simpa using hnot), List.any_cons,
          decide_eq_true hlen]
        rfl
      · rw [if_neg hlong, ih (by rw [List.length_append, List.length_singleton]; omega)]

theorem scanLines_eq (hmax : 0 < max) (data : Bytes) :
    scanLines max data = (((lines data).takeWhile (·.length < max)).map dropCR,
      (lines data).any (max ≤ ·.length)) :=
  scanFrom_eq hmax

end Scanner
