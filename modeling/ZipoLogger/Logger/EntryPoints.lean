/-
  The entry points and the frames they put between `formatCaller` and the user.

  `formatCaller` counts from frame 3, the caller of `Print`. `Println` stands at the same place;
  `Printf`, `LimitedPrintf` and `GostLogger.Log` are one frame further out and `GostLogger.Logf`
  two, so the window they read begins with their own frames. `Entry.header_agree_iff` says for which
  settings and frames of the user this is not seen; the frames of the package are told apart by
  their lines (`headerText_set_ne`), whatever the names of the user's files are.
-/
import ZipoLogger.Logger.CallerDepth

namespace ZipoLogger

open Text

/-! ## The frames of the package -/

/-- A frame of logger.go in the directory `dir`. -/
def loggerFrame (dir : Bytes) (line : Nat) : Frame := ⟨dir ++ ascii "/logger.go", line⟩

/-- A frame of gost_compability.go. -/
def gostFrame (dir : Bytes) (line : Nat) : Frame := ⟨dir ++ ascii "/gost_compability.go", line⟩

/-- The ways into `print`. -/
inductive Entry
  | print
  | println
  | printf
  | limitedPrintf
  | gostLog
  | gostLogf
  deriving DecidableEq

/-- The frames above `formatCaller` that belong to the package, innermost first: `print`, then
    the calls that lead to it. -/
def Entry.frames (dir : Bytes) : Entry → List Frame
  | .print => [loggerFrame dir 328, loggerFrame dir 363]
  | .println => [loggerFrame dir 328, loggerFrame dir 401]
  | .printf => [loggerFrame dir 328, loggerFrame dir 373, loggerFrame dir 389]
  | .limitedPrintf => [loggerFrame dir 328, loggerFrame dir 373, loggerFrame dir 385]
  | .gostLog => [loggerFrame dir 328, loggerFrame dir 363, gostFrame dir 18]
  | .gostLogf =>
    [loggerFrame dir 328, loggerFrame dir 373, loggerFrame dir 389, gostFrame dir 23]

/-- The caller of the entry point stands where `formatCaller` counts from. -/
def Entry.Direct (e : Entry) : Prop := e = .print ∨ e = .println

instance (e : Entry) : Decidable e.Direct := inferInstanceAs (Decidable (_ ∨ _))

/-- The stack that `formatCaller` sees, its own frame first. -/
def Entry.stack (dir : Bytes) (e : Entry) (user : List Frame) : List Frame :=
  ownFrame dir :: (e.frames dir ++ user)

/-- The header `print` puts before the message. -/
def Entry.header (dir : Bytes) (rt : Frame) (e : Entry) (user : List Frame) (max start : Int) :
    Bytes :=
  formatCaller dir rt (e.frames dir ++ user) max start

/-- The frames in the window of `formatCaller`. -/
def Entry.window (dir : Bytes) (rt : Frame) (e : Entry) (user : List Frame) (max start : Int) :
    List (Bytes × Nat) :=
  shown rt (e.stack dir user) (3 + start) (max + start)

/-- The text of as many frames as depth 0 shows, from index `lo` of a stack on. -/
def chainFrom (rt : Frame) (stack : List Frame) (max lo : Int) : Bytes :=
  chainText (shown rt stack lo (max + lo - 3))

/-- From the start depth on and from one frame below it the user's stack reads the same, also with
    the call in `Logf` before it, and not as nothing. -/
structure SameBelow (dir : Bytes) (rt : Frame) (user : List Frame) (max start : Int) : Prop where
  long : 3 ≤ (chainFrom rt user max start).length
  below : chainFrom rt user max (start - 1) = chainFrom rt user max start
  logf : chainFrom rt (gostFrame dir 23 :: user) max (start - 1) = chainFrom rt user max start

/-! ## Windows, split and shifted -/

theorem downFrom_split {lo hi : Int} (mid : Int) (h : lo ≤ mid) (h' : mid ≤ hi + 1) :
    downFrom hi lo = downFrom hi mid ++ downFrom (mid - 1) lo := by
  have hsum : (hi - lo + 1).toNat = (hi - mid + 1).toNat + (mid - 1 - lo + 1).toNat := by omega
  rw [downFrom, downFrom, downFrom, hsum, List.range_add, List.map_append, List.map_map]
  congr 1
  apply List.map_congr_left
  intro k _
  simp only [Function.comp]
  omega

section Windows

variable {rt f : Frame} {s s' : List Frame} {lo hi i : Int} {n : Nat}

theorem shown_split (s : List Frame) (mid : Int) (h : lo ≤ mid) (h' : mid ≤ hi + 1) :
    shown rt s lo hi = shown rt s mid hi ++ shown rt s lo (mid - 1) := by
  rw [shown, downFrom_split mid h h', List.filterMap_append]
  rfl

/-- A window shows what `runtime.Caller` reports at its indices. -/
theorem shown_congr (h : ∀ i, lo ≤ i → i ≤ hi → frameAt rt s i = frameAt rt s' i) :
    shown rt s lo hi = shown rt s' lo hi := by
  apply List.filterMap_congr
  intro i hi
  obtain ⟨h1, h2⟩ := mem_downFrom.mp hi
  rw [h i h1 h2]

theorem shown_of_lt (h : hi < lo) : shown rt s lo hi = [] := by
  rw [shown, List.filterMap_eq_nil_iff]
  intro i hi
  obtain ⟨h1, h2⟩ := mem_downFrom.mp hi
  omega

theorem shown_singleton (s : List Frame) (i : Int) :
    shown rt s i i = (printable (frameAt rt s i)).toList := by
  have hone : (i - i + 1).toNat = 1 := by omega
  rw [shown, downFrom, hone, List.range_one, List.map_singleton, Nat.cast_zero, Int.sub_zero]
  rcases hp : printable (frameAt rt s i) with _ | p <;> simp [hp]

/-- The last element of a chain is the innermost frame of its window. -/
theorem shown_getLast {p : Bytes × Nat} (h : lo ≤ hi) (hp : printable (frameAt rt s lo) = some p) :
    (shown rt s lo hi).getLast? = some p := by
  have hlo : lo + 1 - 1 = lo := by omega
  rw [shown_split s (lo + 1) (by omega) (by omega), hlo, shown_singleton, hp]
  simp

theorem frameAt_set_ne (h : i ≠ n) : frameAt rt (s.set n f) i = frameAt rt s i := by
  unfold frameAt
  split
  · have hne : n ≠ i.toNat := by omega
    rw [List.getElem?_set_ne hne]
  · rfl

theorem frameAt_set_self (h : n < s.length) : frameAt rt (s.set n f) n = some f := by
  rw [frameAt, if_pos (by omega), Int.toNat_natCast, List.getElem?_set_self h]

/-- What a window shows around one of its frames. -/
theorem shown_set {p : Bytes × Nat} (hlo : lo ≤ n) (hhi : n ≤ hi) (hn : n < s.length)
    (hp : printable (some f) = some p) : shown rt (s.set n f) lo hi =
      shown rt s (n + 1) hi ++ p :: shown rt s lo (n - 1) := by
  have hn1 : (n : Int) + 1 - 1 = n := by omega
  have hup : shown rt (s.set n f) (n + 1) hi = shown rt s (n + 1) hi :=
    shown_congr fun i h1 _ => frameAt_set_ne (by omega)
  have hdown : shown rt (s.set n f) lo (n - 1) = shown rt s lo (n - 1) :=
    shown_congr fun i _ h2 => frameAt_set_ne (by omega)
  rw [shown_split _ (n + 1) (by omega) (by omega), hn1, shown_split _ n hlo (by omega),
    shown_singleton, frameAt_set_self hn, hp, hup, hdown]
  rfl

end Windows

/-! ## The frames of the package are shown -/

/-- A path with such an end is of neither of the hidden files. -/
theorem hidden_append {s t : Bytes} (ht : t = ascii "gger.go" ∨ t = ascii "lity.go") :
    hidden (s ++ t) = false := by
  have hsuf : ∀ suffix ∈ [ascii "src/testing/testing.go", ascii "runtime/asm_amd64.s",
      ascii "runtime/proc.go"], hasSuffix (s ++ t) suffix = false := by
    intro suffix hs
    have hfacts : ∀ t ∈ [ascii "gger.go", ascii "lity.go"],
        ∀ suffix ∈ [ascii "src/testing/testing.go", ascii "runtime/asm_amd64.s",
          ascii "runtime/proc.go"],
        t.length ≤ suffix.length ∧ suffix.drop (suffix.length - t.length) ≠ t := by
      decide +kernel
    have hmem : t ∈ [ascii "gger.go", ascii "lity.go"] := by
      rcases ht with rfl | rfl
      · exact List.mem_cons_self
      · exact List.mem_cons_of_mem _ List.mem_cons_self
    obtain ⟨hlen, hne⟩ := hfacts t hmem suffix hs
    exact hasSuffix_append hlen hne
  simp only [List.forall_mem_cons] at hsuf
  rw [hidden, hsuf.1, hsuf.2.1, hsuf.2.2.1]
  rfl

theorem printable_of_not_hidden {f : Frame} (h : hidden f.file = false) :
    printable (some f) = some (baseName f.file, f.line) := by
  rw [printable, if_neg (by simp [h])]

theorem printable_loggerFrame (dir : Bytes) (line : Nat) :
    printable (some (loggerFrame dir line)) =
      some (baseName (dir ++ ascii "/logger.go"), line) := by
  have hfile : dir ++ ascii "/logger.go" = (dir ++ ascii "/lo") ++ ascii "gger.go" := by
    rw [List.append_assoc]
    rfl
  exact printable_of_not_hidden (f := loggerFrame dir line)
    (by rw [loggerFrame, hfile]; exact hidden_append (.inl rfl))

theorem printable_gostFrame (dir : Bytes) (line : Nat) :
    printable (some (gostFrame dir line)) =
      some (baseName (dir ++ ascii "/gost_compability.go"), line) := by
  have hfile : dir ++ ascii "/gost_compability.go" =
      (dir ++ ascii "/gost_compabi") ++ ascii "lity.go" := by
    rw [List.append_assoc]
    rfl
  exact printable_of_not_hidden (f := gostFrame dir line)
    (by rw [gostFrame, hfile]; exact hidden_append (.inr rfl))

/-! ## Headers told apart -/

theorem bare_of_long {ps : List (Bytes × Nat)} (h : 3 ≤ (chainText ps).length) :
    bare ps = chainText ps ++ ascii ": " :=
  if_neg (Nat.not_lt.mpr h)

/-- Two chains that are long enough are read off their headers. -/
theorem headerText_inj {ps qs : List (Bytes × Nat)} (hp : 3 ≤ (chainText ps).length)
    (hq : 3 ≤ (chainText qs).length) (h : headerText ps = headerText qs) :
    chainText ps = chainText qs := by
  have hbare : bare ps = bare qs := breakLine_injective h
  rw [bare_of_long hp, bare_of_long hq] at hbare
  exact List.append_cancel_right hbare

section Lines

variable {dir : Bytes} {rt : Frame} {s : List Frame} {n : Nat} {lo hi : Int} {a b : Nat}

/-- A frame of logger.go with a line number of three digits makes a chain of four characters. -/
theorem four_le_length_chainText (hlo : lo ≤ n) (hhi : n ≤ hi) (hn : n < s.length)
    (ha : (decimal a).length = 3) :
    4 ≤ (chainText (shown rt (s.set n (loggerFrame dir a)) lo hi)).length := by
  have hlt := Format.length_digits_lt_chain (F := callerFormat)
    (baseName (dir ++ ascii "/logger.go")) (shown rt s (n + 1) hi) (shown rt s lo (n - 1)) a
  have hdigits : (callerFormat.digits a).length = 3 := ha
  rw [shown_set hlo hhi hn (printable_loggerFrame dir a), chainText]
  omega

/-- Headers that show different lines of logger.go at one place differ. -/
theorem headerText_set_ne (hlo : lo ≤ n) (hhi : n ≤ hi) (hn : n < s.length)
    (ha : (decimal a).length = 3) (hb : (decimal b).length = 3) (hab : a ≠ b) :
    headerText (shown rt (s.set n (loggerFrame dir a)) lo hi) ≠
      headerText (shown rt (s.set n (loggerFrame dir b)) lo hi) := by
  have hla : 4 ≤ (chainText (shown rt (s.set n (loggerFrame dir a)) lo hi)).length :=
    four_le_length_chainText hlo hhi hn ha
  have hlb : 4 ≤ (chainText (shown rt (s.set n (loggerFrame dir b)) lo hi)).length :=
    four_le_length_chainText hlo hhi hn hb
  intro h
  have hchain := headerText_inj (by omega) (by omega) h
  rw [shown_set hlo hhi hn (printable_loggerFrame dir a),
    shown_set hlo hhi hn (printable_loggerFrame dir b)] at hchain
  exact hab (Format.value_injective_chain hchain)

end Lines

/-! ## The header of an entry point -/

section Header

variable {dir : Bytes} {rt : Frame} {e e' : Entry} {user : List Frame} {max start lo hi : Int}

theorem Entry.header_of_nonpos (h : start ≤ 0) :
    e.header dir rt user max start = headerText (e.window dir rt user max start) := by
  rw [Entry.header, formatCaller, formatCallerRec_of_nonpos dir _ _ h]
  rfl

theorem Entry.header_of_long (h : 3 ≤ (chainText (e.window dir rt user max start)).length) :
    e.header dir rt user max start = headerText (e.window dir rt user max start) := by
  rw [Entry.header, formatCaller, formatCallerRec_of_shown dir _ _ h]
  rfl

theorem Entry.header_fallback (h0 : 0 < start)
    (h : (chainText (e.window dir rt user max start)).length < 3) :
    e.header dir rt user max start =
      breakLine (headerText (shown rt (e.stack dir user) 2 (max - 1))) := by
  rw [Entry.header, formatCaller, formatCallerRec_fallback dir _ _ h0 h]
  rfl

/-- Frame 2 is the call of `print`, at a line of three digits. -/
theorem Entry.stack_eq_set (dir : Bytes) (e : Entry) (user : List Frame) :
    2 < (e.stack dir user).length ∧
    ∃ line, (decimal line).length = 3 ∧
      e.stack dir user = (e.stack dir user).set 2 (loggerFrame dir line) := by
  cases e with
  | print | gostLog => exact ⟨by simp [Entry.stack, Entry.frames], 363, by decide +kernel, rfl⟩
  | println => exact ⟨by simp [Entry.stack, Entry.frames], 401, by decide +kernel, rfl⟩
  | printf | limitedPrintf | gostLogf =>
    exact ⟨by simp [Entry.stack, Entry.frames], 373, by decide +kernel, rfl⟩

/-- The fallback ends in two line breaks. -/
theorem Entry.fallback_eq :
    ∃ r, breakLine (headerText (shown rt (e.stack dir user) 2 (max - 1))) = r ++ [10] ++ [10] := by
  have hne : (chainText (shown rt (e.stack dir user) 2 (max - 1))).length ≠ 3 := by
    by_cases hmax : 3 ≤ max
    · obtain ⟨hlen, line, hline, hset⟩ := e.stack_eq_set dir user
      have hfour : 4 ≤ (chainText (shown rt ((e.stack dir user).set 2 (loggerFrame dir line)) 2
          (max - 1))).length :=
        four_le_length_chainText (Int.le_refl 2) (by omega) hlen hline
      rw [← hset] at hfour
      omega
    · rw [shown_of_lt (by omega)]
      decide
  rw [breakLine_headerText, if_neg hne]
  exact ⟨_, rfl⟩

/-- With a positive start depth the package is seen as far as it stands between the caller of
    `Print` and the user. -/
theorem Entry.chainText_window (h0 : 0 < start) :
    chainText (e.window dir rt user max start) =
      match e with
      | .print | .println => chainFrom rt user max start
      | .printf | .limitedPrintf | .gostLog => chainFrom rt user max (start - 1)
      | .gostLogf => chainFrom rt (gostFrame dir 23 :: user) max (start - 1) := by
  have h3 : (3 + start - 1 - 1 - 1 : Int) = start := by omega
  have hm : max + start - 1 - 1 - 1 = max + start - 3 := by omega
  have hm' : max + start - 3 - 1 = max + (start - 1) - 3 := by omega
  have hthree : ∀ f g h rest, shown rt (f :: g :: h :: rest) (3 + start) (max + start) =
      shown rt rest start (max + start - 3) := by
    intro f g h rest
    rw [shown_cons _ _ _ (by omega), shown_cons _ _ _ (by omega), shown_cons _ _ _ (by omega), h3,
      hm]
  cases e <;> simp only [Entry.window, Entry.stack, Entry.frames, List.cons_append, List.nil_append,
    hthree, shown_cons _ _ _ (show 1 ≤ start by omega), hm', chainFrom]

/-- At depth 0 `Print` and `Println` show the user's frames. -/
theorem Entry.window_direct (hd : e.Direct) :
    e.window dir rt user max 0 = shown rt user 0 (max - 3) := by
  have hm : max + 0 - 1 - 1 - 1 = max - 3 := by omega
  have hstack : ∃ f g, e.stack dir user = ownFrame dir :: f :: g :: user := by
    rcases hd with rfl | rfl
    · exact ⟨_, _, rfl⟩
    · exact ⟨_, _, rfl⟩
  obtain ⟨f, g, hfg⟩ := hstack
  rw [Entry.window, hfg, shown_cons _ _ _ (by omega), shown_cons _ _ _ (by omega),
    shown_cons _ _ _ (by omega), hm]
  rfl

/-! ## Where the entry points differ -/

/-- A window that shows frame 2 tells `Print` from `Println`. -/
theorem print_ne_println (hlo : lo ≤ 2) (hhi : 2 ≤ hi) :
    headerText (shown rt (Entry.print.stack dir user) lo hi) ≠
      headerText (shown rt (Entry.println.stack dir user) lo hi) :=
  headerText_set_ne (s := Entry.print.stack dir user) (n := 2) (a := 363) (b := 401) hlo hhi
    (by simp [Entry.stack, Entry.frames]) (by decide +kernel) (by decide +kernel) (by decide)

/-- A window that shows frame 3 tells `Printf` from `LimitedPrintf`. -/
theorem printf_ne_limitedPrintf (hlo : lo ≤ 3) (hhi : 3 ≤ hi) :
    headerText (shown rt (Entry.printf.stack dir user) lo hi) ≠
      headerText (shown rt (Entry.limitedPrintf.stack dir user) lo hi) :=
  headerText_set_ne (s := Entry.printf.stack dir user) (n := 3) (a := 389) (b := 385) hlo hhi
    (by simp [Entry.stack, Entry.frames]) (by decide +kernel) (by decide +kernel) (by decide)

/-- Below frame 2 all stacks are the same. -/
theorem Entry.frameAt_of_le {i : Int} (h : i ≤ 1) :
    frameAt rt (e.stack dir user) i = frameAt rt (e'.stack dir user) i := by
  unfold frameAt
  split
  · obtain hi | hi : i = 0 ∨ i = 1 := by omega
    · cases e <;> cases e' <;> rw [hi] <;> rfl
    · cases e <;> cases e' <;> rw [hi] <;> rfl
  · rfl

/-- `Print` and `Println` fall back at the same settings, and to different headers. -/
theorem long_of_agree (h0 : 0 < start) (hmax : 3 ≤ max)
    (h : Entry.print.header dir rt user max start = Entry.println.header dir rt user max start) :
    3 ≤ (chainFrom rt user max start).length := by
  by_contra hshort
  have hprint : (chainText (Entry.print.window dir rt user max start)).length < 3 := by
    rw [Entry.chainText_window h0]
    exact Nat.not_le.mp hshort
  have hprintln : (chainText (Entry.println.window dir rt user max start)).length < 3 := by
    rw [Entry.chainText_window h0]
    exact Nat.not_le.mp hshort
  rw [Entry.header_fallback h0 hprint, Entry.header_fallback h0 hprintln] at h
  exact print_ne_println (by decide) (by omega) (breakLine_injective h)

/-- Entry points of which one does not fall back agree when the other does not either and the chains
    are the same. -/
theorem chain_of_agree (h0 : 0 < start)
    (hlong : 3 ≤ (chainText (e.window dir rt user max start)).length)
    (h : e.header dir rt user max start = e'.header dir rt user max start) :
    chainText (e'.window dir rt user max start) = chainText (e.window dir rt user max start) := by
  rw [Entry.header_of_long hlong] at h
  have hlong' : 3 ≤ (chainText (e'.window dir rt user max start)).length := by
    by_contra hshort
    rw [Entry.header_fallback h0 (Nat.not_le.mp hshort)] at h
    obtain ⟨r, hr⟩ : ∃ r, breakLine (headerText (shown rt (e'.stack dir user) 2 (max - 1))) =
        r ++ [10] ++ [10] := Entry.fallback_eq
    rw [hr] at h
    exact headerText_ne r h
  rw [Entry.header_of_long hlong'] at h
  exact (headerText_inj hlong hlong' h).symm

/-- A window without an index shows nothing, whatever the entry point. -/
theorem Entry.header_of_lt (h : max < 3) :
    e.header dir rt user max start = e'.header dir rt user max start := by
  have hw : ∀ e : Entry, e.window dir rt user max start = [] := fun e => shown_of_lt (by omega)
  by_cases h0 : 0 < start
  · have hshort : ∀ e : Entry, (chainText (e.window dir rt user max start)).length < 3 := by
      intro e
      rw [hw]
      decide
    rw [Entry.header_fallback h0 (hshort e), Entry.header_fallback h0 (hshort e'),
      shown_of_lt (by omega), shown_of_lt (by omega)]
  · rw [Entry.header_of_nonpos (by omega), Entry.header_of_nonpos (by omega), hw, hw]

/-- All chains are the same text when the user's stack reads the same one frame below. -/
theorem Entry.header_of_sameBelow (h0 : 0 < start) (h : SameBelow dir rt user max start) :
    e.header dir rt user max start = breakLine (chainFrom rt user max start ++ ascii ": ") := by
  have hchain : chainText (e.window dir rt user max start) = chainFrom rt user max start := by
    rw [Entry.chainText_window h0]
    cases e with
    | print | println => rfl
    | printf | limitedPrintf | gostLog => exact h.below
    | gostLogf => exact h.logf
  have hlong : 3 ≤ (chainText (e.window dir rt user max start)).length := by
    rw [hchain]
    exact h.long
  rw [Entry.header_of_long hlong, headerText, bare_of_long hlong, hchain]

/-- The entry points agree exactly when the window has no index or ends below frame 2, or the start
    depth is positive and the user's stack reads the same from there and from one frame below. -/
theorem Entry.header_agree_iff :
    (∀ e e' : Entry, e.header dir rt user max start = e'.header dir rt user max start) ↔
      max < 3 ∨ max + start ≤ 1 ∨ (0 < start ∧ SameBelow dir rt user max start) := by
  constructor
  · intro h
    by_contra hno
    push Not at hno
    obtain ⟨hmax, hhi, hsame⟩ := hno
    rcases Int.lt_trichotomy start 0 with h0 | h0 | h0
    · have he := h .print .println
      rw [Entry.header_of_nonpos (Int.le_of_lt h0), Entry.header_of_nonpos (Int.le_of_lt h0)] at he
      exact print_ne_println (by omega) (by omega) he
    · have he := h .printf .limitedPrintf
      rw [h0, Entry.header_of_nonpos (Int.le_refl 0), Entry.header_of_nonpos (Int.le_refl 0)] at he
      exact printf_ne_limitedPrintf (by omega) (by omega) he
    · have hlong := long_of_agree h0 hmax (h .print .println)
      have hprint : chainText (Entry.print.window dir rt user max start) =
          chainFrom rt user max start := Entry.chainText_window h0
      have hchain : ∀ e' : Entry, chainText (e'.window dir rt user max start) =
          chainFrom rt user max start := fun e' =>
        (chain_of_agree h0 (by rw [hprint]; exact hlong) (h .print e')).trans hprint
      have hprintf := hchain .printf
      have hlogf := hchain .gostLogf
      rw [Entry.chainText_window h0] at hprintf hlogf
      exact hsame h0 ⟨hlong, hprintf, hlogf⟩
  · intro h e e'
    rcases h with h | h | ⟨h0, h⟩
    · exact Entry.header_of_lt h
    · by_cases hmax : max < 3
      · exact Entry.header_of_lt hmax
      · have hsame : e.window dir rt user max start = e'.window dir rt user max start :=
          shown_congr fun i _ hi => Entry.frameAt_of_le (by omega)
        rw [Entry.header_of_nonpos (by omega), Entry.header_of_nonpos (by omega), hsame]
    · rw [Entry.header_of_sameBelow h0 h, Entry.header_of_sameBelow h0 h]

/-- `Print` and `Println` agree at depth 0 as well, and at every positive depth that shows a
    frame. -/
theorem print_agree_iff :
    Entry.print.header dir rt user max start = Entry.println.header dir rt user max start ↔
      max < 3 ∨ max + start ≤ 1 ∨ start = 0 ∨
        (0 < start ∧ 3 ≤ (chainFrom rt user max start).length) := by
  constructor
  · intro h
    by_contra hno
    push Not at hno
    obtain ⟨hmax, hhi, hzero, hlong⟩ := hno
    by_cases h0 : 0 < start
    · exact absurd (long_of_agree h0 hmax h) (Nat.not_le.mpr (hlong h0))
    · rw [Entry.header_of_nonpos (by omega), Entry.header_of_nonpos (by omega)] at h
      exact print_ne_println (by omega) (by omega) h
  · intro h
    rcases h with h | h | h | ⟨h0, h⟩
    · exact Entry.header_of_lt h
    · exact Entry.header_agree_iff.mpr (.inr (.inl h)) .print .println
    · rw [h, Entry.header_of_nonpos (Int.le_refl 0), Entry.header_of_nonpos (Int.le_refl 0),
        Entry.window_direct (.inl rfl), Entry.window_direct (.inr rfl)]
    · have hprint : chainText (Entry.print.window dir rt user max start) =
          chainFrom rt user max start := Entry.chainText_window h0
      have hprintln : chainText (Entry.println.window dir rt user max start) =
          chainFrom rt user max start := Entry.chainText_window h0
      have hlp : 3 ≤ (chainText (Entry.print.window dir rt user max start)).length := hprint ▸ h
      have hlq : 3 ≤ (chainText (Entry.println.window dir rt user max start)).length :=
        hprintln ▸ h
      rw [Entry.header_of_long hlp, Entry.header_of_long hlq, headerText, headerText,
        bare_of_long hlp, bare_of_long hlq, hprint, hprintln]

end Header

/-- With these settings the entry points agree for every user. -/
theorem Entry.header_agree_forall_iff {dir : Bytes} {rt : Frame} {max start : Int} :
    (∀ user, ∀ e e' : Entry, e.header dir rt user max start = e'.header dir rt user max start) ↔
      max < 3 ∨ max + start ≤ 1 := by
  constructor
  · intro h
    rcases Entry.header_agree_iff.mp (h []) with hs | hs | ⟨h0, hs⟩
    · exact .inl hs
    · exact .inr hs
    · have hnone : shown rt [] start (max + start - 3) = [] := by
        rw [shown, List.filterMap_eq_nil_iff]
        intro i hi
        obtain ⟨h1, -⟩ := mem_downFrom.mp hi
        rw [frameAt, if_pos (by omega)]
        rfl
      have hlong := hs.long
      rw [chainFrom, hnone] at hlong
      cases hlong
  · intro h user
    exact Entry.header_agree_iff.mpr (h.imp_right .inl)

theorem Entry.three_le_frames {dir : Bytes} {e : Entry} (h : ¬ e.Direct) :
    3 ≤ (e.frames dir).length := by
  cases e <;> simp [Entry.frames, Entry.Direct] at h ⊢

/-! ## All entry points -/

/-- Where the headers of the entry points agree, and what the chain ends in at depth 0. -/
structure EntryHeaders (dir : Bytes) (rt : Frame) : Prop where
  agree : ∀ (user : List Frame) (max start : Int),
    (∀ e e' : Entry, e.header dir rt user max start = e'.header dir rt user max start) ↔
      max < 3 ∨ max + start ≤ 1 ∨ (0 < start ∧ SameBelow dir rt user max start)
  /-- for every stack at once, in terms of the settings -/
  settings : ∀ max start : Int,
    (∀ user, ∀ e e' : Entry, e.header dir rt user max start = e'.header dir rt user max start) ↔
      max < 3 ∨ max + start ≤ 1
  /-- `Print` and `Println` alone -/
  direct : ∀ (user : List Frame) (max start : Int),
    Entry.print.header dir rt user max start = Entry.println.header dir rt user max start ↔
      max < 3 ∨ max + start ≤ 1 ∨ start = 0 ∨
        (0 < start ∧ 3 ≤ (chainFrom rt user max start).length)
  /-- the last element of the chain at depth 0 is the user's call site -/
  callSite : ∀ (e : Entry) (user : List Frame) (max : Int) (p : Bytes × Nat), 3 ≤ max →
    e.Direct → printable user.head? = some p → (e.window dir rt user max 0).getLast? = some p
  /-- or a frame of the package -/
  packageFrame : ∀ (e : Entry) (user : List Frame) (max : Int), 3 ≤ max → ¬ e.Direct →
    ∃ f ∈ e.frames dir, (e.window dir rt user max 0).getLast? = some (baseName f.file, f.line)

/-- A message printed from `main.go`, line 5. -/
def mainStack : List Frame := [⟨ascii "/m/main.go", 5⟩]

example : headerText (Entry.window (ascii "/p") runtimeFrame .printf mainStack 7 0) =
    ascii "main.go:5=>logger.go:389: \n" := by decide +kernel

end ZipoLogger
