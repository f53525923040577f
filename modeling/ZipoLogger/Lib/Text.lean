/-
  ASCII texts: decimal numbers (`%d` of a number that is not negative), `strings.HasSuffix` and
  `strings.LastIndex` of one character.
-/
import ZipoLogger.Lib.BigEndian

namespace Text

/-- The bytes of an ASCII text. -/
def ascii (s : String) : Bytes := s.toList.map fun c => UInt8.ofNat c.toNat

/-! ## Decimal numbers -/

/-- `fmt.Sprintf("%d", n)`. -/
def decimal (n : Nat) : Bytes :=
  if n = 0 then [48] else (Nat.digits 10 n).reverse.map fun d => UInt8.ofNat (48 + d)

def isDigit (c : UInt8) : Bool := 48 ≤ c ∧ c ≤ 57

/-- The value of a string of digits, lowest digit first. -/
def value (b : Bytes) : Nat := Nat.ofDigits 10 (b.reverse.map fun c => c.toNat - 48)

theorem toNat_digit {d : Nat} (h : d < 10) : (UInt8.ofNat (48 + d)).toNat = 48 + d := by
  rw [UInt8.toNat_ofNat']
  exact Nat.mod_eq_of_lt (by omega)

theorem value_decimal (n : Nat) : value (decimal n) = n := by
  unfold decimal
  split
  · rename_i h
    rw [h]
    rfl
  · have hmap : (Nat.digits 10 n).map ((fun c : UInt8 => c.toNat - 48) ∘
        fun d => UInt8.ofNat (48 + d)) = Nat.digits 10 n := by
      rw [List.map_congr_left (g := id), List.map_id]
      intro d hd
      have hlt : d < 10 := Nat.digits_lt_base (by decide) hd
      show (UInt8.ofNat (48 + d)).toNat - 48 = d
      rw [toNat_digit hlt]
      omega
    rw [value, ← List.map_reverse, List.reverse_reverse, List.map_map, hmap, Nat.ofDigits_digits]

theorem decimal_injective : Function.Injective decimal :=
  Function.LeftInverse.injective value_decimal

theorem decimal_ne_nil (n : Nat) : decimal n ≠ [] := by
  unfold decimal
  split
  · exact List.cons_ne_nil _ _
  · rename_i h
    rw [ne_eq, List.map_eq_nil_iff, List.reverse_eq_nil_iff]
    exact Nat.digits_ne_nil_iff_ne_zero.mpr h

theorem isDigit_decimal (n : Nat) : ∀ c ∈ decimal n, isDigit c := by
  intro c hc
  unfold decimal at hc
  split at hc
  · rw [List.mem_singleton.mp hc]
    decide
  · obtain ⟨d, hd, rfl⟩ := List.mem_map.mp hc
    have hlt : d < 10 := Nat.digits_lt_base (by decide) (List.mem_reverse.mp hd)
    have hdigit : ∀ d < 10, isDigit (UInt8.ofNat (48 + d)) := by decide
    exact hdigit d hlt

/-! ## Suffixes and positions -/

/-- `strings.HasSuffix`. -/
def hasSuffix (s suffix : Bytes) : Bool := suffix.isSuffixOf s

/-- `strings.LastIndex` of a single character; `-1` when it does not occur. -/
def lastIndex (s : Bytes) (c : UInt8) : Int :=
  match s.reverse.findIdx? (fun x => x = c) with
  | none => -1
  | some i => s.length - 1 - i

/-- A string does not end in `suffix` when the bytes of the suffix do not occur there. -/
theorem hasSuffix_append {s t suffix : Bytes} (h : t.length ≤ suffix.length)
    (hne : suffix.drop (suffix.length - t.length) ≠ t) : hasSuffix (s ++ t) suffix = false := by
  rw [hasSuffix, Bool.eq_false_iff, ne_eq, List.isSuffixOf_iff_suffix]
  intro hsuf
  apply hne
  have hdrop := List.suffix_append s t
  have ht : t <:+ suffix := List.suffix_of_suffix_length_le hdrop hsuf h
  exact (List.suffix_iff_eq_drop.mp ht).symm

end Text
