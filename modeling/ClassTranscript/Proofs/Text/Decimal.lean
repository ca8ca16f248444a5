import ClassTranscript.Proofs.Text.Numeral
import ClassTranscript.Proofs.Text.Trim
import Mathlib.Tactic.IntervalCases

/-!
# Decimal numerals

The value of decimal digits, and that `numeral?` reads it where it lies below the bound. The decimal
numeral of a number is digits whose value is the number (`decimalValue_toDigits`).
-/

namespace ClassTranscript.Text

/-- A decimal digit. -/
def IsDecimal (c : Char) : Prop :=
  '0' ≤ c ∧ c ≤ '9'

/-- The number that decimal digits write. -/
def decimalValue (cs : List Char) : Nat :=
  ofDigits 10 (cs.filterMap (digit? 10))

theorem IsDecimal.toNat {c : Char} (h : IsDecimal c) :
  0x30 ≤ c.toNat ∧ c.toNat ≤ 0x39
  := h

theorem IsDecimal.digit? {c : Char} (h : IsDecimal c) :
  Text.digit? 10 c = some (c.toNat - 0x30)
  := by
  have hrange := h.toNat
  have hsmall : c.toNat - 0x30 < 10 := by omega
  rw [Text.digit?, if_pos (show '0' ≤ c ∧ c ≤ '9' from h)]
  simp [Option.filter, hsmall]

theorem IsDecimal.isBlank {c : Char} (h : IsDecimal c) :
  Text.isBlank c = false
  := by
  have hrange := h.toNat
  apply isBlank_eq_false <;> omega

/-- Decimal digits are read as the number that they write, where it lies below the bound. -/
theorem numeral?_of_decimal {cs : List Char} (hne : cs ≠ []) (h : ∀ c ∈ cs, IsDecimal c)
    (bound : Nat) :
  numeral? 10 bound cs = (some (decimalValue cs)).filter (· < bound)
  := by
  apply numeral?_of_digits hne _ (.inl rfl)
  intro c hmem
  rw [isDigit, (h c hmem).digit?, Option.isSome_some]

/-! ### Numerals of numbers -/

theorem isDecimal_toDigits {n : Nat} :
  ∀ c ∈ Nat.toDigits 10 n, IsDecimal c
  := by
  intro c hmem
  have hdigit := Nat.isDigit_of_mem_toDigits (by decide) (by decide) hmem
  rw [Char.isDigit, Bool.and_eq_true, decide_eq_true_iff, decide_eq_true_iff] at hdigit
  apply hdigit

/-- The decimal numeral of a number writes the number. -/
theorem decimalValue_toDigits (n : Nat) :
  decimalValue (Nat.toDigits 10 n) = n
  := digitsValue_toDigits (by decide) (by decide) n

/-- The decimal numeral of a positive number begins with a digit that is not zero. -/
theorem toDigits_of_pos {n : Nat} (h : 0 < n) :
  ∃ c cs, Nat.toDigits 10 n = c :: cs ∧ '1' ≤ c ∧ c ≤ '9'
  := by
  induction n using Nat.strongRecOn with
  | ind n ih =>
      rcases Nat.lt_or_ge n 10 with hlt | hge
      · refine ⟨n.digitChar, [], Nat.toDigits_of_lt_base hlt, ?_⟩
        interval_cases n <;> decide
      · obtain ⟨c, cs, hcs, hc⟩ := ih (n / 10) (by omega) (by omega)
        rw [Nat.toDigits_of_base_le (by decide) hge, hcs]
        exact ⟨c, _, rfl, hc⟩

end ClassTranscript.Text
