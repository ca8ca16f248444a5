import ClassTranscript.Text.Numeral
import Mathlib.Algebra.Group.Nat.Defs
import Mathlib.Data.List.Induction
import Mathlib.Tactic.Common

/-!
# Reading numerals

`numeral?` reads digits of a radix, perhaps with a plus sign before them, and nothing else
(`numeral?_eq_some_iff`). The numeral of a number in a radix is digits that write the number
(`digitsValue_toDigits`).
-/

namespace ClassTranscript.Text

/-- Whether a character is a digit of a radix. -/
def isDigit (radix : Nat) (c : Char) : Bool :=
  (digit? radix c).isSome

/-- The number that digits of a radix write. -/
def digitsValue (radix : Nat) (cs : List Char) : Nat :=
  ofDigits radix (cs.filterMap (digit? radix))

theorem mapM_digit?_of_isDigit {radix : Nat} {cs : List Char} (h : ∀ c ∈ cs, isDigit radix c = true) :
  cs.mapM (digit? radix) = some (cs.filterMap (digit? radix))
  := by
  induction cs with
  | nil => rfl
  | cons c cs ih =>
      obtain ⟨value, hvalue⟩ := Option.isSome_iff_exists.mp (h c List.mem_cons_self)
      rw [List.mapM_cons, ih fun c hmem => h c (List.mem_cons_of_mem _ hmem), hvalue,
        List.filterMap_cons_some hvalue]
      rfl

theorem isDigit_of_mapM_digit? {radix : Nat} {cs : List Char} {values : List Nat}
    (h : cs.mapM (digit? radix) = some values) :
  ∀ c ∈ cs, isDigit radix c = true
  := by
  induction cs generalizing values with
  | nil => simp
  | cons c cs ih =>
      rw [List.mapM_cons] at h
      obtain ⟨value, hvalue, h⟩ := Option.bind_eq_some_iff.mp h
      obtain ⟨values, hvalues, -⟩ := Option.bind_eq_some_iff.mp h
      rw [List.forall_mem_cons]
      exact ⟨Option.isSome_iff_exists.mpr ⟨value, hvalue⟩, ih hvalues⟩

theorem digitsValue_append_digit {radix value : Nat} {cs : List Char} {c : Char}
    (h : digit? radix c = some value) :
  digitsValue radix (cs ++ [c]) = digitsValue radix cs * radix + value
  := by
  rw [digitsValue, List.filterMap_append, ofDigits, List.foldl_append, List.filterMap_cons_some h]
  rfl

theorem digit?_lt {radix value : Nat} {c : Char} (h : digit? radix c = some value) :
  value < radix
  := by
  simpa using (Option.filter_eq_some_iff.mp h).2

/-- The number that digits write has no more digits than there are. -/
theorem digitsValue_lt {radix : Nat} {cs : List Char} (h : ∀ c ∈ cs, isDigit radix c = true) :
  digitsValue radix cs < radix ^ cs.length
  := by
  induction cs using List.reverseRecOn with
  | nil => simp [digitsValue, ofDigits]
  | append_singleton cs c ih =>
      obtain ⟨hcs, hc⟩ := List.forall_mem_append.mp h
      obtain ⟨value, hvalue⟩ := Option.isSome_iff_exists.mp (hc c (List.mem_singleton_self c))
      have hlt := digit?_lt hvalue
      have hle := Nat.mul_le_mul_right radix (ih hcs)
      rw [digitsValue_append_digit hvalue, List.length_append, List.length_singleton, Nat.pow_succ]
      rw [Nat.succ_mul] at hle
      omega

/-- Digits are read as the number that they write, with a plus sign or without, where it lies below
the bound. -/
theorem numeral?_of_digits {radix : Nat} {cs digits : List Char} (hne : digits ≠ [])
    (h : ∀ c ∈ digits, isDigit radix c = true) (hcs : cs = digits ∨ cs = '+' :: digits)
    (bound : Nat) :
  numeral? radix bound cs = (some (digitsValue radix digits)).filter (· < bound)
  := by
  obtain ⟨c, digits, rfl⟩ := List.exists_cons_of_ne_nil hne
  have hc := h c List.mem_cons_self
  have hunsigned : (if cs.head? = some '+' then cs.tail else cs) = c :: digits := by
    rcases hcs with rfl | rfl
    · rw [if_neg]
      rintro ⟨⟩
      cases hc
    · rfl
  obtain ⟨value, hvalue⟩ := Option.isSome_iff_exists.mp hc
  rw [numeral?, hunsigned, mapM_digit?_of_isDigit h, digitsValue, List.filterMap_cons_some hvalue]
  rfl

/-- What is read as a number is digits that write it, perhaps with a plus sign before them. -/
theorem numeral?_eq_some_iff {radix bound n : Nat} {cs : List Char} :
  numeral? radix bound cs = some n ↔
    ∃ digits, (cs = digits ∨ cs = '+' :: digits) ∧ digits ≠ []
      ∧ (∀ c ∈ digits, isDigit radix c = true) ∧ digitsValue radix digits = n ∧ n < bound
  := by
  constructor
  · intro h
    have hsigned : ∃ digits, (cs = digits ∨ cs = '+' :: digits)
        ∧ (if cs.head? = some '+' then cs.tail else cs) = digits := by
      cases cs with
      | nil => exact ⟨[], .inl rfl, rfl⟩
      | cons c cs =>
          by_cases hc : c = '+'
          · exact ⟨cs, .inr (by rw [hc]), by simp [hc]⟩
          · exact ⟨c :: cs, .inl rfl, by simp [hc]⟩
    obtain ⟨digits, hcs, hunsigned⟩ := hsigned
    have hread := h
    rw [numeral?, hunsigned] at h
    obtain ⟨values, hvalues, h⟩ := Option.bind_eq_some_iff.mp h
    have hdigits := isDigit_of_mapM_digit? hvalues
    have hne : digits ≠ [] := by
      rintro rfl
      obtain rfl : [] = values := by simpa using hvalues
      cases h
    rw [numeral?_of_digits hne hdigits hcs, Option.filter_eq_some_iff, Option.some.injEq,
      decide_eq_true_eq] at hread
    obtain ⟨hvalue, hlt⟩ := hread
    exact ⟨digits, hcs, hne, hdigits, hvalue, hlt⟩
  · rintro ⟨digits, hcs, hne, hdigits, rfl, hlt⟩
    rw [numeral?_of_digits hne hdigits hcs, Option.filter_some, if_pos (decide_eq_true hlt)]

/-! ### Numerals of numbers -/

theorem digit?_digitChar {radix k : Nat} (hradix : radix ≤ 16) (hk : k < radix) :
  digit? radix k.digitChar = some k
  := by
  have hvalue : ∀ k < 16, digit? 16 k.digitChar = some k := by decide
  have h := hvalue k (by omega)
  rw [digit?, Option.filter_eq_some_iff] at h ⊢
  exact ⟨h.1, decide_eq_true hk⟩

/-- The numeral of a number is made of digits. -/
theorem exists_digitChar_of_mem_toDigits {radix n : Nat} (hradix : 1 < radix) {c : Char}
    (h : c ∈ Nat.toDigits radix n) :
  ∃ k < radix, c = k.digitChar
  := by
  induction n using Nat.strongRecOn with
  | ind n ih =>
      rcases Nat.lt_or_ge n radix with hlt | hge
      · rw [Nat.toDigits_of_lt_base hlt, List.mem_singleton] at h
        exact ⟨n, hlt, h⟩
      · rw [Nat.toDigits_of_base_le hradix hge, List.mem_append, List.mem_singleton] at h
        obtain h | h := h
        · apply ih (n / radix) (Nat.div_lt_self (by omega) hradix) h
        · exact ⟨n % radix, Nat.mod_lt _ (by omega), h⟩

/-- The numeral of a number writes the number. -/
theorem digitsValue_toDigits {radix : Nat} (hradix : 1 < radix) (hmax : radix ≤ 16) (n : Nat) :
  digitsValue radix (Nat.toDigits radix n) = n
  := by
  induction n using Nat.strongRecOn with
  | ind n ih =>
      have hlast := digit?_digitChar hmax (Nat.mod_lt n (by omega : 0 < radix))
      rcases Nat.lt_or_ge n radix with hlt | hge
      · rw [Nat.mod_eq_of_lt hlt] at hlast
        rw [Nat.toDigits_of_lt_base hlt, ← List.nil_append [n.digitChar],
          digitsValue_append_digit hlast]
        simp [digitsValue, ofDigits]
      · rw [Nat.toDigits_of_base_le hradix hge, digitsValue_append_digit hlast,
          ih _ (Nat.div_lt_self (by omega) hradix), Nat.mul_comm]
        apply Nat.div_add_mod

end ClassTranscript.Text
