/-!
# Unsigned numerals

An unsigned numeral of a radix is an optional plus sign and at least one digit; leading zeros are
allowed. `numeral?` reads one whose value lies below a bound.
-/

namespace ClassTranscript.Text

/-- The value of a digit of a radix up to sixteen, in either letter case. -/
def digit? (radix : Nat) (c : Char) : Option Nat :=
  let value :=
    if '0' ≤ c ∧ c ≤ '9' then some (c.toNat - '0'.toNat)
    else if 'a' ≤ c ∧ c ≤ 'f' then some (c.toNat - 'a'.toNat + 10)
    else if 'A' ≤ c ∧ c ≤ 'F' then some (c.toNat - 'A'.toNat + 10)
    else none
  value.filter (· < radix)

/-- The value of digits, the most significant first. -/
def ofDigits (radix : Nat) (digits : List Nat) : Nat :=
  digits.foldl (fun value digit => value * radix + digit) 0

/-- The value of an unsigned numeral, when it lies below a bound. -/
def numeral? (radix bound : Nat) (cs : List Char) : Option Nat := do
  let digits ← (if cs.head? = some '+' then cs.tail else cs).mapM (digit? radix)
  if digits.isEmpty then none
  else (some (ofDigits radix digits)).filter (· < bound)

end ClassTranscript.Text
