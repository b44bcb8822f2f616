/-!
# Numerals in base 64

A number is written in the digits `A` to `Z`, `a` to `z`, `0` to `9`, `+` and `/`, the highest digit
first, and without a leading `A` unless it is zero.
-/

namespace TextMate.Numeral

/-- The digits, from zero up. -/
def digits : List Char :=
  "ABCDEFGHIJKLMNOPQRSTUVWXYZabcdefghijklmnopqrstuvwxyz0123456789+/".toList

/-- The digit for a value below 64. -/
def digit (value : Nat) : Char :=
  digits.getD value 'A'

/-- The digits of a number, the highest first. -/
def chars (n : Nat) : List Char :=
  if n < 64 then [digit n] else chars (n / 64) ++ [digit (n % 64)]

/-- The numeral of a number. -/
def render (n : Nat) : String :=
  String.ofList (chars n)

end TextMate.Numeral
