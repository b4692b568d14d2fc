import GenericUri.Text

/-!
# Numeral — numbers in decimal and in hex

Numbers are written without leading zeros, hex in lower case.  A hex digit is read in either case.
-/

namespace GenericUri

/-- The value of a hex digit of either case. -/
def hexValue? (c : Char) : Option Nat :=
  if '0' ≤ c ∧ c ≤ '9' then some (c.toNat - '0'.toNat)
  else if 'A' ≤ c ∧ c ≤ 'F' then some (c.toNat - 'A'.toNat + 10)
  else if 'a' ≤ c ∧ c ≤ 'f' then some (c.toNat - 'a'.toNat + 10)
  else none

/-- The decimal numeral of `n`. -/
def decimal (n : Nat) : Text := Nat.toDigits 10 n

/-- The hex numeral of `n`. -/
def hex (n : Nat) : Text := Nat.toDigits 16 n

/-- The number that decimal digits denote. -/
def decimalValue (t : Text) : Nat := Nat.ofDigitChars 10 t 0

/-- The number that hex digits of the given values denote. -/
def hexNumber (ds : List Nat) : Nat := ds.foldl (fun n d => 16 * n + d) 0

theorem decimalValue_decimal (n : Nat) : decimalValue (decimal n) = n :=
  Nat.ofDigitChars_ten_toDigits

theorem isDigit_of_mem_decimal {n : Nat} {c : Char} (h : c ∈ decimal n) : c.isDigit :=
  Nat.isDigit_of_mem_toDigits (by decide) (by decide) h

end GenericUri
