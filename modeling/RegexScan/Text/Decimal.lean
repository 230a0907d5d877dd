/-!
# Decimal numbers of 64 bits
-/

namespace RegexScan.Text

/-- The value of digits, behind the digits already read. -/
def digitsValue? (acc : Nat) : List Char → Option Nat
  | [] => some acc
  | c :: cs => if c.isDigit then digitsValue? (10 * acc + (c.toNat - '0'.toNat)) cs else none

/-- An unsigned number of at least one digit, with or without a plus sign, that fits 64 bits. -/
def unsigned64? (s : String) : Option Nat :=
  let digits := match s.toList with
    | '+' :: cs => cs
    | cs => cs
  if digits.isEmpty then none
  else (digitsValue? 0 digits).filter (· < UInt64.size)

end RegexScan.Text
