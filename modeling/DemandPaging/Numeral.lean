/-! # Numerals in messages
-/
namespace DemandPaging

/-- Hexadecimal with lower-case digits. -/
def hex (n : Nat) : String := "0x" ++ String.ofList (Nat.toDigits 16 n)

/-- Hexadecimal with upper-case digits. -/
def hexUpper (n : Nat) : String :=
  "0x" ++ String.ofList ((Nat.toDigits 16 n).map Char.toUpper)

/-- Decimal with leading zeroes up to four digits. -/
def fourDigits (n : Nat) : String :=
  let digits := Nat.toDigits 10 n
  String.ofList (List.replicate (4 - digits.length) '0' ++ digits)

end DemandPaging
