/-!
# Numerals

Decimal text of whole numbers and hexadecimal text of a fixed least width, as they stand in labels,
identifiers and escapes.
-/

namespace CallGraph.Text

/-- The decimal digits of a number, without a leading zero. -/
def decimalNat (n : Nat) : String :=
  String.ofList (Nat.toDigits 10 n)

/-- Decimal text, with a minus sign in front of a negative number. -/
def decimal : Int → String
  | .ofNat n => decimalNat n
  | .negSucc n => "-" ++ decimalNat (n + 1)

/-- Lower-case hexadecimal digits, filled up with zeros on the left to at least `width`. -/
def hexDigits (width n : Nat) : List Char :=
  let digits := Nat.toDigits 16 n
  List.replicate (width - digits.length) '0' ++ digits

/-- Lower-case hexadecimal text of at least `width` digits. -/
def hex (width n : Nat) : String :=
  String.ofList (hexDigits width n)

end CallGraph.Text
