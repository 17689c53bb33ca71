import CallGraph.Text.Dotted

/-!
# Reading whole numbers

A whole number may have a sign, blanks around it, and single underscores between its digits. The
digits are those of any script that writes numbers with ten digits in a row of code points. Numbers
of more than 4300 digits are refused.

Blanks are the white space of all scripts, without the four separators among the control
characters.
-/

namespace CallGraph.Text

/-- The code points of the digits zero. -/
def zeroDigits : List Nat :=
  [0x30, 0x660, 0x6f0, 0x7c0, 0x966, 0x9e6, 0xa66, 0xae6, 0xb66, 0xbe6, 0xc66, 0xce6, 0xd66, 0xde6,
   0xe50, 0xed0, 0xf20, 0x1040, 0x1090, 0x17e0, 0x1810, 0x1946, 0x19d0, 0x1a80, 0x1a90, 0x1b50,
   0x1bb0, 0x1c40, 0x1c50, 0xa620, 0xa8d0, 0xa900, 0xa9d0, 0xa9f0, 0xaa50, 0xabf0, 0xff10, 0x104a0,
   0x10d30, 0x11066, 0x110f0, 0x11136, 0x111d0, 0x112f0, 0x11450, 0x114d0, 0x11650, 0x116c0,
   0x11730, 0x118e0, 0x11950, 0x11c50, 0x11d50, 0x11da0, 0x16a60, 0x16ac0, 0x16b50, 0x1d7ce,
   0x1d7d8, 0x1d7e2, 0x1d7ec, 0x1d7f6, 0x1e140, 0x1e2f0, 0x1e950, 0x1fbf0]

/-- The value of a digit. -/
def digit? (c : Char) : Option Nat :=
  (zeroDigits.find? fun first => first ≤ c.toNat && c.toNat ≤ first + 9).map (c.toNat - ·)

/-- Whether a character may stand around a number. -/
def isNumberBlank (c : Char) : Bool :=
  [0x9, 0xa, 0xb, 0xc, 0xd, 0x20, 0x85, 0xa0, 0x1680, 0x2000, 0x2001, 0x2002, 0x2003, 0x2004,
   0x2005, 0x2006, 0x2007, 0x2008, 0x2009, 0x200a, 0x2028, 0x2029, 0x202f, 0x205f,
   0x3000].contains c.toNat

/-- The text without the blanks around it. -/
def trimBlanks (chars : List Char) : List Char :=
  ((chars.dropWhile isNumberBlank).reverse.dropWhile isNumberBlank).reverse

/-- The values of digits with single underscores between them. -/
def digitsOf? : List Char → Option (List Nat)
  | [] => none
  | [c] => (digit? c).map ([·])
  | c :: '_' :: rest => do return (← digit? c) :: (← digitsOf? rest)
  | c :: rest => do return (← digit? c) :: (← digitsOf? rest)

/-- The greatest number of digits that are read. -/
def digitLimit : Nat := 4300

/-- The number that digits spell. -/
def natOf? (chars : List Char) : Option Nat := do
  let digits ← digitsOf? chars
  if digits.length ≤ digitLimit then
    return digits.foldl (fun number digit => number * 10 + digit) 0
  else none

/-- The whole number that a text spells. -/
def integer? (text : String) : Option Int :=
  match trimBlanks text.toList with
  | '+' :: rest => (natOf? rest).map Int.ofNat
  | '-' :: rest => (natOf? rest).map fun number => -Int.ofNat number
  | chars => (natOf? chars).map Int.ofNat

end CallGraph.Text
