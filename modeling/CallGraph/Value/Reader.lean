import CallGraph.Value

/-!
# Reading values from JSON

The values are those without fractions. The entries of a table keep their order. Each part of the
reader takes what it reads off the front of the characters and returns the rest.

Between quotes, no control character stands for itself. Escapes spell code units of sixteen bits; two
of them may spell one character beyond the basic plane. A unit that is half of such a pair without the other half is a surrogate; in
a key it is replaced.
-/

namespace CallGraph

namespace Value

/-- Whether a character may stand between the parts of a JSON text. -/
def isJsonBlank (c : Char) : Bool :=
  c == ' ' || c == '\n' || c == '\t' || c == '\r'

/-- The characters behind the blanks at the front. -/
def skipBlanks (chars : List Char) : List Char :=
  chars.dropWhile isJsonBlank

/-! ## Texts -/

/-- The value of a hexadecimal digit. -/
def hexValue? (c : Char) : Option Nat :=
  if '0' ≤ c && c ≤ '9' then some (c.toNat - 48)
  else if 'a' ≤ c && c ≤ 'f' then some (c.toNat - 87)
  else if 'A' ≤ c && c ≤ 'F' then some (c.toNat - 55)
  else none

/-- The code unit that four hexadecimal digits spell. -/
def readUnit : List Char → Option (Nat × List Char)
  | a :: b :: c :: d :: rest => do
      let digits := [← hexValue? a, ← hexValue? b, ← hexValue? c, ← hexValue? d]
      return (digits.foldl (fun code digit => code * 16 + digit) 0, rest)
  | _ => none

/-- The character that a letter behind a backslash stands for. -/
def escaped? (c : Char) : Option Char :=
  if c = '"' || c = '\\' || c = '/' then some c
  else if c = 'n' then some '\n'
  else if c = 'r' then some '\r'
  else if c = 't' then some '\t'
  else if c = 'b' then some (Char.ofNat 8)
  else if c = 'f' then some (Char.ofNat 12)
  else none

/-- Whether a character has to be escaped between quotes because it is a control character. -/
def isControl (c : Char) : Bool :=
  c.toNat < 0x20

/-- The code units up to the closing quote; a character that stands for itself is one unit. -/
def readUnits : Nat → List Char → Option (List Nat × List Char)
  | 0, _ => none
  | _, [] => none
  | _, '"' :: rest => some ([], rest)
  | fuel + 1, '\\' :: 'u' :: rest => do
      let (unit, rest) ← readUnit rest
      let (units, rest) ← readUnits fuel rest
      return (unit :: units, rest)
  | fuel + 1, '\\' :: c :: rest => do
      let escaped ← escaped? c
      let (units, rest) ← readUnits fuel rest
      return (escaped.toNat :: units, rest)
  | fuel + 1, c :: rest =>
      if isControl c then none
      else do
        let (units, rest) ← readUnits fuel rest
        return (c.toNat :: units, rest)

/-- The code points that code units spell. -/
def pointsOfUnits : List Nat → Literal
  | [] => []
  | [unit] => [.ofNat unit]
  | high :: low :: rest =>
      if 0xD800 ≤ high && high < 0xDC00 && 0xDC00 ≤ low && low < 0xE000 then
        .ofNat (0x10000 + (high - 0xD800) * 0x400 + (low - 0xDC00)) :: pointsOfUnits rest
      else .ofNat high :: pointsOfUnits (low :: rest)

/-- The literal up to the closing quote. -/
def readLiteral (chars : List Char) : Option (Literal × List Char) := do
  let (units, rest) ← readUnits (chars.length + 1) chars
  return (pointsOfUnits units, rest)

/-! ## Numbers -/

/-- The number that the digits at the front spell; there has to be one, and of several the first is
not a zero. -/
def readNat (chars : List Char) : Option (Nat × List Char) :=
  match chars.takeWhile Char.isDigit with
  | [] => none
  | '0' :: _ :: _ => none
  | digits =>
      some (digits.foldl (fun number c => number * 10 + (c.toNat - 48)) 0,
        chars.drop digits.length)

/-- The whole number at the front. -/
def readNumber : List Char → Option (Int × List Char)
  | '-' :: rest => (readNat rest).map fun read => (-Int.ofNat read.1, read.2)
  | chars => (readNat chars).map fun read => (Int.ofNat read.1, read.2)

/-! ## Values -/

/-- What follows a word at the front, if it is there. -/
def behindWord? (word : String) (chars : List Char) : Option (List Char) :=
  if word.toList.isPrefixOf chars then some (chars.drop word.length) else none

/-- The value that a bare word spells. -/
def readWord (chars : List Char) : Option (Value × List Char) :=
  ((behindWord? "null" chars).map (Value.nothing, ·))
    |>.or ((behindWord? "true" chars).map (Value.flag true, ·))
    |>.or ((behindWord? "false" chars).map (Value.flag false, ·))

mutual

/-- The value at the front; the fuel bounds the number of parts read one inside the other or one
behind the other. -/
def readValue : Nat → List Char → Option (Value × List Char)
  | 0, _ => none
  | fuel + 1, chars =>
      match skipBlanks chars with
      | '"' :: rest => do
          let (read, rest) ← readLiteral rest
          return (.ofLiteral read, rest)
      | '[' :: rest => do
          let (items, rest) ← readItems fuel true (skipBlanks rest)
          return (.list items, rest)
      | '\x7b' :: rest => do
          let (entries, rest) ← readEntries fuel true (skipBlanks rest)
          return (.table entries, rest)
      | rest =>
          (readWord rest).or ((readNumber rest).map fun read => (.number read.1, read.2))

/-- The items up to the closing bracket; between two of them stands a comma. -/
def readItems : Nat → Bool → List Char → Option (List Value × List Char)
  | 0, _, _ => none
  | _, _, ']' :: rest => some ([], rest)
  | fuel + 1, isFirst, chars => do
      let chars ← if isFirst then some chars else behindWord? "," chars
      let (item, rest) ← readValue fuel chars
      let (items, rest) ← readItems fuel false (skipBlanks rest)
      return (item :: items, rest)

/-- The entries up to the closing brace; between two of them stands a comma. -/
def readEntries : Nat → Bool → List Char → Option (List (String × Value) × List Char)
  | 0, _, _ => none
  | _, _, '\x7d' :: rest => some ([], rest)
  | fuel + 1, isFirst, chars => do
      let chars ← if isFirst then some chars else behindWord? "," chars
      let rest ← behindWord? "\"" (skipBlanks chars)
      let (key, rest) ← readLiteral rest
      let rest ← behindWord? ":" (skipBlanks rest)
      let (value, rest) ← readValue fuel rest
      let (entries, rest) ← readEntries fuel false (skipBlanks rest)
      return ((key.replaced, value) :: entries, rest)

end

/-- The value that a JSON text spells. -/
def ofJson? (text : String) : Option Value :=
  match readValue (text.length + 1) text.toList with
  | some (value, rest) => if (skipBlanks rest).isEmpty then some value else none
  | none => none

end Value

end CallGraph
