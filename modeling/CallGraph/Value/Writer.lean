import CallGraph.Value

/-!
# Writing values as JSON

A value is written on one line, with a blank behind each comma and colon, the entries of a table in
their order. Only printable ASCII characters stand for themselves between quotes; all others, and
surrogates, are escaped, those beyond the basic plane as two escapes.
-/

namespace CallGraph

namespace Value

/-- An escape with four hexadecimal digits. -/
def unitEscape (code : Nat) : List Char :=
  '\\' :: 'u' :: Text.hexDigits 4 code

/-- How one character is written between quotes. -/
def escape (c : Char) : List Char :=
  if c = '"' then ['\\', '"']
  else if c = '\\' then ['\\', '\\']
  else if c = '\n' then ['\\', 'n']
  else if c = '\r' then ['\\', 'r']
  else if c = '\t' then ['\\', 't']
  else if c.toNat = 8 then ['\\', 'b']
  else if c.toNat = 12 then ['\\', 'f']
  else if 32 ≤ c.toNat ∧ c.toNat ≤ 126 then [c]
  else if c.toNat < 0x10000 then unitEscape c.toNat
  else
    let beyond := c.toNat - 0x10000
    unitEscape (0xD800 + beyond / 0x400) ++ unitEscape (0xDC00 + beyond % 0x400)

/-- A text between quotes. -/
def jsonText (text : String) : String :=
  String.ofList ('"' :: (text.toList.flatMap escape ++ ['"']))

/-- A literal between quotes. -/
def jsonLiteral (literal : Literal) : String :=
  let inner := literal.flatMap fun point => (point.char?.map escape).getD (unitEscape point.code)
  String.ofList ('"' :: (inner ++ ['"']))

mutual

/-- The JSON text of a value. -/
def json : Value → String
  | .nothing => "null"
  | .flag value => if value then "true" else "false"
  | .number value => Text.decimal value
  | .text value => jsonText value
  | .literal value => jsonLiteral value
  | .list items => "[" ++ jsonItems items ++ "]"
  | .table entries => "\x7b" ++ jsonEntries entries ++ "\x7d"

/-- Items with a comma and a blank between neighbours. -/
def jsonItems : List Value → String
  | [] => ""
  | [item] => item.json
  | item :: rest => item.json ++ ", " ++ jsonItems rest

/-- Entries with a comma and a blank between neighbours. -/
def jsonEntries : List (String × Value) → String
  | [] => ""
  | [(key, value)] => jsonText key ++ ": " ++ value.json
  | (key, value) :: rest => jsonText key ++ ": " ++ value.json ++ ", " ++ jsonEntries rest

end

end Value

end CallGraph
