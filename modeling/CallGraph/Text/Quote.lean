import CallGraph.Text.Dotted
import CallGraph.Text.Literal
import CallGraph.Text.Numeral
import CallGraph.Text.Printable

/-!
# Quoted texts

Messages show a text between quotes so that its ends are visible. Single quotes are used unless the
text holds a single quote and no double quote. The quote in use and the backslash are written
behind a backslash, line ends and tabs by their letters, and every other character that cannot be
printed by its code point in hexadecimal: two digits behind `\x`, four behind `\u`, eight behind
`\U`. Surrogates cannot be printed.
-/

namespace CallGraph.Text

/-- The quote that encloses a text. -/
def quoteFor (chars : List Char) : Char :=
  if chars.contains '\'' && !chars.contains '"' then '"' else '\''

/-- How one character is written between quotes of the given kind. -/
def quoteChar (quote c : Char) : List Char :=
  if c = quote || c = '\\' then ['\\', c]
  else if c = '\n' then ['\\', 'n']
  else if c = '\r' then ['\\', 'r']
  else if c = '\t' then ['\\', 't']
  else if isPrintable c then [c]
  else if c.toNat < 0x100 then '\\' :: 'x' :: hexDigits 2 c.toNat
  else if c.toNat < 0x10000 then '\\' :: 'u' :: hexDigits 4 c.toNat
  else '\\' :: 'U' :: hexDigits 8 c.toNat

/-- A text between quotes. -/
def quoted (text : String) : String :=
  let quote := quoteFor text.toList
  String.ofList (quote :: (text.toList.flatMap (quoteChar quote) ++ [quote]))

/-- A surrogate by its number. -/
def surrogateEscape (point : CodePoint) : List Char :=
  '\\' :: 'u' :: hexDigits 4 point.code

/-- A literal between quotes. -/
def quotedLiteral (literal : Literal) : String :=
  let quote := quoteFor (literal.filterMap CodePoint.char?)
  let inner := literal.flatMap fun point =>
    (point.char?.map (quoteChar quote)).getD (surrogateEscape point)
  String.ofList (quote :: (inner ++ [quote]))

/-- A literal as the log shows it: only surrogates are escaped. -/
def loggedLiteral (literal : Literal) : String :=
  String.ofList (literal.flatMap fun point =>
    (point.char?.map ([·])).getD (surrogateEscape point))

/-- Items that are already written, between square brackets. -/
def bracketed (items : List String) : String :=
  "[" ++ joinWith ", " items ++ "]"

/-- A list of texts, each quoted, between square brackets. -/
def quotedList (texts : List String) : String :=
  bracketed (texts.map quoted)

/-- A table from literals to texts, keys and values quoted, between braces. -/
def quotedTable (entries : List (Literal × String)) : String :=
  "\x7b"
    ++ joinWith ", " (entries.map fun entry => quotedLiteral entry.1 ++ ": " ++ quoted entry.2)
    ++ "\x7d"

/-- A truth value as messages spell it. -/
def truth (b : Bool) : String :=
  if b then "True" else "False"

/-- An optional text as messages spell it. -/
def orNone : Option String → String
  | some text => text
  | none => "None"

end CallGraph.Text
