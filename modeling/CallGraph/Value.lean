import CallGraph.Text.Quote

/-!
# Plain values

Options and hand-made bindings may carry any plain value, also one of a type that makes no sense
there; what happens then depends on the type. A value knows whether it counts as set, the name of
its type, and how messages show it. A literal stands for itself only if it is no text.
-/

namespace CallGraph

/-- A plain value. -/
inductive Value
  | nothing
  | flag (value : Bool)
  | number (value : Int)
  | text (value : String)
  | literal (value : Literal)
  | list (items : List Value)
  | table (entries : List (String × Value))
  deriving Inhabited

namespace Value

/-- A literal as a value: the text that it is, else itself. -/
def ofLiteral (literal : Literal) : Value :=
  (literal.text?.map Value.text).getD (.literal literal)

/-- Whether a value counts as set: it is not empty, zero, false or nothing. -/
def isSet : Value → Bool
  | .nothing => false
  | .flag value => value
  | .number value => value ≠ 0
  | .text value => value ≠ ""
  | .literal value => !value.isEmpty
  | .list items => !items.isEmpty
  | .table entries => !entries.isEmpty

/-- The name of the type of a value. -/
def typeName : Value → String
  | .nothing => "NoneType"
  | .flag _ => "bool"
  | .number _ => "int"
  | .text _ | .literal _ => "str"
  | .list _ => "list"
  | .table _ => "dict"

/-- Whether a value may be looked up in a set. -/
def isHashable : Value → Bool
  | .list _ | .table _ => false
  | _ => true

mutual

/-- A value as messages show it. -/
def shown : Value → String
  | .nothing => "None"
  | .flag value => Text.truth value
  | .number value => Text.decimal value
  | .text value => Text.quoted value
  | .literal value => Text.quotedLiteral value
  | .list items => "[" ++ shownItems items ++ "]"
  | .table entries => "\x7b" ++ shownEntries entries ++ "\x7d"

/-- Items with commas between them. -/
def shownItems : List Value → String
  | [] => ""
  | [item] => item.shown
  | item :: rest => item.shown ++ ", " ++ shownItems rest

/-- Entries with commas between them. -/
def shownEntries : List (String × Value) → String
  | [] => ""
  | [(key, value)] => Text.quoted key ++ ": " ++ value.shown
  | (key, value) :: rest => Text.quoted key ++ ": " ++ value.shown ++ ", " ++ shownEntries rest

end

/-- A value as it stands in running text: a text without quotes, all else as shown. -/
def plain : Value → String
  | .text value => value
  | .literal value => Text.loggedLiteral value
  | value => value.shown

/-! ## Parts of a value -/

/-- The entry of a table under a key. -/
def get? (value : Value) (key : String) : Option Value :=
  match value with
  | .table entries => entries.lookup key
  | _ => none

/-- The entry of a table under a key; nothing if there is none. -/
def get (value : Value) (key : String) : Value :=
  (value.get? key).getD .nothing

/-- The items of a list. -/
def elements : Value → List Value
  | .list items => items
  | _ => []

/-- The entries of a table. -/
def entries : Value → List (String × Value)
  | .table listed => listed
  | _ => []

/-- The text that a value is. -/
def text? : Value → Option String
  | .text value => some value
  | _ => none

/-- The whole number that a value is; truth values count as one and zero. -/
def number? : Value → Option Int
  | .number value => some value
  | .flag value => some (if value then 1 else 0)
  | _ => none

/-- The text that a value is, or as much of it as is text; the empty text if it is none. -/
def asText : Value → String
  | .text value => value
  | .literal value => value.replaced
  | _ => ""

/-- The literal that a value is. -/
def literal? : Value → Option Literal
  | .text value => some (Literal.ofText value)
  | .literal value => some value
  | _ => none

/-- The items of a list as texts. -/
def texts (value : Value) : List String :=
  value.elements.map asText

/-- A list of texts. -/
def ofTexts (texts : List String) : Value :=
  .list (texts.map .text)

/-- An optional text. -/
def ofText? (text : Option String) : Value :=
  (text.map Value.text).getD .nothing

/-- An optional whole number. -/
def ofNumber? (number : Option Int) : Value :=
  (number.map Value.number).getD .nothing

mutual

/-- The number of levels of a value. -/
def depth : Value → Nat
  | .list items => depthOfItems items + 1
  | .table entries => depthOfEntries entries + 1
  | _ => 1

/-- The number of levels of the deepest item. -/
def depthOfItems : List Value → Nat
  | [] => 0
  | item :: rest => max item.depth (depthOfItems rest)

/-- The number of levels of the deepest entry. -/
def depthOfEntries : List (String × Value) → Nat
  | [] => 0
  | (_, value) :: rest => max value.depth (depthOfEntries rest)

end

end Value

end CallGraph
