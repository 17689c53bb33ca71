import CallGraph.Fault
import CallGraph.Value

/-!
# Items of values

Some values hold items: a list its items, a text its characters, a table its keys. Items of several
values can be put in a row, texts can be joined with dots, and names can be collected in a table of
constants.
-/

namespace CallGraph

namespace Value

/-- The items of a value. -/
def items : Value → Except Fault (List Value)
  | .list held => .ok held
  | .text chars => .ok (chars.toList.map fun c => .text c.toString)
  | .literal points => .ok (points.map fun point => .ofLiteral [point])
  | .table entries => .ok (entries.map fun entry => .text entry.1)
  | other => .error (.notIterable other.typeName)

/-- The items of several values in a row; nothing holds no items. -/
def flattenAll : List Value → Except Fault (List Value)
  | [] => .ok []
  | .nothing :: rest => flattenAll rest
  | value :: rest => do
      let first ← value.items
      let others ← flattenAll rest
      return first ++ others

/-- The items of the items of a value in a row. -/
def flatten (value : Value) : Except Fault (List Value) := do
  flattenAll (← value.items)

/-- The texts among which there is nothing else; `index` counts the values in front. -/
def onlyTexts (index : Nat) : List Value → Except Fault (List String)
  | [] => .ok []
  | .text first :: rest => do return first :: (← onlyTexts (index + 1) rest)
  | other :: _ => .error (.notAText index other.typeName)

/-- Joins texts with dots; a single list stands for its items. -/
def joinDotted (values : List Value) : Except Fault String := do
  match values with
  | [.list held] => return Dotted.join (← onlyTexts 0 held)
  | _ => return Dotted.join (← onlyTexts 0 values)

end Value

/-- A table of named constants, each name once, in the order in which they first came up. -/
abbrev Constants := List (String × Value)

namespace Constants

/-- Gives a name a value: in place if the name is there, else at the end. -/
def set (name : String) (value : Value) : Constants → Constants
  | [] => [(name, value)]
  | entry :: rest =>
      if entry.1 = name then (name, value) :: rest else entry :: set name value rest

/-- The constants that stand for their own names, and those with values of their own. -/
def ofNames (names : List String) (values : List (String × Value)) : Constants :=
  values.foldl (fun table entry => set entry.1 entry.2 table)
    (names.foldl (fun table name => set name (.text name) table) [])

/-- The value of a constant. -/
def get (table : Constants) (name : String) : Except Fault Value :=
  match table.lookup name with
  | some value => .ok value
  | none => .error (.noSuchKey name)

end Constants

end CallGraph
