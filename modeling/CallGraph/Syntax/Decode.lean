import CallGraph.Fault
import CallGraph.Syntax.Tree

/-!
# Syntax trees as values

A tree is handed over as a table: its kind under `t`, its line under `l` if it has one, and under
`f` its fields, each a pair of a name and a content. The content is a text or a whole number, one
tree, or a list of trees in which nothing stands for a gap. A constant is given as the name of its
type and how it is shown; a constant text is shown as it is, so that it may hold surrogates.
-/

namespace CallGraph

namespace Tree

/-- The fields of a tree handed over. -/
def fieldsOf (value : Value) : List (String × Value) :=
  (value.get "f").elements.map fun pair =>
    ((pair.elements.headD .nothing).asText, (pair.elements.drop 1).headD .nothing)

/-- Whether the `value` of a kind is a constant. -/
def holdsConstant (kind : Kind) : Bool :=
  kind == .constant || kind == .other "MatchSingleton"

/-- The constant of a type that is shown in a given way. -/
def constantOf (type : String) (shown : Value) : Option Atom :=
  if type == "str" then shown.literal?.map .literal
  else shown.text?.map (.other type)

/-- The attribute that a field spells. -/
def attribute? (kind : Kind) (field : String × Value) : Option (String × Atom) :=
  match field.2 with
  | .text text => some (field.1, .text text)
  | .number number => some (field.1, .number number)
  | .list [.text type, shown] =>
      if holdsConstant kind && field.1 == "value" then
        (constantOf type shown).map fun constant => (field.1, constant)
      else none
  | _ => none

/-- The children that a field lists, when its trees are read by `read`. -/
def childrenOf (read : Value → Tree) (field : String × Value) : List Child :=
  let name := Field.ofLabel field.1
  match field.2 with
  | .table entries => [.filled name (read (.table entries))]
  | .list items =>
      items.filterMap fun item =>
        match item with
        | .table entries => some (.filled name (read (.table entries)))
        | .nothing => some (.gap name)
        | _ => none
  | _ => []

/-- Reads a tree to a given depth. -/
def ofValueTo : Nat → Value → Tree
  | 0, _ => default
  | depth + 1, value =>
      let kind := Kind.ofLabel (value.get "t").asText
      let fields := fieldsOf value
      .node kind (value.get "l").number? (fields.filterMap (attribute? kind))
        (fields.flatMap (childrenOf (ofValueTo depth)))

/-- The tree that a value hands over. -/
def ofValue (value : Value) : Tree :=
  ofValueTo value.depth value

end Tree

namespace ParseFailure

/-- The failure that a value hands over. -/
def ofValue (value : Value) : ParseFailure :=
  { kind := (value.get "error").asText
    message := (value.get "message").asText
    shown := (value.get "repr").asText }

end ParseFailure

/-- The tree beside a source text, or why there is none. -/
def parsedOf (value : Value) : Except ParseFailure Tree :=
  match value.get? "ast" with
  | some tree => .ok (Tree.ofValue tree)
  | none => .error (ParseFailure.ofValue (value.get "ast_error"))

end CallGraph
