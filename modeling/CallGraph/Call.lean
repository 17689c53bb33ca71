import CallGraph.Text.Quote

/-!
# Calls

A call is what the source shows of a function call: the token that is called and, for a call on
something (`owner.token()`), the name of that something. The owner is the name of a module or class
when the scope tells it, and otherwise the name of a variable.
-/

namespace CallGraph

/-- The owner of a call whose owner the source does not name. -/
def unknownOwner : String := "UNKNOWN_VAR"

/-- What stands for a module that is not among the analysed files. -/
def unknownModule : String := "UNKNOWN_MODULE"

/-- A call expression. -/
structure Call where
  /-- The name of what is called. -/
  token : String
  line : Option Int := none
  /-- What the call is made on; `none` for a plain call. -/
  owner : Option String := none
  /-- The call is known to construct an object although it has an owner. -/
  definiteConstructor : Bool := false
  /-- The owner is named, so the target may belong to a library. -/
  isLibrary : Bool := false
  /-- The names passed as positional arguments. -/
  arguments : List String := []
  /-- The function whose result is called, in `factory()()`. -/
  factory : Option String := none
  /-- The table and the key through which the target was found, in `table['key']()`. -/
  tableEntry : Option (String × Literal) := none
  deriving DecidableEq, Repr, Inhabited

namespace Call

/-- Whether the call is made on something. -/
def isMember (call : Call) : Bool :=
  call.owner.isSome

/-- The owner, if there is one and it is not the empty text. -/
def namedOwner? (call : Call) : Option String :=
  call.owner.filter (· ≠ "")

/-- The call as the log writes it. -/
def text (call : Call) : String :=
  match call.namedOwner? with
  | some owner => owner ++ "." ++ call.token ++ "()"
  | none => call.token ++ "()"

/-- The call as messages show it when it stands for a value. -/
def shown (call : Call) : String :=
  "<Call owner_token=" ++ Text.orNone call.owner ++ " token=" ++ call.token ++ ">"

end Call

end CallGraph
