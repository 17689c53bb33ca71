import CallGraph.Call
import CallGraph.Fault
import CallGraph.Scope
import CallGraph.Syntax.Tree

/-!
# Reading a block of statements

From the statements of a function (or of a module outside its functions) the analysis takes two
things: the names the block binds, and the calls it makes. Bindings come from assignments of a call
or of a table and from import statements; reading them also fills the scope, and the calls are then
read against the filled scope, so the order of statements inside a block does not matter to them.

Statements are met in breadth-first order, one statement of the block after the other, nested
functions included.
-/

namespace CallGraph

/-- What the source binds a name to. -/
inductive Source
  | name (name : String)
  | call (call : Call)
  | table (table : Table)
  deriving DecidableEq, Repr, Inhabited

/-- A name bound in a block. -/
structure Local where
  token : String
  source : Source
  line : Option Int
  deriving DecidableEq, Repr, Inhabited

namespace Block

/-! ## Calls -/

/-- The dotted name that the names along a chain of `value` fields spell, outermost last. -/
def ownerName? (tree : Tree) : Option String :=
  match tree.valueChain.filterMap Tree.identifier? with
  | [] => none
  | names => some (Dotted.join names.reverse)

/-- The name that a positional argument passes on, if it passes a name on. -/
def argument? (tree : Tree) : Option String :=
  match tree.kind with
  | .name => tree.text? "id"
  | .member => ownerName? tree
  | _ => none

/-- The names that a call expression passes as positional arguments. -/
def arguments (call : Tree) : List String :=
  (call.trees .args).filterMap argument?

/--
The owner of a call on `tree`. With scopes at hand, a name stands for what the innermost scope that
knows it says: a name for that name, a table for itself. Any other tree, and every tree when there
are no scopes, is named by the names in it.
-/
def owner (scopes : Option (List Scope)) (tree : Tree) : String :=
  match scopes, tree.identifier? with
  | some scopes, some name =>
      match Scope.lookup? scopes name with
      | some (.name target) => target
      | some (.table _) => name
      | none => unknownOwner
  | _, _ => (ownerName? tree).getD unknownOwner

/-- The call `tree.token(arguments)`, where `callee` is the tree in front of the brackets. -/
def memberCall (scopes : Option (List Scope)) (arguments : List String) (callee : Tree) : Call :=
  let owner := owner scopes ((callee.tree? .value).getD default)
  { token := (callee.text? "attr").getD ""
    line := callee.line
    owner := some owner
    isLibrary := owner ≠ "" && owner ≠ unknownOwner
    arguments := arguments }

/--
The call of a name. A name that the scopes know under a dotted name is a call on the module in
front of the last dot.
-/
def nameCall (scopes : Option (List Scope)) (arguments : List String) (callee : Tree) : Call :=
  let name := (callee.text? "id").getD ""
  let plain : Call := { token := name, line := callee.line, arguments := arguments }
  match scopes.bind (Scope.lookup? · name) with
  | some (.name target) =>
      match Dotted.splitLast? target with
      | some (owner, token) =>
          { token := token, line := callee.line, owner := some owner, isLibrary := true,
            arguments := arguments }
      | none => plain
  | _ => plain

/-- The call of `table['key']`, if the scopes know such a table with this key. -/
def entryCall? (scopes : Option (List Scope)) (arguments : List String) (callee : Tree) :
    Option Call := do
  let scopes ← scopes
  let table ← (← callee.tree? .value).identifier?
  let index ← callee.tree? .slice
  let key ← if index.kind = .constant then index.literal? "value" else none
  let token ← Scope.lookupKey? scopes table key
  return { token := token, line := callee.line, arguments := arguments,
           tableEntry := some (table, key) }

mutual

/--
The call that a call expression makes, from the tree in front of its brackets. A call whose target
has no name is left out. The call of what another call returns is named after the function called
first.
-/
def call? (scopes : Option (List Scope)) (arguments : List String) : Tree → Option Call
  | .node kind line attributes children =>
      match kind with
      | .member => some (memberCall scopes arguments (.node kind line attributes children))
      | .name => some (nameCall scopes arguments (.node kind line attributes children))
      | .subscript => entryCall? scopes arguments (.node kind line attributes children)
      | .call =>
          (innerCall? scopes children).map fun inner =>
            { token := inner.token, line := line, arguments := arguments,
              factory := some inner.token }
      | _ => none

/-- The call made by the first `func` among some children. -/
def innerCall? (scopes : Option (List Scope)) : List Child → Option Call
  | [] => none
  | .filled .func tree :: _ => call? scopes [] tree
  | _ :: rest => innerCall? scopes rest

end

/-- The calls of some statements, in the order in which they are met. -/
def calls (scopes : Option (List Scope)) (statements : List Tree) : List Call :=
  (statements.flatMap Tree.walk).filterMap fun tree =>
    if tree.kind = .call then
      (tree.tree? .func).bind (call? scopes (arguments tree))
    else none

/-! ## Bindings -/

/-- The table that a table display spells: its entries from constant texts to names. -/
def tableOf (literal : Tree) : Table :=
  ((literal.places .keys).zip (literal.places .values)).foldl (fun table entry =>
    match entry with
    | (some key, some value) =>
        match (if key.kind = .constant then key.literal? "value" else none), value.identifier? with
        | some key, some name => Table.set key name table
        | _, _ => table
    | _ => table) []

/-- The names on the left of an assignment. -/
def targetNames (assignment : Tree) : List String :=
  (assignment.trees .targets).filterMap Tree.identifier?

/-- Records several names with one entry. -/
def setAll (names : List String) (entry : ScopeEntry) (scope : Scope) : Scope :=
  names.foldl (fun scope name => scope.set name entry) scope

/-- What an assignment binds: the names on its left, to a call or a table. -/
def assigned (outer : List Scope) (inner : Scope) (assignment : Tree) : List Local × Scope :=
  let names := targetNames assignment
  let value := (assignment.tree? .value).getD default
  match value.kind with
  | .call =>
      let callee := (value.tree? .func).getD default
      match call? (some (inner :: outer)) [] callee with
      | none => ([], inner)
      | some call =>
          (names.map (⟨·, .call call, assignment.line⟩),
            match callee.identifier? with
            | some type => setAll names (.name type) inner
            | none => inner)
  | .dict =>
      let table := tableOf value
      (names.map (⟨·, .table table, assignment.line⟩), setAll names (.table table) inner)
  | _ => ([], inner)

/-- The name that an import statement binds for one of its items, and the name it stands for. -/
def importedItem (statement item : Tree) : String × String :=
  let name := (item.text? "name").getD ""
  let target :=
    match (statement.text? "module").filter (· ≠ "") with
    | some module => Dotted.join [module, name]
    | none => name
  (((item.text? "asname").filter (· ≠ "")).getD name, target)

/-- What an import statement binds. -/
def imported (inner : Scope) (statement : Tree) : List Local × Scope :=
  let items := (statement.trees .names).map (importedItem statement)
  (items.map fun item => ⟨item.1, .name item.2, statement.line⟩,
    items.foldl (fun scope item => scope.set item.1 (.name item.2)) inner)

/-- What one tree node binds. -/
def bound (outer : List Scope) (inner : Scope) (tree : Tree) : List Local × Scope :=
  match tree.kind with
  | .assign => assigned outer inner tree
  | .importModules | .importFrom => imported inner tree
  | _ => ([], inner)

/-- What some tree nodes bind, one after the other, with the scope they leave. -/
def boundAll (outer : List Scope) : Scope → List Tree → List Local × Scope
  | inner, [] => ([], inner)
  | inner, tree :: rest =>
      let first := bound outer inner tree
      let others := boundAll outer first.2 rest
      (first.1 ++ others.1, others.2)

/-- The names that some statements bind, with the scope they leave. -/
def locals (outer : List Scope) (inner : Scope) (statements : List Tree) : List Local × Scope :=
  boundAll outer inner (statements.flatMap Tree.walk)

/-- The scope of a method also knows `self`. -/
def withSelf (scope : Scope) : Scope :=
  scope.setIfAbsent "self" (.name "self")

/-! ## Reading against given scopes -/

/-- What a block read on its own comes to. -/
structure Reading where
  locals : List Local
  calls : List Call
  /-- The scopes afterwards, innermost first; `none` if the block was read without scopes. -/
  scopes : Option (List Scope)
  deriving Inhabited

/--
Reads statements against given scopes, innermost first, as a method if asked to. Without scopes,
names are taken as they are written. A list of scopes that is empty has no place for a name.
-/
def read (isMethod : Bool) (statements : List Tree) : Option (List Scope) → Except Fault Reading
  | none => .ok ⟨(locals [] [] statements).1, calls none statements, none⟩
  | some scopes =>
      let found := locals (scopes.drop 1) (scopes.headD []) statements
      let inner := if isMethod then withSelf found.2 else found.2
      if scopes.isEmpty && !inner.isEmpty then .error .noSuchIndex
      else
        let after := if scopes.isEmpty then [] else inner :: scopes.drop 1
        .ok ⟨found.1, calls (some after) statements, some after⟩

end Block

end CallGraph
