import CallGraph.Text.Dotted
import CallGraph.Text.Literal

/-!
# Scopes

While a block of statements is read, a scope records for each name what the source says about it:
the dotted name of a module, function or class, or a table of functions. A function is read with
its own scope inside a copy of the scope of its module, so scopes come as lists, innermost first.

## Main statements

* `get?_set_self`, `get?_set_ne` — setting a name changes that name only.
-/

namespace CallGraph

/-- A table from literals to names, in the order in which its keys first came up; each key stands
once. -/
abbrev Table := List (Literal × String)

/-- Gives a key a value: in place if the key is there, else at the end. -/
def Table.set (key : Literal) (value : String) : Table → Table
  | [] => [(key, value)]
  | entry :: rest =>
      if entry.1 = key then (key, value) :: rest else entry :: Table.set key value rest

/-- What a scope says about a name. -/
inductive ScopeEntry
  | name (name : String)
  | table (table : Table)
  deriving DecidableEq, Repr, Inhabited

/-- The names of one scope. -/
abbrev Scope := List (String × ScopeEntry)

namespace Scope

/-- What a scope says about a name. -/
def get? (scope : Scope) (name : String) : Option ScopeEntry :=
  scope.lookup name

/-- Records a name, in place if it is already there. -/
def set (name : String) (entry : ScopeEntry) : Scope → Scope
  | [] => [(name, entry)]
  | first :: rest =>
      if first.1 = name then (name, entry) :: rest else first :: set name entry rest

/-- Records a name unless it is already there. -/
def setIfAbsent (name : String) (entry : ScopeEntry) (scope : Scope) : Scope :=
  if (scope.get? name).isSome then scope else scope.set name entry

/-- What the innermost scope that knows a name says about it. -/
def lookup? (scopes : List Scope) (name : String) : Option ScopeEntry :=
  scopes.findSome? (get? · name)

/--
The value of a key of a table: that of the innermost scope in which the name is a table with this
key.
-/
def lookupKey? (scopes : List Scope) (name : String) (key : Literal) : Option String :=
  scopes.findSome? fun scope =>
    match scope.get? name with
    | some (.table table) => table.lookup key
    | _ => none

/-! ## What a scope says after a name was recorded -/

theorem get?_cons (key name : String) (value : ScopeEntry) (rest : Scope) :
    get? ((key, value) :: rest) name = if name = key then some value else get? rest name := by
  unfold get?
  rw [List.lookup_cons]
  by_cases h : name = key
  · simp [h]
  · simp [h, beq_false_of_ne h]

@[simp] theorem get?_set_self (scope : Scope) (name : String) (entry : ScopeEntry) :
    get? (set name entry scope) name = some entry := by
  induction scope with
  | nil => simp [set, get?_cons]
  | cons first rest ih =>
      obtain ⟨key, value⟩ := first
      by_cases h : key = name
      · simp [set, h, get?_cons]
      · rw [set, if_neg h, get?_cons, if_neg (Ne.symm h)]
        exact ih

theorem get?_set_ne (scope : Scope) {name other : String} (entry : ScopeEntry)
    (h : other ≠ name) : get? (set name entry scope) other = get? scope other := by
  induction scope with
  | nil => simp [set, get?_cons, h]
  | cons first rest ih =>
      obtain ⟨key, value⟩ := first
      by_cases hKey : key = name
      · simp [set, hKey, get?_cons, h]
      · rw [set, if_neg hKey, get?_cons, get?_cons, ih]

end Scope

end CallGraph
