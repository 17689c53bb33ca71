import CallGraph.CommandLine.Switch
import CallGraph.Text.Integer

/-!
# The words of the command line

Each word is an argument, the mark behind which all words are arguments, or a switch. A switch may
be abbreviated as long as only one spelling fits, and may carry its argument: behind an equals sign
or, with a single dash, directly.

A word with a dash that is no switch is taken for an unknown one, unless it looks like a negative
number or contains a blank.
-/

namespace CallGraph.CommandLine

/-- The argument that a word carries for its switch. -/
structure Attached where
  text : String
  /-- Whether it stands behind an equals sign. -/
  behindEquals : Bool
  deriving DecidableEq, Repr, Inhabited

/-- What a word is. -/
inductive Word
  | argument
  | separator
  /-- A switch, whether it was spelled with a single dash, and what it carries. -/
  | known (switch : Switch) (isShort : Bool) (attached : Option Attached)
  | unknown
  deriving DecidableEq, Repr, Inhabited

/-- Why the words are refused. -/
inductive UsageFault
  | ambiguous (word : String) (spellings : List String)
  | argumentMissing (switch : Switch)
  | argumentIgnored (switch : Switch) (text : String)
  | notANumber (switch : Switch) (text : String)
  | notAChoice (switch : Switch) (text : String) (choices : List String)
  | rivals (switch other : Switch)
  | sourcesMissing
  | unrecognized (words : List String)
  deriving DecidableEq, Repr, Inhabited

namespace Word

/-- A word cut at its first equals sign. -/
def cutAtEquals (word : String) : String × Option String :=
  let front := word.toList.takeWhile (· ≠ '=')
  match word.toList.drop front.length with
  | [] => (word, none)
  | _ :: rest => (String.ofList front, some (String.ofList rest))

/-- Whether a spelling has a single dash. -/
def isShort (spelling : String) : Bool :=
  Text.startsWith spelling "-" && !Text.startsWith spelling "--"

/-- A switch that fits a word, with its spelling and what the word carries for it. -/
structure Fit where
  spelling : String
  switch : Switch
  attached : Option Attached
  deriving DecidableEq, Repr, Inhabited

/-- The spellings that a word with two dashes may abbreviate. -/
def longFits (word : String) : List Fit :=
  let (front, carried) := cutAtEquals word
  (Switch.table.filter fun entry => Text.startsWith entry.1 front).map fun entry =>
    ⟨entry.1, entry.2, carried.map (⟨·, true⟩)⟩

/-- The spellings that a word with one dash may begin with or abbreviate. -/
def shortFits (word : String) : List Fit :=
  let letter := String.ofList (word.toList.take 2)
  let carried := String.ofList (word.toList.drop 2)
  Switch.table.filterMap fun entry =>
    if entry.1 = letter then some ⟨entry.1, entry.2, some ⟨carried, false⟩⟩
    else if Text.startsWith entry.1 word then some ⟨entry.1, entry.2, none⟩
    else none

/-- The switches that a word which spells none exactly may mean. -/
def fits (word : String) : List Fit :=
  if Text.startsWith word "--" then longFits word else shortFits word

/-- Whether all of some characters, of which there is at least one, are digits. -/
def areDigits (chars : List Char) : Bool :=
  !chars.isEmpty && chars.all fun c => (Text.digit? c).isSome

/-- Whether a word looks like a negative number; a line end may follow. -/
def looksNegative (word : String) : Bool :=
  match word.toList with
  | '-' :: rest =>
      let body := if rest.getLast? = some '\n' then rest.dropLast else rest
      let front := body.takeWhile fun c => (Text.digit? c).isSome
      areDigits body
        || (match body.drop front.length with
          | '.' :: digits => areDigits digits
          | _ => false)
  | _ => false

/-- What a switch that was found stands for. -/
def ofFit (fit : Fit) : Word :=
  .known fit.switch (isShort fit.spelling) fit.attached

/-- What a word is that may abbreviate a switch. -/
def ofAbbreviation (word : String) : Except UsageFault Word :=
  match fits word with
  | [] => .ok (if looksNegative word || Text.hasChar ' ' word then .argument else .unknown)
  | [fit] => .ok (ofFit fit)
  | several => .error (.ambiguous word (several.map Fit.spelling))

/-- What a word is that starts with a dash and spells no switch exactly. -/
def ofDashed (word : String) : Except UsageFault Word :=
  match cutAtEquals word with
  | (front, some carried) =>
      match Switch.ofSpelling? front with
      | some switch => .ok (ofFit ⟨front, switch, some ⟨carried, true⟩⟩)
      | none => ofAbbreviation word
  | _ => ofAbbreviation word

/-- What a word is, in front of the mark behind which all words are arguments. -/
def ofText (word : String) : Except UsageFault Word :=
  if word = "--" then .ok .separator
  else if !Text.startsWith word "-" then .ok .argument
  else
    match Switch.ofSpelling? word with
    | some switch => .ok (ofFit ⟨word, switch, none⟩)
    | none => if word = "-" then .ok .argument else ofDashed word

/-- What the words are. -/
def readAll : List String → Except UsageFault (List (String × Word))
  | [] => .ok []
  | word :: rest => do
      match ← ofText word with
      | .separator => return (word, .separator) :: rest.map (·, .argument)
      | kind => return (word, kind) :: (← readAll rest)

end Word

namespace UsageFault

/-- The wording of a fault about a switch. -/
def about (switch : Switch) (text : String) : String :=
  "argument " ++ switch.label ++ ": " ++ text

end UsageFault

end CallGraph.CommandLine
