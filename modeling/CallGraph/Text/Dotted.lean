/-!
# Dotted names

Modules, classes and functions are named by parts joined with dots. A name is kept as one text;
this module joins parts and takes them apart again. Empty parts are kept: a name has one part more
than it has dots.
-/

namespace CallGraph.Text

/-- Cuts a text at every occurrence of a separator; empty pieces are kept. -/
def splitChars (separator : Char) : List Char → List (List Char)
  | [] => [[]]
  | c :: rest =>
      if c = separator then
        [] :: splitChars separator rest
      else
        match splitChars separator rest with
        | [] => [[c]]
        | piece :: pieces => (c :: piece) :: pieces

/-- Cuts a text at every occurrence of a separator; empty pieces are kept. -/
def splitAtChar (separator : Char) (text : String) : List String :=
  (splitChars separator text.toList).map String.ofList

/-- Joins texts with a separator between neighbours. -/
def joinWith (separator : String) : List String → String
  | [] => ""
  | [text] => text
  | text :: rest => text ++ separator ++ joinWith separator rest

/-- What stands in front of the last occurrence of `mark`, if `mark` occurs. -/
def beforeLast? (mark : List Char) : List Char → Option (List Char)
  | [] => if mark.isEmpty then some [] else none
  | c :: rest =>
      match beforeLast? mark rest with
      | some front => some (c :: front)
      | none => if mark.isPrefixOf (c :: rest) then some [] else none

/-- Whether a text ends in another. -/
def endsWith (text tail : String) : Bool :=
  tail.toList.isSuffixOf text.toList

/-- Whether a text starts with another. -/
def startsWith (text front : String) : Bool :=
  front.toList.isPrefixOf text.toList

/-- Whether a character occurs in a text. -/
def hasChar (c : Char) (text : String) : Bool :=
  text.toList.contains c

end CallGraph.Text

namespace CallGraph.Dotted

open CallGraph.Text

/-- The dotted name with the given parts. -/
def join (parts : List String) : String :=
  joinWith "." parts

/-- The parts of a dotted name. -/
def parts (name : String) : List String :=
  splitAtChar '.' name

/-- The part in front of the first dot; the whole name if it has no dot. -/
def first (name : String) : String :=
  (parts name).headD ""

/-- The part behind the last dot; the whole name if it has no dot. -/
def last (name : String) : String :=
  (parts name).getLastD ""

/-- The name in front of the last dot and the part behind it, if there is a dot. -/
def splitLast? (name : String) : Option (String × String) :=
  match parts name with
  | [] | [_] => none
  | several => some (join several.dropLast, several.getLastD "")

/-- Whether a name has more than one part. -/
def isDotted (name : String) : Bool :=
  hasChar '.' name

end CallGraph.Dotted
