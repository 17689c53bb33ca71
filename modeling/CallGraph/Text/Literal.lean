/-!
# Literals

What a source spells between quotes is a sequence of code points. Escapes can spell any of them,
also the surrogates, which are no characters and of which no text is made. A literal is such a
sequence.

## Main statements

* `isText_iff` — a literal without surrogates is the literal of a text.
* `text?_eq_some_iff` — the text of a literal is the one that it is the literal of.
-/

namespace CallGraph

/-- A code point: a character, or a surrogate, given by its place among the surrogates. -/
inductive CodePoint
  | char (c : Char)
  | surrogate (place : Fin 0x800)
  deriving DecidableEq, Repr, Inhabited

namespace CodePoint

/-- The number of a code point. -/
def code : CodePoint → Nat
  | .char c => c.toNat
  | .surrogate place => 0xD800 + place

/-- The character that a code point is. -/
def char? : CodePoint → Option Char
  | .char c => some c
  | .surrogate _ => none

/-- Whether a code point is a surrogate. -/
def isSurrogate (point : CodePoint) : Bool :=
  point.char?.isNone

/-- The code point with a given number. -/
def ofNat (code : Nat) : CodePoint :=
  if h : 0xD800 ≤ code ∧ code < 0xE000 then .surrogate ⟨code - 0xD800, by omega⟩
  else .char (Char.ofNat code)

instance : LT CodePoint := ⟨fun a b => a.code < b.code⟩

instance : DecidableLT CodePoint := fun a b => inferInstanceAs (Decidable (a.code < b.code))

end CodePoint

/-- A sequence of code points. -/
abbrev Literal := List CodePoint

namespace Literal

/-- The literal of a text. -/
def ofText (text : String) : Literal :=
  text.toList.map .char

/-- Whether a literal holds no surrogates. -/
def isText (literal : Literal) : Bool :=
  literal.all fun point => !point.isSurrogate

/-- The text that a literal is, if it holds no surrogates. -/
def text? (literal : Literal) : Option String :=
  if literal.isText then some (String.ofList (literal.filterMap CodePoint.char?)) else none

/-- The text of a literal in which surrogates are replaced. -/
def replaced (literal : Literal) : String :=
  String.ofList (literal.map fun point => point.char?.getD (Char.ofNat 0xFFFD))

@[simp] theorem ofText_append (front back : String) :
    ofText (front ++ back) = ofText front ++ ofText back := by
  simp only [ofText, String.toList_append, List.map_append]

@[simp] theorem isText_append (front back : Literal) :
    isText (front ++ back) = (front.isText && back.isText) :=
  List.all_append

@[simp] theorem isText_ofText (text : String) : (ofText text).isText = true := by
  rw [isText, ofText, List.all_map, List.all_eq_true]
  exact fun _ _ => rfl

theorem ofText_filterMap_char? {literal : Literal} (h : literal.isText = true) :
    ofText (String.ofList (literal.filterMap CodePoint.char?)) = literal := by
  rw [ofText, String.toList_ofList]
  induction literal with
  | nil => rfl
  | cons point rest ih =>
      rw [isText, List.all_cons, Bool.and_eq_true] at h
      cases point with
      | char c => exact congrArg (CodePoint.char c :: ·) (ih h.2)
      | surrogate place => exact absurd h.1 Bool.false_ne_true

theorem isText_iff {literal : Literal} : literal.isText = true ↔ ∃ text, literal = ofText text := by
  constructor
  · exact fun h => ⟨_, (ofText_filterMap_char? h).symm⟩
  · rintro ⟨text, rfl⟩
    exact isText_ofText text

@[simp] theorem text?_ofText (text : String) : (ofText text).text? = some text := by
  have hChars : (ofText text).filterMap CodePoint.char? = text.toList := by
    rw [ofText, List.filterMap_map]
    exact List.filterMap_some
  rw [text?, if_pos (isText_ofText text), hChars, String.ofList_toList]

theorem text?_eq_some_iff {literal : Literal} {text : String} :
    literal.text? = some text ↔ literal = ofText text := by
  constructor
  · intro h
    by_cases hText : literal.isText = true
    · rw [text?, if_pos hText, Option.some_inj] at h
      rw [← h, ofText_filterMap_char? hText]
    · rw [text?, if_neg hText] at h
      exact absurd h (Option.some_ne_none text).symm
  · rintro rfl
    exact text?_ofText text

end Literal

/-- How the texts of files are encoded. -/
structure Encoding where
  name : String
  /-- The characters that a file can hold. -/
  holds : Char → Bool
  /-- What is said of code points that no file can hold. -/
  complaint : String

namespace Encoding

/-- The encoding that has all characters. -/
def utf8 : Encoding :=
  { name := "utf-8", holds := fun _ => true, complaint := "surrogates not allowed" }

/-- Whether a file can hold a code point; it never holds a surrogate. -/
def fits (encoding : Encoding) (point : CodePoint) : Bool :=
  point.char?.any encoding.holds

/-- The text that a file can hold of a literal: all of it, or nothing. -/
def text? (encoding : Encoding) (literal : Literal) : Option String :=
  if literal.all encoding.fits then literal.text? else none

variable {encoding : Encoding} {literal : Literal}

/-- A file can hold no more than texts. -/
theorem isText_of_fits (h : literal.all encoding.fits = true) : literal.isText = true := by
  rw [Literal.isText, List.all_eq_true] at *
  intro point hPoint
  have hFits := h point hPoint
  cases point with
  | char c => rfl
  | surrogate place => exact absurd hFits Bool.false_ne_true

theorem text?_eq_some_iff {text : String} :
    encoding.text? literal = some text ↔
      literal = Literal.ofText text ∧ literal.all encoding.fits = true := by
  by_cases h : literal.all encoding.fits = true
  · rw [text?, if_pos h, Literal.text?_eq_some_iff, and_iff_left h]
  · rw [text?, if_neg h, and_iff_right_of_imp fun hFits => absurd hFits h]
    exact iff_of_false (Option.some_ne_none text).symm h

/-- With all characters, a file can hold every text. -/
theorem text?_of_holds (h : ∀ c, encoding.holds c = true) (literal : Literal) :
    encoding.text? literal = literal.text? := by
  by_cases hText : literal.isText = true
  · obtain ⟨text, rfl⟩ := Literal.isText_iff.mp hText
    rw [text?, if_pos]
    rw [Literal.ofText, List.all_map, List.all_eq_true]
    exact fun c _ => h c
  · rw [text?, if_neg fun hFits => hText (isText_of_fits hFits), Literal.text?, if_neg hText]

end Encoding

end CallGraph
