import CallGraph.Text.Dotted
import Mathlib.Data.List.Basic

/-!
# Parts of texts and dotted names

A text is cut at every occurrence of a separator, and a dotted name is cut at its dots. Cutting undoes
joining: the parts of two names with a dot between them are the parts of the one and then those of the
other. Joining undoes cutting, so different texts have different parts. A name that is joined from
others starts as the first of them does, and a part without dots at its end can be read off again.

## Main definitions

* `Dotted.isIdentifier` — a name without dots that is not empty.
* `Dotted.isComplete` — a dotted name without empty parts.

## Main results

* `splitAtChar_injective` — a text is known from its pieces.
* `parts_append`, `join_parts` — the parts of a joined name, and the name joined from its parts.
* `token_of_join_eq`, `owner_of_join_eq` — what stands at the ends of a joined name.
* `splitLast?_spec`, `splitLast?_join` — cutting off the last part.
-/
namespace CallGraph

namespace Text

theorem splitChars_ne_nil (separator : Char) (text : List Char) :
    splitChars separator text ≠ [] := by
  induction text with
  | nil => simp [splitChars]
  | cons c rest ih =>
      rw [splitChars]
      split
      · simp
      · split <;> simp

/-- A text is cut at a separator, whatever stands around it. -/
theorem splitChars_append (separator : Char) (front back : List Char) :
    splitChars separator (front ++ separator :: back) =
      splitChars separator front ++ splitChars separator back := by
  induction front with
  | nil => simp [splitChars]
  | cons c rest ih =>
      by_cases hc : c = separator
      · simp [splitChars, hc, ih]
      · cases hRest : splitChars separator rest with
        | nil => exact absurd hRest (splitChars_ne_nil separator rest)
        | cons piece pieces =>
            rw [hRest] at ih
            simp [splitChars, hc, ih, hRest]

/-- No piece has a separator in it. -/
theorem not_mem_of_mem_splitChars {separator : Char} {text piece : List Char}
    (h : piece ∈ splitChars separator text) : separator ∉ piece := by
  induction text generalizing piece with
  | nil =>
      rw [List.mem_singleton.mp h]
      exact List.not_mem_nil
  | cons c rest ih =>
      rw [splitChars] at h
      split at h
      · rcases List.mem_cons.mp h with rfl | h
        · exact List.not_mem_nil
        · exact ih h
      · rename_i hc
        split at h
        · rename_i hNil
          exact absurd hNil (splitChars_ne_nil separator rest)
        · rename_i first others hRest
          rcases List.mem_cons.mp h with rfl | h
          · have hFirst := ih (by rw [hRest]; exact List.mem_cons_self)
            exact fun hMem => (List.mem_cons.mp hMem).elim (fun hEq => hc hEq.symm) hFirst
          · exact ih (by rw [hRest]; exact List.mem_cons_of_mem _ h)

theorem splitChars_of_not_mem {separator : Char} {text : List Char} (h : separator ∉ text) :
    splitChars separator text = [text] := by
  induction text with
  | nil => rfl
  | cons c rest ih =>
      have hc : c ≠ separator := fun hEq => h (hEq ▸ List.mem_cons_self)
      rw [splitChars, if_neg hc, ih fun hMem => h (List.mem_cons_of_mem _ hMem)]

theorem splitAtChar_append (separator : Char) {front middle back : String}
    (hMiddle : middle.toList = [separator]) :
    splitAtChar separator (front ++ middle ++ back) =
      splitAtChar separator front ++ splitAtChar separator back := by
  simp only [splitAtChar, String.toList_append, hMiddle, List.append_assoc, List.singleton_append]
  rw [splitChars_append, List.map_append]

theorem splitAtChar_of_not_mem {separator : Char} {text : String} (h : separator ∉ text.toList) :
    splitAtChar separator text = [text] := by
  simp [splitAtChar, splitChars_of_not_mem h]

/-- What was cut can be put together again. -/
theorem intercalate_splitChars (separator : Char) (text : List Char) :
    [separator].intercalate (splitChars separator text) = text := by
  induction text with
  | nil => rfl
  | cons c rest ih =>
      rw [splitChars]
      cases hRest : splitChars separator rest with
      | nil => exact absurd hRest (splitChars_ne_nil separator rest)
      | cons piece pieces =>
          rw [hRest] at ih
          split
          · rename_i hc
            rw [List.intercalate_cons_cons, ih, hc]
            rfl
          · cases pieces with
            | nil => simpa using ih
            | cons other others =>
                rw [List.intercalate_cons_cons] at ih ⊢
                rw [← ih]
                rfl

/-- The pieces have no characters of their own. -/
theorem mem_of_mem_splitChars {separator c : Char} {text piece : List Char}
    (hPiece : piece ∈ splitChars separator text) (hc : c ∈ piece) : c ∈ text := by
  induction text generalizing piece with
  | nil =>
      rw [List.mem_singleton.mp hPiece] at hc
      exact hc
  | cons first rest ih =>
      rw [splitChars] at hPiece
      split at hPiece
      · rcases List.mem_cons.mp hPiece with rfl | hPiece
        · exact absurd hc List.not_mem_nil
        · exact List.mem_cons_of_mem _ (ih hPiece hc)
      · cases hRest : splitChars separator rest with
        | nil => exact absurd hRest (splitChars_ne_nil separator rest)
        | cons other others =>
            rw [hRest] at hPiece ih
            rcases List.mem_cons.mp hPiece with rfl | hPiece
            · rcases List.mem_cons.mp hc with rfl | hc
              · exact List.mem_cons_self
              · exact List.mem_cons_of_mem _ (ih List.mem_cons_self hc)
            · exact List.mem_cons_of_mem _ (ih (List.mem_cons_of_mem _ hPiece) hc)

theorem splitAtChar_injective (separator : Char) :
    Function.Injective (splitAtChar separator) := by
  intro text text' h
  have hChars : splitChars separator text.toList = splitChars separator text'.toList :=
    List.map_injective_iff.mpr (fun _ _ hSame => String.ofList_injective hSame) h
  rw [← String.toList_inj, ← intercalate_splitChars separator text.toList, hChars,
    intercalate_splitChars]

theorem beforeLast?_eq_none {c : Char} {text : List Char} (h : c ∉ text) :
    beforeLast? [c] text = none := by
  induction text with
  | nil => rfl
  | cons first rest ih =>
      obtain ⟨hFirst, hRest⟩ := not_or.mp (List.mem_cons.not.mp h)
      simp [beforeLast?, ih hRest, hFirst]

/-- The last occurrence of a mark of one character. -/
theorem beforeLast?_append {c : Char} {front back : List Char} (h : c ∉ back) :
    beforeLast? [c] (front ++ c :: back) = some front := by
  have hNone : beforeLast? [c] back = none := beforeLast?_eq_none h
  induction front with
  | nil => simp [beforeLast?, hNone]
  | cons first rest ih => simp [beforeLast?, ih]

/-- A mark at the end of a text is its last occurrence, if the mark occurs in itself only once. -/
theorem beforeLast?_append_mark {mark : List Char} (h : beforeLast? mark mark = some [])
    (front : List Char) : beforeLast? mark (front ++ mark) = some front := by
  induction front with
  | nil => exact h
  | cons c rest ih => simp [beforeLast?, ih]

end Text

namespace Dotted

open Text

/-- A name without a dot that is not empty. -/
def isIdentifier (name : String) : Bool :=
  decide (name ≠ "") && !isDotted name

/-- A dotted name of which no part is empty. -/
def isComplete (name : String) : Bool :=
  (parts name).all fun part => decide (part ≠ "")

theorem parts_ne_nil (name : String) : parts name ≠ [] := by
  simp [parts, splitAtChar, splitChars_ne_nil]

theorem parts_append (front back : String) :
    parts (front ++ "." ++ back) = parts front ++ parts back := by
  simp only [parts, splitAtChar, String.toList_append]
  rw [show ".".toList = ['.'] from rfl, List.append_assoc, List.singleton_append,
    splitChars_append, List.map_append]

theorem parts_of_not_dotted {name : String} (h : isDotted name = false) : parts name = [name] := by
  have hMem : '.' ∉ name.toList := by simpa [isDotted, hasChar] using h
  simp [parts, splitAtChar, splitChars_of_not_mem hMem]

theorem not_dotted_of_mem_parts {name part : String} (h : part ∈ parts name) :
    isDotted part = false := by
  obtain ⟨piece, hPiece, rfl⟩ := List.mem_map.mp h
  simpa [isDotted, hasChar] using not_mem_of_mem_splitChars hPiece

/-- A name starts with the first part of what stands in front of a dot. -/
theorem first_append (front back : String) : first (front ++ "." ++ back) = first front := by
  unfold first
  rw [parts_append]
  cases hParts : parts front with
  | nil => exact absurd hParts (parts_ne_nil front)
  | cons part others => rfl

theorem first_join (name : String) (others : List String) :
    first (join (name :: others)) = first name := by
  cases others with
  | nil => rfl
  | cons other rest => exact first_append name _

theorem first_of_not_dotted {name : String} (h : isDotted name = false) : first name = name := by
  rw [first, parts_of_not_dotted h]
  rfl

theorem first_ne_of_isIdentifier {name : String} (h : isIdentifier name = true) :
    first name ≠ "" := by
  rw [isIdentifier, Bool.and_eq_true, Bool.not_eq_true'] at h
  rw [first_of_not_dotted h.2]
  exact of_decide_eq_true h.1

theorem first_mem_parts (name : String) : first name ∈ parts name := by
  unfold first
  cases hParts : parts name with
  | nil => exact absurd hParts (parts_ne_nil name)
  | cons part others => exact List.mem_cons_self

theorem first_ne_of_isComplete {name : String} (h : isComplete name = true) : first name ≠ "" :=
  of_decide_eq_true (List.all_eq_true.mp h _ (first_mem_parts name))

theorem ne_empty_of_first_ne {name : String} (h : first name ≠ "") : name ≠ "" := by
  rintro rfl
  exact h rfl

/-- A name that ends in a part without dots can be read in one way only. -/
theorem token_of_join_eq {owner owner' token token' : String} (h : isDotted token = false)
    (h' : isDotted token' = false) (hJoin : join [owner, token] = join [owner', token']) :
    token = token' := by
  have hParts := congrArg (fun name => (parts name).getLast?) hJoin
  have hLast : ∀ {o t : String}, isDotted t = false →
      (parts (join [o, t])).getLast? = some t := by
    intro o t ht
    show (parts (o ++ "." ++ t)).getLast? = some t
    rw [parts_append, parts_of_not_dotted ht]
    simp
  simp only [hLast h, hLast h'] at hParts
  exact Option.some_inj.mp hParts

/-- What the part in front of the last dot starts with, and what stands behind that dot. -/
theorem splitLast?_spec {name owner token : String} (h : splitLast? name = some (owner, token)) :
    first owner = first name ∧ isDotted token = false := by
  unfold splitLast? at h
  split at h
  · exact absurd h (by simp)
  · exact absurd h (by simp)
  · rename_i hNil hOne
    cases hParts : parts name with
    | nil => exact absurd hParts (parts_ne_nil name)
    | cons part others =>
        cases others with
        | nil => exact absurd hParts (hOne part)
        | cons other rest =>
            rw [hParts] at h
            cases h
            have hMem : ∀ p ∈ part :: other :: rest, isDotted p = false :=
              fun p hp => not_dotted_of_mem_parts (hParts ▸ hp)
            constructor
            · rw [List.dropLast_cons_of_ne_nil (by simp), first_join,
                first_of_not_dotted (hMem part List.mem_cons_self), first, hParts]
              rfl
            · refine hMem _ ?_
              rw [List.getLastD_eq_getLast?, List.getLast?_eq_some_getLast (by simp)]
              exact List.getLast_mem (List.cons_ne_nil _ _)

theorem toList_join_map (pieces : List (List Char)) :
    (join (pieces.map String.ofList)).toList = ['.'].intercalate pieces := by
  induction pieces with
  | nil => rfl
  | cons piece rest ih =>
      cases rest with
      | nil => simp [join, joinWith]
      | cons other others =>
          rw [List.intercalate_cons_cons, ← ih]
          simp [join, joinWith]

/-- A name is joined from its parts. -/
theorem join_parts (name : String) : join (parts name) = name := by
  rw [← String.toList_inj, parts, splitAtChar, toList_join_map, intercalate_splitChars]

/-- What stands in front of the last dot of a joined name, and what stands behind it. -/
theorem splitLast?_join (owner : String) {token : String} (h : isDotted token = false) :
    splitLast? (join [owner, token]) = some (owner, token) := by
  have hParts : parts (join [owner, token]) = parts owner ++ [token] := by
    show parts (owner ++ "." ++ token) = _
    rw [parts_append, parts_of_not_dotted h]
  unfold splitLast?
  rw [hParts]
  cases hOwner : parts owner with
  | nil => exact absurd hOwner (parts_ne_nil owner)
  | cons part others =>
      have hJoin : join (part :: others ++ [token]).dropLast = owner := by
        rw [List.dropLast_concat, ← hOwner, join_parts]
      have hLast : (part :: others ++ [token]).getLastD "" = token := by
        rw [List.getLastD_eq_getLast?, List.getLast?_concat]
        rfl
      cases others <;> exact congrArg some (Prod.ext hJoin hLast)

theorem last_mem_parts (name : String) : last name ∈ parts name := by
  unfold last
  rw [List.getLastD_eq_getLast?, List.getLast?_eq_some_getLast (parts_ne_nil name)]
  exact List.getLast_mem _

/-- A name that is its own last part has one part. -/
theorem first_of_last_eq {name : String} (h : last name = name) : first name = last name := by
  have hDots := not_dotted_of_mem_parts (last_mem_parts name)
  rw [h] at hDots ⊢
  exact first_of_not_dotted hDots

theorem owner_of_join_eq {owner owner' token : String}
    (h : join [owner, token] = join [owner', token]) : owner = owner' := by
  have hChars : (owner ++ "." ++ token).toList = (owner' ++ "." ++ token).toList :=
    congrArg String.toList h
  simp only [String.toList_append, List.append_assoc] at hChars
  exact String.toList_inj.mp (List.append_cancel_right hChars)

theorem not_dotted_of_isIdentifier {name : String} (h : isIdentifier name = true) :
    isDotted name = false := by
  rw [isIdentifier, Bool.and_eq_true, Bool.not_eq_true'] at h
  exact h.2

end Dotted

end CallGraph
