import CallGraph.Output.Dot
import CallGraph.Proofs.Names
import Mathlib.Data.List.Induction

/-!
# Values between quotes

In a DOT text labels and names stand between double quotes. A reader takes such a value up to the
first double quote that no backslash escapes; an escaped quote is a quote of the value. This module
says exactly which values it gets back from the texts of nodes, edges and clusters.

The reader is a machine with one bit of state, whether a backslash has just been read that may
escape a quote. Behind a value without quotes, or with all its quotes escaped, the bit says whether
the value ends in such a backslash (`readValue_escapeQuotes`). All else follows from this: where the
bit is set in front of the closing quote, or a quote comes too early, what is read differs from the
value at the first quote.

Labels and names of nodes and groups are written as they are, so the first quote in them ends them.
The labels of edges are written with their quotes escaped, but not their backslashes. The clusters
of subgroups are indented line by line, and this also changes values that hold line ends.

## Main definitions

* `readQuoted` — the reader.
* `Quoted` — a value with the way in which it is written, and `Quoted.Kept`, when it is read back.
* `Holds` — the values between the quotes of a text.

## Main results

* `readQuoted_iff`, `readQuoted_escapeQuotes_iff`, `readQuoted_indentBy_iff` — when values are read
  back.
* `holds_node`, `holds_edge`, `holds_cluster` — the values in the texts of a chart.
* `values_read_back_iff` — both together.
-/

namespace CallGraph

namespace Dot

/-! ## The reader -/

/-- The double quote. -/
def quote : CodePoint := .char '"'

/-- The backslash. -/
def backslash : CodePoint := .char '\\'

/-- The line end. -/
def lineEnd : CodePoint := .char '\n'

/-- A value that was read, behind a part read before it. -/
def behind (front : Literal) (read : Literal × Literal) : Literal × Literal :=
  (front ++ read.1, read.2)

/-- The value up to the closing quote, and what follows the quote. A backslash in front of a quote
escapes it; `escaping` says that the last point read was such a backslash. Readers differ in whether
two backslashes belong together, so that the second escapes nothing: `paired` chooses. -/
def readValue (paired : Bool) : Bool → Literal → Option (Literal × Literal)
  | _, [] => none
  | false, point :: rest =>
      if point = quote then some ([], rest)
      else if point = backslash then readValue paired true rest
      else (readValue paired false rest).map (behind [point])
  | true, point :: rest =>
      if point = quote then (readValue paired false rest).map (behind [quote])
      else if point = backslash then
        if paired then (readValue paired false rest).map (behind [backslash, backslash])
        else (readValue paired true rest).map (behind [backslash])
      else (readValue paired false rest).map (behind [backslash, point])

/-- The value behind an opening quote, up to the closing one, and what follows that. -/
def readQuoted (paired : Bool) (text : Literal) : Option (Literal × Literal) :=
  readValue paired false text

/-- Whether a value ends in a backslash that escapes what follows. -/
def endsEscaping (paired : Bool) (value : Literal) : Bool :=
  let run := (value.reverse.takeWhile (· = backslash)).length
  if paired then run % 2 = 1 else run ≠ 0

/-- Whether no quote of a value is behind a backslash that belongs to the next one. -/
def Separates (paired : Bool) (value : Literal) : Prop :=
  paired = true → ∀ front, front ++ [quote] <+: value → endsEscaping paired front = false

theorem endsEscaping_concat (paired : Bool) (value : Literal) (point : CodePoint) :
    endsEscaping paired (value ++ [point]) =
      (decide (point = backslash) && !(paired && endsEscaping paired value)) := by
  unfold endsEscaping
  rw [List.reverse_append, List.reverse_singleton, List.singleton_append]
  by_cases h : point = backslash
  · rw [List.takeWhile_cons_of_pos (by simp [h]), List.length_cons, decide_eq_true h]
    generalize (value.reverse.takeWhile (· = backslash)).length = run
    cases paired with
    | false => simp
    | true => rcases Nat.mod_two_eq_zero_or_one run with hRun | hRun <;> simp [hRun, Nat.add_mod]
  · simp [h]

theorem eq_concat_of_endsEscaping {paired : Bool} {value : Literal}
    (h : endsEscaping paired value = true) : value = value.dropLast ++ [backslash] := by
  rcases List.eq_nil_or_concat' value with rfl | ⟨front, point, rfl⟩
  · cases paired <;> exact absurd h (by decide)
  · rw [endsEscaping_concat, Bool.and_eq_true, decide_eq_true_iff] at h
    rw [List.dropLast_concat, h.1]

theorem separates_concat {paired : Bool} {value : Literal} {point : CodePoint} :
    Separates paired (value ++ [point]) ↔ Separates paired value ∧
      (paired = true → point = quote → endsEscaping paired value = false) := by
  constructor
  · refine fun h => ⟨fun hPaired front hFront => h hPaired front ?_, ?_⟩
    · exact hFront.trans (List.prefix_append _ _)
    · rintro hPaired rfl
      exact h hPaired value (List.prefix_refl _)
  · rintro ⟨hValue, hPoint⟩ hPaired front hFront
    rcases List.prefix_concat_iff.mp hFront with hSame | hFront
    · obtain ⟨rfl, hQuote⟩ := List.append_inj' hSame rfl
      exact hPoint hPaired (List.cons.inj hQuote).1.symm
    · exact hValue hPaired front hFront

/-- A value without quotes separates all of them. -/
theorem separates_of_not_mem {paired : Bool} {value : Literal} (h : quote ∉ value) :
    Separates paired value := by
  intro _ front hFront
  exact absurd (hFront.subset (List.mem_append_right _ List.mem_cons_self)) h

/-- Where quotes are not separated, there is a first one that is not. -/
theorem separates_or_exists (paired : Bool) (value : Literal) : Separates paired value ∨
    ∃ front back, value = front ++ quote :: back ∧ paired = true ∧
      endsEscaping paired front = true ∧ Separates paired front := by
  induction value using List.reverseRecOn with
  | nil => exact .inl (separates_of_not_mem List.not_mem_nil)
  | append_singleton value point ih =>
      rcases ih with hValue | ⟨front, back, rfl, hFront⟩
      · by_cases hPoint : paired = true ∧ point = quote ∧ endsEscaping paired value = true
        · exact .inr ⟨value, [], by rw [hPoint.2.1], hPoint.1, hPoint.2.2, hValue⟩
        · refine .inl (separates_concat.mpr ⟨hValue, fun hPaired hQuote => ?_⟩)
          exact Bool.eq_false_iff.mpr fun hEnds => hPoint ⟨hPaired, hQuote, hEnds⟩
      · exact .inr ⟨front, back ++ [point], by simp, hFront⟩

/-! ## Reading what is written -/

theorem escapeQuotes_append (front back : Literal) :
    escapeQuotes (front ++ back) = escapeQuotes front ++ escapeQuotes back :=
  List.flatMap_append

theorem escapeQuotes_quote : escapeQuotes [quote] = [backslash, quote] :=
  rfl

theorem escapeQuotes_of_ne {point : CodePoint} (h : point ≠ quote) :
    escapeQuotes [point] = [point] := by
  rw [escapeQuotes, List.flatMap_singleton]
  exact if_neg h

theorem escapeQuotes_of_not_mem {value : Literal} (h : quote ∉ value) :
    escapeQuotes value = value := by
  induction value with
  | nil => rfl
  | cons point value ih =>
      rw [List.mem_cons, not_or] at h
      rw [← List.singleton_append, escapeQuotes_append, escapeQuotes_of_ne (Ne.symm h.1), ih h.2]

theorem backslash_ne_quote : backslash ≠ quote := by
  decide

theorem behind_behind (front next : Literal) :
    behind front ∘ behind next = behind (front ++ next) := by
  funext read
  exact congrArg (·, read.2) (List.append_assoc _ _ _).symm

/-- Reading a value with escaped quotes goes on behind it. A backslash at the end that may escape
what follows is held back. -/
theorem readValue_escapeQuotes {paired : Bool} {value : Literal} (h : Separates paired value)
    (rest : Literal) :
    readValue paired false (escapeQuotes value ++ rest) =
      (readValue paired (endsEscaping paired value) rest).map
        (behind (if endsEscaping paired value then value.dropLast else value)) := by
  induction value using List.reverseRecOn generalizing rest with
  | nil =>
      have hEnds : endsEscaping paired [] = false := by cases paired <;> rfl
      rw [hEnds]
      exact Option.map_id'.symm
  | append_singleton value point ih =>
      rw [separates_concat] at h
      rw [escapeQuotes_append, List.append_assoc, ih h.1, endsEscaping_concat,
        List.dropLast_concat]
      cases hEnds : endsEscaping paired value with
      | false =>
          by_cases hQuote : point = quote
          · subst hQuote
            simp [escapeQuotes_quote, readValue, backslash_ne_quote, backslash_ne_quote.symm,
              behind_behind]
          · rw [escapeQuotes_of_ne hQuote]
            by_cases hBackslash : point = backslash
            · simp [hBackslash, readValue, backslash_ne_quote]
            · simp [hQuote, hBackslash, readValue, behind_behind]
      | true =>
          -- The backslash that was held back comes in front of what is read next.
          have hHeld : ∀ tail, value.dropLast ++ backslash :: tail = value ++ tail := by
            intro tail
            conv_rhs => rw [eq_concat_of_endsEscaping hEnds, List.append_assoc]
            rfl
          by_cases hQuote : point = quote
          · subst hQuote
            have hSingle : paired = false := Bool.eq_false_iff.mpr fun hPaired =>
              Bool.false_ne_true ((h.2 hPaired rfl).symm.trans hEnds)
            simp [hSingle, escapeQuotes_quote, readValue, backslash_ne_quote,
              backslash_ne_quote.symm, behind_behind, hHeld]
          · rw [escapeQuotes_of_ne hQuote]
            by_cases hBackslash : point = backslash
            · cases paired <;>
                simp [hBackslash, readValue, backslash_ne_quote, behind_behind, hHeld]
            · simp [hQuote, hBackslash, readValue, behind_behind, hHeld]

/-- Once a backslash of the value is taken to escape a quote, the value is lost. -/
theorem dropLast_append_quote_ne {paired : Bool} {value : Literal}
    (h : endsEscaping paired value = true) (tail more : Literal) :
    value.dropLast ++ quote :: tail ≠ value ++ more := by
  conv_rhs => rw [eq_concat_of_endsEscaping h, List.append_assoc]
  intro hSame
  exact backslash_ne_quote (List.cons.inj (List.append_cancel_left hSame)).1.symm

/-- Behind an escaping backslash a quote belongs to the value. -/
theorem exists_of_map_readValue_quote {paired : Bool} {front after : Literal}
    {read : Literal × Literal}
    (h : (readValue paired true (quote :: after)).map (behind front) = some read) :
    ∃ tail, read.1 = front ++ quote :: tail := by
  rw [readValue, if_pos rfl, Option.map_map, Option.map_eq_some_iff] at h
  obtain ⟨found, -, rfl⟩ := h
  exact ⟨found.1, rfl⟩

theorem readValue_pair (rest : Literal) :
    readValue true true (backslash :: quote :: rest) = some ([backslash, backslash], rest) := by
  simp [readValue, backslash_ne_quote, behind]

/-- A value with escaped quotes is read back if and only if it does not end in an escaping backslash
and no backslash of its own takes up one that escapes a quote. -/
theorem readQuoted_escapeQuotes_iff {paired : Bool} {value after : Literal} :
    readQuoted paired (escapeQuotes value ++ quote :: after) = some (value, after) ↔
      endsEscaping paired value = false ∧ Separates paired value := by
  unfold readQuoted
  rcases separates_or_exists paired value with hValue | ⟨front, back, rfl, rfl, hEnds, hFront⟩
  · rw [readValue_escapeQuotes hValue]
    cases hEnds : endsEscaping paired value with
    | false => simp [readValue, behind, hValue]
    | true =>
        refine iff_of_false (fun h => ?_) (fun h => Bool.noConfusion h.1)
        obtain ⟨tail, hTail⟩ := exists_of_map_readValue_quote h
        exact dropLast_append_quote_ne hEnds tail [] (hTail.symm.trans (List.append_nil _).symm)
  · refine iff_of_false (fun h => ?_) (fun h => ?_)
    · -- The two backslashes in front of the quote are a pair, so the value ends here.
      rw [escapeQuotes_append, List.append_assoc, readValue_escapeQuotes hFront, hEnds,
        ← List.singleton_append, escapeQuotes_append, escapeQuotes_quote, List.append_assoc,
        List.cons_append, List.singleton_append, readValue_pair] at h
      have hRest := congrArg (fun read => read.2.length) (Option.some.inj h)
      simp only [behind, List.length_append, List.length_cons] at hRest
      omega
    · have hSeparated := h.2 rfl front ⟨back, by rw [List.append_assoc]; rfl⟩
      exact Bool.false_ne_true (hSeparated.symm.trans hEnds)

/-- What is written with a quote in the same place, escaped by nothing, is not read back. -/
theorem readQuoted_ne_of_quote {paired : Bool} {front value written rest : Literal}
    (hFront : quote ∉ front) :
    readQuoted paired (front ++ quote :: written) ≠ some (front ++ quote :: value, rest) := by
  intro h
  have hSeparates : Separates paired front := separates_of_not_mem hFront
  have hRead := readValue_escapeQuotes hSeparates (quote :: written)
  rw [escapeQuotes_of_not_mem hFront] at hRead
  rw [readQuoted, hRead] at h
  cases hEnds : endsEscaping paired front with
  | false =>
      rw [hEnds, readValue, if_pos rfl] at h
      have hValue := congrArg (fun read => read.1.length) (Option.some.inj h)
      simp [behind] at hValue
  | true =>
      rw [hEnds] at h
      obtain ⟨tail, hTail⟩ := exists_of_map_readValue_quote h
      exact dropLast_append_quote_ne hEnds tail _ hTail.symm

/-- A value that is written as it is is read back if and only if it holds no quote and does not
end in an escaping backslash. -/
theorem readQuoted_iff {paired : Bool} {value after : Literal} :
    readQuoted paired (value ++ quote :: after) = some (value, after) ↔
      quote ∉ value ∧ endsEscaping paired value = false := by
  by_cases hQuote : quote ∈ value
  · obtain ⟨front, back, rfl, hFront⟩ := List.eq_append_cons_of_mem hQuote
    rw [List.append_assoc, List.cons_append]
    exact iff_of_false (readQuoted_ne_of_quote hFront) fun h => h.1 hQuote
  · have hRead := @readQuoted_escapeQuotes_iff paired value after
    rw [escapeQuotes_of_not_mem hQuote] at hRead
    rw [hRead]
    exact ⟨fun h => ⟨hQuote, h.1⟩, fun h => ⟨h.2, separates_of_not_mem hQuote⟩⟩

/-! ## Indented values -/

/-- The blanks of a number of levels. -/
def blanks (level : Nat) : Literal :=
  List.replicate (4 * level) (.char ' ')

/-- A text in which more blanks follow each line end, four for each level. -/
def indentBy (level : Nat) (text : Literal) : Literal :=
  text.flatMap fun point => if point = lineEnd then lineEnd :: blanks level else [point]

theorem indentBy_append (level : Nat) (front back : Literal) :
    indentBy level (front ++ back) = indentBy level front ++ indentBy level back :=
  List.flatMap_append

theorem indentBy_lineEnd (level : Nat) (text : Literal) :
    indentBy level (lineEnd :: text) = lineEnd :: (blanks level ++ indentBy level text) :=
  rfl

theorem indentBy_of_not_mem {level : Nat} {text : Literal} (h : lineEnd ∉ text) :
    indentBy level text = text := by
  induction text with
  | nil => rfl
  | cons point text ih =>
      rw [List.mem_cons, not_or] at h
      rw [← List.singleton_append, indentBy_append, ih h.2, indentBy, List.flatMap_singleton,
        if_neg (Ne.symm h.1)]

theorem indentBy_zero (text : Literal) : indentBy 0 text = text := by
  have hSame : (fun point => if point = lineEnd then lineEnd :: blanks 0 else [point]) =
      fun point : CodePoint => [point] := by
    funext point
    split
    · rename_i h
      rw [h]
      rfl
    · rfl
  rw [indentBy, hSame, List.flatMap_singleton']

theorem lineEnd_not_mem_blanks (level : Nat) : lineEnd ∉ blanks level := fun h =>
  absurd (List.eq_of_mem_replicate h) (by decide)

theorem quote_not_mem_blanks (level : Nat) : quote ∉ blanks level := fun h =>
  absurd (List.eq_of_mem_replicate h) (by decide)

theorem blanks_append (outer inner : Nat) :
    blanks outer ++ blanks inner = blanks (outer + inner) := by
  rw [blanks, blanks, List.replicate_append_replicate, blanks, Nat.mul_add]

/-- Two indentations are one. -/
theorem indentBy_indentBy (outer inner : Nat) (text : Literal) :
    indentBy outer (indentBy inner text) = indentBy (outer + inner) text := by
  induction text with
  | nil => rfl
  | cons point text ih =>
      by_cases h : point = lineEnd
      · rw [h, indentBy_lineEnd, indentBy_lineEnd, indentBy_append,
          indentBy_of_not_mem (lineEnd_not_mem_blanks inner), ih, indentBy_lineEnd,
          ← List.append_assoc, blanks_append]
      · have hPoint : lineEnd ∉ [point] := fun hMem => h (List.mem_singleton.mp hMem).symm
        rw [← List.singleton_append, indentBy_append, indentBy_append, indentBy_append, ih,
          indentBy_of_not_mem hPoint, indentBy_of_not_mem hPoint, indentBy_of_not_mem hPoint]

/-- Reading goes on behind a text without quotes that does not end in an escaping backslash. -/
theorem readValue_append {paired : Bool} {front : Literal} (hQuote : quote ∉ front)
    (hEnds : endsEscaping paired front = false) (rest : Literal) :
    readValue paired false (front ++ rest) = (readValue paired false rest).map (behind front) := by
  have hSeparates : Separates paired front := separates_of_not_mem hQuote
  have hRead := readValue_escapeQuotes hSeparates rest
  rw [escapeQuotes_of_not_mem hQuote, hEnds] at hRead
  exact hRead

theorem endsEscaping_blanks {level : Nat} (h : level ≠ 0) (paired : Bool) (front : Literal) :
    endsEscaping paired (front ++ blanks level) = false := by
  obtain ⟨count, hCount⟩ : ∃ count, 4 * level = count + 1 := ⟨4 * level - 1, by omega⟩
  rw [blanks, hCount, List.replicate_succ', ← List.append_assoc, endsEscaping_concat]
  rfl

/-- An indented text is not read as itself less one indentation: the blanks that are missing in
front would have to be missing in what follows as well. -/
theorem ne_of_readValue_indentBy {paired : Bool} {level : Nat} (h : level ≠ 0)
    {text rest value after : Literal}
    (hRead : readValue paired false (indentBy level text ++ rest) = some (value, after)) :
    text ≠ blanks level ++ value := by
  induction hLength : text.length using Nat.strongRecOn generalizing text value with
  | ind length ih =>
      rintro rfl
      rw [indentBy_append, indentBy_of_not_mem (lineEnd_not_mem_blanks level), List.append_assoc,
        readValue_append (quote_not_mem_blanks level) (endsEscaping_blanks h paired []),
        Option.map_eq_some_iff] at hRead
      obtain ⟨read, hRead, hSame⟩ := hRead
      obtain ⟨hValue, hAfter⟩ := Prod.mk.inj hSame
      have hShorter : value.length < length := by
        rw [← hLength, List.length_append, blanks, List.length_replicate]
        omega
      refine ih _ hShorter (hRead.trans ?_) rfl hValue.symm
      rw [← hAfter]

/-- A value that is written with its lines indented is read back if and only if it is read back as
it is and nothing is indented. -/
theorem readQuoted_indentBy_iff {paired : Bool} {level : Nat} {value after : Literal} :
    readQuoted paired (indentBy level value ++ quote :: after) = some (value, after) ↔
      quote ∉ value ∧ endsEscaping paired value = false ∧ (level = 0 ∨ lineEnd ∉ value) := by
  by_cases hLevel : level = 0
  · rw [hLevel, indentBy_zero, readQuoted_iff]
    simp
  by_cases hLines : lineEnd ∈ value
  · refine iff_of_false (fun h => ?_) fun h => h.2.2.elim hLevel fun hNone => hNone hLines
    obtain ⟨line, others, rfl, hLine⟩ := List.eq_append_cons_of_mem hLines
    rw [indentBy_append, indentBy_of_not_mem hLine, indentBy_lineEnd, List.append_assoc] at h
    by_cases hQuote : quote ∈ line
    · obtain ⟨front, back, rfl, hFront⟩ := List.eq_append_cons_of_mem hQuote
      rw [List.append_assoc, List.append_assoc, List.cons_append, List.cons_append] at h
      exact readQuoted_ne_of_quote hFront h
    · have hFront : quote ∉ line ++ [lineEnd] ++ blanks level := by
        simp [hQuote, quote_not_mem_blanks, show quote ≠ lineEnd by decide]
      have hText : line ++ (lineEnd :: (blanks level ++ indentBy level others) ++ quote :: after) =
          (line ++ [lineEnd] ++ blanks level) ++ (indentBy level others ++ quote :: after) := by
        simp
      rw [hText, readQuoted, readValue_append hFront (endsEscaping_blanks hLevel paired _),
        Option.map_eq_some_iff] at h
      obtain ⟨read, hRead, hSame⟩ := h
      obtain ⟨hValue, -⟩ := Prod.mk.inj hSame
      refine ne_of_readValue_indentBy hLevel hRead ?_
      simpa using hValue.symm
  · rw [indentBy_of_not_mem hLines, readQuoted_iff]
    simp [hLines]

/-! ## Parts of a text -/

/-- A value between quotes: as it is, with its lines indented by a number of levels, or with its
quotes escaped. -/
inductive Quoted
  | raw (level : Nat) (value : Literal)
  | escaped (value : Literal)

namespace Quoted

/-- The value that is meant. -/
def value : Quoted → Literal
  | raw _ value => value
  | escaped value => value

/-- What stands between the quotes. -/
def written : Quoted → Literal
  | raw level value => indentBy level value
  | escaped value => escapeQuotes value

/-- When a value is read back. -/
def Kept (paired : Bool) : Quoted → Prop
  | raw level value =>
      quote ∉ value ∧ endsEscaping paired value = false ∧ (level = 0 ∨ lineEnd ∉ value)
  | escaped value => endsEscaping paired value = false ∧ Separates paired value

theorem readQuoted_written_iff {paired : Bool} {quoted : Quoted} {after : Literal} :
    readQuoted paired (quoted.written ++ quote :: after) = some (quoted.value, after) ↔
      quoted.Kept paired := by
  cases quoted with
  | raw level value => exact readQuoted_indentBy_iff
  | escaped value => exact readQuoted_escapeQuotes_iff

end Quoted

/-- A part of a text: what stands outside quotes, or a value between quotes. -/
inductive Part
  | bare (text : Literal)
  | quoted (value : Quoted)

namespace Part

/-- The text of a part. -/
def text : Part → Literal
  | bare text => text
  | quoted value => quote :: (value.written ++ [quote])

/-- The value between quotes that a part is. -/
def quoted? : Part → Option Quoted
  | bare _ => none
  | quoted value => some value

/-- The text of parts. -/
def spell (parts : List Part) : Literal :=
  parts.flatMap text

end Part

/-- A text holds these values between quotes, in order, and no other quotes. -/
def Holds (text : Literal) (values : List Quoted) : Prop :=
  ∃ parts : List Part, Part.spell parts = text ∧ parts.filterMap Part.quoted? = values ∧
    ∀ outside, Part.bare outside ∈ parts → quote ∉ outside

/-- A value between quotes behind a text. -/
def assigned (key : Literal) (value : Quoted) : Literal :=
  key ++ quote :: (value.written ++ [quote])

namespace Holds

theorem append {front back : Literal} {values more : List Quoted} (hFront : Holds front values)
    (hBack : Holds back more) : Holds (front ++ back) (values ++ more) := by
  obtain ⟨parts, rfl, rfl, hParts⟩ := hFront
  obtain ⟨others, rfl, rfl, hOthers⟩ := hBack
  refine ⟨parts ++ others, List.flatMap_append, List.filterMap_append, fun outside h => ?_⟩
  exact (List.mem_append.mp h).elim (hParts outside) (hOthers outside)

theorem bare {text : Literal} (h : quote ∉ text) : Holds text [] := by
  refine ⟨[.bare text], List.flatMap_singleton _ _, rfl, fun outside hMem => ?_⟩
  cases List.mem_singleton.mp hMem
  exact h

theorem assigned {key : Literal} (h : quote ∉ key) (value : Quoted) :
    Holds (assigned key value) [value] := by
  refine (bare h).append ⟨[.quoted value], List.flatMap_singleton _ _, rfl, ?_⟩
  exact fun outside hMem => Part.noConfusion (List.mem_singleton.mp hMem)

theorem flatMap {α : Type _} {items : List α} {text : α → Literal} {values : α → List Quoted}
    (h : ∀ item ∈ items, Holds (text item) (values item)) :
    Holds (items.flatMap text) (items.flatMap values) := by
  induction items with
  | nil => exact bare List.not_mem_nil
  | cons item items ih =>
      rw [List.flatMap_cons, List.flatMap_cons]
      exact (h item List.mem_cons_self).append
        (ih fun other hOther => h other (List.mem_cons_of_mem _ hOther))

end Holds

/-- A text as a value. -/
def plain (text : String) : Quoted :=
  .raw 0 (Literal.ofText text)

theorem written_plain (text : String) : (plain text).written = Literal.ofText text :=
  indentBy_zero _

theorem written_escaped (label : Literal) : (Quoted.escaped label).written = escapeQuotes label :=
  rfl

/-! ## Identifiers -/

theorem quote_not_mem_ofText {text : String} : quote ∉ Literal.ofText text ↔ '"' ∉ text.toList := by
  rw [Literal.ofText, quote]
  simp

theorem mem_toDigits {number : Nat} {c : Char} (h : c ∈ Nat.toDigits 16 number) :
    ∃ digit < 16, c = digit.digitChar := by
  induction number using Nat.strongRecOn with
  | ind number ih =>
      rcases Nat.lt_or_ge number 16 with hSmall | hLarge
      · rw [Nat.toDigits_of_lt_base hSmall, List.mem_singleton] at h
        exact ⟨number, hSmall, h⟩
      · rw [Nat.toDigits_of_base_le (by decide) hLarge, List.mem_append, List.mem_singleton] at h
        rcases h with h | h
        · exact ih (number / 16) (Nat.div_lt_self (by omega) (by decide)) h
        · exact ⟨number % 16, Nat.mod_lt _ (by decide), h⟩

theorem quote_not_mem_hex (width number : Nat) : '"' ∉ (Text.hex width number).toList := by
  rw [Text.hex, String.toList_ofList, Text.hexDigits, List.mem_append, not_or]
  constructor
  · exact fun h => absurd (List.eq_of_mem_replicate h) (by decide)
  · intro h
    obtain ⟨digit, hDigit, hSame⟩ := mem_toDigits h
    have hNone : ∀ digit < 16, '"' ≠ Nat.digitChar digit := by decide
    exact hNone digit hDigit hSame

theorem quote_not_mem_nodeId (numbering : Numbering) (id : NodeId) :
    '"' ∉ (numbering.nodeId id).toList := by
  rw [Numbering.nodeId, String.toList_append, List.mem_append, not_or]
  exact ⟨by decide, quote_not_mem_hex 8 _⟩

theorem quote_not_mem_groupId (numbering : Numbering) (id : GroupId) :
    '"' ∉ (numbering.groupId id).toList := by
  rw [Numbering.groupId, String.toList_append, List.mem_append, not_or]
  exact ⟨by decide, quote_not_mem_hex 8 _⟩

/-! ## Nodes and edges -/

theorem holds_node {graph : Graph} {numbering : Numbering} {id : NodeId} {name : String}
    (h : graph.name id = .ok name) : ∃ text, node graph numbering id = .ok text ∧
      Holds (Literal.ofText text) [plain (graph.label id), plain name, plain "rect",
        plain "rounded,filled", plain (colorOf (graph.node id))] := by
  rw [node, h]
  refine ⟨_, rfl, ?_⟩
  have hText : Literal.ofText (numbering.nodeId id ++ " [label=\"" ++ graph.label id ++
      "\" name=\"" ++ name ++ "\" shape=\"rect\" style=\"rounded,filled\" fillcolor=\"" ++
      colorOf (graph.node id) ++ "\" ]") =
        assigned (Literal.ofText (numbering.nodeId id ++ " [label=")) (plain (graph.label id)) ++
        assigned (Literal.ofText " name=") (plain name) ++
        assigned (Literal.ofText " shape=") (plain "rect") ++
        assigned (Literal.ofText " style=") (plain "rounded,filled") ++
        assigned (Literal.ofText " fillcolor=") (plain (colorOf (graph.node id))) ++
        Literal.ofText " ]" := by
    simp [assigned, written_plain, Literal.ofText, quote]
  have hKey : quote ∉ Literal.ofText (numbering.nodeId id ++ " [label=") := by
    rw [quote_not_mem_ofText, String.toList_append, List.mem_append, not_or]
    exact ⟨quote_not_mem_nodeId numbering id, by decide⟩
  rw [hText]
  exact (((((Holds.assigned hKey _).append (.assigned (by decide) _)).append
    (.assigned (by decide) _)).append (.assigned (by decide) _)).append
    (.assigned (by decide) _)).append (.bare (by decide))

theorem holds_edge (numbering : Numbering) (link : Edge) :
    Holds (edge numbering link) ([plain (edgeColors.getD
        (numbering.node link.source % edgeColors.length) ""), plain "2"] ++
      (link.label.filter (· ≠ [])).toList.map .escaped) := by
  generalize hColor : edgeColors.getD (numbering.node link.source % edgeColors.length) "" = color
  have hKey : quote ∉ Literal.ofText (numbering.nodeId link.source ++ " -> " ++
      numbering.nodeId link.target ++ " [color=") := by
    rw [quote_not_mem_ofText]
    simp [quote_not_mem_nodeId]
  have hFront := (Holds.assigned hKey (plain color)).append
    (.assigned (show quote ∉ Literal.ofText " penwidth=" by decide) (plain "2"))
  have hEnd : Holds (Literal.ofText "]") [] := .bare (by decide)
  unfold edge
  rw [hColor]
  cases link.label.filter (· ≠ []) with
  | none =>
      have hAll := hFront.append hEnd
      simpa [Dot.assigned, written_plain, Literal.ofText, quote] using hAll
  | some label =>
      have hNone : quote ∉ Literal.ofText " label=" := by decide
      have hLabel := Holds.assigned hNone (.escaped label)
      have hAll := (hFront.append hLabel).append hEnd
      simpa [Dot.assigned, written_plain, written_escaped, Literal.ofText, quote] using hAll

/-! ## Clusters -/

/-- The groups of a cluster, each with the number of clusters around it. -/
def levelsBelow (graph : Graph) : Nat → Nat → GroupId → List (Nat × GroupId)
  | 0, _, _ => []
  | depth + 1, level, id =>
      (level, id) :: (graph.group id).subgroups.flatMap (levelsBelow graph depth (level + 1))

theorem map_snd_levelsBelow (graph : Graph) (depth level : Nat) (id : GroupId) :
    (levelsBelow graph depth level id).map Prod.snd = graph.groupsBelow depth id := by
  induction depth generalizing level id with
  | zero => rfl
  | succ depth ih =>
      rw [levelsBelow, List.map_cons, List.map_flatMap, Graph.groupsBelow]
      simp only [ih]

/-- A text with four more blanks behind each line end. -/
def indented (text : String) : String :=
  String.ofList (text.toList.flatMap fun c =>
    if c = '\n' then ['\n', ' ', ' ', ' ', ' '] else [c])

theorem ofText_indented (text : String) :
    Literal.ofText (indented text) = indentBy 1 (Literal.ofText text) := by
  rw [indented, Literal.ofText, String.toList_ofList, indentBy, Literal.ofText, List.map_flatMap,
    List.flatMap_map]
  congr 1
  funext c
  by_cases h : c = '\n'
  · subst h
    rfl
  · have hPoint : CodePoint.char c ≠ lineEnd := fun hSame => h (CodePoint.char.inj hSame)
    rw [if_neg h, if_neg hPoint]
    rfl

theorem indented_append (front back : String) :
    indented (front ++ back) = indented front ++ indented back := by
  rw [indented, String.toList_append, List.flatMap_append, String.ofList_append]
  rfl

theorem joinWith_append_cons (separator front text : String) (texts : List String) :
    Text.joinWith separator ((front ++ text) :: texts) =
      front ++ Text.joinWith separator (text :: texts) := by
  cases texts with
  | nil => rfl
  | cons next texts => simp only [Text.joinWith, String.append_assoc]

/-- Indenting the lines of a text one by one. -/
theorem joinWith_splitAtChar (text : String) :
    Text.joinWith "\n" ((Text.splitAtChar '\n' text).map ("    " ++ ·)) =
      "    " ++ indented text := by
  rw [Text.splitAtChar, indented]
  generalize text.toList = chars
  induction chars with
  | nil => rfl
  | cons c chars ih =>
      obtain ⟨line, lines, hLines⟩ := List.exists_cons_of_ne_nil (Text.splitChars_ne_nil '\n' chars)
      rw [hLines, List.map_cons, List.map_cons] at ih
      rw [Text.splitChars, hLines, List.flatMap_cons, String.ofList_append]
      by_cases hc : c = '\n'
      · rw [if_pos hc, if_pos hc, List.map_cons, List.map_cons, List.map_cons, List.map_cons,
          Text.joinWith, ih, String.append_assoc, String.append_assoc]
        · rfl
        · exact List.cons_ne_nil _ _
      · rw [joinWith_append_cons, String.append_right_inj] at ih
        have hLine : String.ofList (c :: line) = String.ofList [c] ++ String.ofList line := by
          rw [← String.ofList_append, List.singleton_append]
        rw [if_neg hc, if_neg hc, List.map_cons, List.map_cons, joinWith_append_cons, hLine,
          joinWith_append_cons, ih]

/-- Stripping takes away the blanks around a text. -/
theorem strip_of_ends {text : String} {first last : Char} {middle : List Char}
    (hText : text.toList = first :: (middle ++ [last])) (hFirst : isBlank first = false)
    (hLast : isBlank last = false) : strip ("    " ++ (text ++ "\n    ")) = text := by
  have hFront : ("    " ++ (text ++ "\n    ")).toList.dropWhile isBlank =
      text.toList ++ "\n    ".toList := by
    rw [String.toList_append, String.toList_append,
      List.dropWhile_append_of_pos (List.all_eq_true.mp rfl), hText, List.cons_append,
      List.dropWhile_cons_of_neg (by simp [hFirst])]
  have hBack : (text.toList ++ "\n    ".toList).reverse.dropWhile isBlank =
      text.toList.reverse := by
    rw [List.reverse_append, List.dropWhile_append_of_pos (List.all_eq_true.mp rfl), hText,
      List.reverse_cons, List.reverse_append, List.reverse_singleton, List.singleton_append,
      List.cons_append, List.dropWhile_cons_of_neg (by simp [hLast])]
  rw [strip, hFront, hBack, List.reverse_reverse, String.ofList_toList]

/-- Indenting a text without blanks at its ends that is closed by a line end. -/
theorem indent_of_ends {text : String} {first last : Char} {middle : List Char}
    (hText : text.toList = first :: (middle ++ [last])) (hFirst : isBlank first = false)
    (hLast : isBlank last = false) : indent (text ++ "\n") = "    " ++ indented text ++ "\n" := by
  have hLine : ∀ {c : Char}, isBlank c = false → c ≠ '\n' := by
    rintro _ hc rfl
    exact absurd hc (by decide)
  have hIndented : (indented text).toList = first :: (middle.flatMap (fun c =>
      if c = '\n' then ['\n', ' ', ' ', ' ', ' '] else [c]) ++ [last]) := by
    rw [indented, String.toList_ofList, hText, List.flatMap_cons, List.flatMap_append,
      List.flatMap_singleton, if_neg (hLine hFirst), if_neg (hLine hLast), List.singleton_append]
  rw [indent, joinWith_splitAtChar, indented_append]
  exact congrArg (fun stripped => "    " ++ stripped ++ "\n")
    (strip_of_ends hIndented hFirst hLast)

variable {graph : Graph} {numbering : Numbering}

/-- The line that lists the nodes of a group. -/
def nodesLine (graph : Graph) (numbering : Numbering) (id : GroupId) : String :=
  if (graph.group id).nodes.isEmpty then ""
  else "    " ++ Text.joinWith " " ((graph.group id).nodes.map numbering.nodeId) ++ ";\n"

/-- The cluster of a group in front of the clusters inside it. -/
def clusterFront (graph : Graph) (numbering : Numbering) (id : GroupId) : String :=
  "subgraph " ++ numbering.groupId id ++ " \x7b\n" ++ nodesLine graph numbering id
    ++ "    label=\"" ++ graph.groupLabel id ++ "\";\n"
    ++ "    name=\"" ++ (graph.group id).token ++ "\";\n"
    ++ "    style=\"filled\";\n"
    ++ "    graph[style=dotted];\n"

/-- The cluster of a group without the line end that closes it. -/
def clusterBody (graph : Graph) (numbering : Numbering) : Nat → GroupId → String
  | 0, _ => ""
  | depth + 1, id => clusterFront graph numbering id
      ++ String.join ((graph.group id).subgroups.map fun subgroup =>
        "    " ++ indented (clusterBody graph numbering depth subgroup) ++ "\n")
      ++ "\x7d;"

theorem head_clusterFront (graph : Graph) (numbering : Numbering) (id : GroupId) :
    ∃ middle, (clusterFront graph numbering id).toList = 's' :: middle := by
  delta clusterFront
  simp only [String.toList_append, List.append_assoc]
  exact ⟨_, rfl⟩

theorem clusterTo_succ (depth : Nat) (id : GroupId) :
    clusterTo graph numbering (depth + 1) id = clusterFront graph numbering id
      ++ String.join ((graph.group id).subgroups.map fun subgroup =>
        indent (clusterTo graph numbering depth subgroup))
      ++ "\x7d;\n" :=
  rfl

theorem clusterTo_succ_of {depth : Nat} (id : GroupId)
    (h : ∀ subgroup, indent (clusterTo graph numbering depth subgroup) =
      "    " ++ indented (clusterBody graph numbering depth subgroup) ++ "\n") :
    clusterTo graph numbering (depth + 1) id =
      clusterBody graph numbering (depth + 1) id ++ "\n" := by
  have hEnd : "\x7d;\n" = "\x7d;" ++ "\n" := rfl
  rw [clusterTo_succ, clusterBody, hEnd, ← String.append_assoc, funext h]

theorem indent_clusterTo (depth : Nat) (id : GroupId) :
    indent (clusterTo graph numbering depth id) =
      "    " ++ indented (clusterBody graph numbering depth id) ++ "\n" := by
  induction depth generalizing id with
  | zero =>
      change indent "" = "    " ++ indented "" ++ "\n"
      decide
  | succ depth ih =>
      obtain ⟨front, hFront⟩ := head_clusterFront graph numbering id
      rw [clusterTo_succ_of id ih]
      have hBody : ∃ middle, (clusterBody graph numbering (depth + 1) id).toList =
          's' :: (middle ++ [';']) := by
        rw [clusterBody]
        generalize String.join _ = inner
        refine ⟨front ++ (inner.toList ++ ['\x7d']), ?_⟩
        simp [hFront]
      obtain ⟨middle, hBody⟩ := hBody
      exact indent_of_ends hBody (by decide) (by decide)

theorem quote_not_mem_indentBy {level : Nat} {text : Literal} (h : quote ∉ text) :
    quote ∉ indentBy level text := by
  rw [indentBy, List.mem_flatMap]
  rintro ⟨point, hPoint, hMem⟩
  split at hMem
  · rcases List.mem_cons.mp hMem with hMem | hMem
    · exact absurd hMem (by decide)
    · exact quote_not_mem_blanks level hMem
  · exact h (List.mem_singleton.mp hMem ▸ hPoint)

theorem quote_not_mem_joinWith {texts : List String} (h : ∀ text ∈ texts, '"' ∉ text.toList) :
    '"' ∉ (Text.joinWith " " texts).toList := by
  induction texts with
  | nil => decide
  | cons text texts ih =>
      rw [List.forall_mem_cons] at h
      cases texts with
      | nil => exact h.1
      | cons next texts => simp [Text.joinWith, h.1, ih h.2]

theorem quote_not_mem_nodesLine (graph : Graph) (numbering : Numbering) (id : GroupId) :
    '"' ∉ (nodesLine graph numbering id).toList := by
  have hNodes : '"' ∉ (Text.joinWith " " ((graph.group id).nodes.map numbering.nodeId)).toList := by
    refine quote_not_mem_joinWith fun text hText => ?_
    obtain ⟨node, -, rfl⟩ := List.mem_map.mp hText
    exact quote_not_mem_nodeId numbering node
  unfold nodesLine
  split
  · decide
  · simp [hNodes]

/-- The values of a group at a level. -/
def groupValues (graph : Graph) (place : Nat × GroupId) : List Quoted :=
  [.raw place.1 (Literal.ofText (graph.groupLabel place.2)),
    .raw place.1 (Literal.ofText (graph.group place.2).token),
    .raw place.1 (Literal.ofText "filled")]

theorem indentBy_assigned (level : Nat) (key : Literal) (value : String) :
    indentBy level (assigned key (plain value)) =
      assigned (indentBy level key) (.raw level (Literal.ofText value)) := by
  have hQuote : ∀ text, indentBy level (quote :: text) = quote :: indentBy level text :=
    fun _ => rfl
  rw [assigned, indentBy_append, hQuote, indentBy_append, written_plain]
  rfl

theorem ofText_join (texts : List String) :
    Literal.ofText (String.join texts) = texts.flatMap Literal.ofText := by
  rw [Literal.ofText, String.toList_join, List.map_flatMap]
  rfl

theorem holds_clusterFront (graph : Graph) (numbering : Numbering) (level : Nat) (id : GroupId) :
    Holds (indentBy level (Literal.ofText (clusterFront graph numbering id)))
      (groupValues graph (level, id)) := by
  have hText : Literal.ofText (clusterFront graph numbering id) =
      assigned (Literal.ofText ("subgraph " ++ numbering.groupId id ++ " \x7b\n" ++
        nodesLine graph numbering id ++ "    label=")) (plain (graph.groupLabel id)) ++
      assigned (Literal.ofText ";\n    name=") (plain (graph.group id).token) ++
      assigned (Literal.ofText ";\n    style=") (plain "filled") ++
      Literal.ofText ";\n    graph[style=dotted];\n" := by
    delta clusterFront
    simp [assigned, written_plain, Literal.ofText, quote]
  have hKey : quote ∉ Literal.ofText ("subgraph " ++ numbering.groupId id ++ " \x7b\n" ++
      nodesLine graph numbering id ++ "    label=") := by
    rw [quote_not_mem_ofText]
    simp [quote_not_mem_groupId, quote_not_mem_nodesLine]
  rw [hText, indentBy_append, indentBy_append, indentBy_append, indentBy_assigned,
    indentBy_assigned, indentBy_assigned]
  exact (((Holds.assigned (quote_not_mem_indentBy hKey) _).append
    (.assigned (quote_not_mem_indentBy (by decide)) _)).append
    (.assigned (quote_not_mem_indentBy (by decide)) _)).append
    (.bare (quote_not_mem_indentBy (by decide)))

/-- A cluster at a level holds the values of its groups, those of inner groups further indented. -/
theorem holds_clusterBody (graph : Graph) (numbering : Numbering) (depth level : Nat)
    (id : GroupId) :
    Holds (indentBy level (Literal.ofText (clusterBody graph numbering depth id)))
      ((levelsBelow graph depth level id).flatMap (groupValues graph)) := by
  induction depth generalizing level id with
  | zero => exact .bare List.not_mem_nil
  | succ depth ih =>
      have hSubgroup : ∀ subgroup, Holds (indentBy level (Literal.ofText
          ("    " ++ indented (clusterBody graph numbering depth subgroup) ++ "\n")))
          ((levelsBelow graph depth (level + 1) subgroup).flatMap (groupValues graph)) := by
        intro subgroup
        rw [Literal.ofText_append, Literal.ofText_append, indentBy_append, indentBy_append,
          ofText_indented, indentBy_indentBy]
        have hFront : Holds (indentBy level (Literal.ofText "    ")) [] :=
          .bare (quote_not_mem_indentBy (by decide))
        have hBack : Holds (indentBy level (Literal.ofText "\n")) [] :=
          .bare (quote_not_mem_indentBy (by decide))
        have hAll := (hFront.append (ih (level + 1) subgroup)).append hBack
        rwa [List.nil_append, List.append_nil] at hAll
      have hInner : Holds (indentBy level (Literal.ofText (String.join
          ((graph.group id).subgroups.map fun subgroup =>
            "    " ++ indented (clusterBody graph numbering depth subgroup) ++ "\n"))))
          (((graph.group id).subgroups.flatMap (levelsBelow graph depth (level + 1))).flatMap
            (groupValues graph)) := by
        rw [ofText_join, List.flatMap_map, List.flatMap_assoc, indentBy, List.flatMap_assoc]
        exact Holds.flatMap fun subgroup _ => hSubgroup subgroup
      have hEnd : Holds (indentBy level (Literal.ofText "\x7d;")) [] :=
        .bare (quote_not_mem_indentBy (by decide))
      have hAll := ((holds_clusterFront graph numbering level id).append hInner).append hEnd
      rw [List.append_nil] at hAll
      rwa [clusterBody, Literal.ofText_append, Literal.ofText_append, indentBy_append,
        indentBy_append, levelsBelow, List.flatMap_cons]

/-- The cluster of a group holds the values of the groups in it. -/
theorem holds_cluster (graph : Graph) (numbering : Numbering) (id : GroupId) :
    Holds (Literal.ofText (cluster graph numbering id))
      ((levelsBelow graph graph.groups.size 0 id).flatMap (groupValues graph)) := by
  unfold cluster
  cases graph.groups.size with
  | zero => exact .bare List.not_mem_nil
  | succ depth =>
      have hEnd : Holds (Literal.ofText "\n") [] := .bare (by decide)
      have hAll := (holds_clusterBody graph numbering (depth + 1) 0 id).append hEnd
      rwa [indentBy_zero, List.append_nil, ← Literal.ofText_append,
        ← clusterTo_succ_of id (indent_clusterTo depth)] at hAll

/-! ## Whole texts -/

/-- The values between quotes in a text, in order; the fuel bounds their number. -/
def readValues (paired : Bool) : Nat → Literal → Option (List Literal)
  | 0, _ => none
  | fuel + 1, text =>
      match text.dropWhile (· ≠ quote) with
      | [] => some []
      | _ :: rest => do
          let (value, rest) ← readQuoted paired rest
          let values ← readValues paired fuel rest
          return value :: values

theorem readValues_append {paired : Bool} {fuel : Nat} {text : Literal} (h : quote ∉ text)
    (rest : Literal) : readValues paired fuel (text ++ rest) = readValues paired fuel rest := by
  cases fuel with
  | zero => rfl
  | succ fuel =>
      have hSkip : (text ++ rest).dropWhile (· ≠ quote) = rest.dropWhile (· ≠ quote) := by
        refine List.dropWhile_append_of_pos fun point hPoint => decide_eq_true ?_
        rintro rfl
        exact h hPoint
      rw [readValues, readValues, hSkip]

theorem readValues_quoted {paired : Bool} {quoted : Quoted} (h : quoted.Kept paired) (fuel : Nat)
    (rest : Literal) :
    readValues paired (fuel + 1) ((Part.quoted quoted).text ++ rest) =
      (readValues paired fuel rest).map (quoted.value :: ·) := by
  have hText : (Part.quoted quoted).text ++ rest = quote :: (quoted.written ++ quote :: rest) := by
    simp [Part.text]
  rw [hText, readValues, List.dropWhile_cons_of_neg (by simp)]
  change (readQuoted paired (quoted.written ++ quote :: rest)).bind (fun read =>
    (readValues paired fuel read.2).bind fun values => some (read.1 :: values)) = _
  rw [Quoted.readQuoted_written_iff.mpr h, Option.bind_some]
  cases readValues paired fuel rest <;> rfl

/-- If every value is kept, the values of a text are read in order, whatever stands between them. -/
theorem readValues_of_holds {paired : Bool} {text : Literal} {values : List Quoted}
    (h : Holds text values) (hKept : ∀ quoted ∈ values, quoted.Kept paired) {fuel : Nat}
    (hFuel : values.length < fuel) :
    readValues paired fuel text = some (values.map Quoted.value) := by
  obtain ⟨parts, rfl, rfl, hBare⟩ := h
  induction parts generalizing fuel with
  | nil =>
      obtain ⟨fuel, rfl⟩ := Nat.exists_eq_succ_of_ne_zero (Nat.ne_of_gt hFuel)
      rfl
  | cons part parts ih =>
      have hOthers := fun outside hMem => hBare outside (List.mem_cons_of_mem part hMem)
      rw [Part.spell, List.flatMap_cons]
      cases part with
      | bare outside =>
          have hNone := hBare outside List.mem_cons_self
          exact (readValues_append hNone _).trans (ih hOthers hKept hFuel)
      | quoted value =>
          have hParts : (Part.quoted value :: parts).filterMap Part.quoted? =
              value :: parts.filterMap Part.quoted? := rfl
          rw [hParts, List.forall_mem_cons] at hKept
          rw [hParts, List.length_cons] at hFuel
          obtain ⟨fuel, rfl⟩ :=
            Nat.exists_eq_succ_of_ne_zero (Nat.ne_of_gt (Nat.zero_lt_of_lt hFuel))
          rw [readValues_quoted hKept.1, hParts, List.map_cons]
          have hRest := ih hOthers hKept.2 (Nat.lt_of_succ_lt_succ hFuel)
          rw [Part.spell] at hRest
          rw [hRest]
          rfl

/-- What stands between the quotes of nodes, edges and clusters, and what becomes of it. The values
appear in order: labels and names as they are, inside clusters with further blanks behind each line
end, and labels of edges with their quotes escaped; outside the values there are no quotes. A
value is read back from what stands between its quotes, up to the closing one, if and only if it is
kept: one that is not escaped must hold no quote, none may end in an escaping backslash, none that
is indented may hold a line end, and in one with escaped quotes no backslash may pair up with one
that escapes a quote. If all values of a text are kept, it is read as these values. -/
theorem values_read_back_iff (paired : Bool) (graph : Graph) (numbering : Numbering) :
    (∀ id name, graph.name id = .ok name → ∃ text, node graph numbering id = .ok text ∧
      Holds (Literal.ofText text) [plain (graph.label id), plain name, plain "rect",
        plain "rounded,filled", plain (colorOf (graph.node id))]) ∧
    (∀ link, Holds (edge numbering link) ([plain (edgeColors.getD
        (numbering.node link.source % edgeColors.length) ""), plain "2"] ++
      (link.label.filter (· ≠ [])).toList.map .escaped)) ∧
    (∀ id, Holds (Literal.ofText (cluster graph numbering id))
        ((levelsBelow graph graph.groups.size 0 id).flatMap (groupValues graph)) ∧
      (levelsBelow graph graph.groups.size 0 id).map Prod.snd = graph.allGroups id) ∧
    (∀ (quoted : Quoted) (after : Literal), readQuoted paired (quoted.written ++ quote :: after) =
      some (quoted.value, after) ↔ quoted.Kept paired) ∧
    ∀ text values, Holds text values → (∀ quoted ∈ values, quoted.Kept paired) →
      readValues paired (values.length + 1) text = some (values.map Quoted.value) := by
  refine ⟨?_, ?_, ?_, ?_, ?_⟩
  · exact fun id name h => holds_node h
  · exact holds_edge numbering
  · exact fun id => ⟨holds_cluster graph numbering id, map_snd_levelsBelow graph _ 0 id⟩
  · exact fun quoted after => Quoted.readQuoted_written_iff
  · exact fun text values h hKept => readValues_of_holds h hKept (Nat.lt_succ_self _)

/-- A file with a backslash in its name and a function in it. -/
def plainNames : Graph :=
  { groups := #[{ token := "a\\b", kind := .file, display := "File", nodes := [⟨0⟩] }]
    nodes := #[{ token := "f", parent := .group ⟨0⟩ }] }

/-- The function is read with its label and name. -/
theorem values_read_back_plainNames : plainNames.name ⟨0⟩ = .ok "a\\b::f" ∧
    ∀ paired, ∃ text, node plainNames (.byCreation plainNames) ⟨0⟩ = .ok text ∧
      readValues paired 6 (Literal.ofText text) = some [Literal.ofText "f()",
        Literal.ofText "a\\b::f", Literal.ofText "rect", Literal.ofText "rounded,filled",
        Literal.ofText trunkColor] := by
  have hName : plainNames.name ⟨0⟩ = .ok "a\\b::f" := by decide +kernel
  refine ⟨hName, fun paired => ?_⟩
  obtain ⟨hNode, -, -, -, hRead⟩ :=
    values_read_back_iff paired plainNames (.byCreation plainNames)
  obtain ⟨text, hText, hHolds⟩ := hNode ⟨0⟩ _ hName
  have hLabel : plainNames.label ⟨0⟩ = "f()" := by decide +kernel
  have hColor : colorOf (plainNames.node ⟨0⟩) = trunkColor := by decide +kernel
  rw [hLabel, hColor] at hHolds
  refine ⟨text, hText, hRead _ _ hHolds ?_⟩
  simp only [List.forall_mem_cons]
  cases paired <;>
    exact ⟨⟨by decide, by decide, .inl rfl⟩, ⟨by decide, by decide, .inl rfl⟩,
      ⟨by decide, by decide, .inl rfl⟩, ⟨by decide, by decide, .inl rfl⟩,
      ⟨by decide, by decide, .inl rfl⟩, fun _ h => absurd h List.not_mem_nil⟩

/-- A file with a quote in its name. -/
def quotedName : Graph :=
  { groups := #[{ token := "a\"b", kind := .file, display := "File" }] }

/-- The label of the file ends at the quote in its name, for every reader. -/
theorem label_cut_quotedName : quotedName.groupLabel ⟨0⟩ = "File: a\"b" ∧ ∃ front after,
    Literal.ofText (cluster quotedName (.byCreation quotedName) ⟨0⟩) =
      front ++ quote :: (Literal.ofText (quotedName.groupLabel ⟨0⟩) ++ quote :: after) ∧
    ∀ paired, readQuoted paired (Literal.ofText (quotedName.groupLabel ⟨0⟩) ++ quote :: after) =
      some (Literal.ofText "File: a", Literal.ofText "b" ++ quote :: after) := by
  exact ⟨by decide +kernel, Literal.ofText "subgraph cluster_00000000 \x7b\n    label=",
    Literal.ofText (";\n    name=\"a\"b\";\n    style=\"filled\";\n" ++
      "    graph[style=dotted];\n\x7d;\n"), by decide +kernel, by decide +kernel⟩

end Dot

end CallGraph
