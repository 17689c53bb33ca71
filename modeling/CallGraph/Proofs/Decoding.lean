import CallGraph.Output.JsonGraph
import CallGraph.Proofs.Scoping
import CallGraph.Value.Reader
import Mathlib.Data.List.Nodup

/-!
# Reading back what is written as JSON

A chart is written as a JSON text in which only printable ASCII characters stand for themselves. The
reader takes no more than JSON: no control characters between quotes, no number with a zero in front.
This module shows that nothing is lost: the text reads back as the value that was written, whatever
characters its texts hold, and this value lists the nodes and edges of the chart.

Between quotes every character is written as one or two code units of sixteen bits, each by itself,
by a letter or by four hexadecimal digits. Reading yields these units again (`readUnits_flatMap`),
and the units of a text spell its characters (`points_flatMap_unitsOf`): a character is never half
of a pair, so the units of two neighbours cannot be taken for one character. Around the texts, a
list or table is read entry by entry. One round of the reader takes one unit of fuel and at least
one character, so the length of the text bounds the rounds (`reads`).

## Main definitions

* `Value.isTextual` — a value without surrogates.
* `Value.unitsOf` — the code units of a character.

## Main results

* `printable_json` — the text of a value consists of printable ASCII characters.
* `readLiteral_text` — a text between quotes is read back.
* `ofJson?_json` — a value without surrogates is read back.
* `decode_render` — what the text of a chart holds.
-/

namespace CallGraph

namespace Value

/-! ## Code units -/

theorem hexValue?_digitChar : ∀ digit < 16, hexValue? digit.digitChar = some digit := by
  decide

/-- A numeral with room in front ends in the last digit. -/
theorem hexDigits_succ {width : Nat} (h : width ≠ 0) (number : Nat) :
    Text.hexDigits (width + 1) number =
      Text.hexDigits width (number / 16) ++ [(number % 16).digitChar] := by
  unfold Text.hexDigits
  dsimp only
  rcases Nat.lt_or_ge number 16 with hSmall | hLarge
  · obtain ⟨width, rfl⟩ := Nat.exists_eq_succ_of_ne_zero h
    rw [Nat.toDigits_of_lt_base hSmall, Nat.div_eq_of_lt hSmall, Nat.mod_eq_of_lt hSmall,
      Nat.toDigits_of_lt_base (by decide)]
    simp [List.replicate_succ']
  · rw [Nat.toDigits_of_base_le (by decide) hLarge]
    simp

theorem hexDigits_four {unit : Nat} (h : unit < 0x10000) :
    Text.hexDigits 4 unit = [(unit / 4096).digitChar, (unit / 256 % 16).digitChar,
      (unit / 16 % 16).digitChar, (unit % 16).digitChar] := by
  have hOne : Text.hexDigits 1 (unit / 4096) = [(unit / 4096).digitChar] := by
    simp [Text.hexDigits, Nat.toDigits_of_lt_base (show unit / 4096 < 16 by omega)]
  rw [hexDigits_succ (by decide), hexDigits_succ (by decide), hexDigits_succ (by decide)]
  simp only [Nat.div_div_eq_div_mul, Nat.reduceMul, hOne, List.cons_append, List.nil_append]

theorem readUnit_hexDigits {unit : Nat} (h : unit < 0x10000) (rest : List Char) :
    readUnit (Text.hexDigits 4 unit ++ rest) = some (unit, rest) := by
  rw [hexDigits_four h]
  simp only [List.cons_append, List.nil_append, readUnit,
    hexValue?_digitChar _ (show unit / 4096 < 16 by omega),
    hexValue?_digitChar _ (Nat.mod_lt _ (show 0 < 16 by decide)), bind, Option.bind, pure,
    List.foldl_cons, List.foldl_nil, Option.some.injEq, Prod.mk.injEq, and_true]
  omega

/-- The code units of a character. -/
def unitsOf (c : Char) : List Nat :=
  if c.toNat < 0x10000 then [c.toNat]
  else [0xD800 + (c.toNat - 0x10000) / 0x400, 0xDC00 + (c.toNat - 0x10000) % 0x400]

theorem toNat_lt (c : Char) : c.toNat < 0x110000 := by
  rcases c.valid with h | h
  · exact Nat.lt_trans h (by decide)
  · exact h.2

/-- Reading an escape yields its unit. -/
theorem readUnits_unitEscape {unit fuel : Nat} (h : unit < 0x10000) (rest : List Char) :
    readUnits (fuel + 1) (unitEscape unit ++ rest) =
      (readUnits fuel rest).map fun read => (unit :: read.1, read.2) := by
  rw [unitEscape, List.cons_append, List.cons_append, readUnits, readUnit_hexDigits h,
    Option.bind_eq_bind, Option.bind_some]
  dsimp only
  cases readUnits fuel rest <;> rfl

/-- Reading a letter behind a backslash yields what it stands for. -/
theorem readUnits_letter {letter c : Char} {fuel : Nat} (hLetter : letter ≠ 'u')
    (h : escaped? letter = some c) (rest : List Char) :
    readUnits (fuel + 1) ('\\' :: letter :: rest) =
      (readUnits fuel rest).map fun read => (c.toNat :: read.1, read.2) := by
  rw [readUnits]
  · rw [h]
    cases readUnits fuel rest <;> rfl
  · exact fun hSame => hLetter hSame

/-- Reading a character that may stand for itself. -/
theorem readUnits_plain {c : Char} {fuel : Nat} (hQuote : c ≠ '"') (hBackslash : c ≠ '\\')
    (hControl : isControl c = false) (rest : List Char) :
    readUnits (fuel + 1) (c :: rest) =
      (readUnits fuel rest).map fun read => (c.toNat :: read.1, read.2) := by
  rw [readUnits, if_neg (by simp [hControl])]
  · cases readUnits fuel rest <;> rfl
  all_goals simp_all

theorem unitsOf_of_lt {c : Char} (h : c.toNat < 0x10000) : unitsOf c = [c.toNat] :=
  if_pos h

/-- The forms in which a character is written. -/
theorem escape_cases (c : Char) :
    (c.toNat < 0x10000 ∧ ((∃ letter, letter ≠ 'u' ∧ escaped? letter = some c ∧
        escape c = ['\\', letter]) ∨
      (c ≠ '"' ∧ c ≠ '\\' ∧ isControl c = false ∧ escape c = [c]) ∨
      escape c = unitEscape c.toNat)) ∨
    (¬c.toNat < 0x10000 ∧ escape c =
      unitEscape (0xD800 + (c.toNat - 0x10000) / 0x400) ++
        unitEscape (0xDC00 + (c.toNat - 0x10000) % 0x400)) := by
  have hOf : ∀ code, c.toNat = code → c = Char.ofNat code := by
    rintro _ rfl
    exact (Char.ofNat_toNat c).symm
  generalize hWritten : escape c = written
  unfold escape at hWritten
  split at hWritten
  next h => subst h hWritten; exact .inl ⟨by decide, .inl ⟨'"', by decide, rfl, rfl⟩⟩
  split at hWritten
  next h => subst h hWritten; exact .inl ⟨by decide, .inl ⟨'\\', by decide, rfl, rfl⟩⟩
  split at hWritten
  next h => subst h hWritten; exact .inl ⟨by decide, .inl ⟨'n', by decide, rfl, rfl⟩⟩
  split at hWritten
  next h => subst h hWritten; exact .inl ⟨by decide, .inl ⟨'r', by decide, rfl, rfl⟩⟩
  split at hWritten
  next h => subst h hWritten; exact .inl ⟨by decide, .inl ⟨'t', by decide, rfl, rfl⟩⟩
  split at hWritten
  next h => subst hWritten; exact .inl ⟨by omega, .inl ⟨'b', by decide, by rw [hOf 8 h]; rfl, rfl⟩⟩
  split at hWritten
  next h => subst hWritten; exact .inl ⟨by omega, .inl ⟨'f', by decide, by rw [hOf 12 h]; rfl, rfl⟩⟩
  split at hWritten
  next hQuote hBackslash _ _ _ _ _ h =>
    have hControl : isControl c = false := decide_eq_false (Nat.not_lt.mpr h.1)
    exact .inl ⟨by omega, .inr (.inl ⟨hQuote, hBackslash, hControl, hWritten.symm⟩)⟩
  split at hWritten
  next h => exact .inl ⟨h, .inr (.inr hWritten.symm)⟩
  next h => exact .inr ⟨h, hWritten.symm⟩

/-- Reading what is written for a character yields its units. -/
theorem readUnits_escape (c : Char) (fuel : Nat) (rest : List Char) :
    readUnits (fuel + (unitsOf c).length) (escape c ++ rest) =
      (readUnits fuel rest).map fun read => (unitsOf c ++ read.1, read.2) := by
  rcases escape_cases c with ⟨hUnit, hForm⟩ | ⟨hUnit, hForm⟩
  · rw [unitsOf_of_lt hUnit, List.length_singleton]
    rcases hForm with ⟨letter, hLetter, hEscaped, hForm⟩ |
      ⟨hQuote, hBackslash, hControl, hForm⟩ | hForm
    · rw [hForm]
      exact readUnits_letter hLetter hEscaped rest
    · rw [hForm]
      exact readUnits_plain hQuote hBackslash hControl rest
    · rw [hForm]
      exact readUnits_unitEscape hUnit rest
  · have hBound := toNat_lt c
    rw [unitsOf, if_neg hUnit, hForm, List.append_assoc, List.length_cons, List.length_singleton,
      ← Nat.add_assoc, readUnits_unitEscape (by omega), readUnits_unitEscape (by omega),
      Option.map_map]
    rfl

/-- Reading up to the closing quote yields the units of all characters. -/
theorem readUnits_flatMap (chars rest : List Char) {fuel : Nat}
    (h : (chars.flatMap unitsOf).length < fuel) :
    readUnits fuel (chars.flatMap escape ++ '"' :: rest) =
      some (chars.flatMap unitsOf, rest) := by
  induction chars generalizing fuel with
  | nil =>
      obtain ⟨fuel, rfl⟩ := Nat.exists_eq_succ_of_ne_zero (Nat.ne_of_gt h)
      rfl
  | cons c chars ih =>
      rw [List.flatMap_cons, List.length_append] at h
      obtain ⟨more, rfl⟩ := Nat.exists_eq_add_of_le' (show (unitsOf c).length ≤ fuel by omega)
      rw [List.flatMap_cons, List.append_assoc, readUnits_escape, ih (by omega)]
      rfl

theorem two_le_length_unitEscape (unit : Nat) : 2 ≤ (unitEscape unit).length :=
  Nat.le_add_left 2 _

theorem length_unitsOf_le (c : Char) : (unitsOf c).length ≤ (escape c).length := by
  rcases escape_cases c with ⟨hUnit, hForm⟩ | ⟨hUnit, hForm⟩
  · rw [unitsOf_of_lt hUnit, List.length_singleton]
    rcases hForm with ⟨letter, -, -, hForm⟩ | ⟨-, -, -, hForm⟩ | hForm
    · rw [hForm]
      exact Nat.le_succ 1
    · rw [hForm]
      exact Nat.le_refl 1
    · rw [hForm]
      exact Nat.le_of_succ_le (two_le_length_unitEscape _)
  · rw [unitsOf, if_neg hUnit, hForm, List.length_append]
    exact Nat.le_add_right_of_le (two_le_length_unitEscape _)

theorem length_units_le (chars : List Char) :
    (chars.flatMap unitsOf).length ≤ (chars.flatMap escape).length := by
  induction chars with
  | nil => exact Nat.le_refl 0
  | cons c chars ih =>
      rw [List.flatMap_cons, List.flatMap_cons, List.length_append, List.length_append]
      exact Nat.add_le_add (length_unitsOf_le c) ih

/-- No character is half of a pair. -/
theorem not_surrogate (c : Char) : ¬(0xD800 ≤ c.toNat ∧ c.toNat < 0xE000) := by
  rintro ⟨hLow, hHigh⟩
  rcases c.valid with h | h
  · exact Nat.not_le_of_lt h hLow
  · exact Nat.not_lt_of_ge h.1 hHigh

theorem ofNat_toNat (c : Char) : CodePoint.ofNat c.toNat = .char c := by
  rw [CodePoint.ofNat, dif_neg (not_surrogate c), Char.ofNat_toNat]

/-- The units of a character spell it, whatever units follow. -/
theorem points_unitsOf (c : Char) (units : List Nat) :
    pointsOfUnits (unitsOf c ++ units) = .char c :: pointsOfUnits units := by
  have hPoint := ofNat_toNat c
  have hBound := toNat_lt c
  have hHigh := not_surrogate c
  unfold unitsOf
  split
  · rename_i h
    -- A character of the basic plane is not taken together with the unit behind it.
    cases units with
    | nil => exact congrArg (· :: []) hPoint
    | cons low units =>
        rw [List.singleton_append, pointsOfUnits, hPoint, if_neg (by simp; omega)]
  · rename_i h
    have hCode : 0x10000 + (0xD800 + (c.toNat - 0x10000) / 0x400 - 0xD800) * 0x400 +
        (0xDC00 + (c.toNat - 0x10000) % 0x400 - 0xDC00) = c.toNat := by omega
    rw [List.cons_append, List.singleton_append, pointsOfUnits, hCode, hPoint,
      if_pos (by simp; omega)]

theorem points_flatMap_unitsOf (chars : List Char) :
    pointsOfUnits (chars.flatMap unitsOf) = chars.map .char := by
  induction chars with
  | nil => rfl
  | cons c chars ih => rw [List.flatMap_cons, points_unitsOf, ih, List.map_cons]

theorem replaced_ofText (text : String) : (Literal.ofText text).replaced = text := by
  rw [Literal.replaced, Literal.ofText, List.map_map]
  exact (congrArg String.ofList (List.map_id _)).trans String.ofList_toList

/-- A text between quotes is read back. -/
theorem readLiteral_text (text : String) (rest : List Char) :
    readLiteral (text.toList.flatMap escape ++ '"' :: rest) = some (Literal.ofText text, rest) := by
  have hFuel : (text.toList.flatMap unitsOf).length <
      (text.toList.flatMap escape ++ '"' :: rest).length + 1 := by
    have hUnits := length_units_le text.toList
    simp only [List.length_append]
    omega
  rw [readLiteral, readUnits_flatMap _ _ hFuel, Option.bind_eq_bind, Option.bind_some]
  dsimp only
  rw [points_flatMap_unitsOf]
  rfl

/-! ## Numbers and words -/

/-- Characters that do not go on with a number. -/
def EndsNumber (rest : List Char) : Prop :=
  ∀ c ∈ rest.head?, c.isDigit = false

/-- Only zero is written with a zero in front. -/
theorem eq_zero_of_toDigits {number : Nat} {rest : List Char}
    (h : Nat.toDigits 10 number = '0' :: rest) : number = 0 := by
  induction number using Nat.strongRecOn generalizing rest with
  | ind number ih =>
      rcases Nat.lt_or_ge number 10 with hSmall | hLarge
      · have hDigit : ∀ digit < 10, digit.digitChar = '0' → digit = 0 := by decide
        rw [Nat.toDigits_of_lt_base hSmall] at h
        exact hDigit number hSmall (List.cons.inj h).1
      · obtain ⟨c, front, hFront⟩ := List.exists_cons_of_ne_nil
          (Nat.toDigits_ne_nil (n := number / 10) (b := 10))
        rw [Nat.toDigits_of_base_le (by decide) hLarge, hFront, List.cons_append] at h
        rw [(List.cons.inj h).1] at hFront
        have hZero := ih (number / 10) (by omega) hFront
        omega

theorem readNat_toDigits (number : Nat) {rest : List Char} (h : EndsNumber rest) :
    readNat (Nat.toDigits 10 number ++ rest) = some (number, rest) := by
  have hRest : rest.takeWhile Char.isDigit = [] := by
    cases rest with
    | nil => rfl
    | cons c rest => exact List.takeWhile_cons_of_neg (by simp [h c rfl])
  have hTaken : (Nat.toDigits 10 number ++ rest).takeWhile Char.isDigit =
      Nat.toDigits 10 number := by
    rw [List.takeWhile_append_of_pos fun c hc =>
      Nat.isDigit_of_mem_toDigits (by decide) (by decide) hc, hRest, List.append_nil]
  have hNumber : (Nat.toDigits 10 number).foldl
      (fun number c => number * 10 + (c.toNat - 48)) 0 = number := by
    have hDigits := Nat.ofDigitChars_ten_toDigits (n := number)
    rw [Nat.ofDigitChars_eq_foldl] at hDigits
    simpa only [Nat.mul_comm 10, Char.reduceToNat] using hDigits
  unfold readNat
  rw [hTaken]
  split
  · rename_i hNil
    exact absurd hNil Nat.toDigits_ne_nil
  · rename_i hZero
    rw [eq_zero_of_toDigits hZero] at hZero
    exact absurd (List.cons.inj hZero).2 (List.cons_ne_nil _ _).symm
  · rw [hNumber, List.drop_left]

theorem isDigit_head_toDigits (number : Nat) : ∃ c digits, Nat.toDigits 10 number = c :: digits ∧
    c.isDigit = true := by
  obtain ⟨c, digits, h⟩ := List.exists_cons_of_ne_nil (Nat.toDigits_ne_nil (n := number) (b := 10))
  exact ⟨c, digits, h, Nat.isDigit_of_mem_toDigits (n := number) (by decide) (Nat.le_refl 10)
    (by rw [h]; exact List.mem_cons_self)⟩

/-- The front of a number is a sign or a digit. -/
theorem head_decimal (number : Int) : ∃ c digits, (Text.decimal number).toList = c :: digits ∧
    (c = '-' ∨ c.isDigit = true) := by
  cases number with
  | ofNat number =>
      obtain ⟨c, digits, h, hDigit⟩ := isDigit_head_toDigits number
      exact ⟨c, digits, by rw [Text.decimal, Text.decimalNat, String.toList_ofList, h], .inr hDigit⟩
  | negSucc number =>
      exact ⟨'-', Nat.toDigits 10 (number + 1), by simp [Text.decimal, Text.decimalNat], .inl rfl⟩

theorem ne_of_numeric {c d : Char} (hFront : c = '-' ∨ c.isDigit = true)
    (hDigit : d.isDigit = false) (hSign : '-' ≠ d) : c ≠ d := by
  rintro rfl
  rcases hFront with rfl | hFront
  · exact hSign rfl
  · exact Bool.false_ne_true (hDigit.symm.trans hFront)

theorem isJsonBlank_of_numeric {c : Char} (h : c = '-' ∨ c.isDigit = true) :
    isJsonBlank c = false := by
  simp [isJsonBlank, ne_of_numeric (d := ' ') h rfl (by decide),
    ne_of_numeric (d := '\n') h rfl (by decide), ne_of_numeric (d := '\t') h rfl (by decide),
    ne_of_numeric (d := '\r') h rfl (by decide)]

theorem toList_decimal_negSucc (number : Nat) :
    (Text.decimal (Int.negSucc number)).toList = '-' :: Nat.toDigits 10 (number + 1) := by
  simp [Text.decimal, Text.decimalNat]

/-- A number is read back, unless a digit follows. -/
theorem readNumber_decimal (number : Int) {rest : List Char} (h : EndsNumber rest) :
    readNumber ((Text.decimal number).toList ++ rest) = some (number, rest) := by
  cases number with
  | ofNat number =>
      obtain ⟨c, digits, hDigits, hDigit⟩ := isDigit_head_toDigits number
      have hRead := readNat_toDigits number h
      rw [Text.decimal, Text.decimalNat, String.toList_ofList]
      rw [hDigits, List.cons_append] at hRead ⊢
      rw [readNumber, hRead]
      · rfl
      · rintro _ hSame
        rw [(List.cons.inj hSame).1] at hDigit
        exact absurd hDigit (by decide)
  | negSucc number =>
      rw [toList_decimal_negSucc, List.cons_append, readNumber, readNat_toDigits _ h]
      rfl

theorem behindWord?_append (word : String) (rest : List Char) :
    behindWord? word (word.toList ++ rest) = some rest := by
  rw [behindWord?, if_pos (List.isPrefixOf_iff_prefix.mpr (List.prefix_append _ _)),
    ← String.length_toList, List.drop_left]

theorem behindWord?_of_ne {word : String} {a c : Char} {front rest : List Char}
    (hWord : word.toList = a :: front) (h : a ≠ c) : behindWord? word (c :: rest) = none := by
  rw [behindWord?, if_neg]
  rw [hWord, List.isPrefixOf_iff_prefix, List.cons_prefix_cons]
  exact fun hSame => h hSame.1

/-! ## Values -/

mutual

/-- Whether a value holds no surrogates. -/
def isTextual : Value → Bool
  | .literal _ => false
  | .list items => areTextual items
  | .table entries => entriesTextual entries
  | _ => true

/-- Whether items hold no surrogates. -/
def areTextual : List Value → Bool
  | [] => true
  | item :: rest => item.isTextual && areTextual rest

/-- Whether entries hold no surrogates. -/
def entriesTextual : List (String × Value) → Bool
  | [] => true
  | (_, value) :: rest => value.isTextual && entriesTextual rest

end

/-- The text of items that follow others. -/
def itemsBehind : List Value → List Char
  | [] => []
  | items => ',' :: ' ' :: (jsonItems items).toList

/-- The text of an entry. -/
def entryText (entry : String × Value) : List Char :=
  (jsonText entry.1).toList ++ ':' :: ' ' :: entry.2.json.toList

/-- The text of entries that follow others. -/
def entriesBehind : List (String × Value) → List Char
  | [] => []
  | entries => ',' :: ' ' :: (jsonEntries entries).toList

theorem toList_jsonText (text : String) :
    (jsonText text).toList = '"' :: (text.toList.flatMap escape ++ ['"']) :=
  String.toList_ofList

theorem toList_jsonItems_cons (item : Value) (items : List Value) :
    (jsonItems (item :: items)).toList = item.json.toList ++ itemsBehind items := by
  cases items with
  | nil => rw [jsonItems, itemsBehind, List.append_nil]
  | cons next items => simp [jsonItems, itemsBehind]

theorem itemsBehind_cons (item : Value) (items : List Value) :
    itemsBehind (item :: items) = ',' :: ' ' :: (item.json.toList ++ itemsBehind items) := by
  rw [itemsBehind, toList_jsonItems_cons]
  exact List.cons_ne_nil item items

theorem toList_jsonEntries_cons (entry : String × Value) (entries : List (String × Value)) :
    (jsonEntries (entry :: entries)).toList = entryText entry ++ entriesBehind entries := by
  cases entries with
  | nil => simp [jsonEntries, entryText, entriesBehind]
  | cons next entries => simp [jsonEntries, entryText, entriesBehind]

theorem entriesBehind_cons (entry : String × Value) (entries : List (String × Value)) :
    entriesBehind (entry :: entries) =
      ',' :: ' ' :: (entryText entry ++ entriesBehind entries) := by
  rw [entriesBehind, toList_jsonEntries_cons]
  exact List.cons_ne_nil entry entries

theorem toList_json_list (items : List Value) :
    (Value.list items).json.toList = '[' :: ((jsonItems items).toList ++ [']']) := by
  simp [json]

theorem toList_json_table (entries : List (String × Value)) :
    (Value.table entries).json.toList =
      '\x7b' :: ((jsonEntries entries).toList ++ ['\x7d']) := by
  simp [json]

/-! ## What is written -/

/-- All characters are printable ASCII characters. -/
def Printable (chars : List Char) : Prop :=
  ∀ c ∈ chars, 32 ≤ c.toNat ∧ c.toNat ≤ 126

instance (chars : List Char) : Decidable (Printable chars) :=
  List.decidableBAll _ chars

theorem printable_append {front back : List Char} :
    Printable (front ++ back) ↔ Printable front ∧ Printable back :=
  List.forall_mem_append

theorem printable_cons {c : Char} {rest : List Char} :
    Printable (c :: rest) ↔ (32 ≤ c.toNat ∧ c.toNat ≤ 126) ∧ Printable rest :=
  List.forall_mem_cons

theorem printable_unitEscape {unit : Nat} (h : unit < 0x10000) : Printable (unitEscape unit) := by
  have hDigit : ∀ digit < 16, 32 ≤ digit.digitChar.toNat ∧ digit.digitChar.toNat ≤ 126 := by decide
  rw [unitEscape, hexDigits_four h]
  intro c hc
  simp only [List.mem_cons, List.not_mem_nil, or_false] at hc
  rcases hc with rfl | rfl | rfl | rfl | rfl | rfl
  · decide
  · decide
  all_goals exact hDigit _ (by omega)

theorem printable_escape (c : Char) : Printable (escape c) := by
  have hBound := toNat_lt c
  generalize hWritten : escape c = written
  unfold escape at hWritten
  -- Seven characters have letters of their own.
  iterate 7
    split at hWritten
    next => subst hWritten; decide
  split at hWritten
  next h =>
    subst hWritten
    exact List.forall_mem_singleton.mpr h
  split at hWritten
  next h =>
    subst hWritten
    exact printable_unitEscape h
  next h =>
    subst hWritten
    exact printable_append.mpr ⟨printable_unitEscape (by omega), printable_unitEscape (by omega)⟩

theorem printable_jsonText (text : String) : Printable (jsonText text).toList := by
  rw [toList_jsonText, printable_cons, printable_append]
  refine ⟨by decide, fun c hc => ?_, by decide⟩
  obtain ⟨d, _, hd⟩ := List.mem_flatMap.mp hc
  exact printable_escape d c hd

theorem printable_jsonLiteral (literal : Literal) : Printable (jsonLiteral literal).toList := by
  rw [jsonLiteral, String.toList_ofList, printable_cons, printable_append]
  refine ⟨by decide, fun c hc => ?_, by decide⟩
  obtain ⟨point, _, hPoint⟩ := List.mem_flatMap.mp hc
  cases point with
  | char d => exact printable_escape d c hPoint
  | surrogate place => exact printable_unitEscape (by simp only [CodePoint.code]; omega) c hPoint

theorem printable_decimal (number : Int) : Printable (Text.decimal number).toList := by
  have hNat : ∀ number : Nat, Printable (Nat.toDigits 10 number) := by
    intro number c hc
    have hDigit := Nat.isDigit_of_mem_toDigits (by decide) (by decide) hc
    simp only [Char.isDigit, Bool.and_eq_true, decide_eq_true_eq] at hDigit
    have hLow := UInt32.le_iff_toNat_le.mp hDigit.1
    have hHigh := UInt32.le_iff_toNat_le.mp hDigit.2
    exact ⟨Nat.le_trans (by decide) hLow, Nat.le_trans hHigh (by decide)⟩
  cases number with
  | ofNat number =>
      rw [Text.decimal, Text.decimalNat, String.toList_ofList]
      exact hNat number
  | negSucc number =>
      rw [toList_decimal_negSucc, printable_cons]
      exact ⟨by decide, hNat _⟩

mutual

/-- Everything is written in printable ASCII characters. -/
theorem printable_json (value : Value) : Printable value.json.toList := by
  cases value with
  | nothing => decide
  | flag isSet => cases isSet <;> decide
  | number value => exact printable_decimal value
  | text value => exact printable_jsonText value
  | literal value => exact printable_jsonLiteral value
  | list items =>
      rw [toList_json_list, printable_cons, printable_append]
      exact ⟨by decide, printable_jsonItems items, by decide⟩
  | table entries =>
      rw [toList_json_table, printable_cons, printable_append]
      exact ⟨by decide, printable_jsonEntries entries, by decide⟩

theorem printable_jsonItems (items : List Value) : Printable (jsonItems items).toList := by
  cases items with
  | nil => decide
  | cons item rest =>
      have hRest := printable_jsonItems rest
      rw [toList_jsonItems_cons, printable_append]
      refine ⟨printable_json item, ?_⟩
      cases rest with
      | nil => decide
      | cons next others =>
          rw [itemsBehind, printable_cons, printable_cons]
          · exact ⟨by decide, by decide, hRest⟩
          · exact List.cons_ne_nil _ _

theorem printable_jsonEntries (entries : List (String × Value)) :
    Printable (jsonEntries entries).toList := by
  cases entries with
  | nil => decide
  | cons entry rest =>
      have hRest := printable_jsonEntries rest
      have hEntry : Printable (entryText entry) := by
        rw [entryText, printable_append, printable_cons, printable_cons]
        exact ⟨printable_jsonText entry.1, by decide, by decide, printable_json entry.2⟩
      rw [toList_jsonEntries_cons, printable_append]
      refine ⟨hEntry, ?_⟩
      cases rest with
      | nil => decide
      | cons next others =>
          rw [entriesBehind, printable_cons, printable_cons]
          · exact ⟨by decide, by decide, hRest⟩
          · exact List.cons_ne_nil _ _

end

/-! ## Reading values -/

/-- The text of a value starts with a character that is no blank and closes no list. -/
theorem head_json {value : Value} (h : value.isTextual = true) :
    ∃ c rest, value.json.toList = c :: rest ∧ isJsonBlank c = false ∧ c ≠ ']' := by
  cases value with
  | nothing => exact ⟨'n', ['u', 'l', 'l'], rfl, rfl, by decide⟩
  | flag value =>
      cases value with
      | true => exact ⟨'t', ['r', 'u', 'e'], rfl, rfl, by decide⟩
      | false => exact ⟨'f', ['a', 'l', 's', 'e'], rfl, rfl, by decide⟩
  | number value =>
      obtain ⟨c, digits, hText, hFront⟩ := head_decimal value
      exact ⟨c, digits, by rw [json, hText], isJsonBlank_of_numeric hFront,
        ne_of_numeric hFront rfl (by decide)⟩
  | text value => exact ⟨'"', _, by rw [json, toList_jsonText], rfl, by decide⟩
  | literal value => exact absurd h (by simp [isTextual])
  | list items => exact ⟨'[', _, toList_json_list items, rfl, by decide⟩
  | table entries => exact ⟨'\x7b', _, toList_json_table entries, rfl, by decide⟩

theorem skipBlanks_cons {c : Char} (h : isJsonBlank c = false) (rest : List Char) :
    skipBlanks (c :: rest) = c :: rest :=
  List.dropWhile_cons_of_neg (by simp [h])

theorem skipBlanks_blank (rest : List Char) : skipBlanks (' ' :: rest) = skipBlanks rest :=
  rfl

theorem skipBlanks_json {value : Value} (h : value.isTextual = true) (rest : List Char) :
    skipBlanks (value.json.toList ++ rest) = value.json.toList ++ rest := by
  obtain ⟨c, tail, hText, hBlank, -⟩ := head_json h
  rw [hText, List.cons_append, skipBlanks_cons hBlank]

theorem skipBlanks_jsonText (text : String) (rest : List Char) :
    skipBlanks ((jsonText text).toList ++ rest) = (jsonText text).toList ++ rest := by
  rw [toList_jsonText, List.cons_append, skipBlanks_cons rfl]

theorem json_ne_close {value : Value} (h : value.isTextual = true) (rest after : List Char) :
    value.json.toList ++ rest ≠ ']' :: after := by
  obtain ⟨c, tail, hText, -, hClose⟩ := head_json h
  rw [hText, List.cons_append]
  exact fun hSame => hClose (List.cons.inj hSame).1

theorem json_length_pos {value : Value} (h : value.isTextual = true) :
    0 < value.json.toList.length := by
  obtain ⟨c, tail, hText, -⟩ := head_json h
  rw [hText]
  exact Nat.succ_pos _

theorem length_entryText (key : String) (value : Value) :
    value.json.toList.length + 2 ≤ (entryText (key, value)).length := by
  rw [entryText, List.length_append, List.length_cons, List.length_cons]
  exact Nat.le_add_left _ _

/-- A blank in front of a value does not count. -/
theorem readValue_blank (fuel : Nat) (rest : List Char) :
    readValue fuel (' ' :: rest) = readValue fuel rest := by
  cases fuel with
  | zero => rfl
  | succ fuel => rw [readValue, readValue, skipBlanks_blank]

theorem readValue_quote (fuel : Nat) (rest : List Char) :
    readValue (fuel + 1) ('"' :: rest) =
      (readLiteral rest).map fun read => (ofLiteral read.1, read.2) := by
  rw [readValue, skipBlanks_cons rfl]
  change (readLiteral rest >>= fun read => pure (ofLiteral read.1, read.2)) = _
  cases readLiteral rest <;> rfl

theorem readValue_bracket (fuel : Nat) (rest : List Char) :
    readValue (fuel + 1) ('[' :: rest) =
      (readItems fuel true (skipBlanks rest)).map fun read => (.list read.1, read.2) := by
  rw [readValue, skipBlanks_cons rfl]
  change (readItems fuel true (skipBlanks rest) >>=
    fun read => pure (Value.list read.1, read.2)) = _
  cases readItems fuel true (skipBlanks rest) <;> rfl

theorem readValue_brace (fuel : Nat) (rest : List Char) :
    readValue (fuel + 1) ('\x7b' :: rest) =
      (readEntries fuel true (skipBlanks rest)).map fun read => (.table read.1, read.2) := by
  rw [readValue, skipBlanks_cons rfl]
  change (readEntries fuel true (skipBlanks rest) >>=
    fun read => pure (Value.table read.1, read.2)) = _
  cases readEntries fuel true (skipBlanks rest) <;> rfl

theorem readValue_json_text (text : String) (fuel : Nat) (rest : List Char) :
    readValue (fuel + 1) ((jsonText text).toList ++ rest) = some (.text text, rest) := by
  rw [toList_jsonText, List.cons_append, List.append_assoc, List.singleton_append,
    readValue_quote, readLiteral_text, Option.map_some, ofLiteral, Literal.text?_ofText]
  rfl

theorem readValue_json_number (number : Int) (fuel : Nat) {rest : List Char}
    (h : EndsNumber rest) :
    readValue (fuel + 1) ((Text.decimal number).toList ++ rest) = some (.number number, rest) := by
  have hRead := readNumber_decimal number h
  obtain ⟨c, digits, hText, hFront⟩ := head_decimal number
  rw [hText, List.cons_append] at hRead ⊢
  have hWord : readWord (c :: (digits ++ rest)) = none := by
    rw [readWord, behindWord?_of_ne rfl (ne_of_numeric hFront rfl (by decide)).symm,
      behindWord?_of_ne rfl (ne_of_numeric hFront rfl (by decide)).symm,
      behindWord?_of_ne rfl (ne_of_numeric hFront rfl (by decide)).symm]
    rfl
  rw [readValue, skipBlanks_cons (isJsonBlank_of_numeric hFront)]
  split
  · rename_i hSame
    exact absurd (List.cons.inj hSame).1 (ne_of_numeric hFront rfl (by decide))
  · rename_i hSame
    exact absurd (List.cons.inj hSame).1 (ne_of_numeric hFront rfl (by decide))
  · rename_i hSame
    exact absurd (List.cons.inj hSame).1 (ne_of_numeric hFront rfl (by decide))
  · rw [hWord, hRead]
    rfl

/-! ## Items and entries -/

theorem readItems_close (fuel : Nat) (isFirst : Bool) (rest : List Char) :
    readItems (fuel + 1) isFirst (']' :: rest) = some ([], rest) :=
  readItems.eq_2 _ _ rest (Nat.succ_ne_zero fuel)

theorem readEntries_close (fuel : Nat) (isFirst : Bool) (rest : List Char) :
    readEntries (fuel + 1) isFirst ('\x7d' :: rest) = some ([], rest) :=
  readEntries.eq_2 _ _ rest (Nat.succ_ne_zero fuel)

/-- What one round of reading items does. -/
theorem readItems_step {fuel : Nat} {isFirst : Bool} {chars behind rest after : List Char}
    {item : Value} {items : List Value} (hOpen : ∀ rest, chars ≠ ']' :: rest)
    (hBehind : (if isFirst then some chars else behindWord? "," chars) = some behind)
    (hItem : readValue fuel behind = some (item, rest))
    (hItems : readItems fuel false (skipBlanks rest) = some (items, after)) :
    readItems (fuel + 1) isFirst chars = some (item :: items, after) := by
  have hRound : ((readValue fuel behind).bind fun found =>
      (readItems fuel false (skipBlanks found.2)).bind fun others =>
      some (found.1 :: others.1, others.2)) = some (item :: items, after) := by
    rw [hItem, Option.bind_some, hItems, Option.bind_some]
  rw [readItems.eq_3 _ _ _ hOpen]
  cases isFirst with
  | true =>
      obtain rfl : chars = behind := Option.some.inj hBehind
      exact hRound
  | false => exact (congrArg (Option.bind · _) hBehind).trans hRound

/-- What one round of reading entries does. -/
theorem readEntries_step {fuel : Nat} {isFirst : Bool}
    {chars behind valueText rest after : List Char} {key : String} {value : Value}
    {entries : List (String × Value)}
    (hOpen : ∀ rest, chars ≠ '\x7d' :: rest)
    (hBehind : (if isFirst then some chars else behindWord? "," chars) = some behind)
    (hKey : skipBlanks behind = (jsonText key).toList ++ ':' :: valueText)
    (hValue : readValue fuel valueText = some (value, rest))
    (hEntries : readEntries fuel false (skipBlanks rest) = some (entries, after)) :
    readEntries (fuel + 1) isFirst chars = some ((key, value) :: entries, after) := by
  have hQuote : behindWord? "\"" ((jsonText key).toList ++ ':' :: valueText) =
      some (key.toList.flatMap escape ++ '"' :: ':' :: valueText) := by
    rw [toList_jsonText, List.cons_append, List.append_assoc]
    exact behindWord?_append "\"" _
  have hColon : behindWord? ":" (skipBlanks (':' :: valueText)) = some valueText := by
    rw [skipBlanks_cons rfl]
    exact behindWord?_append ":" valueText
  have hRound : ((behindWord? "\"" (skipBlanks behind)).bind fun keyText =>
      (readLiteral keyText).bind fun read =>
      (behindWord? ":" (skipBlanks read.2)).bind fun valueText =>
      (readValue fuel valueText).bind fun found =>
      (readEntries fuel false (skipBlanks found.2)).bind fun others =>
      some ((read.1.replaced, found.1) :: others.1, others.2)) =
        some ((key, value) :: entries, after) := by
    rw [hKey, hQuote, Option.bind_some, readLiteral_text, Option.bind_some, hColon,
      Option.bind_some, hValue, Option.bind_some, hEntries, Option.bind_some, replaced_ofText]
  rw [readEntries.eq_3 _ _ _ hOpen]
  cases isFirst with
  | true =>
      obtain rfl : chars = behind := Option.some.inj hBehind
      exact hRound
  | false => exact (congrArg (Option.bind · _) hBehind).trans hRound

/-! ## One round of fuel after another -/

/-- The text of items, the first ones or ones that follow others. -/
def itemsText (isFirst : Bool) (items : List Value) : List Char :=
  if isFirst then (jsonItems items).toList else itemsBehind items

/-- The text of entries, the first ones or ones that follow others. -/
def entriesText (isFirst : Bool) (entries : List (String × Value)) : List Char :=
  if isFirst then (jsonEntries entries).toList else entriesBehind entries

/-- With so much fuel, values with shorter texts are read back. -/
def ReadsValues (fuel : Nat) : Prop :=
  ∀ value rest, value.isTextual = true → value.json.toList.length + 1 ≤ fuel → EndsNumber rest →
    readValue fuel (value.json.toList ++ rest) = some (value, rest)

/-- With so much fuel, items with shorter texts are read back. -/
def ReadsItems (fuel : Nat) : Prop :=
  ∀ isFirst items rest, areTextual items = true → (itemsText isFirst items).length + 2 ≤ fuel →
    readItems fuel isFirst (skipBlanks (itemsText isFirst items ++ ']' :: rest)) =
      some (items, rest)

/-- With so much fuel, entries with shorter texts are read back. -/
def ReadsEntries (fuel : Nat) : Prop :=
  ∀ isFirst entries rest, entriesTextual entries = true →
    (entriesText isFirst entries).length + 2 ≤ fuel →
    readEntries fuel isFirst (skipBlanks (entriesText isFirst entries ++ '\x7d' :: rest)) =
      some (entries, rest)

theorem readsValues_succ {fuel : Nat} (hItems : ReadsItems fuel) (hEntries : ReadsEntries fuel) :
    ReadsValues (fuel + 1) := by
  intro value rest hTextual hFuel hRest
  cases value with
  | nothing => rfl
  | flag value => cases value <;> rfl
  | number value => exact readValue_json_number value fuel hRest
  | text value => exact readValue_json_text value fuel rest
  | literal value => exact absurd hTextual (by simp [isTextual])
  | list items =>
      rw [isTextual] at hTextual
      rw [toList_json_list] at hFuel ⊢
      rw [List.length_cons, List.length_append, List.length_singleton] at hFuel
      have hRead := hItems true items rest hTextual (by rw [itemsText, if_pos rfl]; omega)
      rw [itemsText, if_pos rfl] at hRead
      rw [List.cons_append, List.append_assoc, List.singleton_append, readValue_bracket, hRead]
      rfl
  | table entries =>
      rw [isTextual] at hTextual
      rw [toList_json_table] at hFuel ⊢
      rw [List.length_cons, List.length_append, List.length_singleton] at hFuel
      have hRead := hEntries true entries rest hTextual (by rw [entriesText, if_pos rfl]; omega)
      rw [entriesText, if_pos rfl] at hRead
      rw [List.cons_append, List.append_assoc, List.singleton_append, readValue_brace, hRead]
      rfl

theorem endsNumber_items (items : List Value) (rest : List Char) :
    EndsNumber (itemsBehind items ++ ']' :: rest) := by
  cases items <;> rintro c ⟨⟩ <;> rfl

theorem endsNumber_entries (entries : List (String × Value)) (rest : List Char) :
    EndsNumber (entriesBehind entries ++ '\x7d' :: rest) := by
  cases entries <;> rintro c ⟨⟩ <;> rfl

theorem readsItems_succ {fuel : Nat} (hValues : ReadsValues fuel) (hItems : ReadsItems fuel) :
    ReadsItems (fuel + 1) := by
  intro isFirst items rest hTextual hFuel
  cases items with
  | nil =>
      have hText : itemsText isFirst [] = [] := by cases isFirst <;> rfl
      rw [hText, List.nil_append, skipBlanks_cons rfl]
      exact readItems_close fuel isFirst rest
  | cons item items =>
      rw [areTextual, Bool.and_eq_true] at hTextual
      have hItem := json_length_pos hTextual.1
      -- The text of the item takes up at least one character, so the fuel lasts for the others.
      have hBoth : item.json.toList.length + 1 ≤ fuel ∧ (itemsBehind items).length + 2 ≤ fuel := by
        cases isFirst with
        | true =>
            rw [itemsText, if_pos rfl, toList_jsonItems_cons, List.length_append] at hFuel
            omega
        | false =>
            rw [itemsText, if_neg Bool.false_ne_true, itemsBehind_cons, List.length_cons,
              List.length_cons, List.length_append] at hFuel
            omega
      have hValue := hValues item _ hTextual.1 hBoth.1 (endsNumber_items items rest)
      have hNext := hItems false items rest hTextual.2 hBoth.2
      cases isFirst with
      | true =>
          rw [itemsText, if_pos rfl, toList_jsonItems_cons, List.append_assoc,
            skipBlanks_json hTextual.1]
          exact readItems_step (json_ne_close hTextual.1 _) (if_pos rfl) hValue hNext
      | false =>
          rw [itemsText, if_neg Bool.false_ne_true, itemsBehind_cons, List.cons_append,
            List.cons_append, List.append_assoc, skipBlanks_cons rfl]
          exact readItems_step (by simp) (behindWord?_append "," _)
            ((readValue_blank fuel _).trans hValue) hNext

theorem readsEntries_succ {fuel : Nat} (hValues : ReadsValues fuel)
    (hEntries : ReadsEntries fuel) : ReadsEntries (fuel + 1) := by
  intro isFirst entries rest hTextual hFuel
  cases entries with
  | nil =>
      have hText : entriesText isFirst [] = [] := by cases isFirst <;> rfl
      rw [hText, List.nil_append, skipBlanks_cons rfl]
      exact readEntries_close fuel isFirst rest
  | cons entry entries =>
      obtain ⟨key, value⟩ := entry
      rw [entriesTextual, Bool.and_eq_true] at hTextual
      have hBoth : value.json.toList.length + 1 ≤ fuel ∧
          (entriesBehind entries).length + 2 ≤ fuel := by
        have hEntry := length_entryText key value
        cases isFirst with
        | true =>
            rw [entriesText, if_pos rfl, toList_jsonEntries_cons, List.length_append] at hFuel
            omega
        | false =>
            rw [entriesText, if_neg Bool.false_ne_true, entriesBehind_cons, List.length_cons,
              List.length_cons, List.length_append] at hFuel
            omega
      have hValue := hValues value _ hTextual.1 hBoth.1 (endsNumber_entries entries rest)
      have hNext := hEntries false entries rest hTextual.2 hBoth.2
      have hRead := (readValue_blank fuel _).trans hValue
      have hEntry : skipBlanks (entryText (key, value) ++
          (entriesBehind entries ++ '\x7d' :: rest)) = (jsonText key).toList ++
            ':' :: ' ' :: (value.json.toList ++ (entriesBehind entries ++ '\x7d' :: rest)) := by
        rw [entryText, List.append_assoc, skipBlanks_jsonText]
        rfl
      cases isFirst with
      | true =>
          rw [entriesText, if_pos rfl, toList_jsonEntries_cons, List.append_assoc, hEntry]
          refine readEntries_step ?_ (if_pos rfl) ?_ hRead hNext
          · simp [toList_jsonText]
          · exact skipBlanks_jsonText key _
      | false =>
          rw [entriesText, if_neg Bool.false_ne_true, entriesBehind_cons, List.cons_append,
            List.cons_append, List.append_assoc, skipBlanks_cons rfl]
          exact readEntries_step (by simp) (behindWord?_append "," _)
            ((skipBlanks_blank _).trans hEntry) hRead hNext

/-- The fuel that the length of the text gives is enough for all parts. -/
theorem reads (fuel : Nat) : ReadsValues fuel ∧ ReadsItems fuel ∧ ReadsEntries fuel := by
  induction fuel with
  | zero =>
      exact ⟨fun _ _ _ h => absurd h (Nat.not_succ_le_zero _),
        fun _ _ _ _ h => absurd h (Nat.not_succ_le_zero _),
        fun _ _ _ _ h => absurd h (Nat.not_succ_le_zero _)⟩
  | succ fuel ih =>
      exact ⟨readsValues_succ ih.2.1 ih.2.2, readsItems_succ ih.1 ih.2.1,
        readsEntries_succ ih.1 ih.2.2⟩

/-- A value without surrogates is read back from its text. -/
theorem ofJson?_json {value : Value} (h : value.isTextual = true) :
    ofJson? value.json = some value := by
  have hRead := (reads (value.json.length + 1)).1 value [] h
    (Nat.le_of_eq (congrArg (· + 1) String.length_toList)) (by rintro c ⟨⟩)
  rw [List.append_nil] at hRead
  rw [ofJson?, hRead]
  rfl

/-- The reader refuses a bell between quotes and a number with zeros in front. -/
example : (ofJson? "[\"\x07\"]").isNone ∧ (ofJson? "[007]").isNone := by decide +kernel

end Value

/-! ## Charts -/

namespace JsonGraph

variable {graph : Graph} {numbering : Numbering}

/-- The object of a node with a name. -/
def nodeObject (graph : Graph) (numbering : Numbering) (id : NodeId) (name : String) : Value :=
  .table [("uid", .text (numbering.nodeId id)), ("label", .text (graph.label id)),
    ("name", .text name)]

/-- A new key goes to the end. -/
theorem put_of_not_mem {key : String} {value : Value} {entries : List (String × Value)}
    (h : key ∉ entries.map Prod.fst) : put key value entries = entries ++ [(key, value)] := by
  induction entries with
  | nil => rfl
  | cons entry rest ih =>
      rw [List.map_cons, List.mem_cons, not_or] at h
      rw [put, if_neg (Ne.symm h.1), ih h.2, List.cons_append]

/-- Nodes with identifiers of their own are written in order, each with its name. -/
theorem exists_names_of_nodes {ids : List NodeId} {entries written : List (String × Value)}
    (hDistinct : (entries.map Prod.fst ++ ids.map numbering.nodeId).Nodup)
    (h : nodes graph numbering entries ids = .ok written) :
    ∃ names : List (NodeId × String), names.map Prod.fst = ids ∧
      (∀ named ∈ names, graph.name named.1 = .ok named.2) ∧
      written = entries ++ names.map fun named =>
        (numbering.nodeId named.1, nodeObject graph numbering named.1 named.2) := by
  induction ids generalizing entries with
  | nil =>
      cases h
      exact ⟨[], rfl, by simp, (List.append_nil _).symm⟩
  | cons id ids ih =>
      obtain ⟨entry, hEntry, h⟩ := exists_of_bind_eq_ok h
      obtain ⟨name, hName, hEntry⟩ := exists_of_bind_eq_ok hEntry
      cases hEntry
      have hNew : numbering.nodeId id ∉ entries.map Prod.fst := fun hMem =>
        (List.nodup_append'.mp hDistinct).2.2 hMem List.mem_cons_self
      rw [put_of_not_mem hNew] at h
      obtain ⟨names, hIds, hNames, rfl⟩ := ih (by simpa using hDistinct) h
      refine ⟨(id, name) :: names, by rw [List.map_cons, hIds], ?_, ?_⟩
      · exact List.forall_mem_cons.mpr ⟨hName, hNames⟩
      · rw [List.append_assoc]
        rfl

theorem entriesTextual_nodeObjects (graph : Graph) (numbering : Numbering)
    (names : List (NodeId × String)) :
    Value.entriesTextual (names.map fun named =>
      (numbering.nodeId named.1, nodeObject graph numbering named.1 named.2)) = true := by
  induction names with
  | nil => rfl
  | cons named names ih => rw [List.map_cons, Value.entriesTextual, ih]; rfl

theorem areTextual_edges (edges : List Edge) :
    Value.areTextual (edges.map (edge numbering)) = true := by
  induction edges with
  | nil => rfl
  | cons edge edges ih => rw [List.map_cons, Value.areTextual, ih]; rfl

/-- Nodes can be written if and only if all of them have names. -/
theorem nodes_isOk_iff {ids : List NodeId} {entries : List (String × Value)} :
    (∃ written, nodes graph numbering entries ids = .ok written) ↔
      ∀ id ∈ ids, ∃ name, graph.name id = .ok name := by
  induction ids generalizing entries with
  | nil => exact ⟨fun _ _ h => absurd h List.not_mem_nil, fun _ => ⟨entries, rfl⟩⟩
  | cons id ids ih =>
      rw [nodes, exists_bind_eq_ok_iff, List.forall_mem_cons]
      constructor
      · rintro ⟨entry, hEntry, hRest⟩
        obtain ⟨name, hName, -⟩ := exists_of_bind_eq_ok hEntry
        exact ⟨⟨name, hName⟩, ih.mp hRest⟩
      · rintro ⟨⟨name, hName⟩, hRest⟩
        exact ⟨_, by rw [node, hName]; rfl, ih.mpr hRest⟩

theorem render_isOk_iff {chart : Chart} :
    (∃ text, render numbering chart = .ok text) ↔
      ∀ id ∈ chart.nodes, ∃ name, chart.graph.name id = .ok name := by
  have hNodes := @nodes_isOk_iff chart.graph numbering chart.nodes []
  rw [← hNodes, render, exists_bind_eq_ok_iff]
  constructor
  · rintro ⟨value, hValue, -⟩
    obtain ⟨entries, hEntries, -⟩ := exists_of_bind_eq_ok hValue
    exact ⟨entries, hEntries⟩
  · rintro ⟨entries, hEntries⟩
    exact ⟨_, by rw [ofChart, hEntries]; rfl, _, rfl⟩

/-- A chart is written in printable ASCII characters and read back from its text. If its nodes have identifiers of their own and its edges
run between them, the text spells one object, which lists the nodes under their identifiers, each
with its label and name as they are, and the edges in order, by identifiers that are listed. -/
theorem decode_render {chart : Chart} (hDistinct : (chart.nodes.map numbering.nodeId).Nodup)
    (hEnds : ∀ edge ∈ chart.edges, edge.source ∈ chart.nodes ∧ edge.target ∈ chart.nodes) :
    ((∃ text, render numbering chart = .ok text) ↔
      ∀ id ∈ chart.nodes, ∃ name, chart.graph.name id = .ok name) ∧
    ∀ text, render numbering chart = .ok text → Value.Printable text.toList ∧
      ∃ nodes edges, Value.ofJson? text = some (.table [("graph", .table
          [("directed", .flag true), ("nodes", .table nodes), ("edges", .list edges)])]) ∧
        nodes.map Prod.fst = chart.nodes.map numbering.nodeId ∧
        (∀ id ∈ chart.nodes, ∃ name, chart.graph.name id = .ok name ∧
          nodes.lookup (numbering.nodeId id) =
            some (nodeObject chart.graph numbering id name)) ∧
        edges = chart.edges.map (fun edge => .table
          [("source", .text (numbering.nodeId edge.source)),
            ("target", .text (numbering.nodeId edge.target)), ("directed", .flag true)]) ∧
        ∀ edge ∈ chart.edges, (nodes.lookup (numbering.nodeId edge.source)).isSome ∧
          (nodes.lookup (numbering.nodeId edge.target)).isSome := by
  refine ⟨render_isOk_iff, fun text h => ?_⟩
  obtain ⟨value, hValue, h⟩ := exists_of_bind_eq_ok h
  cases h
  obtain ⟨entries, hEntries, hValue⟩ := exists_of_bind_eq_ok hValue
  cases hValue
  have hNew : ((List.map Prod.fst ([] : List (String × Value))) ++
      chart.nodes.map numbering.nodeId).Nodup := hDistinct
  obtain ⟨names, hIds, hNames, rfl⟩ := exists_names_of_nodes hNew hEntries
  rw [List.nil_append] at hEntries ⊢
  generalize hNodes : (names.map fun named =>
    (numbering.nodeId named.1, nodeObject chart.graph numbering named.1 named.2)) = nodes
  have hKeys : nodes.map Prod.fst = chart.nodes.map numbering.nodeId := by
    rw [← hNodes, ← hIds, List.map_map, List.map_map]
    rfl
  have hLookup : ∀ id ∈ chart.nodes, ∃ name, chart.graph.name id = .ok name ∧
      nodes.lookup (numbering.nodeId id) = some (nodeObject chart.graph numbering id name) := by
    intro id hId
    obtain ⟨named, hNamed, rfl⟩ := List.mem_map.mp (hIds ▸ hId)
    refine ⟨named.2, hNames named hNamed, lookup_of_mem (hKeys ▸ hDistinct) ?_⟩
    rw [← hNodes]
    exact List.mem_map.mpr ⟨named, hNamed, rfl⟩
  have hListed : ∀ id ∈ chart.nodes, (nodes.lookup (numbering.nodeId id)).isSome := by
    intro id hId
    obtain ⟨name, -, hFound⟩ := hLookup id hId
    rw [hFound]
    rfl
  refine ⟨Value.printable_json _, nodes, _, Value.ofJson?_json ?_, hKeys, hLookup, rfl, fun edge hEdge =>
    ⟨hListed _ (hEnds edge hEdge).1, hListed _ (hEnds edge hEdge).2⟩⟩
  have hTextual := entriesTextual_nodeObjects chart.graph numbering names
  rw [hNodes] at hTextual
  simp only [Value.isTextual, Value.entriesTextual, hTextual, areTextual_edges, Bool.and_self]

/-- A file and two functions with quotes, a backslash, a line break, a bell and characters beyond
the basic plane in their names. -/
def oddNames : Chart :=
  { graph :=
      { groups := #[{ token := "a\"\\\n😀", kind := .file, display := "File", nodes := [⟨0⟩, ⟨1⟩] }]
        nodes := #[{ token := "f\x07", parent := .group ⟨0⟩ },
          { token := "𝔤\"", parent := .group ⟨0⟩ }] }
    files := [⟨0⟩]
    nodes := [⟨0⟩, ⟨1⟩]
    edges := [⟨⟨1⟩, ⟨0⟩, none⟩, ⟨⟨0⟩, ⟨0⟩, none⟩] }

/-- The odd names are read back as they are. -/
theorem decode_render_oddNames :
    (oddNames.nodes.map (Numbering.byAppearance oddNames).nodeId).Nodup ∧
    (∀ edge ∈ oddNames.edges, edge.source ∈ oddNames.nodes ∧ edge.target ∈ oddNames.nodes) ∧
    ∃ text nodes edges, render (Numbering.byAppearance oddNames) oddNames = .ok text ∧
      Value.Printable text.toList ∧ Value.ofJson? text = some (.table [("graph", .table
        [("directed", .flag true), ("nodes", .table nodes), ("edges", .list edges)])]) ∧
      nodes.lookup "node_00000001" = some (.table [("uid", .text "node_00000001"),
        ("label", .text "𝔤\"()"), ("name", .text "a\"\\\n😀::𝔤\"")]) := by
  have hDistinct : (oddNames.nodes.map (Numbering.byAppearance oddNames).nodeId).Nodup := by
    decide +kernel
  have hEnds : ∀ edge ∈ oddNames.edges,
      edge.source ∈ oddNames.nodes ∧ edge.target ∈ oddNames.nodes := by
    decide +kernel
  have hNames : ∀ id ∈ oddNames.nodes, oddNames.graph.name id =
      .ok ("a\"\\\n😀::" ++ (oddNames.graph.node id).token) := by
    decide +kernel
  have hDecode := decode_render hDistinct hEnds
  obtain ⟨text, hText⟩ := hDecode.1.mpr fun id hId => ⟨_, hNames id hId⟩
  obtain ⟨hPrintable, nodes, edges, hRead, -, hLookup, -⟩ := hDecode.2 text hText
  have hId : (⟨1⟩ : NodeId) ∈ oddNames.nodes := by decide
  obtain ⟨name, hName, hFound⟩ := hLookup ⟨1⟩ hId
  have hKey : (Numbering.byAppearance oddNames).nodeId ⟨1⟩ = "node_00000001" := by
    decide +kernel
  have hLabel : oddNames.graph.label ⟨1⟩ = "𝔤\"()" := by decide +kernel
  obtain rfl : name = "a\"\\\n😀::𝔤\"" :=
    Except.ok.inj (hName.symm.trans (by decide +kernel))
  refine ⟨hDistinct, hEnds, text, nodes, edges, hText, hPrintable, hRead, ?_⟩
  rw [← hKey, hFound, nodeObject, hKey, hLabel]

end JsonGraph

end CallGraph
