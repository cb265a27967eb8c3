import SeriesLang.Json.Kept
import SeriesLang.Proofs.Json.Text
import SeriesLang.Proofs.Sorted

/-! # Reading JSON values back

A value that is written and read again comes back part by part. Only numbers may change: a float is not always
read as the one that was written, a float that JSON has no number for comes back as `null`, and a whole number
of more than 64 bits comes back as a float.
-/

namespace SeriesLang.Json

mutual

/-- What the text of a value is read as. -/
def reread? : Json → Option Json
  | .null => some .null
  | .bool b => some (.bool b)
  | .int n => ofNumber? (toString n).toList
  | .float v => if v.isFinite then ofNumber? (Decimal.chars .json v) else some .null
  | .str s => some (.str s)
  | .arr items => (rereadItems? items).map .arr
  | .obj fields => (rereadFields? fields).map ofFields

def rereadItems? : List Json → Option (List Json)
  | [] => some []
  | item :: rest => do return (← reread? item) :: (← rereadItems? rest)

def rereadFields? : List (String × Json) → Option (List (String × Json))
  | [] => some []
  | (name, value) :: rest => do return (name, ← reread? value) :: (← rereadFields? rest)

end

theorem skipSpace_cons {c : Char} (h : isSpace c = false) (cs : List Char) : skipSpace (c :: cs) = c :: cs :=
  List.dropWhile_cons_of_neg (Bool.eq_false_iff.1 h)

section Numbers

/-- Does what stands behind a number end it? -/
def EndsNumber (rest : List Char) : Prop :=
  ∀ c ∈ rest.head?, isNumeric c = false

theorem isNumeric_of_spells {c : Char} (h : Numeral.Spells c) : isNumeric c = true := by
  rcases h with digit | sign
  · simp [isNumeric, digit]
  · revert c
    simp only [List.mem_cons, List.not_mem_nil, or_false]
    rintro c (rfl | rfl | rfl | rfl | rfl) <;> rfl

theorem ne_of_isNumeric {c d : Char} (h : isNumeric c = true) (other : isNumeric d = false) : c ≠ d := by
  rintro rfl
  cases h.symm.trans other

theorem isSpace_of_isNumeric {c : Char} (h : isNumeric c = true) : isSpace c = false := by
  have apart {d : Char} (other : isNumeric d = false) : c ≠ d := ne_of_isNumeric h other
  simp [isSpace, apart (d := ' ') rfl, apart (d := '\t') rfl, apart (d := '\n') rfl, apart (d := '\r') rfl]

theorem numeral_of_isFinite {v : Float} (finite : v.isFinite = true) :
    ∃ n, Numeral.ofChars? (Decimal.chars .json v) = some n :=
  (Decimal.ofChars?_chars rfl finite).imp fun _ h => h.1

/-- A numeral has a first character, and all of them belong to a number. -/
theorem numeral_cons {cs : List Char} {n : Numeral} (h : Numeral.ofChars? cs = some n) :
    (∀ c ∈ cs, isNumeric c = true) ∧ ∃ c rest, cs = c :: rest ∧ isNumeric c = true := by
  have all : ∀ c ∈ cs, isNumeric c = true :=
    fun c hc => isNumeric_of_spells (Numeral.spells_of_ofChars? h c hc)
  cases cs with
  | nil => cases h
  | cons c rest => exact ⟨all, c, rest, rfl, all c List.mem_cons_self⟩

theorem readValue_numeric (fuel : Nat) {c : Char} (h : isNumeric c = true) (rest : List Char) :
    readValue (fuel + 1) (c :: rest) =
      (ofNumber? ((c :: rest).takeWhile isNumeric)).map (·, (c :: rest).dropWhile isNumeric) := by
  rw [readValue, skipSpace_cons (isSpace_of_isNumeric h)]
  split
  -- The first character starts none of the other values.
  iterate 6
    rename_i same
    cases same
    exact absurd h (by decide)
  rfl

/-- A number is read up to its end. -/
theorem readValue_numeral (fuel : Nat) {cs : List Char} {n : Numeral} (h : Numeral.ofChars? cs = some n)
    {rest : List Char} (ends : EndsNumber rest) :
    readValue (fuel + 1) (cs ++ rest) = (ofNumber? cs).map (·, rest) := by
  obtain ⟨all, c, more, rfl, first⟩ := numeral_cons h
  have stop : rest.takeWhile isNumeric = [] ∧ rest.dropWhile isNumeric = rest := by
    cases rest with
    | nil => exact ⟨rfl, rfl⟩
    | cons d rest =>
        have other : ¬isNumeric d = true := Bool.eq_false_iff.1 (ends d rfl)
        exact ⟨List.takeWhile_cons_of_neg other, List.dropWhile_cons_of_neg other⟩
  have read := readValue_numeric fuel first (more ++ rest)
  rwa [← List.cons_append, List.takeWhile_append_of_pos all, List.dropWhile_append_of_pos all, stop.1, stop.2,
    List.append_nil] at read

end Numbers

section Values

/-- The text of a value begins with a character that is no blank and that closes no array. -/
theorem chars_cons (json : Json) : ∃ c rest, chars json = c :: rest ∧ isSpace c = false ∧ c ≠ ']' := by
  have number {cs : List Char} {n : Numeral} (h : Numeral.ofChars? cs = some n) :
      ∃ c rest, cs = c :: rest ∧ isSpace c = false ∧ c ≠ ']' := by
    obtain ⟨-, c, rest, rfl, first⟩ := numeral_cons h
    exact ⟨c, rest, rfl, isSpace_of_isNumeric first, ne_of_isNumeric first rfl⟩
  cases json with
  | null => exact ⟨'n', _, rfl, rfl, by decide⟩
  | bool b => cases b <;> exact ⟨_, _, rfl, rfl, by decide⟩
  | int n => exact number (Numeral.ofChars?_toString n)
  | float v =>
      rw [chars]
      split
      · rename_i finite
        obtain ⟨numeral, read⟩ := numeral_of_isFinite finite
        exact number read
      · exact ⟨'n', _, rfl, rfl, by decide⟩
  | str s => exact ⟨'"', _, rfl, rfl, by decide⟩
  | arr items => exact ⟨'[', _, rfl, rfl, by decide⟩
  | obj fields => exact ⟨'{', _, rfl, rfl, by decide⟩

theorem skipSpace_chars (json : Json) (rest : List Char) : skipSpace (chars json ++ rest) = chars json ++ rest := by
  obtain ⟨c, more, same, space, -⟩ := chars_cons json
  rw [same, List.cons_append, skipSpace_cons space]

theorem readValue_array (fuel : Nat) (item : Json) (rest : List Char) :
    readValue (fuel + 1) ('[' :: (chars item ++ rest)) =
      (readItems fuel [] (chars item ++ rest)).map (fun found => (.arr found.1, found.2)) := by
  obtain ⟨c, more, same, -, opens⟩ := chars_cons item
  simp only [readValue, skipSpace_cons (c := '[') rfl]
  rw [skipSpace_chars, same]
  split
  · rename_i closed
    exact absurd (List.cons.inj closed).1 opens
  · rfl

theorem endsNumber_itemChars (items : List Json) (rest : List Char) :
    EndsNumber (itemChars [','] items ++ ']' :: rest) := by
  cases items <;> rintro c ⟨⟩ <;> rfl

theorem endsNumber_fieldChars (fields : List (String × Json)) (rest : List Char) :
    EndsNumber (fieldChars [','] fields ++ '}' :: rest) := by
  cases fields <;> rintro c ⟨⟩ <;> rfl

section Field

variable {fuel : Nat} (seen : List (String × Json)) (name : String) {cs rest : List Char} {result : Option Json}

/-- A field is read that another one follows. -/
theorem readFields_more (read : readValue fuel cs = result.map (·, ',' :: rest)) :
    readFields (fuel + 1) seen ('"' :: (escaped name.toList ++ '"' :: ':' :: cs)) =
      result.bind fun value => readFields fuel (Sorted.put name value seen) rest := by
  simp only [readFields, skipSpace_cons (c := '"') rfl, readString_quoted, String.ofList_toList,
    skipSpace_cons (c := ':') rfl, read, Option.bind_eq_bind, Option.bind_some]
  cases result with
  | none => rfl
  | some value => simp only [Option.map_some, Option.bind_some, skipSpace_cons (c := ',') rfl]

/-- The last field is read, with the brace behind it. -/
theorem readFields_last (read : readValue fuel cs = result.map (·, '}' :: rest)) :
    readFields (fuel + 1) seen ('"' :: (escaped name.toList ++ '"' :: ':' :: cs)) =
      result.map fun value => (Sorted.put name value seen, rest) := by
  simp only [readFields, skipSpace_cons (c := '"') rfl, readString_quoted, String.ofList_toList,
    skipSpace_cons (c := ':') rfl, read, Option.bind_eq_bind, Option.bind_some]
  cases result with
  | none => rfl
  | some value => simp only [Option.map_some, Option.bind_some, skipSpace_cons (c := '}') rfl]

end Field

theorem itemChars_separated {items : List Json} (some : items ≠ []) :
    itemChars [','] items = ',' :: itemChars [] items := by
  cases items with
  | nil => exact absurd rfl some
  | cons item items => rfl

theorem fieldChars_separated {fields : List (String × Json)} (some : fields ≠ []) :
    fieldChars [','] fields = ',' :: fieldChars [] fields := by
  cases fields with
  | nil => exact absurd rfl some
  | cons field fields => rfl

mutual

/-- The text of a value is read up to its end. -/
theorem readValue_chars (json : Json) {fuel : Nat} (room : 2 * (chars json).length ≤ fuel) {rest : List Char}
    (ends : EndsNumber rest) : readValue fuel (chars json ++ rest) = (reread? json).map (·, rest) := by
  obtain ⟨fuel, rfl⟩ : ∃ n, fuel = n + 1 := by
    obtain ⟨c, more, same, -⟩ := chars_cons json
    rw [same, List.length_cons] at room
    exact ⟨fuel - 1, by omega⟩
  match json with
  | .null => rfl
  | .bool true => rfl
  | .bool false => rfl
  | .int n => exact readValue_numeral fuel (Numeral.ofChars?_toString n) ends
  | .float v =>
      rw [chars, reread?]
      split
      · rename_i finite
        obtain ⟨numeral, read⟩ := numeral_of_isFinite finite
        exact readValue_numeral fuel read ends
      · rfl
  | .str s =>
      rw [chars, List.cons_append, List.append_assoc, List.singleton_append]
      show (readString _ [] _).map _ = _
      rw [readString_quoted, String.ofList_toList]
      rfl
  | .arr [] => rfl
  | .arr (item :: items) =>
      have inner : 2 * (itemChars [] (item :: items)).length < fuel := by
        simp only [chars, List.length_cons, List.length_append, List.length_nil] at room
        omega
      have read := readItems_chars (item :: items) (List.cons_ne_nil _ _) inner [] rest
      rw [itemChars, List.nil_append, List.append_assoc] at read
      rw [chars, itemChars, List.nil_append, List.cons_append, List.append_assoc, List.append_assoc,
        List.singleton_append, readValue_array, read, reread?, Option.map_map, Option.map_map]
      rfl
  | .obj [] => rfl
  | .obj ((name, value) :: fields) =>
      have inner : 2 * (fieldChars [] ((name, value) :: fields)).length < fuel := by
        simp only [chars, List.length_cons, List.length_append, List.length_nil] at room
        omega
      have read := readFields_chars ((name, value) :: fields) (List.cons_ne_nil _ _) inner [] rest
      rw [chars, List.cons_append, List.append_assoc, List.singleton_append]
      show (readFields fuel [] (fieldChars [] ((name, value) :: fields) ++ '}' :: rest)).map _ = _
      rw [read, reread?, Option.map_map, Option.map_map]
      rfl

theorem readItems_chars (items : List Json) (some : items ≠ []) {fuel : Nat}
    (room : 2 * (itemChars [] items).length < fuel) (seen : List Json) (rest : List Char) :
    readItems fuel seen (itemChars [] items ++ ']' :: rest) =
      (rereadItems? items).map fun found => (seen.reverse ++ found, rest) := by
  obtain ⟨fuel, rfl⟩ : ∃ n, fuel = n + 1 := ⟨fuel - 1, by omega⟩
  match items with
  | [] => exact absurd rfl some
  | item :: items =>
      rw [itemChars, List.nil_append, List.length_append] at room
      rw [itemChars, List.nil_append, List.append_assoc, readItems,
        readValue_chars item (by omega) (endsNumber_itemChars items rest), rereadItems?]
      cases reread? item with
      | none => rfl
      | some found =>
          by_cases last : items = []
          · subst last
            simp [itemChars, skipSpace, isSpace, rereadItems?]
          · have later := itemChars_separated last
            rw [later, List.length_cons] at room
            have inner : 2 * (itemChars [] items).length < fuel := by omega
            have read := readItems_chars items last inner (found :: seen) rest
            rw [later]
            show readItems fuel (found :: seen) (itemChars [] items ++ ']' :: rest) = _
            rw [read]
            cases rereadItems? items with
            | none => rfl
            | some more => simp

theorem readFields_chars (fields : List (String × Json)) (some : fields ≠ []) {fuel : Nat}
    (room : 2 * (fieldChars [] fields).length < fuel) (seen : List (String × Json)) (rest : List Char) :
    readFields fuel seen (fieldChars [] fields ++ '}' :: rest) =
      (rereadFields? fields).map fun found => (Sorted.putAll found seen, rest) := by
  obtain ⟨fuel, rfl⟩ : ∃ n, fuel = n + 1 := ⟨fuel - 1, by omega⟩
  match fields with
  | [] => exact absurd rfl some
  | (name, value) :: fields =>
      simp only [fieldChars, List.nil_append, List.length_cons, List.length_append] at room
      have first : 2 * (chars value).length ≤ fuel := by omega
      have valued := readValue_chars value first (endsNumber_fieldChars fields rest)
      simp only [fieldChars, List.nil_append, List.cons_append, List.append_assoc]
      by_cases last : fields = []
      · subst last
        rw [rereadFields?, rereadFields?, fieldChars, List.nil_append]
        rw [fieldChars, List.nil_append] at valued
        rw [readFields_last seen name valued]
        cases reread? value <;> rfl
      · have later := fieldChars_separated last
        rw [later, List.length_cons] at room
        have inner : 2 * (fieldChars [] fields).length < fuel := by omega
        rw [later, List.cons_append] at valued ⊢
        rw [readFields_more seen name valued, rereadFields?]
        cases reread? value with
        | none => rfl
        | some found =>
            rw [Option.bind_some, readFields_chars fields last inner (Sorted.put name found seen) rest]
            cases rereadFields? fields <;> rfl

end

end Values

/-- The text of a value is read as what it is reread as. -/
theorem ofString?_render (json : Json) : ofString? json.render = reread? json := by
  have room : 2 * (chars json).length ≤ 2 * (chars json).length + 2 := Nat.le_add_right _ 2
  have ends : EndsNumber [] := nofun
  have read := readValue_chars json room ends
  rw [List.append_nil] at read
  rw [ofString?, toList_render]
  simp only [read]
  cases reread? json <;> rfl

theorem kept_eq (json : Json) : kept json = (reread? json).getD json := by
  rw [kept, ofString?_render]

section Plain

mutual

/-- No part of the value is a float or a whole number of more than 64 bits, and fields are in order. -/
def Plain : Json → Prop
  | .null | .bool _ | .str _ => True
  | .int n => -9223372036854775808 ≤ n ∧ n ≤ 18446744073709551615
  | .float _ => False
  | .arr items => PlainItems items
  | .obj fields => Sorted.Ascending fields ∧ PlainFields fields

def PlainItems : List Json → Prop
  | [] => True
  | item :: rest => Plain item ∧ PlainItems rest

def PlainFields : List (String × Json) → Prop
  | [] => True
  | (_, value) :: rest => Plain value ∧ PlainFields rest

end

theorem ofNumber?_int {n : Int} (least : -9223372036854775808 ≤ n) (greatest : n ≤ 18446744073709551615) :
    ofNumber? (toString n).toList = some (.int n) := by
  have unsigned : (toString n).toList.head? ≠ some '+' := by
    intro plus
    have member := List.mem_of_head? plus
    rw [Decimal.toList_toString_int, List.mem_append] at member
    rcases member with sign | digit
    · revert sign
      cases decide (n < 0) <;> decide
    · exact absurd (Decimal.isDigit_of_mem_digitsOf digit) (by decide)
  have whole : (Decimal.digitsOf n.natAbs).isEmpty = false := by
    simpa using Decimal.digitsOf_ne_nil n.natAbs
  have nonzero : (decide (n < 0) && n == 0) = false := by
    simp
    omega
  simp only [ofNumber?, Numeral.ofChars?_toString, Option.bind_eq_bind, Option.bind_some, Numeral.toInt_digitsOf]
  rw [if_neg (by simpa [whole] using unsigned), if_pos (by simp [Numeral.isInteger, least, greatest, nonzero])]
  rfl

mutual

theorem Plain.reread : {json : Json} → (h : json.Plain) → reread? json = some json
  | .null, _ | .bool _, _ | .str _, _ => rfl
  | .int _, h => ofNumber?_int h.1 h.2
  | .arr items, h => by
      have same : rereadItems? items = some items := PlainItems.reread h
      rw [reread?, same, Option.map_some]
  | .obj fields, h => by
      have same : rereadFields? fields = some fields := PlainFields.reread h.2
      have sorted : Sorted.putAll fields [] = [] ++ fields := Sorted.putAll_of_ascending h.1
      rw [reread?, same, Option.map_some, ofFields, sorted, List.nil_append]

theorem PlainItems.reread : {items : List Json} → (h : PlainItems items) → rereadItems? items = some items
  | [], _ => rfl
  | item :: rest, h => by
      have first : reread? item = some item := Plain.reread h.1
      rw [rereadItems?, first, PlainItems.reread h.2]
      rfl

theorem PlainFields.reread : {fields : List (String × Json)} → (h : PlainFields fields) →
    rereadFields? fields = some fields
  | [], _ => rfl
  | (_, value) :: rest, h => by
      have first : reread? value = some value := Plain.reread h.1
      rw [rereadFields?, first, PlainFields.reread h.2]
      rfl

end

end Plain

/-- What becomes of a value that is written and read back, as often as it happens. -/
def Reread : Json → Json → Prop :=
  Relation.ReflTransGen fun v w => reread? v = some w

theorem Reread.eq {v w : Json} (h : Reread v w) (plain : v.Plain) : w = v := by
  induction h with
  | refl => rfl
  | tail _ last ih =>
      subst ih
      exact Option.some.inj (last.symm.trans plain.reread)

section Fields

theorem rereadFields?_cons {name : String} {value : Json} {fields found : List (String × Json)}
    (h : rereadFields? ((name, value) :: fields) = some found) :
    ∃ v rest, reread? value = some v ∧ rereadFields? fields = some rest ∧ found = (name, v) :: rest := by
  rw [rereadFields?] at h
  obtain ⟨v, first, h⟩ := Option.bind_eq_some_iff.1 h
  obtain ⟨rest, later, h⟩ := Option.bind_eq_some_iff.1 h
  cases h
  exact ⟨v, rest, first, later, rfl⟩

theorem keys_rereadFields? {fields found : List (String × Json)} (h : rereadFields? fields = some found) :
    found.map Prod.fst = fields.map Prod.fst := by
  induction fields generalizing found with
  | nil =>
      cases h
      rfl
  | cons field fields ih =>
      obtain ⟨v, rest, -, later, rfl⟩ := rereadFields?_cons h
      rw [List.map_cons, List.map_cons, ih later]

theorem get?_rereadFields? {fields found : List (String × Json)} (h : rereadFields? fields = some found)
    {key : String} {v : Json} (known : Sorted.get? key fields = some v) :
    ∃ w, Sorted.get? key found = some w ∧ reread? v = some w := by
  induction fields generalizing found with
  | nil => cases known
  | cons field fields ih =>
      obtain ⟨w, rest, first, later, rfl⟩ := rereadFields?_cons h
      rw [Sorted.get?_cons] at known ⊢
      split at known
      · rename_i here
        cases known
        exact ⟨w, if_pos here, first⟩
      · rename_i apart
        rw [if_neg apart]
        exact ih later known

/-- An object is kept as an object, each field by itself. -/
theorem kept_obj {fields : List (String × Json)} (h : Sorted.Ascending fields) :
    ∃ found, kept (.obj fields) = .obj found ∧ Sorted.Ascending found ∧
      ∀ {key v}, Sorted.get? key fields = some v → ∃ w, Sorted.get? key found = some w ∧ Reread v w := by
  rw [kept_eq, reread?]
  cases read : rereadFields? fields with
  | none => exact ⟨fields, rfl, h, fun {_ v} known => ⟨v, known, .refl⟩⟩
  | some found =>
      have distinct : (found.map Prod.fst).Nodup := keys_rereadFields? read ▸ h.nodup
      refine ⟨Sorted.putAll found [], rfl, .putAll .nil found, fun known => ?_⟩
      obtain ⟨w, same, once⟩ := get?_rereadFields? read known
      exact ⟨w, by rw [Sorted.get?_putAll distinct, same]; rfl, .single once⟩

end Fields

end SeriesLang.Json
