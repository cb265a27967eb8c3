import SeriesLang.Json.Reader
import SeriesLang.Json.Writer
import SeriesLang.Proofs.Decimal.RoundTrip

/-! # The texts of JSON values

The characters that are written for a value, and what the reader makes of those of a string or a number, whatever
stands behind them.
-/

namespace SeriesLang.Json

/-- The characters of a string without its quotes. -/
def escaped (cs : List Char) : List Char :=
  cs.flatMap fun c => (escape c).toList

mutual

/-- The characters of a value. -/
def chars : Json → List Char
  | .null => "null".toList
  | .bool b => (if b then "true" else "false").toList
  | .int n => (toString n).toList
  | .float v => if v.isFinite then Decimal.chars .json v else "null".toList
  | .str s => '"' :: (escaped s.toList ++ ['"'])
  | .arr items => '[' :: (itemChars [] items ++ [']'])
  | .obj fields => '{' :: (fieldChars [] fields ++ ['}'])

/-- The characters of the items of an array, the first one behind a separator. -/
def itemChars (separator : List Char) : List Json → List Char
  | [] => []
  | item :: rest => separator ++ (chars item ++ itemChars [','] rest)

/-- The characters of the fields of an object, the first one behind a separator. -/
def fieldChars (separator : List Char) : List (String × Json) → List Char
  | [] => []
  | (name, value) :: rest =>
    separator ++ ('"' :: (escaped name.toList ++ '"' :: ':' :: (chars value ++ fieldChars [','] rest)))

end

theorem toList_renderString (s : String) : (renderString s).toList = '"' :: (escaped s.toList ++ ['"']) := by
  have body (cs : List Char) (out : String) :
      (cs.foldl (fun out c => out ++ escape c) out).toList = out.toList ++ escaped cs := by
    induction cs generalizing out with
    | nil => simp [escaped]
    | cons c cs ih => simp [ih, escaped]
  rw [renderString, String.foldl_eq_foldl_toList, String.toList_append, String.toList_append, body]
  rfl

mutual

theorem toList_renderOnto (out : String) (json : Json) :
    (renderOnto out json).toList = out.toList ++ chars json := by
  cases json with
  | null => exact String.toList_append
  | bool b => exact String.toList_append
  | int n => exact String.toList_append
  | float v =>
      rw [renderOnto, String.toList_append, chars]
      split
      · rw [Decimal.text, String.toList_ofList]
      · rfl
  | str s => rw [renderOnto, String.toList_append, toList_renderString, chars]
  | arr items =>
      rw [renderOnto, String.toList_push, toList_renderItems, String.toList_push, chars]
      simp
  | obj fields =>
      rw [renderOnto, String.toList_push, toList_renderFields, String.toList_push, chars]
      simp

theorem toList_renderItems (out separator : String) (items : List Json) :
    (renderItems out separator items).toList = out.toList ++ itemChars separator.toList items := by
  match items with
  | [] => simp [renderItems, itemChars]
  | item :: rest =>
      rw [renderItems, toList_renderItems, toList_renderOnto, String.toList_append, itemChars]
      simp

theorem toList_renderFields (out separator : String) (fields : List (String × Json)) :
    (renderFields out separator fields).toList = out.toList ++ fieldChars separator.toList fields := by
  match fields with
  | [] => simp [renderFields, fieldChars]
  | (name, value) :: rest =>
      rw [renderFields, toList_renderFields, toList_renderOnto, fieldChars]
      simp [toList_renderString]

end

theorem toList_render (json : Json) : json.render.toList = chars json :=
  toList_renderOnto "" json

section Strings

theorem hexDigit?_digitChar : ∀ n < 16, hexDigit? (Nat.digitChar n) = some n := by
  decide

/-- A quote and a backslash are written behind a backslash, a control character by its number, and any other
    character as it is. -/
theorem toList_escape (c : Char) : (escape c).toList =
    if c = '"' ∨ c = '\\' then ['\\', c]
    else if c.toNat < 32 then
      ['\\', 'u', '0', '0', Nat.digitChar (c.toNat / 16), Nat.digitChar (c.toNat % 16)]
    else [c] := by
  have single (d : Char) : (toString d).toList = [d] := String.toList_singleton d
  unfold escape
  by_cases quote : c = '"'
  · subst quote
    rfl
  by_cases slash : c = '\\'
  · subst slash
    rfl
  rw [if_neg quote, if_neg slash, if_neg (not_or.2 ⟨quote, slash⟩)]
  split
  · simp only [String.toList_append, single]
    rfl
  · exact single c

theorem length_escape_pos (c : Char) : 0 < (escape c).toList.length := by
  rw [toList_escape]
  split
  · exact Nat.zero_lt_succ _
  · split <;> exact Nat.zero_lt_succ _

theorem escapedUnit?_control {c : Char} (control : c.toNat < 32) (rest : List Char) :
    escapedUnit? ('0' :: '0' :: Nat.digitChar (c.toNat / 16) :: Nat.digitChar (c.toNat % 16) :: rest) =
      some (c, rest) := by
  have unit : hexUnit? ('0' :: '0' :: Nat.digitChar (c.toNat / 16) :: Nat.digitChar (c.toNat % 16) :: rest) =
      some (c.toNat, rest) := by
    have zero : hexDigit? '0' = some 0 := rfl
    have same : ((0 * 16 + 0) * 16 + c.toNat / 16) * 16 + c.toNat % 16 = c.toNat := by omega
    simp only [hexUnit?, zero, hexDigit?_digitChar _ (show c.toNat / 16 < 16 by omega),
      hexDigit?_digitChar _ (show c.toNat % 16 < 16 by omega), Option.bind_eq_bind, Option.bind_some, same]
    rfl
  have low : ¬(0xD800 ≤ c.toNat ∧ c.toNat < 0xDC00) := by omega
  have high : ¬(0xDC00 ≤ c.toNat ∧ c.toNat < 0xE000) := by omega
  simp only [escapedUnit?, unit, Option.bind_eq_bind, Option.bind_some, if_neg low, if_neg high, Char.ofNat_toNat]
  rfl

/-- What is written for a character is read as this character. -/
theorem readString_escape (fuel : Nat) (seen : List Char) (c : Char) (rest : List Char) :
    readString (fuel + 1) seen ((escape c).toList ++ rest) = readString fuel (c :: seen) rest := by
  rw [toList_escape]
  split
  · rename_i marked
    rcases marked with rfl | rfl <;> rfl
  · rename_i plain
    obtain ⟨quote, slash⟩ := not_or.1 plain
    split
    · rename_i control
      simp only [List.cons_append, List.nil_append, readString, escapedUnit?_control control, Option.bind_eq_bind,
        Option.bind_some]
    · rename_i large
      rw [List.singleton_append, readString]
      · rw [if_neg large]
      all_goals simp_all

/-- What is written for a string is read as this string, up to its quote. -/
theorem readString_escaped {fuel : Nat} {cs : List Char} (room : (escaped cs).length < fuel) (seen rest : List Char) :
    readString fuel seen (escaped cs ++ '"' :: rest) = some (String.ofList (seen.reverse ++ cs), rest) := by
  induction cs generalizing fuel seen with
  | nil =>
      obtain ⟨fuel, rfl⟩ := Nat.exists_eq_add_of_lt room
      simp [escaped, readString]
  | cons c cs ih =>
      have more : escaped (c :: cs) = (escape c).toList ++ escaped cs := List.flatMap_cons
      have some := length_escape_pos c
      rw [more, List.length_append] at room
      obtain ⟨fuel, rfl⟩ : ∃ n, fuel = n + 1 := ⟨fuel - 1, by omega⟩
      rw [more, List.append_assoc, readString_escape, ih (by omega)]
      simp

/-- A string is read behind its opening quote. -/
theorem readString_quoted (cs rest : List Char) :
    readString ((escaped cs ++ '"' :: rest).length + 1) [] (escaped cs ++ '"' :: rest) =
      some (String.ofList cs, rest) :=
  readString_escaped (by simp only [List.length_append]; omega) [] rest

end Strings

end SeriesLang.Json
