import Caret.Json.Reader

/-!
# JSON texts without blanks

A document is read back from the text that it is written as. Nothing of a text is left open at its
end, so what follows does not matter, and each step of the reader takes at least one character.
-/

namespace Caret

namespace Json

/-- How a character is written between quotes. Control characters without an escape of their own are
written by number. -/
def escape (c : Char) : List Char :=
  match c with
  | '"' => ['\\', '"']
  | '\\' => ['\\', '\\']
  | '\x08' => ['\\', 'b']
  | '\x0c' => ['\\', 'f']
  | '\n' => ['\\', 'n']
  | '\r' => ['\\', 'r']
  | '\t' => ['\\', 't']
  | c =>
    if c.toNat < 0x20 then
      ['\\', 'u', '0', '0', Nat.digitChar (c.toNat / 16), Nat.digitChar (c.toNat % 16)]
    else [c]

def quoted (text : String) : List Char := '"' :: (text.toList.flatMap escape ++ ['"'])

mutual

/-- What a document is written as, unless there is a number or a text without a value in it. -/
def compact : Json → Option (List Char)
  | null => some "null".toList
  | bool true => some "true".toList
  | bool false => some "false".toList
  | number _ => none
  | string value => value.map quoted
  | array items => (compactItems items).map fun written => '[' :: (written ++ [']'])
  | object members => (compactMembers members).map fun written => '\x7b' :: (written ++ ['\x7d'])

def compactItems : List Json → Option (List Char)
  | [] => some []
  | item :: items => do
    let first ← item.compact
    let rest ← compactItems items
    some (first ++ if items.isEmpty then [] else ',' :: rest)

def compactMembers : List (Option String × Json) → Option (List Char)
  | [] => some []
  | (name, value) :: members => do
    let key ← name.map quoted
    let first ← value.compact
    let rest ← compactMembers members
    some (key ++ ':' :: first ++ if members.isEmpty then [] else ',' :: rest)

end

@[simp]
theorem isSome_compact_text (value : String) : (text value).compact.isSome = true := rfl

@[simp]
theorem isSome_compact_bool (value : Bool) : (bool value).compact.isSome = true := by
  cases value <;> rfl

theorem isSome_compact_object_iff {members : List (Option String × Json)} :
    (object members).compact.isSome = true ↔
      ∀ member ∈ members, member.1.isSome = true ∧ member.2.compact.isSome = true := by
  rw [compact, Option.isSome_map]
  induction members with
  | nil => simp [compactMembers]
  | cons member members ih =>
      rw [List.forall_mem_cons, ← ih]
      obtain ⟨name, value⟩ := member
      cases hvalue : value.compact <;> cases hmembers : compactMembers members <;>
        cases name <;> simp [compactMembers, hvalue, hmembers]

theorem isSome_compact_texts (values : List String) :
    (array (values.map text)).compact.isSome = true := by
  rw [compact, Option.isSome_map]
  induction values with
  | nil => rfl
  | cons value values ih =>
      obtain ⟨rest, hrest⟩ := Option.isSome_iff_exists.1 ih
      simp [compactItems, text, compact] at hrest ⊢
      simp [hrest]

namespace Reader

variable {written : List Char}

/-! ## Texts between quotes -/

theorem hex4_digitChar : ∀ n < 0x20,
    hex4 '0' '0' (Nat.digitChar (n / 16)) (Nat.digitChar (n % 16)) = some n := by decide

/-- A short escape stands for one character. -/
theorem string_of_unescapeOne {c d : Char} (h : unescapeOne c = some d) (rest : List Char) :
    string ('\\' :: c :: rest) = (string rest).map fun read => (read.1.map (d :: ·), read.2) := by
  rw [string]
  · simp [h, Option.map_eq_bind, Function.comp_def]
  · rintro _ _ _ _ _ rfl
    cases h

theorem string_of_control {c : Char} (h : c.toNat < 0x20) (rest : List Char) :
    string ('\\' :: 'u' :: '0' :: '0' :: Nat.digitChar (c.toNat / 16) ::
        Nat.digitChar (c.toNat % 16) :: rest) =
      (string rest).map fun read => (read.1.map (c :: ·), read.2) := by
  have hlow : isLowSurrogate c.toNat = false := by simp [isLowSurrogate]; omega
  have hhigh : isHighSurrogate c.toNat = false := by simp [isHighSurrogate]; omega
  rw [string, hex4_digitChar c.toNat h]
  simp [hlow, hhigh, Option.map_eq_bind, Function.comp_def]

theorem string_of_plain {c : Char} (hquote : c ≠ '"') (hslash : c ≠ '\\') (h : 0x20 ≤ c.toNat)
    (rest : List Char) :
    string (c :: rest) = (string rest).map fun read => (read.1.map (c :: ·), read.2) := by
  rw [string]
  · simp [hslash, h, Option.map_eq_bind, Function.comp_def]
  all_goals simp [hquote, hslash]

theorem string_escape (c : Char) (rest : List Char) :
    string (escape c ++ rest) = (string rest).map fun read => (read.1.map (c :: ·), read.2) := by
  unfold escape
  split
  · exact string_of_unescapeOne rfl rest
  · exact string_of_unescapeOne rfl rest
  · exact string_of_unescapeOne rfl rest
  · exact string_of_unescapeOne rfl rest
  · exact string_of_unescapeOne rfl rest
  · exact string_of_unescapeOne rfl rest
  · exact string_of_unescapeOne rfl rest
  · rename_i hquote hslash _ _ _ _ _
    split
    · rename_i hcontrol
      exact string_of_control hcontrol rest
    · rename_i hplain
      exact string_of_plain hquote hslash (by omega) rest

/-- The reader finds the end of a quoted text. -/
theorem string_flatMap_escape (cs after : List Char) :
    string (cs.flatMap escape ++ '"' :: after) = some (some cs, after) := by
  induction cs with
  | nil => rw [List.flatMap_nil, List.nil_append, string]
  | cons c cs ih => rw [List.flatMap_cons, List.append_assoc, string_escape, ih]; rfl

/-! ## Documents -/

theorem skipBlanks_cons {c : Char} (h : isBlank c = false) (cs : List Char) :
    skipBlanks (c :: cs) = c :: cs := by
  simp [skipBlanks, h]

/-- A document starts with a character that is neither a blank nor the end of an array. -/
theorem exists_head_of_compact {json : Json} (h : json.compact = some written) :
    ∃ c cs, written = c :: cs ∧ isBlank c = false ∧ c ≠ ']' := by
  cases json with
  | null => exact ⟨'n', _, (Option.some.inj h).symm, rfl, by decide⟩
  | bool value =>
      cases value
      · exact ⟨'f', _, (Option.some.inj h).symm, rfl, by decide⟩
      · exact ⟨'t', _, (Option.some.inj h).symm, rfl, by decide⟩
  | number value => cases h
  | string value =>
      obtain ⟨text, -, rfl⟩ := Option.map_eq_some_iff.1 h
      exact ⟨'"', _, rfl, rfl, by decide⟩
  | array items =>
      obtain ⟨inner, -, rfl⟩ := Option.map_eq_some_iff.1 h
      exact ⟨'[', _, rfl, rfl, by decide⟩
  | object members =>
      obtain ⟨inner, -, rfl⟩ := Option.map_eq_some_iff.1 h
      exact ⟨'\x7b', _, rfl, rfl, by decide⟩

theorem compactItems_cons_eq_some_iff {item : Json} {items : List Json} :
    compactItems (item :: items) = some written ↔
      ∃ first rest, item.compact = some first ∧ compactItems items = some rest ∧
        written = first ++ if items.isEmpty then [] else ',' :: rest := by
  simp only [compactItems, Option.bind_eq_bind, Option.bind_eq_some_iff, Option.some_inj]
  grind

theorem compactMembers_cons_eq_some_iff {name : Option String} {value : Json}
    {members : List (Option String × Json)} :
    compactMembers ((name, value) :: members) = some written ↔
      ∃ key first rest, name = some key ∧ value.compact = some first ∧
        compactMembers members = some rest ∧
        written = quoted key ++ ':' :: first ++ if members.isEmpty then [] else ',' :: rest := by
  simp only [compactMembers, Option.bind_eq_bind, Option.bind_eq_some_iff, Option.some_inj,
    Option.map_eq_some_iff]
  grind

section

variable {c : Char} {cs rest after key : List Char} {fuel : Nat} {item : Json} {items : List Json}
  {members : List (Option String × Json)}

theorem value_array (hblank : isBlank c = false) (hclose : c ≠ ']')
    (h : Reader.items fuel (c :: cs) = some (items, after)) :
    value (fuel + 1) ('[' :: c :: cs) = some (.array items, after) := by
  rw [value, skipBlanks_cons rfl]
  simp [skipBlanks_cons hblank, hclose, h]

theorem value_object (h : Reader.members fuel ('"' :: cs) = some (members, after)) :
    value (fuel + 1) ('\x7b' :: '"' :: cs) = some (.object members, after) := by
  rw [value, skipBlanks_cons rfl]
  simp [skipBlanks_cons, isBlank, h]

theorem items_last (h : value fuel cs = some (item, ']' :: after)) :
    Reader.items (fuel + 1) cs = some ([item], after) := by
  simp [Reader.items, h, skipBlanks_cons, isBlank]

theorem items_more (h : value fuel cs = some (item, ',' :: rest))
    (hrest : Reader.items fuel rest = some (items, after)) :
    Reader.items (fuel + 1) cs = some (item :: items, after) := by
  simp [Reader.items, h, hrest, skipBlanks_cons, isBlank]

theorem members_last (hkey : string cs = some (some key, ':' :: rest))
    (h : value fuel rest = some (item, '\x7d' :: after)) :
    Reader.members (fuel + 1) ('"' :: cs) = some ([(some (String.ofList key), item)], after) := by
  simp [Reader.members, hkey, h, skipBlanks_cons, isBlank]

theorem members_more {more : List Char} (hkey : string cs = some (some key, ':' :: rest))
    (h : value fuel rest = some (item, ',' :: more))
    (hmore : Reader.members fuel more = some (members, after)) :
    Reader.members (fuel + 1) ('"' :: cs) =
      some ((some (String.ofList key), item) :: members, after) := by
  simp [Reader.members, hkey, h, hmore, skipBlanks_cons, isBlank]

end

mutual

theorem value_of_compact (json : Json) {written : List Char} (h : json.compact = some written)
    (fuel : Nat) (hfuel : 2 * written.length ≤ fuel) (after : List Char) :
    value fuel (written ++ after) = some (json, after) := by
  obtain ⟨c, cs, hhead, -⟩ := exists_head_of_compact h
  obtain ⟨steps, rfl⟩ : ∃ steps, fuel = steps + 1 :=
    ⟨fuel - 1, by rw [hhead, List.length_cons] at hfuel; omega⟩
  cases json with
  | null =>
      obtain rfl := Option.some.inj h
      rfl
  | bool value =>
      cases value
      · obtain rfl := Option.some.inj h
        rfl
      · obtain rfl := Option.some.inj h
        rfl
  | number value => cases h
  | string value =>
      obtain ⟨text, rfl, rfl⟩ := Option.map_eq_some_iff.1 h
      have hstring := string_flatMap_escape text.toList after
      simp [value, quoted, skipBlanks_cons, isBlank, hstring]
  | array items =>
      obtain ⟨inner, hinner, rfl⟩ := Option.map_eq_some_iff.1 h
      cases items with
      | nil =>
          obtain rfl := Option.some.inj hinner
          rfl
      | cons item items =>
          have hitems := items_of_compact (item :: items) hinner (by simp) steps
            (by simp at hfuel; omega) after
          obtain ⟨first, rest, hfirst, -, rfl⟩ := compactItems_cons_eq_some_iff.1 hinner
          obtain ⟨c, cs, rfl, hblank, hclose⟩ := exists_head_of_compact hfirst
          simpa using value_array hblank hclose (by simpa using hitems)
  | object members =>
      obtain ⟨inner, hinner, rfl⟩ := Option.map_eq_some_iff.1 h
      cases members with
      | nil =>
          obtain rfl := Option.some.inj hinner
          rfl
      | cons member members =>
          have hmembers := members_of_compact (member :: members) hinner (by simp) steps
            (by simp at hfuel; omega) after
          obtain ⟨key, first, rest, -, -, -, rfl⟩ := compactMembers_cons_eq_some_iff.1 hinner
          simpa [quoted] using value_object (by simpa [quoted] using hmembers)

theorem items_of_compact (items : List Json) {written : List Char}
    (h : compactItems items = some written) (hne : items ≠ []) (fuel : Nat)
    (hfuel : 2 * (written.length + 1) ≤ fuel) (after : List Char) :
    Reader.items fuel (written ++ ']' :: after) = some (items, after) := by
  match items with
  | [] => exact absurd rfl hne
  | item :: items =>
      obtain ⟨first, rest, hfirst, hrest, rfl⟩ := compactItems_cons_eq_some_iff.1 h
      obtain ⟨steps, rfl⟩ : ∃ steps, fuel = steps + 1 := ⟨fuel - 1, by omega⟩
      simp only [List.length_append] at hfuel
      rw [List.append_assoc]
      cases items with
      | nil => exact items_last (value_of_compact item hfirst steps (by omega) _)
      | cons next items =>
          have hitems := items_of_compact (next :: items) hrest (by simp) steps
            (by simp at hfuel; omega) after
          exact items_more (value_of_compact item hfirst steps (by omega) _) hitems

theorem members_of_compact (members : List (Option String × Json)) {written : List Char}
    (h : compactMembers members = some written) (hne : members ≠ []) (fuel : Nat)
    (hfuel : 2 * (written.length + 1) ≤ fuel) (after : List Char) :
    Reader.members fuel (written ++ '\x7d' :: after) = some (members, after) := by
  match members with
  | [] => exact absurd rfl hne
  | (name, value) :: members =>
      obtain ⟨key, first, rest, rfl, hfirst, hrest, rfl⟩ := compactMembers_cons_eq_some_iff.1 h
      obtain ⟨steps, rfl⟩ : ∃ steps, fuel = steps + 1 := ⟨fuel - 1, by omega⟩
      simp only [List.length_append, List.length_cons] at hfuel
      have hquoted : ∀ after, quoted key ++ ':' :: first ++ after =
          '"' :: (key.toList.flatMap escape ++ '"' :: ':' :: (first ++ after)) := fun after => by
        simp [quoted]
      rw [List.append_assoc (quoted key ++ ':' :: first), hquoted]
      cases members with
      | nil =>
          have hvalue := value_of_compact value hfirst steps (by omega) ('\x7d' :: after)
          simpa using members_last (string_flatMap_escape key.toList _) hvalue
      | cons next members =>
          have hvalue := value_of_compact value hfirst steps (by omega)
            (',' :: (rest ++ '\x7d' :: after))
          have hmembers := members_of_compact (next :: members) hrest (by simp) steps
            (by simp at hfuel; omega) after
          simpa using members_more (string_flatMap_escape key.toList _) hvalue hmembers

end

end Reader

theorem parse_of_compact {json : Json} {written : List Char} (h : json.compact = some written) :
    parse (String.ofList written) = some json := by
  have hvalue := Reader.value_of_compact json h (2 * written.length + 2) (by omega) []
  rw [List.append_nil] at hvalue
  rw [parse, String.toList_ofList]
  exact Option.bind_eq_some_iff.2 ⟨(json, []), hvalue, rfl⟩

end Json

end Caret
