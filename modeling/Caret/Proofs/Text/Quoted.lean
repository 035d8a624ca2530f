import Caret.Text.Quoted

/-!
# Escapes are read back

What is escaped character by character is read back as the same characters, and no escape is the
quote that ends a string or opens a hole.
-/

namespace Caret

namespace Quoted

/-- A character is written as itself or as a backslash and one character that stands for it. -/
theorem escape_cases (c : Char) :
    (escape c = [c] ∧ c ≠ '\\' ∧ c ≠ '\x27' ∧ c ≠ '$') ∨
      ∃ d, escape c = ['\\', d] ∧ unescapeOne d = some c := by
  unfold escape
  split
  case h_7 hbackslash hquote _ _ _ hdollar => exact .inl ⟨rfl, hbackslash, hquote, hdollar⟩
  all_goals exact .inr ⟨_, rfl, rfl⟩

theorem unescapeChars_of_ne {c : Char} (h : c ≠ '\\') (rest : List Char) :
    unescapeChars (c :: rest) = c :: unescapeChars rest := by
  rw [unescapeChars]
  · rintro _ rfl
    exact absurd rfl h
  · rintro _ _ rfl
    exact absurd rfl h

theorem unescapeChars_of_unescapeOne {c d : Char} (h : unescapeOne d = some c) (rest : List Char) :
    unescapeChars ('\\' :: d :: rest) = c :: unescapeChars rest := by
  rw [unescapeChars, h]
  rintro _ rfl _
  cases h

theorem unescapeChars_escape (c : Char) (rest : List Char) :
    unescapeChars (escape c ++ rest) = c :: unescapeChars rest := by
  rcases escape_cases c with ⟨hescape, hbackslash, -, -⟩ | ⟨d, hescape, hone⟩
  · rw [hescape]
    exact unescapeChars_of_ne hbackslash rest
  · rw [hescape]
    exact unescapeChars_of_unescapeOne hone rest

theorem unescapeChars_flatMap_escape (cs : List Char) :
    unescapeChars (cs.flatMap escape) = cs := by
  induction cs with
  | nil => rw [List.flatMap_nil, unescapeChars]
  | cons c cs ih => rw [List.flatMap_cons, unescapeChars_escape, ih]

/-- The body of a text as a single-line string literal. -/
def body (text : String) : String := String.ofList (text.toList.flatMap escape)

theorem toList_quote (text : String) :
    (quote text).toList = '\x27' :: ((body text).toList ++ ['\x27']) := by
  rw [quote, String.toList_ofList, quoteChars, body, String.toList_ofList]
  rfl

end Quoted

theorem unescape_body (text : String) : unescape (Quoted.body text) = text := by
  rw [unescape, Quoted.body, String.toList_ofList, Quoted.unescapeChars_flatMap_escape,
    String.ofList_toList]

end Caret
