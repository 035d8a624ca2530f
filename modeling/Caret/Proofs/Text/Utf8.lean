import Mathlib.Data.String.Basic

/-!
# The order of encoded texts

Texts are ordered by their characters. The encoding keeps the order: of two characters the first byte
tells apart those that take up a different number of bytes, and the others are written digit by digit,
the highest one first.
-/

namespace Caret

namespace Bytes

variable {c d : Char} {cs ds : List Char}

/-- The bytes that a text is stored as. -/
def ofText (text : String) : List UInt8 := text.toUTF8.data.toList

theorem ofText_eq (text : String) : ofText text = text.toList.flatMap String.utf8EncodeChar := by
  conv_lhs => rw [← String.ofList_toList (s := text)]
  rw [ofText, String.toUTF8_eq_toByteArray, String.toByteArray_ofList, List.utf8Encode,
    List.data_toByteArray]

theorem toNat_le_of_char (c : Char) : c.val.toNat ≤ 1114111 := by
  have hvalid := c.valid
  simp only [UInt32.isValidChar, Nat.isValidChar] at hvalid
  omega

/-- The encodings of two characters differ in some byte, whatever follows them. -/
theorem encodeChar_append_lt (h : c < d) (left right : List UInt8) :
    String.utf8EncodeChar c ++ left < String.utf8EncodeChar d ++ right := by
  have hlt : c.val.toNat < d.val.toNat := h
  have hbound := toNat_le_of_char d
  unfold String.utf8EncodeChar
  dsimp only
  generalize c.val.toNat = m at *
  generalize d.val.toNat = n at *
  have hdiv : ∀ k, k / 4096 = k / 64 / 64 ∧ k / 262144 = k / 64 / 64 / 64 := by omega
  -- one case for the lengths of both encodings
  repeat' split
  all_goals
    simp only [List.cons_append, List.nil_append, List.cons_lt_cons_iff, UInt8.lt_iff_toNat_lt,
      ← UInt8.toNat_inj, UInt8.toNat_ofNat', (hdiv _).1, (hdiv _).2]
    omega

theorem encodeChar_append_pos (c : Char) (bytes : List UInt8) :
    [] < String.utf8EncodeChar c ++ bytes := by
  have hne : String.utf8EncodeChar c ≠ [] := by
    rw [← List.length_pos_iff, String.length_utf8EncodeChar]
    exact c.utf8Size_pos
  obtain ⟨byte, rest, heq⟩ := List.exists_cons_of_ne_nil hne
  rw [heq, List.cons_append]
  exact List.nil_lt_cons _ _

theorem encode_lt (h : cs < ds) :
    cs.flatMap String.utf8EncodeChar < ds.flatMap String.utf8EncodeChar := by
  induction h with
  | nil =>
      rw [List.flatMap_nil, List.flatMap_cons]
      exact encodeChar_append_pos _ _
  | cons _ ih =>
      rw [List.flatMap_cons, List.flatMap_cons]
      exact List.append_left_lt ih
  | rel hlt =>
      rw [List.flatMap_cons, List.flatMap_cons]
      exact encodeChar_append_lt hlt _ _

/-- Texts are in the order of their bytes. -/
theorem ofText_lt_iff (left right : String) : ofText left < ofText right ↔ left < right := by
  have hmono : ∀ {a b : String}, a < b → ofText a < ofText b := by
    intro a b h
    rw [ofText_eq, ofText_eq]
    exact encode_lt (String.lt_iff_toList_lt.1 h)
  refine ⟨fun h => ?_, hmono⟩
  rcases lt_trichotomy left right with hlt | heq | hgt
  · exact hlt
  · rw [heq] at h
    exact absurd h (List.lt_irrefl _)
  · exact absurd (hmono hgt) (List.lt_asymm h)

theorem ofText_le_iff (left right : String) : ofText left ≤ ofText right ↔ left ≤ right := by
  rw [← List.not_lt, ofText_lt_iff, String.not_lt]

end Bytes

end Caret
