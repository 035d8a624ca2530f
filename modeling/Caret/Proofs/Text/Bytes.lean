import Caret.Text.Bytes

/-!
# Boundaries between characters

An offset is a boundary if some characters from the start of the text on take up just so many bytes.
-/

namespace Caret

namespace Bytes

variable {offset start stop : Nat} {cs before after rest : List Char} {text : String}

theorem utf8ByteSize_cons (c : Char) (cs : List Char) :
    (String.ofList (c :: cs)).utf8ByteSize = c.utf8Size + (String.ofList cs).utf8ByteSize := by
  rw [String.ofList_cons, String.utf8ByteSize_append, String.utf8ByteSize_singleton]

theorem utf8ByteSize_append (left right : List Char) :
    (String.ofList (left ++ right)).utf8ByteSize =
      (String.ofList left).utf8ByteSize + (String.ofList right).utf8ByteSize := by
  rw [String.ofList_append, String.utf8ByteSize_append]

theorem eq_nil_of_utf8ByteSize (h : (String.ofList cs).utf8ByteSize = 0) : cs = [] := by
  simpa using h

/-- What is left out takes up the bytes that were asked for. -/
theorem drop_eq_some_iff :
    drop offset cs = some rest ↔
      ∃ before, (String.ofList before).utf8ByteSize = offset ∧ before ++ rest = cs := by
  constructor
  · intro h
    fun_induction drop offset cs with
    | case1 cs =>
      obtain rfl := Option.some.inj h
      exact ⟨[], rfl, rfl⟩
    | case2 => cases h
    | case3 n c cs hle ih =>
      obtain ⟨before, hsize, rfl⟩ := ih h
      refine ⟨c :: before, ?_, rfl⟩
      rw [utf8ByteSize_cons]
      omega
    | case4 => cases h
  · rintro ⟨before, rfl, rfl⟩
    induction before with
    | nil => simp [drop]
    | cons c before ih =>
        have hpos := c.utf8Size_pos
        rw [utf8ByteSize_cons, List.cons_append]
        obtain ⟨n, hn⟩ : ∃ n, c.utf8Size + (String.ofList before).utf8ByteSize = n + 1 :=
          ⟨_, (Nat.succ_pred_eq_of_pos (by omega)).symm⟩
        have hrest : n + 1 - c.utf8Size = (String.ofList before).utf8ByteSize := by omega
        rw [hn, drop, if_pos (by omega), hrest, ih]

/-- What is kept takes up the bytes that were asked for. -/
theorem take_eq_some_iff :
    take offset cs = some before ↔
      (String.ofList before).utf8ByteSize = offset ∧ ∃ rest, before ++ rest = cs := by
  constructor
  · intro h
    fun_induction take offset cs generalizing before with
    | case1 cs =>
      obtain rfl := Option.some.inj h
      exact ⟨rfl, cs, rfl⟩
    | case2 => cases h
    | case3 n c cs hle ih =>
      obtain ⟨kept, hkept, rfl⟩ := Option.map_eq_some_iff.1 h
      obtain ⟨hsize, rest, rfl⟩ := ih hkept
      refine ⟨?_, rest, rfl⟩
      rw [utf8ByteSize_cons]
      omega
    | case4 => cases h
  · rintro ⟨rfl, rest, rfl⟩
    induction before with
    | nil => simp [take]
    | cons c before ih =>
        have hpos := c.utf8Size_pos
        rw [utf8ByteSize_cons, List.cons_append]
        obtain ⟨n, hn⟩ : ∃ n, c.utf8Size + (String.ofList before).utf8ByteSize = n + 1 :=
          ⟨_, (Nat.succ_pred_eq_of_pos (by omega)).symm⟩
        have hrest : n + 1 - c.utf8Size = (String.ofList before).utf8ByteSize := by omega
        rw [hn, take, if_pos (by omega), hrest, ih]
        rfl

theorem exists_of_isBoundary (h : isBoundary offset text = true) :
    ∃ before after, before ++ after = text.toList ∧
      (String.ofList before).utf8ByteSize = offset := by
  obtain ⟨after, hafter⟩ := Option.isSome_iff_exists.1 h
  obtain ⟨before, hsize, hsplit⟩ := drop_eq_some_iff.1 hafter
  exact ⟨before, after, hsplit, hsize⟩

/-- A boundary between characters is in the text or at its end. -/
theorem le_of_isBoundary (h : isBoundary offset text = true) : offset ≤ text.utf8ByteSize := by
  obtain ⟨before, after, hsplit, rfl⟩ := exists_of_isBoundary h
  rw [← String.ofList_toList (s := text), ← hsplit, utf8ByteSize_append]
  omega

/-- Between two boundaries, other text takes the place of the bytes. -/
theorem replace_of_append {left right : List Char} (hstart : before ++ after = text.toList)
    (hstop : left ++ right = text.toList) (inserted : String) :
    replace text (String.ofList before).utf8ByteSize (String.ofList left).utf8ByteSize inserted =
      some (String.ofList before ++ inserted ++ String.ofList right) := by
  have hbefore : take (String.ofList before).utf8ByteSize text.toList = some before :=
    take_eq_some_iff.2 ⟨rfl, after, hstart⟩
  have hright : drop (String.ofList left).utf8ByteSize text.toList = some right :=
    drop_eq_some_iff.2 ⟨left, rfl, hstop⟩
  rw [replace, hbefore, hright]
  rfl

theorem slice_of_append {middle : List Char} (h : before ++ middle ++ after = text.toList) :
    slice text (String.ofList before).utf8ByteSize (String.ofList (before ++ middle)).utf8ByteSize =
      some (String.ofList middle) := by
  have hdrop : drop (String.ofList before).utf8ByteSize text.toList = some (middle ++ after) :=
    drop_eq_some_iff.2 ⟨before, rfl, by rw [← h, List.append_assoc]⟩
  have htake : take (String.ofList middle).utf8ByteSize (middle ++ after) = some middle :=
    take_eq_some_iff.2 ⟨rfl, after, rfl⟩
  rw [slice, hdrop, utf8ByteSize_append, Nat.add_sub_cancel_left]
  simp only [bind, Option.bind_some, htake]

/-- Of two ways to part the same characters one comes first. -/
theorem exists_of_append_le {left right : List Char} (h : before ++ after = left ++ right)
    (hle : (String.ofList before).utf8ByteSize ≤ (String.ofList left).utf8ByteSize) :
    ∃ middle, left = before ++ middle ∧ after = middle ++ right := by
  rcases List.append_eq_append_iff.1 h with ⟨middle, hleft, hafter⟩ | ⟨middle, hbefore, hright⟩
  · exact ⟨middle, hleft, hafter⟩
  · rw [hbefore, utf8ByteSize_append] at hle
    obtain rfl := eq_nil_of_utf8ByteSize (by omega : (String.ofList middle).utf8ByteSize = 0)
    exact ⟨[], by simpa using hbefore.symm, by simpa using hright.symm⟩

end Bytes

end Caret
