import Caret.Proofs.Lexer.Cover

/-!
# The constructs that are open

While a text is cut, strings and the holes in them are open inside each other. A string is opened
in code only, so no string lies right inside another, and the token after which the text of a string
goes on is the start of the string, a part of its text, or the end of a hole.
-/

namespace Caret

namespace Lexer

/-- The constructs that are open once so many tokens are cut. -/
def openAfter (modes : List Mode) : Nat → List Char → List Mode
  | 0, _ => modes
  | _ + 1, [] => modes
  | count + 1, c :: cs =>
    let next := cut modes c cs
    openAfter next.modes count (cs.drop next.extra)

/-- No string lies right inside another. -/
def Nested (modes : List Mode) : Prop :=
  modes.IsChain fun inner outer => ¬(inner.isBody = true ∧ outer.isBody = true)

/-- The kinds of tokens after which a string goes on. -/
def continuesBody : Kind → Bool
  | .stringStart | .stringText | .interpEnd => true
  | _ => false

variable {modes : List Mode}

theorem Nested.tail (h : Nested modes) : Nested modes.tail := by
  cases h with
  | nil => exact .nil
  | singleton => exact .nil
  | cons_cons _ htail => exact htail

theorem Nested.isInBody_tail {multiline : Bool} (h : Nested (.body multiline :: modes)) :
    isInBody modes = false := by
  cases modes with
  | nil => rfl
  | cons mode modes =>
      have hbody := (List.isChain_cons_cons.1 h).1
      simpa [isInBody, Mode.isBody] using hbody

theorem Nested.cons_hole (h : Nested modes) (depth : Nat) : Nested (.hole depth :: modes) := by
  cases modes with
  | nil => exact .singleton _
  | cons mode modes => exact .cons_cons (by simp [Mode.isBody]) h

theorem Nested.cons_body (h : Nested modes) (hcode : isInBody modes = false) (multiline : Bool) :
    Nested (.body multiline :: modes) := by
  cases modes with
  | nil => exact .singleton _
  | cons mode modes =>
      have hmode : mode.isBody = false := by simpa [isInBody] using hcode
      exact .cons_cons (by simp [hmode]) h

/-- What the next token has to do with the constructs that it leaves open. -/
structure Cut.Continues (next : Cut) : Prop where
  nested : Nested next.modes
  body : isInBody next.modes = true → continuesBody next.kind = true

theorem nested_openBrace (h : Nested modes) : Nested (openBrace modes) := by
  unfold openBrace
  split
  · exact h.tail.cons_hole _
  · exact h

theorem isInBody_openBrace (h : isInBody modes = false) : isInBody (openBrace modes) = false := by
  unfold openBrace
  split
  · rfl
  · exact h

theorem BodyCut.continues {multiline : Bool} {outer : List Mode} {c : Char} {cs : List Char}
    {next : Cut} (h : BodyCut multiline outer c cs next)
    (hnested : Nested (.body multiline :: outer)) : next.Continues := by
  cases h with
  | quote => exact ⟨hnested.tail, by simp [hnested.isInBody_tail]⟩
  | quotes => exact ⟨hnested.tail, by simp [hnested.isInBody_tail]⟩
  | hole => exact ⟨hnested.cons_hole 0, by simp [isInBody, Mode.isBody]⟩
  | text => exact ⟨hnested, fun _ => rfl⟩

/-- Code opens and closes constructs at quotes and braces alone. -/
theorem CodeCut.continues {c : Char} {cs : List Char} {next : Cut} (h : CodeCut modes c cs next)
    (hnested : Nested modes) (hcode : isInBody modes = false) : next.Continues := by
  cases h with
  | quotes => exact ⟨hnested.cons_body hcode true, fun _ => rfl⟩
  | quote => exact ⟨hnested.cons_body hcode false, fun _ => rfl⟩
  | openBrace => exact ⟨nested_openBrace hnested, by simp [isInBody_openBrace hcode]⟩
  | endHole => exact ⟨hnested.tail, fun _ => rfl⟩
  | closeBrace => exact ⟨hnested.tail.cons_hole _, by simp [isInBody, Mode.isBody]⟩
  | _ => exact ⟨hnested, by simp [hcode]⟩

theorem continues_cut (h : Nested modes) (c : Char) (cs : List Char) :
    (cut modes c cs).Continues := by
  cases tokenCut modes c cs with
  | body hnext => exact hnext.continues h
  | code hcode hnext => exact hnext.continues h hcode

/-- A string that is open once some tokens are cut goes on after the last of them. -/
theorem continuesBody_of_isInBody (h : Nested modes) {start : Nat} {cs : List Char}
    {before after : List Token} {last : Token}
    (hscan : (scan modes start cs).1 = before ++ last :: after)
    (hbody : isInBody (openAfter modes (before.length + 1) cs) = true) :
    continuesBody last.kind = true := by
  induction before generalizing modes start cs with
  | nil =>
      cases cs with
      | nil => simp [scan] at hscan
      | cons c cs =>
          rw [scan] at hscan
          obtain ⟨rfl, -⟩ := List.cons.inj hscan
          exact (continues_cut h c cs).body hbody
  | cons first before ih =>
      cases cs with
      | nil => simp [scan] at hscan
      | cons c cs =>
          rw [scan] at hscan
          obtain ⟨-, hrest⟩ := List.cons.inj hscan
          exact ih (continues_cut h c cs).nested hrest hbody

end Lexer

end Caret
