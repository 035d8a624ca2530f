import Caret.Proofs.Lexer.Breaks
import Caret.Proofs.Lexer.Joins

/-!
# Carriage returns in front of newlines

A newline may be written with a carriage return. Where some newlines of a text are, its tokens are
the same but for them.
-/

namespace Caret

namespace Lexer

variable {modes : List Mode} {multiline : Bool} {c : Char} {cs left right right' : List Char}

/-- Characters and the same with a carriage return in front of some of the line feeds. -/
inductive Returned : List Char → List Char → Prop where
  | nil : Returned [] []
  | cons (c : Char) {right right' : List Char} : Returned right right' →
      Returned (c :: right) (c :: right')
  | lineFeed {right right' : List Char} : Returned right right' →
      Returned ('\n' :: right) ('\r' :: '\n' :: right')

theorem Returned.append_left (h : Returned right right') (left : List Char) :
    Returned (left ++ right) (left ++ right') := by
  induction left with
  | nil => exact h
  | cons c cs ih => exact .cons c ih

theorem Returned.quotes (h : Returned right right') :
    startsTripleQuote right' = startsTripleQuote right := by
  cases h with
  | nil => rfl
  | lineFeed => simp [startsTripleQuote]
  | cons a h =>
      cases h with
      | nil => rfl
      | lineFeed => simp [startsTripleQuote]
      | cons b h =>
          cases h with
          | nil => rfl
          | cons d h => rw [startsTripleQuote_cons, startsTripleQuote_cons]
          | lineFeed => simp [startsTripleQuote_cons]

theorem Returned.hole (h : Returned right right') : opensHole right' = opensHole right := by
  cases h with
  | nil => rfl
  | lineFeed => rfl
  | cons a h =>
      rw [opensHole_cons, opensHole_cons]
      cases h <;> rfl

theorem Returned.alike (h : Returned right right') (c : Char) : Alike (c :: right) (c :: right') :=
  ⟨rfl, by simp, (h.cons c).hole, fun left => ((h.cons c).append_left left).quotes⟩

/-- The text of a string does not end in front of a line break. -/
theorem textLength_ne_of_lineFeed (left right : List Char) :
    textLength multiline (left ++ '\n' :: right) ≠ left.length := by
  induction hcount : left.length using Nat.strongRecOn generalizing left with
  | ind count ih =>
      subst hcount
      cases left with
      | nil => exact Nat.ne_of_gt (textLength_pos (by cases multiline <;> rfl) rfl)
      | cons c cs =>
          rw [List.cons_append, textLength_cons, List.length_cons]
          split
          · exact (Nat.succ_ne_zero _).symm
          · split
            · cases cs with
              | nil => exact Nat.succ_succ_ne_one _
              | cons d cs =>
                  have hrest := ih cs.length (by simp only [List.length_cons]; omega) cs rfl
                  simp only [List.cons_append, List.length_cons]
                  omega
            · have hrest := ih cs.length (by simp) cs rfl
              omega

/-- What stands right in front of a line feed in a string is an end of it or starts a hole, whatever
comes behind. -/
theorem BodyCut.of_lineFeed {outer : List Mode} {next : Cut}
    (hcut : BodyCut multiline outer c (cs ++ '\n' :: right) next) (hextra : next.extra = cs.length)
    (right' : List Char) : BodyCut multiline outer c (cs ++ right') next := by
  generalize hall : cs ++ '\n' :: right = all at hcut
  cases hcut with
  | quote => exact .quote outer _
  | quotes _ rest =>
      have hsplit : cs ++ '\n' :: right = ['\x27', '\x27'] ++ rest := hall
      obtain ⟨rfl, -⟩ := List.append_inj hsplit hextra.symm
      exact .quotes outer _
  | hole _ _ rest =>
      have hsplit : cs ++ '\n' :: right = ['\x7b'] ++ rest := hall
      obtain ⟨rfl, -⟩ := List.append_inj hsplit hextra.symm
      exact .hole multiline outer _
  | text hcloses hopens =>
      subst hall
      have hpos := textLength_pos hcloses hopens
      have hlength : textLength multiline (c :: cs ++ '\n' :: right) = (c :: cs).length := by
        rw [List.cons_append, List.length_cons]
        dsimp only at hextra
        omega
      exact absurd hlength (textLength_ne_of_lineFeed (c :: cs) right)

theorem ends_return {kind : Kind} (hc : c ≠ '\r') (right right' : List Char) :
    Ends kind c ('\n' :: right) ('\r' :: right') := by
  refine ⟨fun test _ hbreak hnext d hd => ?_, fun htriple => ?_⟩
  · cases hd
    rw [hbreak hc]
    exact hnext '\n' rfl
  · cases right' with
    | nil => simp [startsTripleQuote] at htriple
    | cons e rest => simp [startsTripleQuote_cons] at htriple

/-- A token is the same in front of characters that have carriage returns. -/
theorem cut_returned (hc : c ≠ '\r') (h : Returned right right')
    (hextra : (cut modes c (cs ++ right)).extra = cs.length) :
    cut modes c (cs ++ right') = cut modes c (cs ++ right) := by
  cases h with
  | nil => rfl
  | cons d h => exact cut_alike (h.alike d) hextra
  | @lineFeed right right' h =>
      refine TokenCut.eq ?_
      cases tokenCut modes c (cs ++ '\n' :: right) with
      | body hcut => exact .body (hcut.of_lineFeed hextra _)
      | code hcode hcut =>
          exact .code hcode
            (hcut.of_ends hextra (ends_return hc _ _) (.inl (List.cons_ne_nil _ _)))

/-- A leaf with a carriage return if it is a newline. -/
def returned (leaf : Kind × String) : Kind × String :=
  if leaf.1 = .newline then (.newline, "\r\n") else leaf

theorem returned_of_ne {leaf : Kind × String} (h : leaf.1 ≠ .newline) : returned leaf = leaf :=
  if_neg h

/-- A newline of characters without carriage returns is a line feed. -/
theorem TokenCut.newline {next : Cut} (h : TokenCut modes c cs next) (hc : c ≠ '\r')
    (hkind : next.kind = .newline) :
    isInBody modes = false ∧ c = '\n' ∧
      next = { kind := .newline, extra := 0, modes := modes } := by
  obtain ⟨hcode, hbreak⟩ := h.of_newline hkind
  obtain rfl : c = '\n' := by simpa [isLineBreak, hc] using hbreak
  exact ⟨hcode, rfl, h.eq.symm.trans (cut_of_not_isInBody hcode '\n' cs)⟩

/-- A newline is a line feed, or it has a carriage return. -/
theorem text_of_newline (modes : List Mode) (cs : List Char) : ∀ part ∈ cutLeaves modes cs,
    part.1 = .newline → part.2 = "\n" ∨ '\r' ∈ part.2.toList := by
  refine forall_cutLeaves (fun modes c cs next h hkind => ?_) modes cs
  by_cases hc : c = '\r'
  · exact .inr (by simp [hc])
  · obtain ⟨-, rfl, hcut⟩ := h.newline hc hkind
    exact .inl (by rw [hcut]; rfl)

/-- The tokens of a text whose newlines have carriage returns are its own but for them. -/
theorem cutLeaves_returned (hcs : '\r' ∉ cs) :
    Returned cs (spelling ((cutLeaves modes cs).map returned)) ∧
      cutLeaves modes (spelling ((cutLeaves modes cs).map returned)) =
        (cutLeaves modes cs).map returned := by
  induction hcount : cs.length using Nat.strongRecOn generalizing modes cs with
  | ind count ih =>
      subst hcount
      cases cs with
      | nil =>
          rw [cutLeaves_nil]
          exact ⟨.nil, cutLeaves_nil modes⟩
      | cons c cs =>
          rw [List.mem_cons, not_or] at hcs
          obtain ⟨hc, hcs⟩ := hcs
          have hle := extra_cut_le modes c cs
          have hdrop : '\r' ∉ cs.drop (cut modes c cs).extra := fun hmem =>
            hcs (List.mem_of_mem_drop hmem)
          have hlength : (cs.drop (cut modes c cs).extra).length < (c :: cs).length := by
            rw [List.length_drop, List.length_cons]
            omega
          obtain ⟨hrest, hleaves⟩ := @ih _ hlength (cut modes c cs).modes _ hdrop rfl
          rw [cutLeaves_cons, List.map_cons]
          generalize hall : (cutLeaves (cut modes c cs).modes
            (cs.drop (cut modes c cs).extra)).map returned = after at hrest hleaves ⊢
          by_cases hkind : (cut modes c cs).kind = .newline
          · obtain ⟨hcode, rfl, hcut⟩ := (tokenCut modes c cs).newline (Ne.symm hc) hkind
            have hspelling (text : String) :
                spelling (returned (.newline, text) :: after) = '\r' :: '\n' :: spelling after := by
              simp [returned, spelling]
            rw [hcut] at hrest hleaves ⊢
            rw [hspelling, cutLeaves_return hcode]
            exact ⟨hrest.lineFeed, congrArg _ hleaves⟩
          · have hspelling : spelling (((cut modes c cs).kind,
                String.ofList (c :: cs.take (cut modes c cs).extra)) :: after) =
                  c :: (cs.take (cut modes c cs).extra ++ spelling after) := by
              simp [spelling]
            have hlength : (cs.take (cut modes c cs).extra).length = (cut modes c cs).extra :=
              List.length_take_of_le hle
            have hsame : cut modes c (cs.take (cut modes c cs).extra ++ spelling after) =
                cut modes c cs := by
              conv_rhs => rw [← List.take_append_drop (cut modes c cs).extra cs]
              refine cut_returned (Ne.symm hc) hrest ?_
              rw [List.take_append_drop, hlength]
            rw [returned_of_ne hkind, hspelling]
            refine ⟨?_, ?_⟩
            · have happend := (hrest.append_left (cs.take (cut modes c cs).extra)).cons c
              rwa [List.take_append_drop] at happend
            · rw [cutLeaves_cons, hsame, List.take_left' hlength, List.drop_left' hlength, hleaves]

end Lexer

end Caret
