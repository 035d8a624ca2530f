import Caret.Proofs.Lexer.Joins
import Mathlib.Data.List.Induction

/-!
# Tokens that are marked as cut off

A block comment is marked if it is not closed. Where the text ends inside a string, the last token
that opens or fills a string is marked, whichever string that is. It is a part of a string that
stays open unless a string is closed behind it: then the mark is in that string, which is complete,
and no token of the string that is cut off has one.
-/

namespace Caret

namespace Construct

/-- A token with others in front of it and behind it is a part of a string that is never closed: it
opens the string, or stands right in the body of it. -/
def StandsOpen (before : List Kind) (kind : Kind) (after : List Kind) : Prop :=
  (kind = .stringStart ∧ (unwind [] after).isSome = true) ∨
    (kind.isBodyPart = true ∧ ∃ left right, before = left ++ .stringStart :: right ∧
      Balanced right ∧ (unwind [] (right ++ kind :: after)).isSome = true)

/-- What tokens have opened and not closed, with balanced tokens behind each opening. -/
inductive Opens : List Kind → List Construct → Prop where
  | nil {kinds : List Kind} : Opens kinds []
  | cons {left right : List Kind} {opening : Kind} {construct : Construct} {outer : List Construct} :
      Opens left outer → opening.opens = some construct → Balanced right →
        Opens (left ++ opening :: right) (construct :: outer)

variable {kinds left right before after : List Kind} {kind : Kind} {outer : List Construct}

theorem Opens.append (h : Opens left outer) (hright : Balanced right) :
    Opens (left ++ right) outer := by
  cases h with
  | nil => exact .nil
  | cons hleft hopens hbalanced =>
      rw [List.append_assoc, List.cons_append]
      exact .cons hleft hopens (hbalanced.append hright)

/-- A token that closes something closes what is innermost. -/
theorem closes_of_isBodyPart {construct innermost : Construct}
    (hcloses : kind.closes = some construct)
    (hbody : kind.isBodyPart = inString (innermost :: outer)) : construct = innermost := by
  cases kind <;> cases hcloses <;> cases innermost <;> first | rfl | cases hbody

/-- What is open behind tokens is opened by some of them. -/
theorem opens_behind (h : Admits [] kinds) : Opens kinds (behind [] kinds) := by
  induction kinds using List.reverseRecOn with
  | nil => exact .nil
  | append_singleton kinds kind ih =>
      obtain ⟨hkinds, hbody, -⟩ := admits_append.1 h
      have hopens := ih hkinds
      rw [behind_append]
      change Opens _ (kind.leavesOpen (behind [] kinds))
      rw [Kind.leavesOpen]
      cases hcloses : kind.closes with
      | none =>
          cases hopening : kind.opens with
          | none =>
              have hone : Balanced [kind] := by
                rw [Balanced, unwind, hcloses, hopening]
                rfl
              exact hopens.append hone
          | some construct => exact .cons hopens hopening balanced_nil
      | some construct =>
          generalize behind [] kinds = open' at hopens hbody
          cases hopens with
          | nil => exact .nil
          | cons houter hopening hbalanced =>
              obtain rfl := closes_of_isBodyPart hcloses hbody
              rw [List.append_assoc, List.cons_append]
              exact houter.append (balanced_between hopening hcloses hbalanced)

/-- Where a string is the innermost construct, it is opened in front, with balanced tokens behind
the opening. -/
theorem exists_stringStart (h : Admits [] kinds) (hstring : inString (behind [] kinds) = true) :
    ∃ left right, kinds = left ++ .stringStart :: right ∧ Balanced right := by
  have hopens := opens_behind h
  generalize behind [] kinds = open' at hopens hstring
  cases hopens with
  | nil => cases hstring
  | @cons left right opening construct outer _ hopening hbalanced =>
      obtain rfl : construct = .string := by simpa [inString] using hstring
      obtain rfl : opening = .stringStart := by
        cases opening <;> first | rfl | cases hopening
      exact ⟨left, right, rfl, hbalanced⟩

/-- A string is opened by nothing but its start. -/
theorem mem_behind (h : .string ∈ behind outer kinds) : .string ∈ outer ∨ Kind.stringStart ∈ kinds := by
  induction kinds generalizing outer with
  | nil => exact .inl h
  | cons kind kinds ih =>
      rcases ih h with hmem | hmem
      · change .string ∈ kind.leavesOpen outer at hmem
        by_cases hkind : kind = .stringStart
        · exact .inr (hkind ▸ List.mem_cons_self)
        · refine .inl ?_
          unfold Kind.leavesOpen at hmem
          split at hmem
          · exact List.mem_of_mem_tail hmem
          · cases kind <;> simp_all [Kind.opens]
      · exact .inr (List.mem_cons_of_mem _ hmem)

/-! Behind the last token that opens or fills a string -/

section

open Lexer (opensOrFills)

variable (hnone : ∀ kind ∈ kinds, opensOrFills kind = false)

include hnone

/-- In a string nothing but its end can come then. -/
theorem isSome_unwind_string (h : Admits (.string :: outer) kinds) :
    (unwind [] kinds).isSome = true ↔ Kind.stringEnd ∉ kinds := by
  cases kinds with
  | nil => simp [unwind]
  | cons kind kinds =>
      obtain rfl : kind = .stringEnd := by
        have hbody : kind.isBodyPart = true := h.1
        have hkind := hnone kind List.mem_cons_self
        revert hbody hkind
        cases kind <;> decide
      simp [unwind, Kind.closes]

/-- In a hole code can come then, and when the hole ends, the end of its string. -/
theorem isSome_unwind_hole (h : Admits (.hole :: .string :: outer) kinds) :
    (unwind [.hole] kinds).isSome = true ↔ Kind.stringEnd ∉ kinds := by
  induction kinds with
  | nil => simp [unwind]
  | cons kind kinds ih =>
      obtain ⟨hbody, hrest⟩ := h
      have hkind := hnone kind List.mem_cons_self
      have hkinds : ∀ other ∈ kinds, opensOrFills other = false :=
        fun other hmem => hnone other (List.mem_cons_of_mem _ hmem)
      have hend : kind ≠ .stringEnd := by
        rintro rfl
        cases hbody
      rw [unwind]
      cases hcloses : kind.closes with
      | some construct =>
          obtain rfl := closes_of_isBodyPart hcloses hbody
          rw [Kind.leavesOpen, hcloses] at hrest
          have hstring := isSome_unwind_string hkinds hrest
          simpa [hend.symm] using hstring
      | none =>
          have hopens : kind.opens = none := by
            cases kind <;> first | rfl | cases hkind
          rw [Kind.leavesOpen, hcloses, hopens] at hrest
          rw [hopens]
          simpa [hend.symm] using ih hkinds hrest

end

/-- A part of the body of a string is told to stand in an open one by the tokens from it on. -/
theorem standsOpen_of_isBodyPart (h : Admits [] before) (hkind : kind.isBodyPart = true)
    (hbody : kind.isBodyPart = inString (behind [] before)) :
    StandsOpen before kind after ↔ (unwind [] (kind :: after)).isSome = true := by
  have hskip : ∀ {right : List Kind}, Balanced right →
      unwind [] (right ++ kind :: after) = unwind [] (kind :: after) := fun hright => by
    rw [unwind_append, hright, Option.bind_some]
  constructor
  · rintro (⟨rfl, -⟩ | ⟨-, left, right, -, hright, hopen⟩)
    · cases hkind
    · rwa [hskip hright] at hopen
  · intro hopen
    obtain ⟨left, right, hbefore, hright⟩ := exists_stringStart h (hbody ▸ hkind)
    exact .inr ⟨hkind, left, right, hbefore, hright, by rwa [hskip hright]⟩

/-- The end of the file closes nothing. -/
theorem standsOpen_eof : StandsOpen before kind (after ++ [.eof]) ↔ StandsOpen before kind after := by
  have heof : ∀ kinds, unwind [] (kinds ++ [.eof]) = unwind [] kinds := fun kinds => by
    rw [unwind_append]
    exact Option.bind_fun_some _
  have hcons : ∀ right, unwind [] (right ++ kind :: (after ++ [.eof])) =
      unwind [] (right ++ kind :: after) := fun right => by
    rw [← heof (right ++ kind :: after), List.append_assoc, List.cons_append]
  simp only [StandsOpen, heof, hcons]

/-- The last token that opens or fills a string is a part of one that stays open, unless a string is
closed behind it. -/
theorem standsOpen_iff (h : Admits [] (before ++ kind :: after))
    (hkind : Lexer.opensOrFills kind = true) (hlast : ∀ other ∈ after, Lexer.opensOrFills other = false) :
    StandsOpen before kind after ↔ Kind.stringEnd ∉ after := by
  obtain ⟨hbefore, hbody, hafter⟩ := admits_append.1 h
  have hstring : kind.isBodyPart = true → ∃ outer, behind [] before = .string :: outer := fun hpart => by
    rw [hpart] at hbody
    exact List.head?_eq_some_iff.1 (of_decide_eq_true hbody.symm)
  cases kind <;> first | cases hkind; done | skip
  case stringStart =>
    rw [← isSome_unwind_string hlast hafter]
    simp [StandsOpen, Kind.isBodyPart]
  case stringText =>
    obtain ⟨outer, houter⟩ := hstring rfl
    rw [houter] at hafter
    rw [standsOpen_of_isBodyPart hbefore rfl hbody]
    exact isSome_unwind_string hlast hafter
  case interpStart =>
    obtain ⟨outer, houter⟩ := hstring rfl
    rw [houter] at hafter
    rw [standsOpen_of_isBodyPart hbefore rfl hbody]
    exact isSome_unwind_hole hlast hafter

end Construct

namespace Lexer

variable {modes : List Mode} {start : Nat} {cs : List Char} {token : Token}

/-- A comment that is not marked has its closing behind its opening. -/
theorem exists_body_of_mem_scan (h : token ∈ (scan modes start cs).1)
    (hkind : token.kind = .blockComment) (hmarked : token.unterminated = false) :
    ∃ body, token.text = "/*" ++ body ++ "*/" := by
  obtain ⟨modes, c, cs, next, hnext, hcut, htext, hflag⟩ := exists_tokenCut_of_mem_scan h
  obtain ⟨body, hbody⟩ := hnext.exists_body (hcut ▸ hkind) (hflag ▸ hmarked)
  refine ⟨String.ofList body, ?_⟩
  rw [htext, hbody, ← String.toList_inj]
  simp

end Lexer

open Construct (StandsOpen behind)

open Lexer (opensOrFills)

variable {text : String} {token : Token}

theorem map_kind_tokenize (text : String) :
    (tokenize text).map Token.kind = (Lexer.scan [] 0 text.toList).1.map Token.kind ++ [.eof] := by
  rw [tokenize_eq, List.map_append, map_kind_cutTokens]
  rfl

/-- The lexer ends in a string or in a hole of one exactly if the tokens leave a string open. -/
theorem any_isBody_iff : (Lexer.scan [] 0 text.toList).2.any Lexer.Mode.isBody = true ↔
    .string ∈ behind [] ((tokenize text).map Token.kind) := by
  have hopen : (Lexer.scan [] 0 text.toList).2.map Lexer.Mode.construct =
      behind [] ((tokenize text).map Token.kind) := by
    rw [map_kind_tokenize, Construct.behind_append, Lexer.construct_scan]
    rfl
  rw [← hopen, List.any_eq_true, List.mem_map]
  refine exists_congr fun mode => and_congr_right fun _ => ?_
  cases mode with
  | body multiline => exact iff_of_true rfl rfl
  | hole depth => exact iff_of_false nofun nofun

/-- A block comment is marked exactly if no closing comes behind its opening. -/
theorem unterminated_iff_not_closed (h : token ∈ cutTokens text) (hkind : token.kind = .blockComment) :
    token.unterminated = true ↔ ¬∃ body, token.text = "/*" ++ body ++ "*/" := by
  constructor
  · rintro hmarked ⟨body, hbody⟩
    have hcut := (unterminated_iff_isCutOffComment h hkind).1 hmarked
    have hlist : token.text = String.ofList ('/' :: '*' :: (body.toList ++ ['*', '/'])) := by
      rw [hbody, ← String.toList_inj]
      simp
    rw [hlist, Lexer.isCutOffComment_eq_false] at hcut
    cases hcut
  · intro hclosed
    by_contra hmarked
    rw [Bool.not_eq_true] at hmarked
    refine hclosed ?_
    unfold cutTokens at h
    dsimp only at h
    split at h
    · rcases Lexer.mem_markLast h with hmem | ⟨other, -, -, rfl⟩
      · exact Lexer.exists_body_of_mem_scan hmem hkind hmarked
      · cases hmarked
    · exact Lexer.exists_body_of_mem_scan h hkind hmarked

/-- Nothing is marked but block comments and what opens or fills a string. -/
theorem kind_of_mem_cutTokens (h : token ∈ cutTokens text) (hmarked : token.unterminated = true) :
    token.kind = .blockComment ∨ opensOrFills token.kind = true := by
  unfold cutTokens at h
  dsimp only at h
  split at h
  · rcases Lexer.mem_markLast h with hmem | ⟨other, -, htest, rfl⟩
    · exact .inl (Lexer.of_unterminated_of_mem_scan hmem hmarked).1
    · exact .inr htest
  · exact .inl (Lexer.of_unterminated_of_mem_scan h hmarked).1

theorem Lexer.not_unterminated_of_mem_scan {modes : List Mode} {start : Nat} {cs : List Char}
    (h : token ∈ (scan modes start cs).1) (hkind : opensOrFills token.kind = true) :
    token.unterminated = false := by
  by_contra hmarked
  rw [(of_unterminated_of_mem_scan h (by simpa using hmarked)).1] at hkind
  cases hkind

/-- Where no string is left open, no token that opens or fills one is marked. -/
theorem not_unterminated_of_closed (hclosed : .string ∉ behind [] ((tokenize text).map Token.kind))
    (h : token ∈ cutTokens text) (hkind : opensOrFills token.kind = true) :
    token.unterminated = false := by
  unfold cutTokens at h
  rw [if_neg (mt any_isBody_iff.1 hclosed)] at h
  exact Lexer.not_unterminated_of_mem_scan h hkind

/-- Where a string is left open, the last token that opens or fills one is marked, and no other. -/
theorem exists_unterminated (hopen : .string ∈ behind [] ((tokenize text).map Token.kind)) :
    ∃ before token after, cutTokens text = before ++ token :: after ∧
      opensOrFills token.kind = true ∧ token.unterminated = true ∧
      (∀ other ∈ before, opensOrFills other.kind = true → other.unterminated = false) ∧
      ∀ other ∈ after, opensOrFills other.kind = false := by
  have hcut : cutTokens text = Lexer.markLast (fun token => opensOrFills token.kind)
      (Lexer.scan [] 0 text.toList).1 := if_pos (any_isBody_iff.2 hopen)
  rcases Lexer.markLast_cases (fun token => opensOrFills token.kind)
    (Lexer.scan [] 0 text.toList).1 with ⟨hnone, -⟩ | ⟨before, token, after, hscan, hkind, hafter, hmark⟩
  · rcases Construct.mem_behind hopen with hmem | hmem
    · cases hmem
    · rw [map_kind_tokenize, List.mem_append, List.mem_singleton] at hmem
      rcases hmem with hmem | hmem
      · obtain ⟨start, hstart, hkind⟩ := List.mem_map.1 hmem
        have hfalse := hnone start hstart
        rw [hkind] at hfalse
        cases hfalse
      · cases hmem
  · refine ⟨before, { token with unterminated := true }, after, hcut.trans hmark, hkind, rfl,
      fun other hother => ?_, hafter⟩
    have hmem : other ∈ (Lexer.scan [] 0 text.toList).1 :=
      hscan ▸ List.mem_append_left _ hother
    exact Lexer.not_unterminated_of_mem_scan hmem

/-- Which tokens are marked as cut off. The mark of a string is always on the last token that opens
or fills one, and that is a part of a string that stays open exactly if no string is closed behind
it. -/
theorem unterminated_tokenize (text : String) :
    (∀ token ∈ tokenize text, token.kind = .blockComment →
        (token.unterminated = true ↔ ¬∃ body, token.text = "/*" ++ body ++ "*/")) ∧
      (∀ token ∈ tokenize text, token.unterminated = true →
        token.kind = .blockComment ∨ opensOrFills token.kind = true) ∧
      (.string ∉ behind [] ((tokenize text).map Token.kind) →
        ∀ token ∈ tokenize text, opensOrFills token.kind = true → token.unterminated = false) ∧
      (.string ∈ behind [] ((tokenize text).map Token.kind) → ∃ before token after,
        tokenize text = before ++ token :: after ∧
          opensOrFills token.kind = true ∧ token.unterminated = true ∧
          (∀ other ∈ before, opensOrFills other.kind = true → other.unterminated = false) ∧
          (∀ other ∈ after, opensOrFills other.kind = false) ∧
          (StandsOpen (before.map Token.kind) token.kind (after.map Token.kind) ↔
            .stringEnd ∉ after.map Token.kind)) := by
  have hmem : ∀ {token : Token}, token ∈ tokenize text →
      token ∈ cutTokens text ∨ token = Token.endOfFile text.utf8ByteSize := fun h => by
    rwa [tokenize_eq, List.mem_append, List.mem_singleton] at h
  refine ⟨fun token h hkind => ?_, fun token h hmarked => ?_, fun hclosed token h hkind => ?_,
    fun hopen => ?_⟩
  · rcases hmem h with h | rfl
    · exact unterminated_iff_not_closed h hkind
    · cases hkind
  · rcases hmem h with h | rfl
    · exact kind_of_mem_cutTokens h hmarked
    · cases hmarked
  · rcases hmem h with h | rfl
    · exact not_unterminated_of_closed hclosed h hkind
    · cases hkind
  · obtain ⟨before, token, after, hcut, hkind, hmarked, hbefore, hafter⟩ := exists_unterminated hopen
    have hadmits : Construct.Admits [] ((cutTokens text).map Token.kind) := by
      rw [map_kind_cutTokens]
      exact Lexer.admits_scan [] 0 text.toList
    rw [hcut, List.map_append, List.map_cons] at hadmits
    have hlast : ∀ other ∈ after.map Token.kind, opensOrFills other = false := fun other hother => by
      obtain ⟨token, htoken, rfl⟩ := List.mem_map.1 hother
      exact hafter token htoken
    refine ⟨before, token, after ++ [Token.endOfFile text.utf8ByteSize], ?_, hkind, hmarked, hbefore,
      fun other hother => ?_, ?_⟩
    · rw [tokenize_eq, hcut, List.append_assoc, List.cons_append]
    · rcases List.mem_append.1 hother with hother | hother
      · exact hafter other hother
      · rw [List.mem_singleton.1 hother]
        rfl
    · have hend : (after ++ [Token.endOfFile text.utf8ByteSize]).map Token.kind =
          after.map Token.kind ++ [.eof] := List.map_append
      rw [hend, Construct.standsOpen_eof, Construct.standsOpen_iff hadmits hkind hlast]
      simp

/-- The string that is cut off here has no mark, and the one that is closed in its hole has one. -/
example : (tokenize "\x27a$\x7b\x27b\x27").map (fun token => (token.kind, token.unterminated)) =
    [(.stringStart, false), (.stringText, false), (.interpStart, false), (.stringStart, false),
      (.stringText, true), (.stringEnd, false), (.eof, false)] := by decide +kernel

end Caret
