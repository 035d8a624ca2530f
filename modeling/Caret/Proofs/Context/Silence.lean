import Caret.Proofs.Document.Hole
import Caret.Proofs.Lexer.Comments
import Caret.Proofs.Lexer.Modes

/-!
# Strings and comments are silent

Nothing is completed where the tokens of a text say that a string or a comment is going on, outside
of the types of resources. The tree cannot be relied on for it: where recovery puts the tokens of a
string into an error node there is no string around them. What keeps such a place silent is that no
rule starts from the tokens of a string, but for the one that opens a hole, and that one is known by
the string that it stands in.
-/

namespace Caret

/-- The tokens that a string is made of, up to its holes. -/
def Kind.isStringPart : Kind → Bool
  | stringStart | stringText | stringEnd | interpStart => true
  | _ => false

theorem Kind.isWord_of_isStringPart {kind : Kind} (h : kind.isStringPart = true) :
    kind.isWord = false := by
  cases kind <;> first | rfl | cases h

theorem Kind.isWord_of_isComment {kind : Kind} (h : kind.isComment = true) :
    kind.isWord = false := by
  cases kind <;> first | rfl | cases h

/-- An offset in the body of a string, as the tokens have it: inside a token of the string, or at a
boundary between tokens where a string is the innermost construct that is open. -/
def InString (text : String) (offset : Nat) : Prop :=
  ∃ before token after, tokenize text = before ++ token :: after ∧
    (token.kind.isStringPart = true ∧ token.span.strictlyContains offset = true ∨
      token.start = offset ∧
        Lexer.isInBody (Lexer.openAfter [] before.length text.toList) = true)

/-- An offset in a comment, as the tokens have it. The end of a comment belongs to it unless it is
the end of a block comment that is closed. -/
def InComment (text : String) (offset : Nat) : Prop :=
  ∃ token ∈ tokenize text, token.kind.isComment = true ∧ token.start < offset ∧
    (offset < token.stop ∨
      offset = token.stop ∧ (token.kind = .lineComment ∨ token.unterminated = true))

namespace Document

variable {text : String} {leaf : Locus} {offset : Nat}

/-- Around a leaf that is no word and no trivia, the leaf itself is what stands in front. -/
theorem vicinity_of_leaf (hleaf : leaf ∈ (locus text).leaves) (hstart : leaf.span.start < offset)
    (hstop : offset ≤ leaf.span.stop) (hword : leaf.kind.isWord = false)
    (htrivia : leaf.kind.isTrivia = false) (hline : leaf.kind ≠ .newline) :
    (locus text).vicinity offset = ⟨locus text, offset, none, some leaf, some leaf⟩ := by
  have hnone : ((locus text).tokensAt offset).find? (fun token =>
      token.kind.isWord && token.span.start < offset) = none := by
    rw [List.find?_eq_none]
    intro token hmem htest
    obtain ⟨htoken, -, hend⟩ := mem_tokensAt_iff.1 hmem
    simp only [Bool.and_eq_true, decide_eq_true_eq] at htest
    obtain rfl := eq_of_start_lt htoken hleaf htest.2 hend hstart hstop
    rw [htest.1] at hword
    cases hword
  have hbefore := tokenBefore_eq_some_iff.2 ⟨hleaf, hstart, hstop⟩
  have hskip : leaf.skipBack Kind.isTrivia = some leaf := skipBack_of_not htrivia
  have hskip' : leaf.skipBack (fun kind => kind.isTrivia || kind = .newline) = some leaf :=
    skipBack_of_not (by simp [htrivia, hline])
  simp [Locus.vicinity, hnone, hbefore, hskip, hskip']

end Document

namespace Vicinity

variable {place : Vicinity} {leaf : Locus}

theorem beforeIn_eq_none {token : Kind} (nodes : List Kind) (hbefore : place.before = some leaf)
    (h : leaf.kind ≠ token) : place.beforeIn token nodes = none := by
  simp [beforeIn, hbefore, guard, h]

theorem insideTypeString_eq_none
    (htype : ∀ token ∈ place.root.tokensAt place.offset, ∀ ancestor ∈ token.properAncestors,
      ancestor.kind ≠ .resourceType) : place.insideTypeString = none := by
  have hnone : (place.root.tokensAt place.offset).findSome? (fun token =>
      token.properAncestors.find? fun ancestor => ancestor.kind = .resourceType) = none := by
    rw [List.findSome?_eq_none_iff]
    intro token htoken
    rw [List.find?_eq_none]
    intro ancestor hancestor
    simpa using htype token htoken ancestor hancestor
  simp [insideTypeString, hnone]

theorem resourceHeader_eq_none (hbefore : place.before = some leaf)
    (hheader : ∀ ancestor ∈ leaf.properAncestors, ancestor.kind ≠ .resourceType) :
    place.resourceHeader = none := by
  have htype : ∀ parent typeNode, leaf.parent = some parent → parent.parent = some typeNode →
      typeNode.kind ≠ .resourceType := by
    intro parent typeNode hparent htypeNode
    refine hheader typeNode ?_
    rw [Locus.properAncestors_of_parent hparent]
    exact Locus.mem_ancestors_of_parent htypeNode
  cases hparent : leaf.parent with
  | none => simp [resourceHeader, hbefore, hparent]
  | some parent =>
      cases htypeNode : parent.parent with
      | none => simp [resourceHeader, hbefore, hparent, htypeNode]
      | some typeNode =>
          simp [resourceHeader, hbefore, hparent, htypeNode, guard,
            htype parent typeNode hparent htypeNode]

/-- The tokens after which an offset can be in a string. -/
theorem kind_cases (hkind : leaf.kind = .interpEnd ∨ leaf.kind.isStringPart = true) :
    leaf.kind = .interpEnd ∨ leaf.kind = .stringStart ∨ leaf.kind = .stringText ∨
      leaf.kind = .stringEnd ∨ leaf.kind = .interpStart := by
  rcases hkind with hkind | hkind
  · exact .inl hkind
  · unfold Kind.isStringPart at hkind
    split at hkind <;> simp_all

/-- No expression follows a token of a string, but for the one that opens a hole. -/
theorem expressionAfter_eq_none {token : Kind} (node : Kind)
    (hkind : token = .interpEnd ∨ token = .stringStart ∨ token = .stringText ∨
      token = .stringEnd ∨ token = .interpStart)
    (hhole : token = .interpStart → node ≠ .interpolation) :
    place.expressionAfter token node = none := by
  rcases hkind with rfl | rfl | rfl | rfl | rfl <;> cases node <;>
    simp_all [expressionAfter, Kind.precedence]

/-- No rule starts from a token of a string, but for the one after the type of a resource and the
one in a hole. -/
theorem finding_eq_none (honLine : place.beforeOnLine = some leaf)
    (hbefore : place.before = some leaf)
    (hkind : leaf.kind = .interpEnd ∨ leaf.kind.isStringPart = true)
    (htype : ∀ token ∈ place.root.tokensAt place.offset, ∀ ancestor ∈ token.properAncestors,
      ancestor.kind ≠ .resourceType)
    (hheader : ∀ ancestor ∈ leaf.properAncestors, ancestor.kind ≠ .resourceType)
    (hhole : leaf.kind = .interpStart → ∀ parent ∈ leaf.parent, parent.kind ≠ .interpolation) :
    place.finding = none := by
  have hcases := kind_cases hkind
  have hne : ∀ {kind : Kind}, kind ≠ .interpEnd → kind.isStringPart = false → leaf.kind ≠ kind := by
    rintro kind hend hpart rfl
    rcases hkind with hkind | hkind
    · exact hend hkind
    · rw [hpart] at hkind
      cases hkind
  have hin : ∀ (token : Kind) (nodes : List Kind), token ≠ .interpEnd →
      token.isStringPart = false → place.beforeIn token nodes = none :=
    fun token nodes hend hpart => beforeIn_eq_none nodes hbefore (hne hend hpart)
  have hname := hin .ident [.name] (by decide) rfl
  have hdecorator := hin .atSign [.decorator] (by decide) rfl
  have hvalue := hin .colon [.objectProperty] (by decide) rfl
  have hmember := hin .dot [.propertyAccess] (by decide) rfl
  have hbody := hin .eq [.resourceDecl, .moduleDecl] (by decide) rfl
  have hline : leaf.kind ≠ .newline := hne (by decide) rfl
  have hexpression : place.expression = none := by
    unfold expression
    rw [honLine, Option.filter_some, if_neg (by simpa using hline)]
    cases hparent : leaf.parent with
    | none => simp [hbefore, hparent]
    | some parent =>
        have hnone : place.expressionAfter leaf.kind parent.kind = none :=
          expressionAfter_eq_none parent.kind hcases (fun hstart => hhole hstart parent hparent)
        simp [hbefore, hparent, hnone]
  have hdeclarations : place.declarations = none := by
    simp [declarations, startsLine, honLine, hline]
  have hkey : place.propertyKey = none := by
    have hbrace : leaf.kind ≠ .lBrace := hne (by decide) rfl
    have hcomma : leaf.kind ≠ .comma := hne (by decide) rfl
    simp [propertyKey, honLine, guard, hbrace, hline, hcomma]
  have htypeName : place.typeName = none := by
    simp [typeName, hname]
  have hresourceType : place.resourceType = none := by
    simp [resourceType, insideTypeString_eq_none htype, missingType, hname]
  simp [finding, rules, hresourceType, resourceHeader_eq_none hbefore hheader, htypeName, hkey,
    hdeclarations, hexpression, decoratorName, hdecorator, propertyValue, hvalue, memberAccess,
    hmember, resourceBody, hbody]

end Vicinity

theorem Token.Contiguous.start_eq {start : Nat} {before after : List Token} {left right : Token}
    (h : Contiguous start (before ++ left :: right :: after)) : right.start = left.stop := by
  induction before generalizing start with
  | nil => exact h.2.1
  | cons first before ih => exact ih h.2

namespace Document

variable {text : String} {token : Token} {leaf : Locus} {offset : Nat}

/-- An offset in a comment is in the region of a comment. -/
theorem isInComment_of_inComment (h : InComment text offset) :
    ((locus text).resolve offset).isInComment = true := by
  obtain ⟨token, htoken, hcomment, hstart, hstop⟩ := h
  rw [tokenize_eq, List.mem_append, List.mem_singleton] at htoken
  rcases htoken with htoken | rfl
  · obtain ⟨leaf, hleaf, hbecomes, htext, hspan⟩ := exists_leaf htoken
    have hkind := hbecomes.eq_of_not_isWord (Kind.isWord_of_isComment hcomment)
    have hle : offset ≤ token.stop := by
      rcases hstop with hlt | ⟨heq, -⟩ <;> omega
    have htouched : leaf ∈ (locus text).tokensAt offset := by
      refine mem_tokensAt_iff.2 ⟨hleaf, ?_, ?_⟩
      · rw [hspan]; exact Nat.le_of_lt hstart
      · rw [hspan]; exact hle
    have hcommentAt : (locus text).isCommentAt offset = true := by
      refine List.any_eq_true.2 ⟨leaf, htouched, ?_⟩
      rw [Bool.and_eq_true, decide_eq_true_eq, hspan, hkind, htext]
      refine ⟨hstart, ?_⟩
      have htags : token.kind = .lineComment ∨ token.kind = .blockComment := by
        cases htag : token.kind <;> simp_all [Kind.isComment]
      rcases htags with htag | htag <;> rw [htag]
      · simp only [Bool.or_eq_true, decide_eq_true_eq]
        rcases hstop with hlt | ⟨-, hline | hmarked⟩
        · exact .inl hlt
        · rw [htag] at hline
          cases hline
        · exact .inr (isCutOffComment_of_mem_cutTokens htoken (by rw [htag]; rfl) hmarked)
    change decide ((locus text).regionAt offset = some .comment) = true
    simp [Locus.regionAt, hcommentAt]
  · cases hcomment

/-- The token in front of another one is cut out of the text. -/
theorem exists_cutTokens_of_tokenize {before after : List Token} {last token : Token}
    (h : tokenize text = before ++ last :: token :: after) :
    ∃ rest, cutTokens text = before ++ last :: rest := by
  rw [tokenize_eq, show before ++ last :: token :: after = (before ++ [last]) ++ token :: after by
    simp, List.append_eq_append_iff] at h
  rcases h with ⟨more, hcut, hrest⟩ | ⟨more, hcut, -⟩
  · obtain rfl : more = [] := by
      have hlength := congrArg List.length hrest
      simp only [List.length_append, List.length_cons, List.length_nil] at hlength
      exact List.eq_nil_of_length_eq_zero (by omega)
    exact ⟨[], by simpa using hcut.symm⟩
  · exact ⟨more, by simp [hcut]⟩

/-- The text of a string goes on behind its opening quote, behind text and behind a hole. -/
theorem continuesBody_of_cutTokens {before rest : List Token} {last : Token}
    (h : cutTokens text = before ++ last :: rest)
    (hbody : Lexer.isInBody (Lexer.openAfter [] (before.length + 1) text.toList) = true) :
    Lexer.continuesBody last.kind = true := by
  have hflags := map_unflagged_cutTokens text
  rw [h, List.map_append, List.map_cons] at hflags
  obtain ⟨before', after', hscan, hbefore, hafter⟩ := List.map_eq_append_iff.1 hflags.symm
  obtain ⟨last', after', rfl, hlast, -⟩ := List.map_eq_cons_iff.1 hafter
  have hlength : before'.length = before.length := by
    simpa using congrArg List.length hbefore
  have htag : last'.kind = last.kind := congrArg Prod.fst hlast
  rw [← htag]
  rw [← hlength] at hbody
  exact Lexer.continuesBody_of_isInBody .nil hscan hbody

/-- An offset in a string is inside or at the end of a leaf of the string, or at the end of a hole. -/
theorem exists_leaf_of_inString (h : InString text offset) :
    ∃ leaf ∈ (locus text).leaves, leaf.span.start < offset ∧ offset ≤ leaf.span.stop ∧
      (leaf.kind = .interpEnd ∨ leaf.kind.isStringPart = true) ∧
      (leaf.kind = .interpStart → offset < leaf.span.stop) := by
  obtain ⟨before, token, after, htokens, ⟨hpart, hinside⟩ | ⟨hstart, hbody⟩⟩ := h
  · have hmem : token ∈ cutTokens text := by
      have hmem : token ∈ tokenize text := by simp [htokens]
      rw [tokenize_eq, List.mem_append, List.mem_singleton] at hmem
      rcases hmem with hmem | rfl
      · exact hmem
      · cases hpart
    obtain ⟨leaf, hleaf, hbecomes, -, hspan⟩ := exists_leaf hmem
    simp only [Span.strictlyContains, Bool.and_eq_true, decide_eq_true_eq, ← hspan] at hinside
    rw [← hbecomes.eq_of_not_isWord (Kind.isWord_of_isStringPart hpart)] at hpart
    exact ⟨leaf, hleaf, hinside.1, Nat.le_of_lt hinside.2, .inr hpart, fun _ => hinside.2⟩
  · obtain rfl | ⟨before, last, rfl⟩ := before.eq_nil_or_concat'
    · cases hbody
    rw [List.append_assoc, List.singleton_append] at htokens
    rw [List.length_append, List.length_singleton] at hbody
    have hnext : token.start = last.stop := by
      have hcontiguous := contiguous_tokenize text
      rw [htokens] at hcontiguous
      exact hcontiguous.start_eq
    obtain ⟨rest, hcut⟩ := exists_cutTokens_of_tokenize htokens
    obtain ⟨leaf, hleaf, hbecomes, -, hspan⟩ :=
      exists_leaf (by simp [hcut] : last ∈ cutTokens text)
    have hpart : last.kind = .interpEnd ∨ last.kind = .stringStart ∨ last.kind = .stringText := by
      have hkind := continuesBody_of_cutTokens hcut hbody
      cases htag : last.kind <;> simp_all [Lexer.continuesBody]
    have htag : leaf.kind = last.kind := hbecomes.eq_of_not_isWord (by
      rcases hpart with htag | htag | htag <;> rw [htag] <;> rfl)
    have hstop : leaf.span.stop = offset := by
      rw [hspan, ← hstart, hnext]
      rfl
    have hne := start_lt_stop hleaf
    refine ⟨leaf, hleaf, by omega, by omega, ?_, ?_⟩
    · rw [htag]
      rcases hpart with htag | htag | htag <;> rw [htag] <;> simp [Kind.isStringPart]
    · rw [htag]
      rcases hpart with htag | htag | htag <;> simp [htag]

/-- Nothing is found around an offset in a string, unless a type of a resource touches it. -/
theorem classify_eq_none_of_inString (h : InString text offset)
    (htype : ∀ token ∈ (locus text).tokensAt offset, ∀ ancestor ∈ token.properAncestors,
      ancestor.kind ≠ .resourceType) :
    Context.at? (locus text) text offset = none := by
  obtain ⟨leaf, hleaf, hstart, hstop, hkind, hinside⟩ := exists_leaf_of_inString h
  have hleafType := htype leaf (mem_tokensAt_iff.2 ⟨hleaf, Nat.le_of_lt hstart, hstop⟩)
  unfold Context.at? Context.classify
  rw [ite_eq_left_iff]
  intro hregion
  have hvicinity : (locus text).vicinity offset =
      ⟨locus text, offset, none, some leaf, some leaf⟩ := by
    have hcases := Vicinity.kind_cases hkind
    refine vicinity_of_leaf hleaf hstart hstop ?_ ?_ ?_ <;>
      rcases hcases with htag | htag | htag | htag | htag <;> rw [htag] <;> decide
  have hhole : leaf.kind = .interpStart → ∀ parent ∈ leaf.parent,
      parent.kind ≠ .interpolation := by
    intro htag parent hparent hinterpolation
    rcases isInStringBody_of_opening hleaf htag hparent hinterpolation hstart (hinside htag)
      hleafType with hbody | hcomment
    · exact hregion (by simp [hbody])
    · exact hregion (by simp [hcomment])
  have hnone : ((locus text).vicinity offset).finding = none := by
    rw [hvicinity]
    exact Vicinity.finding_eq_none rfl rfl hkind htype hleafType hhole
  have hsite : ((locus text).resolve offset).offset = offset := rfl
  simp [hsite, hnone]

end Document

/-- Nothing is completed in a string or a comment, as the tokens of the text have it, where no token
that touches the offset is in the type of a resource. -/
theorem completionsIn_eq_nil (text : String) (offset : Nat) (types : Provider)
    (settings : Settings) (hboundary : Bytes.isBoundary offset text = true)
    (hsilent : InString text offset ∨ InComment text offset)
    (htype : ∀ token ∈ (Document.locus text).tokensAt offset,
      ∀ ancestor ∈ token.properAncestors, ancestor.kind ≠ .resourceType) :
    completionsIn text offset types settings = .ok [] := by
  have hnone : Context.at? (Document.locus text) text offset = none := by
    rcases hsilent with hstring | hcomment
    · exact Document.classify_eq_none_of_inString hstring htype
    · simp [Context.at?, Context.classify, Document.isInComment_of_inComment hcomment]
  rw [Document.completionsIn_eq types settings hboundary, hnone]
  rfl

/-- A string at the start of a text is no part of a declaration, so its tokens are in an error
node. -/
theorem completionsIn_stray_string :
    Bytes.isBoundary 1 "\x27a" = true ∧ InString "\x27a" 1 ∧
      (∀ token ∈ (Document.locus "\x27a").tokensAt 1, ∀ ancestor ∈ token.properAncestors,
        ancestor.kind ≠ .resourceType) ∧
      completionsIn "\x27a" 1 Catalog.empty.provider {} = .ok [] := by
  have hboundary : Bytes.isBoundary 1 "\x27a" = true := by decide +kernel
  have htokens : tokenize "\x27a" = [⟨.stringStart, "\x27", 0, false⟩] ++
      ⟨.stringText, "a", 1, true⟩ :: [Token.endOfFile 2] := by decide +kernel
  have hbody : Lexer.isInBody (Lexer.openAfter [] 1 "\x27a".toList) = true := by decide +kernel
  have hstring : InString "\x27a" 1 := ⟨_, _, _, htokens, .inr ⟨rfl, hbody⟩⟩
  have hall : ((Document.locus "\x27a").tokensAt 1).all (fun token =>
      token.properAncestors.all fun ancestor => ancestor.kind ≠ .resourceType) = true := by decide +kernel
  have htype : ∀ token ∈ (Document.locus "\x27a").tokensAt 1,
      ∀ ancestor ∈ token.properAncestors, ancestor.kind ≠ .resourceType := by
    simpa using hall
  exact ⟨hboundary, hstring, htype,
    completionsIn_eq_nil "\x27a" 1 Catalog.empty.provider {} hboundary (.inl hstring) htype⟩

end Caret
