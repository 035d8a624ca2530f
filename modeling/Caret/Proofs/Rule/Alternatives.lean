import Caret.Proofs.Rule.Reading

/-!
# The alternatives of the grammar

Where the grammar goes on in several ways, a rule looks at the next tokens and takes one of them.
The ways are listed here with what is known of the tokens where each of them is taken. What holds
of a rule is shown way by way, and a rule that is told which way it goes need not be opened.
-/

namespace Caret

namespace Rule

variable {expr item rule : Rule} {input input' : List Lexeme} {step : Step}

/-! ### Strings -/

/-- The rounds of a string. -/
inductive StringRound (expr : Rule) (input : List Lexeme) : Step → Prop where
  | text (hkind : kind input = .stringText) : StringRound expr input (.again take)
  | hole (hkind : kind input = .interpStart) :
      StringRound expr input (.again (interpolation expr))
  | close (hkind : kind input = .stringEnd) : StringRound expr input (.last take)
  | unclosed (htext : kind input ≠ .stringText) (hhole : kind input ≠ .interpStart)
      (hend : kind input ≠ .stringEnd) : StringRound expr input (.last (report .unterminatedString))

theorem stringRound_of_eq (h : stringStep expr input = step) : StringRound expr input step := by
  subst h
  unfold stringStep
  split
  · exact .text ‹_›
  · exact .hole ‹_›
  · exact .close ‹_›
  · exact .unclosed ‹_› ‹_› ‹_›

theorem stringStep_congr (hkind : kind input' = kind input) :
    stringStep expr input' = stringStep expr input := by
  unfold stringStep
  rw [hkind]

/-! ### Lists in brackets -/

/-- The token is no separator of a list. -/
def IsInside (input : List Lexeme) : Prop := kind input ≠ .newline ∧ kind input ≠ .comma

/-- The rounds of a list in brackets. -/
inductive ListRound (close : Kind) (startsItem : Kind → Bool) (item : Rule)
    (cause : SyntaxError.Cause) (input : List Lexeme) : Step → Prop where
  | newline (hkind : kind input = .newline) : ListRound close startsItem item cause input (.again take)
  | comma (hkind : kind input = .comma) : ListRound close startsItem item cause input (.again take)
  | close (hinside : IsInside input) (hkind : kind input = close) :
      ListRound close startsItem item cause input (.last take)
  | unclosed (hinside : IsInside input)
      (hend : kind input ∈ closers ∨ startsDeclaration input = true) :
      ListRound close startsItem item cause input (.last (absent (.token close)))
  | item (hinside : IsInside input) (hstart : startsItem (kind input) = true) :
      ListRound close startsItem item cause input (.again item)
  | stray (hinside : IsInside input) (hclose : kind input ≠ close) (hend : kind input ∉ closers)
      (hstart : startsItem (kind input) = false) :
      ListRound close startsItem item cause input
        (.again (skipTo [.newline, .comma, close] cause))

theorem listRound_of_eq {close : Kind} {startsItem : Kind → Bool} {cause : SyntaxError.Cause}
    (h : listStep close startsItem item cause input = step) :
    ListRound close startsItem item cause input step := by
  subst h
  unfold listStep
  dsimp only
  split
  · rename_i hseparator
    simp only [Bool.or_eq_true, decide_eq_true_eq] at hseparator
    rcases hseparator with hkind | hkind
    · exact .newline hkind
    · exact .comma hkind
  · rename_i hseparator
    have hinside : IsInside input := by simpa [IsInside] using hseparator
    split
    · exact .close hinside ‹_›
    · split
      · rename_i hend
        rw [Bool.or_eq_true, List.contains_iff_mem] at hend
        exact .unclosed hinside hend
      · rename_i hend
        rw [Bool.or_eq_true, not_or, List.contains_iff_mem] at hend
        split
        · exact .item hinside ‹_›
        · exact .stray hinside ‹_› hend.1 (by simpa using ‹¬startsItem _ = true›)

theorem listStep_congr {close : Kind} {startsItem : Kind → Bool} {cause : SyntaxError.Cause}
    (hkind : kind input' = kind input)
    (hdeclaration : startsDeclaration input' = startsDeclaration input) :
    listStep close startsItem item cause input' = listStep close startsItem item cause input := by
  unfold listStep
  rw [hkind, hdeclaration]

/-! ### Operands -/

/-- The tokens that are an operand each. -/
def literalKinds : List Kind := [.integer, .trueKw, .falseKw, .nullKw]

/-- The rules for operands. -/
inductive Primary (expr : Rule) (input : List Lexeme) : Rule → Prop where
  | literal (hkind : kind input ∈ literalKinds) : Primary expr input (node .literal take)
  | string (hkind : kind input = .stringStart) : Primary expr input (string expr)
  | object (hkind : kind input = .lBrace) : Primary expr input (object expr)
  | loop (hkind : kind input = .lBrack) (hfor : isWordAt input.tail "for" = true) :
      Primary expr input (forExpr expr)
  | array (hkind : kind input = .lBrack) (hfor : isWordAt input.tail "for" = false) :
      Primary expr input (array expr)
  | paren (hkind : kind input = .lParen) : Primary expr input (paren expr)
  | word (hword : (kind input).isWord = true) (hliteral : kind input ∉ literalKinds) :
      Primary expr input (node .variableAccess (takeAs .ident))
  | absent (hword : (kind input).isWord = false)
      (hstart : kind input ∉ [.integer, .stringStart, .lBrace, .lBrack, .lParen]) :
      Primary expr input (absent .expression)

theorem exists_primary (expr : Rule) (input : List Lexeme) :
    ∃ rule, Primary expr input rule ∧ primary expr input = rule input := by
  unfold primary
  split
  case h_5 => exact ⟨_, .string ‹_›, rfl⟩
  case h_6 => exact ⟨_, .object ‹_›, rfl⟩
  case h_7 hkind =>
    split
    · exact ⟨_, .loop hkind ‹_›, rfl⟩
    · exact ⟨_, .array hkind (by simpa using ‹¬isWordAt _ _ = true›), rfl⟩
  case h_8 => exact ⟨_, .paren ‹_›, rfl⟩
  case h_9 =>
    split
    · exact ⟨_, .word ‹_› (by simp_all [literalKinds]), rfl⟩
    · exact ⟨_, .absent (by simpa using ‹¬Kind.isWord _ = true›) (by simp_all), rfl⟩
  all_goals exact ⟨_, .literal (by simp [literalKinds, *]), rfl⟩

/-- The rule for an operand is told by the kind of its first token, and for brackets by the word
behind them. -/
theorem Primary.eq_of_kind_eq (h : Primary expr input rule) (hkind : kind input' = kind input)
    (hfor : kind input = .lBrack → isWordAt input'.tail "for" = isWordAt input.tail "for") :
    primary expr input' = rule input' := by
  unfold primary
  rw [hkind]
  cases h with
  | literal hliteral =>
      simp only [literalKinds, List.mem_cons, List.not_mem_nil, or_false] at hliteral
      rcases hliteral with h | h | h | h <;> rw [h]
  | string h => rw [h]
  | object h => rw [h]
  | loop h hword => simp only [h, hfor h, hword, if_true]
  | array h hword => simp only [h, hfor h, hword, Bool.false_eq_true, if_false]
  | paren h => rw [h]
  | word hword hliteral =>
      split <;> simp_all [literalKinds, Kind.isWord]
  | absent hword hstart =>
      split <;> simp_all [Kind.isWord]

theorem Primary.eq (h : Primary expr input rule) : primary expr input = rule input :=
  h.eq_of_kind_eq rfl fun _ => rfl

/-- Where no expression starts, none is read. -/
theorem primary_of_not_startsExpr (h : startsExpr (kind input) = false) :
    primary expr input = absent .expression input := by
  obtain ⟨hword, hstart⟩ := Bool.or_eq_false_iff.1 h
  refine (Primary.absent hword fun hmem => ?_).eq
  have hstarts : ∀ kind ∈ [Kind.integer, .stringStart, .lBrace, .lBrack, .lParen],
      startsExpr kind = true := by decide
  rw [hstarts _ hmem] at h
  cases h

theorem primary_of_lBrack (h : kind input = .lBrack) : primary expr input =
    if isWordAt input.tail "for" then forExpr expr input else array expr input := by
  cases hfor : isWordAt input.tail "for" with
  | true => exact (Primary.loop h hfor).eq
  | false => exact (Primary.array h hfor).eq

/-- The kinds of operands without their operators, links and calls. -/
def operandKinds : List Kind :=
  [.literal, .string, .object, .array, .forExpr, .parenExpr, .variableAccess]

/-- An operand is one node, and nothing but a placeholder where there is none. -/
theorem primary_eq_node_or_absent (expr : Rule) (input : List Lexeme) :
    (∃ kind body, kind ∈ operandKinds ∧ primary expr input = node kind body input) ∨
      primary expr input = absent .expression input := by
  obtain ⟨rule, hrule, heq⟩ := exists_primary expr input
  cases hrule with
  | absent => exact .inr heq
  | _ => exact .inl ⟨_, _, by decide, heq⟩

namespace Level

theorem eq_lParen_of_startsLink {kind : Kind} (h : startsLink kind = true) (hdot : kind ≠ .dot)
    (hbracket : kind ≠ .lBrack) : kind = .lParen := by
  simp only [startsLink, Bool.or_eq_true, decide_eq_true_eq] at h
  exact h.resolve_left fun hother => hother.elim hdot hbracket

/-- The kinds of the nodes that links put around their receivers. -/
def linkKinds : List Kind := [.propertyAccess, .arrayAccess, .callExpr]

theorem link_eq_wrap (below : Level) (receiver : List Tree) (input : List Lexeme) :
    ∃ kind body, kind ∈ linkKinds ∧ below.link receiver input = wrap kind receiver body input := by
  unfold link
  split
  · exact ⟨.propertyAccess, _, by decide, rfl⟩
  · exact ⟨.arrayAccess, _, by decide, rfl⟩
  · exact ⟨.callExpr, _, by decide, rfl⟩

end Level

/-! ### Declarations -/

theorem declarationWord_eq_some {node keyword : Kind}
    (h : declarationWord input = some (node, keyword)) :
    kind input = .ident ∧ keyword.isContextual = true ∧ node.isDeclaration = true := by
  unfold declarationWord at h
  split at h
  · rename_i hident
    obtain ⟨before, after, hmem, -⟩ := List.lookup_eq_some_iff.1 h
    have hmem : ((current input).text, node, keyword) ∈ declarationWords := by
      rw [hmem]
      exact List.mem_append_right _ List.mem_cons_self
    refine ⟨hident, ?_⟩
    simp only [declarationWords, List.mem_cons, Prod.mk.injEq, List.not_mem_nil, or_false] at hmem
    rcases hmem with h | h | h | h | h | h <;> simp [h.2, Kind.isContextual, Kind.isDeclaration]
  · exact absurd h (by simp)

/-- The rules that the headers of declarations are put together of. -/
inductive HeaderPart (kind : Kind) : Rule → Prop where
  | name : HeaderPart kind name
  | typeName : HeaderPart kind typeName
  | resourceType : HeaderPart kind (quoted .resourceType .resourceType)
  | modulePath : HeaderPart kind (quoted .modulePath .modulePath)
  | existing (hkind : kind = .resourceDecl) : HeaderPart kind existing
  | equals : HeaderPart kind (expect .eq)
  | value : HeaderPart kind Rule.expr
  | default : HeaderPart kind (ifAt .eq (take ++ Rule.expr) done)
  | done : HeaderPart kind done

/-- What holds of the parts of a header, and of two rules one after the other where it holds of each
of them, holds of the header. -/
theorem header_induction {kind : Kind} {motive : Rule → Prop}
    (part : ∀ {rule}, HeaderPart kind rule → motive rule)
    (andThen : ∀ {first second : Rule}, motive first → motive second → motive (first ++ second)) :
    motive (header kind) := by
  have hname := part .name
  have hvalue : ∀ {rule : Rule}, motive rule → motive (rule ++ expect .eq ++ Rule.expr) := fun h =>
    andThen (andThen h (part .equals)) (part .value)
  unfold header
  split
  · exact andThen (part .equals) (part .value)
  · exact andThen (andThen hname (part .typeName)) (part .default)
  · exact hvalue hname
  · exact hvalue (andThen hname (part .typeName))
  · exact hvalue (andThen (andThen hname (part .resourceType)) (part (.existing rfl)))
  · exact hvalue (andThen hname (part .modulePath))
  · exact part .done

/-- What decorators stand in front of. -/
inductive Undecorated (decorators : List Tree) (input : List Lexeme) : Rule → Prop where
  | declaration {node keyword : Kind} (hword : declarationWord input = some (node, keyword))
      (hident : kind input = .ident) (hkeyword : keyword.isContextual = true)
      (hnode : node.isDeclaration = true) :
      Undecorated decorators input
        (wrap node decorators (takeAs keyword ++ header node) ++ endDeclaration)
  | alone (hword : declarationWord input = none) (hdecorators : decorators ≠ [])
      (hend : kind input = .eof) : Undecorated decorators input (keep decorators)
  | stray (hword : declarationWord input = none) (hend : decorators = [] ∨ kind input ≠ .eof) :
      Undecorated decorators input (keep decorators ++ skipTo [.newline] .notADeclaration)

theorem exists_undecorated (decorators : List Tree) (input : List Lexeme) :
    ∃ rule, Undecorated decorators input rule ∧ undecorated decorators input = rule input := by
  unfold undecorated
  split
  · rename_i node keyword hword
    obtain ⟨hident, hkeyword, hnode⟩ := declarationWord_eq_some hword
    exact ⟨_, .declaration hword hident hkeyword hnode, rfl⟩
  · rename_i hword
    split
    · rename_i hlast
      simp only [Bool.and_eq_true, Bool.not_eq_true', List.isEmpty_eq_false_iff, ne_eq,
        decide_eq_true_eq] at hlast
      exact ⟨_, .alone hword hlast.1 hlast.2, rfl⟩
    · rename_i hlast
      refine ⟨_, .stray hword ?_, rfl⟩
      by_cases hnil : decorators = []
      · exact .inl hnil
      · exact .inr fun heof => hlast (by simp [hnil, heof])

/-- The rounds of the decorators in front of a declaration. -/
inductive DecoratorRound (input : List Lexeme) : Step → Prop where
  | decorator (hkind : kind input = .atSign) : DecoratorRound input (.again (decorator ++ takeNewlines))
  | done (hkind : kind input ≠ .atSign) : DecoratorRound input (.last done)

theorem decoratorRound_of_eq (h : decoratorStep input = step) : DecoratorRound input step := by
  subst h
  unfold decoratorStep
  split
  · exact .decorator ‹_›
  · exact .done ‹_›

/-- The rounds of a document. -/
inductive DocumentRound (input : List Lexeme) : Step → Prop where
  | fileEnd (hkind : kind input = .eof) : DocumentRound input (.last settle)
  | newline (hkind : kind input = .newline) : DocumentRound input (.again take)
  | declaration (heof : kind input ≠ .eof) (hline : kind input ≠ .newline) :
      DocumentRound input (.again declaration)

theorem documentRound_of_eq (h : documentStep input = step) : DocumentRound input step := by
  subst h
  unfold documentStep
  split
  · exact .fileEnd ‹_›
  · exact .newline ‹_›
  · exact .declaration ‹_› ‹_›

end Rule

end Caret
