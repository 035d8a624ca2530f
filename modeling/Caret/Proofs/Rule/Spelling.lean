import Caret.Proofs.Rule.Alternatives

/-!
# Every rule of the grammar is a reading

The claim is shown for the rules in the order in which they are built, those that read expressions
under the assumption that the levels below do so too. Tags are the only thing to look after: a rule
tags a word as a name or an identifier as a keyword, and only where it has just seen one.
-/

namespace Caret

namespace Rule

section Expr

variable {expr : Rule} (hexpr : ∀ input, (expr input).Spells [] input)

include hexpr

theorem spells_interpolation (input : List Lexeme) : (interpolation expr input).Spells [] input := by
  refine spells_node _ (spells_andThen (spells_andThen (spells_andThen (spells_andThen
    (spells_andThen (spells_take _) (spells_takeNewlines _)) (hexpr _)) (spells_takeNewlines _))
    (spells_unlessAt _ ?_)) (spells_expect _ _))
  exact spells_andThen (spells_report _ _) (spells_node _ (spells_takeStray _ _))

theorem spells_stringStep (input : List Lexeme) :
    ((stringStep expr input).rule input).Spells [] input := by
  generalize hstep : stringStep expr input = step
  cases stringRound_of_eq hstep with
  | text | close => exact spells_take input
  | hole => exact spells_interpolation hexpr input
  | unclosed => exact spells_report _ input

theorem spells_string (input : List Lexeme) : (string expr input).Spells [] input :=
  spells_node _ (spells_andThen (spells_take _) (spells_loop (spells_stringStep hexpr) _))

theorem spells_propertyKey {input : List Lexeme} (hword : startsProperty (kind input) = true) :
    (propertyKey expr input).Spells [] input := by
  refine spells_node _ (spells_ifAt (fun _ => spells_string hexpr _) (fun hstart => ?_))
  rw [kind_settle] at hstart
  refine spells_takeAs ?_
  rw [kind_settle]
  simp only [startsProperty, Bool.or_eq_true, decide_eq_true_eq] at hword
  exact .name (hword.resolve_right hstart)

theorem spells_propertyValue (input : List Lexeme) :
    (propertyValue expr input).Spells [] input :=
  spells_ifAt (fun _ => spells_andThen (spells_take input) (hexpr _))
    (fun _ => spells_andThen (spells_absent _ input) (spells_unlessAt _ (hexpr _)))

theorem spells_property {input : List Lexeme} (hword : startsProperty (kind input) = true) :
    (property expr input).Spells [] input := by
  rw [← kind_settle] at hword
  exact spells_node _ (spells_andThen (spells_andThen (spells_propertyKey hexpr hword)
    (spells_propertyValue hexpr _)) (spells_unlessAt _ (spells_skipTo _ _ _)))

omit hexpr in
theorem spells_listStep {close : Kind} {startsItem : Kind → Bool} {item : Rule}
    {cause : SyntaxError.Cause}
    (hitem : ∀ input, startsItem (kind input) = true → (item input).Spells [] input)
    (input : List Lexeme) :
    ((listStep close startsItem item cause input).rule input).Spells [] input := by
  generalize hstep : listStep close startsItem item cause input = step
  cases listRound_of_eq hstep with
  | newline | comma | close => exact spells_take input
  | unclosed => exact spells_absent _ input
  | item _ hstart => exact hitem input hstart
  | stray => exact spells_skipTo _ _ input

omit hexpr in
theorem spells_list {node close : Kind} {startsItem : Kind → Bool} {item : Rule}
    {cause : SyntaxError.Cause}
    (hitem : ∀ input, startsItem (kind input) = true → (item input).Spells [] input)
    (input : List Lexeme) : (list node close startsItem item cause input).Spells [] input :=
  spells_node _ (spells_andThen (spells_take _) (spells_loop (spells_listStep hitem) _))

theorem spells_object (input : List Lexeme) : (object expr input).Spells [] input :=
  spells_list (fun _ hword => spells_property hexpr hword) input

theorem spells_array (input : List Lexeme) : (array expr input).Spells [] input :=
  spells_list (fun _ _ => spells_node _ (hexpr _)) input

theorem spells_arguments (input : List Lexeme) : (arguments expr input).Spells [] input :=
  spells_list (fun input _ => hexpr input) input

omit hexpr in
theorem spells_loopVariable (input : List Lexeme) : (loopVariable input).Spells [] input := by
  unfold loopVariable
  split
  · exact spells_node _ (spells_take _)
  · exact spells_absent _ input

omit hexpr in
/-- An identifier may be tagged as any of the contextual keywords. -/
theorem spells_takeAs_keyword {input : List Lexeme} {keyword : Kind}
    (hkeyword : keyword.isContextual = true) (hident : kind input = .ident) :
    (takeAs keyword input).Spells [] input :=
  spells_takeAs (hident ▸ .keyword hkeyword)

omit hexpr in
theorem kind_eq_of_isWordAt {input : List Lexeme} {word : String}
    (h : isWordAt input word = true) : kind input = .ident := by
  simp only [isWordAt, Bool.and_eq_true, decide_eq_true_eq] at h
  exact h.1

omit hexpr in
theorem spells_inKeyword (input : List Lexeme) : (inKeyword input).Spells [] input := by
  unfold inKeyword
  split
  · exact spells_takeAs_keyword rfl (kind_eq_of_isWordAt ‹_›)
  · exact spells_absent _ input

omit hexpr in
theorem rest_take {input : List Lexeme} (h : kind input ≠ .eof) :
    (take input).rest = input.tail := by
  cases input with
  | nil => rfl
  | cons lexeme rest =>
      rw [kind_cons] at h
      simp [take, takeAs, h]

omit hexpr in
theorem isWordAt_rest_take {input : List Lexeme} {word : String} (hbracket : kind input = .lBrack)
    (hword : isWordAt input.tail word = true) :
    isWordAt (take (settle input).rest).rest word = true := by
  rw [rest_take (by rw [kind_settle, hbracket]; decide)]
  cases input <;> exact hword

theorem spells_forExpr {input : List Lexeme} (hbracket : kind input = .lBrack)
    (hfor : isWordAt input.tail "for" = true) : (forExpr expr input).Spells [] input :=
  spells_node _ (spells_andThen (spells_andThen (spells_andThen (spells_andThen
    (spells_andThen (spells_andThen (spells_andThen (spells_andThen (spells_andThen
    (spells_andThen (spells_take _)
    (spells_takeAs_keyword rfl (kind_eq_of_isWordAt (isWordAt_rest_take hbracket hfor))))
    (spells_loopVariable _)) (spells_inKeyword _)) (hexpr _)) (spells_expect _ _))
    (spells_takeNewlines _)) (hexpr _)) (spells_unlessAt _ (spells_skipTo _ _ _)))
    (spells_takeNewlinesBefore _ _)) (spells_expect _ _))

theorem spells_paren (input : List Lexeme) : (paren expr input).Spells [] input :=
  spells_node _ (spells_andThen (spells_andThen (spells_andThen (spells_andThen (spells_take _)
    (spells_takeNewlines _)) (hexpr _)) (spells_takeNewlinesBefore _ _)) (spells_expect _ _))

theorem spells_primary (input : List Lexeme) : (primary expr input).Spells [] input := by
  obtain ⟨rule, hrule, heq⟩ := exists_primary expr input
  rw [heq]
  cases hrule with
  | literal => exact spells_node _ (spells_take _)
  | string => exact spells_string hexpr input
  | object => exact spells_object hexpr input
  | loop hbracket hfor => exact spells_forExpr hexpr hbracket hfor
  | array => exact spells_array hexpr input
  | paren => exact spells_paren hexpr input
  | word hword => exact spells_node _ (spells_takeAs (by rw [kind_settle]; exact .name hword))
  | absent => exact spells_absent _ input

end Expr

theorem spells_tooDeep (input : List Lexeme) : (tooDeep input).Spells [] input :=
  spells_andThen (spells_skipTo _ _ input) (spells_node _ (spells_done _))

/-- The rules of a level are readings; a chain goes on from the trees on its left. -/
structure Level.Spells (level : Level) : Prop where
  expr : ∀ input, (level.expr input).Spells [] input
  unary : ∀ input, (level.unary input).Spells [] input
  links : ∀ receiver input, (level.links receiver input).Spells receiver input
  operators : ∀ least left input, (level.operators least left input).Spells left input

namespace Level

variable {below : Level}

theorem Spells.binary (h : below.Spells) (least : Nat) (input : List Lexeme) :
    (below.binary least input).Spells [] input :=
  spells_andThen (spells_settle input) (spells_into (h.unary _) (h.operators _ _ _))

theorem Spells.chain (h : below.Spells) (input : List Lexeme) :
    (below.chain input).Spells [] input :=
  spells_andThen (spells_settle input) (spells_into (spells_primary h.expr _) (h.links _ _))

/-- What may follow the test of a choice. -/
def choice (below : Level) (test : List Tree) : Rule :=
  ifAt .question
    (wrap .ternaryExpr test (take ++ below.expr ++ expect .colon ++ below.expr))
    (keep test)

theorem ternary_eq (below : Level) :
    below.ternary = settle ++ (below.binary 1).into below.choice := rfl

theorem Spells.choice (h : below.Spells) (test : List Tree) (input : List Lexeme) :
    (below.choice test input).Spells test input :=
  spells_ifAt (fun _ => spells_wrap _ _ (spells_andThen (spells_andThen (spells_andThen
    (spells_take _) (h.expr _)) (spells_expect _ _)) (h.expr _))) (fun _ => spells_keep _ _)

theorem Spells.ternary (h : below.Spells) (input : List Lexeme) :
    (below.ternary input).Spells [] input :=
  spells_andThen (spells_settle input) (spells_into (h.binary 1 _) (h.choice _ _))

theorem spells_member (input : List Lexeme) : (member input).Spells [] input := by
  unfold member
  split
  · exact spells_takeAs (.name ‹_›)
  · exact spells_absent _ input

theorem Spells.link (h : below.Spells) (receiver : List Tree) (input : List Lexeme) :
    (below.link receiver input).Spells receiver input := by
  unfold Level.link
  split
  · exact spells_wrap _ _ (spells_andThen (spells_take _) (spells_member _))
  · exact spells_wrap _ _ (spells_andThen (spells_andThen (spells_take _) (h.expr _))
      (spells_expect _ _))
  · exact spells_wrap _ _ (spells_arguments h.expr _)

/-! The rules of a level that has a level below, and of the last one -/

theorem links_above (below : Option Level) (receiver : List Tree) (input : List Lexeme) :
    (above below).links receiver input =
      if startsLink (kind input) then
        match below with
        | none => (keep receiver ++ tooDeep) input
        | some level => ((level.link receiver).into level.links) input
      else keep receiver input := by
  cases below <;> rfl

theorem unary_above (below : Option Level) (input : List Lexeme) :
    (above below).unary input =
      if kind input = .bang ∨ kind input = .minus then
        match below with
        | none => tooDeep input
        | some level => node .unaryExpr (take ++ level.unary) input
      else (above below).chain input := by
  cases below <;> simp [above, chain]

theorem operators_above (below : Option Level) (least : Nat) (left : List Tree)
    (input : List Lexeme) :
    (above below).operators least left input =
      match (kind input).precedence with
      | none => keep left input
      | some precedence =>
        if precedence < least then keep left input
        else
          match below with
          | none => (keep left ++ tooDeep) input
          | some level =>
            ((wrap .binaryExpr left (take ++ level.binary (precedence + 1))).into
              (level.operators least)) input := by
  cases below <;> rfl

theorem spells_above {below : Option Level} (h : ∀ level ∈ below, level.Spells) :
    (above below).Spells := by
  have hexpr : ∀ input, ((above below).expr input).Spells [] input := by
    intro input
    cases below with
    | none => exact spells_tooDeep input
    | some level => exact (h level rfl).ternary input
  have hlinks : ∀ receiver input, ((above below).links receiver input).Spells receiver input := by
    intro receiver input
    rw [links_above]
    split
    · cases below with
      | none => exact spells_andThen (spells_keep _ _) (spells_tooDeep _)
      | some level => exact spells_into ((h level rfl).link _ _) ((h level rfl).links _ _)
    · exact spells_keep _ _
  refine ⟨hexpr, fun input => ?_, hlinks, fun least left input => ?_⟩
  · rw [unary_above]
    split
    · cases below with
      | none => exact spells_tooDeep input
      | some level => exact spells_node _ (spells_andThen (spells_take _) ((h level rfl).unary _))
    · exact spells_andThen (spells_settle input) (spells_into (spells_primary hexpr _) (hlinks _ _))
  · rw [operators_above]
    split
    · exact spells_keep _ _
    · split
      · exact spells_keep _ _
      · cases below with
        | none => exact spells_andThen (spells_keep _ _) (spells_tooDeep _)
        | some level =>
            exact spells_into (spells_wrap _ _ (spells_andThen (spells_take _)
              ((h level rfl).binary _ _))) ((h level rfl).operators _ _ _)

end Level

theorem exists_level_eq_above (budget : Nat) : ∃ below, level budget = Level.above below := by
  cases budget with
  | zero => exact ⟨none, rfl⟩
  | succ budget => exact ⟨some (level budget), rfl⟩

/-- What holds of the rules over a level where it holds of that level holds of all levels. The level
below is one of them, so whatever is known of all levels is known of it. -/
theorem level_induction {motive : Level → Prop}
    (above : ∀ below : Option Level, (∀ level ∈ below, motive level) →
      (∀ {known : Level → Prop}, (∀ budget, known (level budget)) → ∀ level ∈ below, known level) →
      motive (Level.above below)) (budget : Nat) : motive (level budget) := by
  induction budget with
  | zero => exact above none nofun nofun
  | succ budget ih =>
      refine above (some (level budget)) ?_ fun hknown => ?_
      · rintro _ ⟨⟩
        exact ih
      · rintro _ ⟨⟩
        exact hknown budget

theorem spells_level (budget : Nat) : (level budget).Spells :=
  level_induction (fun _ hbelow _ => Level.spells_above hbelow) budget

/-! The rules of documents -/

theorem spells_expr (input : List Lexeme) : (expr input).Spells [] input :=
  (spells_level maxDepth).expr input

theorem spells_decorator (input : List Lexeme) : (decorator input).Spells [] input := by
  refine spells_andThen (spells_node _ (spells_andThen (spells_take _) (spells_ifAt
    (fun _ => ?_) (fun _ => spells_absent _ _)))) (spells_unlessAt _ (spells_skipTo _ _ _))
  exact (spells_level maxDepth).chain _

theorem spells_name (input : List Lexeme) : (name input).Spells [] input :=
  spells_ifAt (fun _ => spells_node _ (spells_take _)) (fun _ => spells_absent _ _)

theorem spells_typeName (input : List Lexeme) : (typeName input).Spells [] input :=
  spells_ifAt (fun _ => spells_node _ (spells_take _)) (fun _ => spells_absent _ _)

theorem spells_quoted (kind : Kind) (expected : Expected) (input : List Lexeme) :
    (quoted kind expected input).Spells [] input :=
  spells_ifAt (fun _ => spells_node _ (spells_string spells_expr _)) (fun _ => spells_absent _ _)

theorem spells_existing (input : List Lexeme) : (existing input).Spells [] input := by
  unfold existing
  split
  · exact spells_takeAs_keyword rfl (kind_eq_of_isWordAt ‹_›)
  · exact spells_done input

theorem spells_header (kind : Kind) (input : List Lexeme) :
    (header kind input).Spells [] input := by
  refine header_induction (motive := fun rule => ∀ input, (rule input).Spells [] input)
    (fun hpart input => ?_) (fun hfirst hsecond input => spells_andThen (hfirst input) (hsecond _))
    input
  cases hpart with
  | name => exact spells_name input
  | typeName => exact spells_typeName input
  | resourceType | modulePath => exact spells_quoted _ _ input
  | existing => exact spells_existing input
  | equals => exact spells_expect _ input
  | value => exact spells_expr input
  | default =>
      exact spells_ifAt (fun _ => spells_andThen (spells_take _) (spells_expr _))
        (fun _ => spells_done _)
  | done => exact spells_done input

theorem spells_endDeclaration (input : List Lexeme) : (endDeclaration input).Spells [] input := by
  unfold endDeclaration
  split
  · exact spells_done input
  · exact spells_unlessAt _ (spells_skipTo _ _ _)

theorem spells_undecorated (decorators : List Tree) (input : List Lexeme) :
    (undecorated decorators input).Spells decorators input := by
  obtain ⟨rule, hrule, heq⟩ := exists_undecorated decorators input
  rw [heq]
  cases hrule with
  | declaration _ hident hkeyword =>
      exact spells_andThen (spells_wrap _ _ (spells_andThen
        (spells_takeAs_keyword hkeyword hident) (spells_header _ _))) (spells_endDeclaration _)
  | alone => exact spells_keep _ _
  | stray => exact spells_andThen (spells_keep _ _) (spells_skipTo _ _ _)

theorem spells_decoratorStep (input : List Lexeme) :
    ((decoratorStep input).rule input).Spells [] input := by
  generalize hstep : decoratorStep input = step
  cases decoratorRound_of_eq hstep with
  | decorator => exact spells_andThen (spells_decorator _) (spells_takeNewlines _)
  | done => exact spells_done input

theorem spells_declaration (input : List Lexeme) : (declaration input).Spells [] input :=
  spells_andThen (spells_settle input)
    (spells_into (spells_loop spells_decoratorStep _) (spells_undecorated _ _))

theorem spells_document (input : List Lexeme) : (document input).Spells [] input := by
  refine spells_wrap _ _ (spells_loop (fun input => ?_) input)
  generalize hstep : documentStep input = step
  cases documentRound_of_eq hstep with
  | fileEnd => exact spells_settle input
  | newline => exact spells_take input
  | declaration => exact spells_declaration input

end Rule

end Caret
