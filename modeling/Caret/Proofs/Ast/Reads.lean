import Caret.Proofs.Ast.Words

/-!
# Reading an expression back

What is read of the words of an expression, whatever is behind them. How much of a chain of links
or operators belongs to the expression depends on what follows and on the place that it stands in,
so that an expression is read in four ways: by the links, the signs, the operators and the
expressions of a level.
-/

namespace Caret

open Rule

namespace Ast

/-! What words start with -/

/-- Words that do not start as a declaration does. -/
def Undeclared : List (Kind × String) → Prop
  | (.ident, _) :: second :: _ => second.1 ≠ .ident ∧ second.1 ≠ .eq
  | _ => True

theorem undeclared_cons {words : List (Kind × String)} (word : Kind × String)
    (h : ∀ second ∈ words.head?, second.1 ≠ .ident ∧ second.1 ≠ .eq) :
    Undeclared (word :: words) := by
  unfold Undeclared
  split
  · rename_i second _ heq
    obtain ⟨-, rfl⟩ := List.cons_eq_cons.1 heq
    exact h second rfl
  · trivial

theorem Undeclared.startsDeclaration {words : List (Kind × String)} {input : List Lexeme}
    (h : Undeclared words) (hinput : input.map Lexeme.piece = words.map Piece.ofLeaf) :
    startsDeclaration input = false := by
  match words with
  | [] =>
      rw [List.map_eq_nil_iff.1 hinput]
      rfl
  | [word] =>
      have htail : input.tail = [] := List.map_eq_nil_iff.1 (tail_of_words hinput)
      rw [Rule.startsDeclaration, nextKind, htail]
      cases isWordAt input "targetScope" <;> simp [Rule.kind, current, Token.endOfFile]
  | word :: second :: words =>
      by_cases hident : word.1 = .ident
      · obtain ⟨kind, text⟩ := word
        obtain rfl : kind = .ident := hident
        exact startsDeclaration_of_pieces hinput h.1 h.2
      · rw [Rule.startsDeclaration, isWordAt_of_word hinput, declarationWord, kind_of_word hinput]
        simp [hident]

/-- What can stand behind an expression in a list: what parts the items or what ends the list. -/
def endsItem (kind : Kind) : Bool := (Kind.newline :: .comma :: closers).contains kind

theorem goesOn_of_endsItem {kind : Kind} (h : endsItem kind = true) :
    Level.goesOn kind = false := by
  cases kind <;> first | rfl | cases h

theorem ne_of_endsItem {kind : Kind} (h : endsItem kind = true) : kind ≠ .ident ∧ kind ≠ .eq := by
  cases kind <;> first | (cases h; done) | simp

theorem endsItem_of_startsExpr {kind : Kind} (h : startsExpr kind = true) :
    endsItem kind = false := by
  cases kind <;> first | rfl | cases h

theorem endsItem_of_startsProperty {kind : Kind} (h : startsProperty kind = true) :
    endsItem kind = false := by
  cases kind <;> first | rfl | cases h

theorem endsItem_of_closes {kind : Kind} (h : closers.contains kind = true) :
    endsItem kind = true := by
  simp only [endsItem, List.contains_cons, h, Bool.or_true]

theorem endsItem_separator (separator : Separator) : endsItem separator.leaf.1 = true := by
  cases separator <;> rfl

theorem Operator.precedence_mem (operator : Operator) :
    1 ≤ operator.precedence ∧ operator.precedence ≤ 7 := by
  obtain ⟨kind, precedence, hvalid⟩ := operator
  cases kind <;> first | (obtain rfl := Option.some.inj hvalid; simp) | cases hvalid

theorem Operator.not_declares (operator : Operator) :
    operator.leaf.1 ≠ .ident ∧ operator.leaf.1 ≠ .eq ∧ Level.startsLink operator.leaf.1 = false := by
  obtain ⟨kind, precedence, hvalid⟩ := operator
  cases kind <;> first | (cases hvalid; done) | simp [leaf, Level.startsLink]

theorem Constant.kind_mem (value : Constant) :
    value.kind = .trueKw ∨ value.kind = .falseKw ∨ value.kind = .nullKw := by
  obtain ⟨text, kind, hvalid⟩ := value
  unfold Kind.ofReserved at hvalid
  split at hvalid <;> first | (obtain rfl := Option.some.inj hvalid; simp) | cases hvalid

theorem Word.kind_mem (name : Word) : name.leaf.1.isWord = true ∧ name.leaf.1 ≠ .stringStart := by
  unfold leaf
  cases hreserved : Kind.ofReserved name.text with
  | none => exact ⟨rfl, by simp⟩
  | some kind =>
      have hkind : kind = .trueKw ∨ kind = .falseKw ∨ kind = .nullKw :=
        Constant.kind_mem ⟨name.text, kind, hreserved⟩
      obtain rfl | rfl | rfl := hkind <;> exact ⟨rfl, by simp⟩

namespace Expr

variable {expr : Expr}

theorem exists_words (expr : Expr) :
    ∃ word rest, expr.words = word :: rest ∧ startsExpr word.1 = true := by
  have hmore : ∀ {words : List (Kind × String)} (more : List (Kind × String)),
      (∃ word rest, words = word :: rest ∧ startsExpr word.1 = true) →
      ∃ word rest, words ++ more = word :: rest ∧ startsExpr word.1 = true := by
    rintro _ more ⟨word, rest, rfl, hword⟩
    exact ⟨word, rest ++ more, rfl, hword⟩
  induction expr using Expr.induction with
  | step expr ih =>
      cases expr with
      | access | integer | string | object | array | loop | paren => exact ⟨_, _, rfl, rfl⟩
      | constant value =>
          refine ⟨_, _, rfl, ?_⟩
          obtain h | h | h := value.kind_mem <;> rw [Constant.leaf, h] <;> rfl
      | unary sign => exact ⟨_, _, rfl, by cases sign <;> rfl⟩
      | binary | ternary | index | call => exact hmore _ ih.1
      | member => exact hmore _ ih

theorem head_words_append (expr : Expr) (more : List (Kind × String)) :
    (expr.words ++ more).head? = expr.words.head? := by
  obtain ⟨word, rest, hwords, -⟩ := expr.exists_words
  rw [hwords]
  rfl

theorem head_ne_newline (expr : Expr) (rest : List (Kind × String)) :
    ∀ word ∈ (expr.words ++ rest).head?, word.1 ≠ .newline := by
  obtain ⟨word, more, hwords, hstarts⟩ := expr.exists_words
  rw [hwords]
  rintro _ ⟨⟩ hline
  rw [hline] at hstarts
  cases hstarts

theorem undeclared (expr : Expr) {rest : List (Kind × String)}
    (hrest : ∀ word ∈ rest.head?, word.1 ≠ .ident ∧ word.1 ≠ .eq) :
    Undeclared (expr.words ++ rest) := by
  induction expr using Expr.induction generalizing rest with
  | step expr ih =>
      cases expr with
      | access | constant => exact undeclared_cons _ hrest
      | integer | string | object | array | loop | paren => trivial
      | unary sign => cases sign <;> trivial
      | binary operator left right =>
          rw [words, List.append_assoc, List.cons_append]
          exact ih.1 (by simpa using ⟨operator.not_declares.1, operator.not_declares.2.1⟩)
      | ternary | index | call =>
          rw [words, List.append_assoc, List.cons_append]
          exact ih.1 (by simp)
      | member =>
          rw [words, List.append_assoc]
          exact ih (by simp)

/-- Only a variable named `for` makes an array start as a loop does. -/
theorem head_words_ne (h : expr.startsWithFor = false) :
    expr.words.head? ≠ some (.ident, "for") := by
  induction expr using Expr.induction with
  | step expr ih =>
      cases expr with
      | access name =>
          intro hfor
          simp only [startsWithFor, decide_eq_false_iff_not] at h
          exact h (congrArg Prod.snd (Option.some.inj hfor))
      | constant value =>
          obtain hkind | hkind | hkind := value.kind_mem <;> simp [Constant.leaf, hkind]
      | integer | string | object | array | loop | paren =>
          simp [Digits.leaf]
      | unary sign => cases sign <;> simp [Sign.leaf]
      | binary | ternary | index | call =>
          rw [words, head_words_append]
          exact ih.1 h
      | member =>
          rw [words, head_words_append]
          exact ih h

/-! The four ways to read an expression -/

/-- Read by the links of a level, with more links behind it. -/
def ReadsLinks (expr : Expr) : Prop :=
  ∀ ⦃budget : Nat⦄ ⦃rest after : List (Kind × String)⦄ ⦃trees : List Tree⦄, expr.nesting ≤ budget →
    ((level (budget - expr.links)).links [expr.tree]).Gives rest trees after →
    ((primary (level budget).expr).into (level budget).links).Gives (expr.words ++ rest) trees after

/-- Read as an operand of an operator. -/
def ReadsUnary (expr : Expr) : Prop :=
  ∀ ⦃budget : Nat⦄ ⦃following : Kind × String⦄ ⦃after : List (Kind × String)⦄,
    expr.nesting ≤ budget → Level.startsLink following.1 = false →
    (level budget).unary.Gives (expr.words ++ following :: after) [expr.tree] (following :: after)

/-- Read by the operators of a level, with more operators behind it that bind no tighter. -/
def ReadsOperators (expr : Expr) : Prop :=
  ∀ ⦃budget least : Nat⦄ ⦃following : Kind × String⦄ ⦃after after' : List (Kind × String)⦄
    ⦃trees : List Tree⦄, expr.nesting ≤ budget → least ≤ expr.tightness →
    Level.startsLink following.1 = false →
    (∀ precedence ∈ following.1.precedence, precedence ≤ expr.tightness) →
    ((level (budget - expr.operators)).operators least [expr.tree]).Gives (following :: after) trees
      after' →
    ((level budget).binary least).Gives (expr.words ++ following :: after) trees after'

def ReadsExpr (expr : Expr) : Prop :=
  ∀ ⦃budget : Nat⦄ ⦃following : Kind × String⦄ ⦃after : List (Kind × String)⦄,
    expr.nesting < budget → Level.goesOn following.1 = false →
    (level budget).expr.Gives (expr.words ++ following :: after) [expr.tree] (following :: after)

/-- Read in every place that the expression binds tightly enough for. -/
structure IsRead (expr : Expr) : Prop where
  links : 9 ≤ expr.tightness → expr.ReadsLinks
  sign : 9 ≤ expr.tightness → ∀ word ∈ expr.words.head?, word.1 ≠ .bang ∧ word.1 ≠ .minus
  unary : 8 ≤ expr.tightness → expr.ReadsUnary
  operators : 1 ≤ expr.tightness → expr.ReadsOperators
  whole : expr.ReadsExpr

theorem operators_eq_zero (h : 8 ≤ expr.tightness) : expr.operators = 0 := by
  cases expr with
  | binary operator =>
      have hmost := operator.precedence_mem.2
      simp only [tightness] at h
      omega
  | _ => rfl

theorem ReadsLinks.readsUnary (h : expr.ReadsLinks)
    (hsign : ∀ word ∈ expr.words.head?, word.1 ≠ .bang ∧ word.1 ≠ .minus) : expr.ReadsUnary := by
  intro budget following after hnesting hfollowing
  obtain ⟨word, rest, hwords, -⟩ := expr.exists_words
  have hlinks : ((level (budget - expr.links)).links [expr.tree]).Gives (following :: after)
      [expr.tree] (following :: after) := gives_links_keep hfollowing
  have hchain := h hnesting hlinks
  rw [hwords] at hsign hchain ⊢
  exact hchain.unary (hsign word rfl).1 (hsign word rfl).2

theorem ReadsUnary.readsOperators (h : expr.ReadsUnary) (htight : 8 ≤ expr.tightness) :
    expr.ReadsOperators := by
  intro budget least following after after' trees hnesting _ hlink _ hrest
  rw [operators_eq_zero htight, Nat.sub_zero] at hrest
  exact ((h hnesting hlink).into hrest).settled

theorem ReadsOperators.readsExpr (h : expr.ReadsOperators) (htight : 1 ≤ expr.tightness) :
    expr.ReadsExpr := by
  intro budget following after hnesting hfollowing
  obtain ⟨budget, rfl⟩ : ∃ below, budget = below + 1 := ⟨budget - 1, by omega⟩
  simp only [Level.goesOn, Bool.or_eq_false_iff, decide_eq_false_iff_not,
    Option.isSome_eq_false_iff, Option.isNone_iff_eq_none] at hfollowing
  obtain ⟨⟨hlink, hprecedence⟩, hquestion⟩ := hfollowing
  have hkeep : ((level (budget - expr.operators)).operators 1 [expr.tree]).Gives
      (following :: after) [expr.tree] (following :: after) :=
    gives_operators_keep (by simp [hprecedence])
  have hbinary := h (Nat.le_of_lt_succ hnesting) htight hlink (by simp [hprecedence]) hkeep
  exact (hbinary.into (gives_choice_keep hquestion)).settled

theorem IsRead.of_unary (h : expr.ReadsUnary) (htight : expr.tightness = 8) : expr.IsRead where
  links hle := by omega
  sign hle := by omega
  unary _ := h
  operators _ := h.readsOperators (by omega)
  whole := (h.readsOperators (by omega)).readsExpr (by omega)

theorem IsRead.of_links (h : expr.ReadsLinks) (htight : expr.tightness = 9)
    (hsign : ∀ word ∈ expr.words.head?, word.1 ≠ .bang ∧ word.1 ≠ .minus) : expr.IsRead where
  links _ := h
  sign _ := hsign
  unary _ := h.readsUnary hsign
  operators _ := (h.readsUnary hsign).readsOperators (by omega)
  whole := ((h.readsUnary hsign).readsOperators (by omega)).readsExpr (by omega)

/-- An operand without links is read by the rule for operands. -/
theorem IsRead.of_primary (htight : expr.tightness = 9) (hlinks : expr.links = 0)
    (hsign : ∀ word ∈ expr.words.head?, word.1 ≠ .bang ∧ word.1 ≠ .minus)
    (h : ∀ {budget : Nat} (rest : List (Kind × String)), expr.nesting ≤ budget →
      (primary (level budget).expr).Gives (expr.words ++ rest) [expr.tree] rest) :
    expr.IsRead := by
  refine .of_links (fun budget rest after trees hnesting hrest => ?_) htight hsign
  rw [hlinks, Nat.sub_zero] at hrest
  exact (h rest hnesting).into hrest

end Expr

/-! Items and arguments -/

section List

variable {budget : Nat} {close : Kind} {item : Rule} {cause : SyntaxError.Cause} {inArray : Bool}
  (hprogress : Progresses (listStep close startsExpr item cause))
  (hclose : closers.contains close = true)
  (hitem : ∀ {expr : Expr} {following : Kind × String} {after : List (Kind × String)},
    expr.ReadsExpr → expr.nesting < budget → endsItem following.1 = true →
    item.Gives (expr.words ++ following :: after) [asItem inArray expr.tree] (following :: after))

include hprogress hclose hitem

theorem gives_item {expr : Expr} {following : Kind × String} {after after' : List (Kind × String)}
    {trees : List Tree} (hread : expr.ReadsExpr) (hnesting : expr.nesting < budget)
    (hend : endsItem following.1 = true)
    (hloop : (loop (listStep close startsExpr item cause)).Gives (following :: after) trees
      after') :
    (loop (listStep close startsExpr item cause)).Gives (expr.words ++ following :: after)
      (asItem inArray expr.tree :: trees) after' := by
  obtain ⟨word, rest, hwords, hstarts⟩ := expr.exists_words
  have hgives : item.Gives (expr.words ++ following :: after) [asItem inArray expr.tree]
      (following :: after) := hitem hread hnesting hend
  have hundeclared : Undeclared (expr.words ++ following :: after) :=
    expr.undeclared (by simpa using ne_of_endsItem hend)
  rw [hwords] at hgives hundeclared ⊢
  exact gives_listItem hprogress hgives hloop hstarts hclose (endsItem_of_startsExpr hstarts)
    fun input hinput => hundeclared.startsDeclaration hinput

theorem Items.gives (heof : close ≠ .eof) (text : String) (after : List (Kind × String)) :
    ∀ items : Items, items.All Expr.ReadsExpr → items.nesting ≤ budget →
    (loop (listStep close startsExpr item cause)).Gives (items.words ++ (close, text) :: after)
      (items.trees inArray ++ [.leaf close text]) after
  | .nil, _, _ => gives_listClose hprogress hclose heof text
  | .one _, hread, hnesting =>
    gives_item hprogress hclose hitem hread hnesting (endsItem_of_closes hclose)
      (gives_listClose hprogress hclose heof text)
  | .cons expr separator rest, ⟨hread, hrest⟩, hnesting => by
    simp only [nesting, Nat.max_le] at hnesting
    have hmore := Items.gives heof text after rest hrest hnesting.2
    have hseparated : (loop (listStep close startsExpr item cause)).Gives
        (separator.leaf :: (rest.words ++ (close, text) :: after))
        (.ofLeaf separator.leaf :: (rest.trees inArray ++ [.leaf close text])) after :=
      gives_listSeparator hprogress hmore (by cases separator <;> simp [Separator.leaf])
    rw [words, List.append_assoc]
    exact gives_item hprogress hclose hitem hread hnesting.1 (endsItem_separator separator)
      hseparated

end List

/-! Strings -/

section String

variable {budget : Nat} (multiline : Bool)

theorem Parts.gives (rest : List (Kind × String)) :
    ∀ parts : Parts, parts.All Expr.ReadsExpr → parts.nesting ≤ budget →
    (loop (stringStep (level budget).expr)).Gives (parts.words multiline ++ rest)
      (parts.trees multiline) rest
  | .last text, _, _ => by
    rw [words, List.append_assoc]
    exact gives_stringText (spells_level budget).expr
      (gives_stringEnd (spells_level budget).expr (quotes multiline)) (raw multiline text)
  | .hole text inner parts, ⟨hinner, hparts⟩, hnesting => by
    simp only [nesting, Nat.max_le] at hnesting
    simp only [words, List.append_assoc, List.cons_append]
    exact gives_stringText (spells_level budget).expr
      (gives_stringHole (spells_level budget).expr (hinner hnesting.1 rfl)
        (inner.head_ne_newline _) (Parts.gives rest parts hparts hnesting.2)) (raw multiline text)

end String

/-! Properties -/

section Property

variable {budget : Nat}

theorem Key.gives (rest : List (Kind × String)) :
    ∀ key : Key, key.All Expr.ReadsExpr → key.nesting ≤ budget →
    (propertyKey (level budget).expr).Gives (key.words ++ rest) [key.tree] rest
  | .word name, _, _ => gives_propertyKey_word name.kind_mem.2 (by
      rintro heof
      have hword := name.kind_mem.1
      rw [heof] at hword
      cases hword)
  | .string multiline parts, hparts, hnesting =>
    gives_propertyKey_string (Parts.gives multiline rest parts hparts hnesting)

theorem Key.exists_words (key : Key) (rest : List (Kind × String)) :
    ∃ word more, key.words ++ (.colon, ":") :: rest = word :: more ∧
      startsProperty word.1 = true ∧ Undeclared (word :: more) := by
  cases key with
  | word name =>
      exact ⟨_, _, rfl, by simp [startsProperty, name.kind_mem.1],
        undeclared_cons _ (by simp)⟩
  | string => exact ⟨_, _, rfl, rfl, trivial⟩

theorem gives_property_before {key : Key} {value : Expr} {following : Kind × String}
    {after after' : List (Kind × String)} {trees : List Tree} (hkey : key.All Expr.ReadsExpr)
    (hvalue : value.ReadsExpr) (hkeyNesting : key.nesting ≤ budget)
    (hvalueNesting : value.nesting < budget) (hend : endsItem following.1 = true)
    (hloop : (loop (listStep .rBrace startsProperty (property (level budget).expr)
      .notAProperty)).Gives (following :: after) trees after') :
    (loop (listStep .rBrace startsProperty (property (level budget).expr) .notAProperty)).Gives
      (key.words ++ (.colon, ":") :: (value.words ++ following :: after))
      (.node .objectProperty [key.tree, .leaf .colon ":", value.tree] :: trees) after' := by
  have hgives : (property (level budget).expr).Gives
      (key.words ++ (.colon, ":") :: (value.words ++ following :: after))
      [.node .objectProperty [key.tree, .leaf .colon ":", value.tree]] (following :: after) :=
    gives_property (key.gives _ hkey hkeyNesting)
      (hvalue hvalueNesting (goesOn_of_endsItem hend)) hend
  obtain ⟨word, more, hwords, hstarts, hundeclared⟩ :=
    key.exists_words (value.words ++ following :: after)
  rw [hwords] at hgives ⊢
  exact gives_listItem (progresses_property (spells_level budget).expr) hgives hloop hstarts rfl
    (endsItem_of_startsProperty hstarts) fun input hinput => hundeclared.startsDeclaration hinput

theorem Properties.gives (text : String) (after : List (Kind × String)) :
    ∀ properties : Properties, properties.All Expr.ReadsExpr → properties.nesting ≤ budget →
    (loop (listStep .rBrace startsProperty (property (level budget).expr) .notAProperty)).Gives
      (properties.words ++ (.rBrace, text) :: after) (properties.trees ++ [.leaf .rBrace text])
      after
  | .nil, _, _ =>
    gives_listClose (progresses_property (spells_level budget).expr) rfl (by simp) text
  | .one key value, ⟨hkey, hvalue⟩, hnesting => by
    simp only [nesting, Nat.max_le] at hnesting
    simp only [words, List.append_assoc, List.cons_append]
    exact gives_property_before hkey hvalue hnesting.1 hnesting.2 rfl
      (gives_listClose (progresses_property (spells_level budget).expr) rfl (by simp) text)
  | .cons key value separator rest, ⟨⟨hkey, hvalue⟩, hrest⟩, hnesting => by
    simp only [nesting, Nat.max_le] at hnesting
    simp only [words, List.append_assoc, List.cons_append]
    exact gives_property_before hkey hvalue hnesting.1.1 hnesting.1.2
      (endsItem_separator separator)
      (gives_listSeparator (progresses_property (spells_level budget).expr)
        (Properties.gives text after rest hrest hnesting.2)
        (by cases separator <;> simp [Separator.leaf]))

end Property

namespace Expr

/-! Expressions that are put together from others -/

variable {expr inner left right : Expr}

theorem isRead_paren (h : inner.IsRead) : (paren inner).IsRead := by
  refine .of_primary rfl rfl (by simp) fun rest hnesting => ?_
  simp only [words, List.cons_append, List.append_assoc, List.nil_append]
  exact gives_paren (h.whole hnesting rfl) (inner.head_ne_newline _)

theorem tightness_within {least : Nat} (hleast : least ≤ 9) (expr : Expr) :
    least ≤ (expr.within least).tightness := by
  unfold within
  split
  · exact hleast
  · omega

theorem IsRead.within (h : expr.IsRead) (least : Nat) : (expr.within least).IsRead := by
  unfold Expr.within
  split
  · exact isRead_paren h
  · exact h

theorem isRead_unary (h : expr.IsRead) (htight : 8 ≤ expr.tightness) (sign : Sign) :
    (unary sign expr).IsRead := by
  refine .of_unary (fun budget following after hnesting hlink => ?_) rfl
  obtain ⟨budget, rfl⟩ : ∃ below, budget = below + 1 :=
    ⟨budget - 1, by simp only [nesting] at hnesting; omega⟩
  have hsign : take.Gives (sign.leaf :: (expr.words ++ following :: after)) [.ofLeaf sign.leaf]
      (expr.words ++ following :: after) := gives_take (by cases sign <;> simp [Sign.leaf])
  have hoperand : (level budget).unary.Gives (expr.words ++ following :: after) [expr.tree]
      (following :: after) := h.unary htight (Nat.le_of_succ_le_succ hnesting) hlink
  refine ((hsign.andThen hoperand).node .unaryExpr).congr fun input hinput => ?_
  change (Level.above (some (level budget))).unary input = _
  rw [Level.unary_above, kind_of_word hinput, if_pos (by cases sign <;> simp [Sign.leaf])]

theorem isRead_binary (hleft : left.IsRead) (hright : right.IsRead) {operator : Operator}
    (hleast : operator.precedence ≤ left.tightness)
    (hless : operator.precedence + 1 ≤ right.tightness) :
    (binary operator left right).IsRead := by
  obtain ⟨hpositive, hmost⟩ := operator.precedence_mem
  have hreads : (binary operator left right).ReadsOperators := by
    intro budget least following after after' trees hnesting htight hlink hprecedence hrest
    simp only [nesting, tightness, operators] at hnesting htight hprecedence hrest
    obtain ⟨below, hbelow⟩ : ∃ below, budget - left.operators = below + 1 :=
      ⟨budget - left.operators - 1, by omega⟩
    rw [show budget - (left.operators + 1) = below by omega] at hrest
    have hkeep : ((level (below - right.operators)).operators (operator.precedence + 1)
        [right.tree]).Gives (following :: after) [right.tree] (following :: after) :=
      gives_operators_keep fun precedence h => Nat.lt_succ_of_le (hprecedence precedence h)
    have hoperand := hright.operators (by omega) (by omega) hless hlink
      (fun precedence h => by have := hprecedence precedence h; omega) hkeep
    have hoperators : ((level (below + 1)).operators least [left.tree]).Gives
        (operator.leaf :: (right.words ++ following :: after)) trees after' :=
      Gives.operators operator.valid htight hoperand hrest
    rw [words, List.append_assoc, List.cons_append]
    refine hleft.operators (by omega) (by omega) (by omega) operator.not_declares.2.2
      (fun precedence h => ?_) (hbelow ▸ hoperators)
    rw [← Option.some.inj (operator.valid.symm.trans h)]
    exact hleast
  exact {
    links := fun hle => by simp only [tightness] at hle; omega
    sign := fun hle => by simp only [tightness] at hle; omega
    unary := fun hle => by simp only [tightness] at hle; omega
    operators := fun _ => hreads
    whole := hreads.readsExpr hpositive }

theorem isRead_ternary {test yes no : Expr} (htest : test.IsRead) (hyes : yes.IsRead)
    (hno : no.IsRead) (htight : 1 ≤ test.tightness) : (ternary test yes no).IsRead where
  links hle := by simp only [tightness] at hle; omega
  sign hle := by simp only [tightness] at hle; omega
  unary hle := by simp only [tightness] at hle; omega
  operators hle := by simp only [tightness] at hle; omega
  whole := by
    intro budget following after hnesting hfollowing
    obtain ⟨budget, rfl⟩ : ∃ below, budget = below + 1 := ⟨budget - 1, by omega⟩
    simp only [nesting] at hnesting
    simp only [words, List.append_assoc, List.cons_append]
    have hkeep : ((level (budget - test.operators)).operators 1 [test.tree]).Gives
        ((.question, "?") :: (yes.words ++ (.colon, ":") :: (no.words ++ following :: after)))
        [test.tree]
        ((.question, "?") :: (yes.words ++ (.colon, ":") :: (no.words ++ following :: after))) :=
      gives_operators_keep (by simp [Kind.precedence])
    have hbinary := htest.operators htight (by omega) htight rfl (by simp [Kind.precedence]) hkeep
    have hquestion : take.Gives
        ((.question, "?") :: (yes.words ++ (.colon, ":") :: (no.words ++ following :: after)))
        [.leaf .question "?"]
        (yes.words ++ (.colon, ":") :: (no.words ++ following :: after)) := gives_take (by simp)
    have hcolon : (expect .colon).Gives ((.colon, ":") :: (no.words ++ following :: after))
        [.leaf .colon ":"] (no.words ++ following :: after) := gives_expect rfl (by simp)
    have hfirst : (level budget).expr.Gives
        (yes.words ++ (.colon, ":") :: (no.words ++ following :: after)) [yes.tree]
        ((.colon, ":") :: (no.words ++ following :: after)) := hyes.whole (by omega) rfl
    have hsecond : (level budget).expr.Gives (no.words ++ following :: after) [no.tree]
        (following :: after) := hno.whole (by omega) hfollowing
    have hchoice := (((hquestion.andThen hfirst).andThen hcolon).andThen hsecond).wrap
      .ternaryExpr [test.tree]
    exact (hbinary.into (hchoice.ifAt_pos rfl)).settled

/-! Links -/

variable {receiver : Expr} (hreceiver : receiver.IsRead) (htight : 9 ≤ receiver.tightness)

include hreceiver htight

theorem isRead_member (name : Word) : (member receiver name).IsRead := by
  refine .of_links (fun budget rest after trees hnesting hrest => ?_) rfl ?_
  · simp only [nesting, links] at hnesting hrest
    obtain ⟨below, hbelow⟩ : ∃ below, budget - receiver.links = below + 1 :=
      ⟨budget - receiver.links - 1, by omega⟩
    rw [show budget - (receiver.links + 1) = below by omega] at hrest
    rw [words, List.append_assoc]
    refine hreceiver.links htight (by omega) ?_
    rw [hbelow]
    exact gives_member name.kind_mem.1 hrest
  · rw [words, head_words_append]
    exact hreceiver.sign htight

theorem isRead_index {position : Expr} (hposition : position.IsRead) :
    (index receiver position).IsRead := by
  refine .of_links (fun budget rest after trees hnesting hrest => ?_) rfl ?_
  · simp only [nesting, links] at hnesting hrest
    obtain ⟨below, hbelow⟩ : ∃ below, budget - receiver.links = below + 1 :=
      ⟨budget - receiver.links - 1, by omega⟩
    rw [show budget - (receiver.links + 1) = below by omega] at hrest
    simp only [words, List.append_assoc, List.cons_append, List.nil_append]
    refine hreceiver.links htight (by omega) ?_
    rw [hbelow]
    exact gives_index (hposition.whole (by omega) rfl) hrest
  · rw [words, head_words_append]
    exact hreceiver.sign htight

theorem isRead_call {arguments : Items} (harguments : arguments.All ReadsExpr) :
    (call receiver arguments).IsRead := by
  refine .of_links (fun budget rest after trees hnesting hrest => ?_) rfl ?_
  · simp only [nesting, links] at hnesting hrest
    obtain ⟨below, hbelow⟩ : ∃ below, budget - receiver.links = below + 1 :=
      ⟨budget - receiver.links - 1, by omega⟩
    rw [show budget - (receiver.links + 1) = below by omega] at hrest
    simp only [words, List.append_assoc, List.cons_append, List.nil_append]
    refine hreceiver.links htight (by omega) ?_
    rw [hbelow]
    have hitems : (Rule.loop (listStep .rParen startsExpr (level below).expr .notAnArgument)).Gives
        (arguments.words ++ (.rParen, ")") :: rest)
        (arguments.trees false ++ [.leaf .rParen ")"]) rest :=
      arguments.gives (progresses_arguments (progresses_level below).expr) rfl
        (fun hread hless hend => hread hless (goesOn_of_endsItem hend)) (by simp) ")" rest
        harguments (by omega)
    exact gives_call hitems hrest
  · rw [words, head_words_append]
    exact hreceiver.sign htight

omit hreceiver htight

/-! Operands -/

theorem isRead_access (name : Name) : (access name).IsRead :=
  .of_primary rfl rfl (by simp [Name.leaf]) fun _ _ => gives_variable name.text

theorem isRead_integer (digits : Digits) : (integer digits).IsRead :=
  .of_primary rfl rfl (by simp [Digits.leaf]) fun _ _ => gives_literal rfl

theorem isRead_constant (value : Constant) : (constant value).IsRead := by
  have hkind := value.kind_mem
  refine .of_primary rfl rfl ?_ fun _ _ => gives_literal ?_
  · obtain h | h | h := hkind <;> simp [Constant.leaf, h]
  · obtain h | h | h := hkind <;> simp [Constant.leaf, h]

theorem isRead_string (multiline : Bool) {parts : Parts} (h : parts.All ReadsExpr) :
    (string multiline parts).IsRead :=
  .of_primary rfl rfl (by simp) fun rest hnesting =>
    gives_stringOperand (parts.gives multiline rest h hnesting)

theorem isRead_object {properties : Properties} (h : properties.All ReadsExpr) :
    (object properties).IsRead := by
  refine .of_primary rfl rfl (by simp) fun rest hnesting => ?_
  simp only [words, List.cons_append, List.append_assoc, List.nil_append]
  exact gives_object (properties.gives _ rest h hnesting)

theorem isRead_array {items : Items} (h : items.All ReadsExpr)
    (hfor : items.startsWithFor = false) : (array items).IsRead := by
  refine .of_primary rfl rfl (by simp) fun {budget} rest hnesting => ?_
  simp only [words, List.cons_append, List.append_assoc, List.nil_append]
  refine gives_array (items.gives (progresses_arrayItem (progresses_level budget).expr) rfl
    (fun hread hless hend => (hread hless (goesOn_of_endsItem hend)).node .arrayItem) (by simp) _
    rest h hnesting) ?_
  cases items with
  | nil => simp
  | one item =>
      rw [Items.words, head_words_append]
      exact head_words_ne hfor
  | cons item =>
      rw [Items.words, List.append_assoc, head_words_append]
      exact head_words_ne hfor

theorem isRead_loop {item : Name} {iterable body : Expr} (hitem : item.text ≠ "in")
    (hiterable : iterable.ReadsExpr) (hbody : body.ReadsExpr) :
    (loop item iterable body).IsRead := by
  refine .of_primary rfl rfl (by simp) fun rest hnesting => ?_
  simp only [nesting, Nat.max_le] at hnesting
  simp only [words, List.cons_append, List.append_assoc, List.nil_append]
  exact gives_forExpr hitem (hiterable hnesting.1 rfl) (hbody hnesting.2 rfl)
    (body.head_ne_newline _)

/-- With parentheses where an operand binds too loosely, each expression is read as it is meant. -/
theorem isRead_grouped (expr : Expr) (h : expr.grouped.isWritable ["in"] = true) :
    expr.grouped.IsRead := by
  induction expr using Expr.induction with
  | step expr ih =>
      have hwhole : ∀ {inner : Expr},
          (inner.grouped.isWritable ["in"] = true → inner.grouped.IsRead) →
          inner.grouped.isWritable ["in"] = true → inner.grouped.ReadsExpr :=
        fun hread hwritable => (hread hwritable).whole
      cases expr with
      | access name => exact isRead_access name
      | integer digits => exact isRead_integer digits
      | constant value => exact isRead_constant value
      | string multiline parts =>
          exact isRead_string multiline (Parts.all_grouped hwhole multiline ih h)
      | object properties => exact isRead_object (Properties.all_grouped hwhole ih h)
      | array items =>
          simp only [grouped, isWritable, Bool.and_eq_true, Bool.not_eq_true'] at h
          exact isRead_array (Items.all_grouped hwhole ih h.2) h.1
      | loop item iterable body =>
          simp only [grouped, isWritable, Bool.and_eq_true, Bool.not_eq_true',
            List.contains_cons, List.contains_nil, Bool.or_false, beq_eq_false_iff_ne] at h
          exact isRead_loop h.1.1 (ih.1 h.1.2).whole (ih.2 h.2).whole
      | paren inner => exact isRead_paren (ih h)
      | unary sign operand =>
          simp only [grouped, isWritable, isWritable_within] at h
          exact isRead_unary ((ih h).within 8) (tightness_within (by simp) _) sign
      | binary operator left right =>
          simp only [grouped, isWritable, isWritable_within, Bool.and_eq_true] at h
          have hmost := operator.precedence_mem.2
          exact isRead_binary ((ih.1 h.1).within _) ((ih.2 h.2).within _)
            (tightness_within (by omega) _) (tightness_within (by omega) _)
      | ternary test yes no =>
          simp only [grouped, isWritable, isWritable_within, Bool.and_eq_true] at h
          exact isRead_ternary ((ih.1 h.1.1).within 1) (ih.2.1 h.1.2) (ih.2.2 h.2)
            (tightness_within (by simp) _)
      | member receiver name =>
          simp only [grouped, isWritable, isWritable_within] at h
          exact isRead_member ((ih h).within 9) (tightness_within (by simp) _) name
      | index receiver position =>
          simp only [grouped, isWritable, isWritable_within, Bool.and_eq_true] at h
          exact isRead_index ((ih.1 h.1).within 9) (tightness_within (by simp) _) (ih.2 h.2)
      | call callee arguments =>
          simp only [grouped, isWritable, isWritable_within, Bool.and_eq_true] at h
          exact isRead_call ((ih.1 h.1).within 9) (tightness_within (by simp) _)
            (Items.all_grouped hwhole ih.2 h.2)

end Expr

end Ast

end Caret
