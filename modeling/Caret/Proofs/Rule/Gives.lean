import Caret.Proofs.Rule.Yields

/-!
# Reading without faults

Most of what is read is written as it should be. What a rule makes of tokens with no trivia between
them, where nothing is missing and nothing is in the way, is put together as the rules are, without
trivia and faults to carry along.
-/

namespace Caret

namespace Rule

/-- A rule that reads from some tokens to others, with these trees and no faults. -/
def Gives (rule : Rule) (before : List (Kind × String)) (trees : List Tree)
    (after : List (Kind × String)) : Prop :=
  rule.Yields (before.map Piece.ofLeaf) trees [] (after.map Piece.ofLeaf)

variable {first second body yes no other : Rule} {next : List Tree → Rule}
  {word following : Kind × String} {before between after : List (Kind × String)}
  {trees trees' left : List Tree} {kind wanted : Kind} {input : List Lexeme}

theorem kind_of_word (h : input.map Lexeme.piece = (word :: after).map Piece.ofLeaf) :
    Rule.kind input = word.1 := kind_of_piece h

theorem isWordAt_of_word (h : input.map Lexeme.piece = (word :: after).map Piece.ofLeaf)
    (text : String) : isWordAt input text = (word.1 = .ident && word.2 = text) :=
  isWordAt_of_piece h text

theorem tail_of_words (h : input.map Lexeme.piece = (word :: after).map Piece.ofLeaf) :
    input.tail.map Lexeme.piece = after.map Piece.ofLeaf := tail_of_piece h

/-! The ways to put rules together -/

theorem Gives.congr (h : other.Gives before trees after)
    (heq : ∀ input : List Lexeme, input.map Lexeme.piece = before.map Piece.ofLeaf →
      first input = other input) : first.Gives before trees after := Yields.congr h heq

theorem gives_done : done.Gives before [] before := yields_done

theorem Gives.andThen (hfirst : first.Gives before trees between)
    (hsecond : second.Gives between trees' after) :
    (first ++ second).Gives before (trees ++ trees') after := Yields.andThen hfirst hsecond

theorem Gives.into (hfirst : first.Gives before trees between)
    (hnext : (next trees).Gives between trees' after) :
    (first.into next).Gives before trees' after := Yields.into hfirst hnext

theorem Gives.wrap (hbody : body.Gives before trees after) (kind : Kind) (left : List Tree) :
    (wrap kind left body).Gives before [.node kind (left ++ trees)] after :=
  Yields.wrap hbody kind left

theorem gives_settle : settle.Gives before [] before := by
  cases before with
  | nil =>
      intro input hinput
      obtain rfl := List.map_eq_nil_iff.1 hinput
      exact ⟨rfl, rfl, rfl⟩
  | cons word before => exact yields_settle

theorem Gives.settled (h : body.Gives before trees after) :
    (settle ++ body).Gives before trees after := gives_settle.andThen h

theorem Gives.node (h : body.Gives before trees after) (kind : Kind) :
    (node kind body).Gives before [.node kind trees] after := (h.wrap kind []).settled

theorem gives_takeAs (kind : Kind) (h : word.1 ≠ .eof) :
    (takeAs kind).Gives (word :: after) [.leaf kind word.2] after := yields_takeAs kind h

theorem gives_take (h : word.1 ≠ .eof) : take.Gives (word :: after) [.ofLeaf word] after :=
  yields_take h

theorem Gives.ifAt_pos (hyes : yes.Gives (word :: before) trees after) (h : word.1 = wanted) :
    (ifAt wanted yes no).Gives (word :: before) trees after := Yields.ifAt_pos hyes h

theorem Gives.ifAt_neg (hno : no.Gives (word :: before) trees after) (h : word.1 ≠ wanted) :
    (ifAt wanted yes no).Gives (word :: before) trees after := Yields.ifAt_neg hno h

theorem gives_unlessAt {kinds : List Kind} (h : kinds.contains word.1 = true) :
    (unlessAt kinds body).Gives (word :: after) [] (word :: after) := yields_unlessAt h

theorem gives_expect (h : word.1 = wanted) (heof : word.1 ≠ .eof) :
    (expect wanted).Gives (word :: after) [.ofLeaf word] after := yields_expect h heof

theorem gives_takeNewlines (h : ∀ word ∈ before.head?, word.1 ≠ .newline) :
    takeNewlines.Gives before [] before := by
  cases before with
  | nil =>
      intro input hinput
      obtain rfl := List.map_eq_nil_iff.1 hinput
      exact ⟨rfl, rfl, rfl⟩
  | cons word before => exact yields_takeNewlines (h word rfl)

theorem gives_takeNewlinesBefore (wanted : Kind) (h : word.1 ≠ .newline) :
    (takeNewlinesBefore wanted).Gives (word :: after) [] (word :: after) := by
  intro input hinput
  unfold takeNewlinesBefore
  split
  · exact gives_takeNewlines (by simpa using h) input hinput
  · exact gives_done input hinput

theorem Gives.loop_again {choose : List Lexeme → Step} (hprogress : Progresses choose)
    (hchoose : ∀ input : List Lexeme, input.map Lexeme.piece = before.map Piece.ofLeaf →
      choose input = .again body)
    (hbody : body.Gives before trees between) (hloop : (loop choose).Gives between trees' after) :
    (loop choose).Gives before (trees ++ trees') after :=
  Yields.loop_again hprogress hchoose hbody hloop

/-! Chains -/

section Chain

variable {budget least precedence : Nat} {receiver : Tree}

theorem gives_links_keep (h : Level.startsLink following.1 = false) :
    ((level budget).links left).Gives (following :: after) left (following :: after) := by
  obtain ⟨below, hbelow⟩ := exists_level_eq_above budget
  rw [hbelow]
  exact Level.yields_links_keep h

/-- A link and those behind it, each with a level of its own. -/
theorem Gives.links {link : Rule} (hword : Level.startsLink word.1 = true)
    (heq : ∀ input : List Lexeme, Rule.kind input = word.1 →
      (level budget).link left input = link input)
    (hlink : link.Gives (word :: before) trees between)
    (hlinks : ((level budget).links trees).Gives between trees' after) :
    ((level (budget + 1)).links left).Gives (word :: before) trees' after := by
  have hrest : ((level budget).link left).Gives (word :: before) trees between :=
    hlink.congr fun input hinput => heq input (kind_of_word hinput)
  refine (hrest.into hlinks).congr fun input hinput => ?_
  change (Level.above (some (level budget))).links left input = _
  rw [Level.links_above, kind_of_word hinput, if_pos hword]

theorem Gives.unary
    (hchain : ((primary (level budget).expr).into (level budget).links).Gives (word :: before) trees
      after) (hbang : word.1 ≠ .bang) (hminus : word.1 ≠ .minus) :
    (level budget).unary.Gives (word :: before) trees after := by
  obtain ⟨below, hbelow⟩ := exists_level_eq_above budget
  rw [hbelow] at hchain ⊢
  refine hchain.settled.congr fun input hinput => ?_
  rw [Level.unary_above, kind_of_word hinput, if_neg (by simp [hbang, hminus])]
  rfl

theorem gives_operators_keep (h : ∀ precedence ∈ following.1.precedence, precedence < least) :
    ((level budget).operators least left).Gives (following :: after) left (following :: after) := by
  obtain ⟨below, hbelow⟩ := exists_level_eq_above budget
  rw [hbelow]
  exact Level.yields_operators_keep h

/-- An operator with its right operand and the operators behind them, with a level of its own. -/
theorem Gives.operators (hprecedence : word.1.precedence = some precedence)
    (hleast : least ≤ precedence)
    (hright : ((level budget).binary (precedence + 1)).Gives before trees between)
    (hrest : ((level budget).operators least [.node .binaryExpr (left ++ .ofLeaf word :: trees)]).Gives
      between trees' after) :
    ((level (budget + 1)).operators least left).Gives (word :: before) trees' after := by
  have heof : word.1 ≠ .eof := by
    rintro heof
    rw [heof] at hprecedence
    cases hprecedence
  have hoperator := ((gives_take heof).andThen hright).wrap .binaryExpr left
  refine (hoperator.into hrest).congr fun input hinput => ?_
  change (Level.above (some (level budget))).operators least left input = _
  rw [Level.operators_above, kind_of_word hinput, hprecedence]
  exact if_neg (Nat.not_lt.2 hleast)

theorem gives_choice_keep {level : Level} (h : following.1 ≠ .question) :
    (level.choice left).Gives (following :: after) left (following :: after) :=
  Level.yields_choice_keep h

end Chain

/-! Operands -/

section Operand

variable {expr rule : Rule} {tree key value : Tree} {text quotes : String}

theorem Gives.operand (h : rule.Gives (word :: before) trees after)
    (heq : ∀ input : List Lexeme, Rule.kind input = word.1 → primary expr input = rule input) :
    (primary expr).Gives (word :: before) trees after :=
  h.congr fun input hinput => heq input (kind_of_word hinput)

theorem gives_variable (text : String) :
    (primary expr).Gives ((.ident, text) :: after) [.node .variableAccess [.leaf .ident text]]
      after :=
  yields_variable expr text

theorem gives_literal (h : [Kind.integer, .trueKw, .falseKw, .nullKw].contains word.1 = true) :
    (primary expr).Gives (word :: after) [.node .literal [.ofLeaf word]] after := by
  have heof : word.1 ≠ .eof := by
    rintro heof
    rw [heof] at h
    cases h
  refine ((gives_take heof).node .literal).operand fun input hinput => Primary.eq (.literal ?_)
  rw [hinput]
  exact List.contains_iff_mem.1 h

theorem gives_paren (hexpr : expr.Gives before [tree] ((.rParen, ")") :: after))
    (hline : ∀ word ∈ before.head?, word.1 ≠ .newline) :
    (primary expr).Gives ((.lParen, "(") :: before)
      [.node .parenExpr [.leaf .lParen "(", tree, .leaf .rParen ")"]] after :=
  have hopen : take.Gives ((.lParen, "(") :: before) [.leaf .lParen "("] before :=
    gives_take (by simp)
  have hclose : (expect .rParen).Gives ((.rParen, ")") :: after) [.leaf .rParen ")"] after :=
    gives_expect rfl (by simp)
  (((((hopen.andThen (gives_takeNewlines hline)).andThen hexpr).andThen
    (gives_takeNewlinesBefore .rParen (by simp))).andThen hclose).node .parenExpr).operand
      fun _ hinput => (Primary.paren hinput).eq

/-! Strings -/

theorem gives_string (h : (loop (stringStep expr)).Gives before trees after) :
    (string expr).Gives ((.stringStart, quotes) :: before)
      [.node .string (.leaf .stringStart quotes :: trees)] after :=
  ((gives_take (by simp)).andThen h).node .string

theorem gives_stringOperand (h : (loop (stringStep expr)).Gives before trees after) :
    (primary expr).Gives ((.stringStart, quotes) :: before)
      [.node .string (.leaf .stringStart quotes :: trees)] after :=
  (gives_string h).operand fun _ hinput => (Primary.string hinput).eq

/-- A hole with one expression in it. -/
theorem gives_interpolation (hexpr : expr.Gives before [tree] ((.interpEnd, "\x7d") :: after))
    (hline : ∀ word ∈ before.head?, word.1 ≠ .newline) :
    (interpolation expr).Gives ((.interpStart, "$\x7b") :: before)
      [.node .interpolation [.leaf .interpStart "$\x7b", tree, .leaf .interpEnd "\x7d"]] after :=
  have hopen : take.Gives ((.interpStart, "$\x7b") :: before) [.leaf .interpStart "$\x7b"] before :=
    gives_take (by simp)
  have hclose : (expect .interpEnd).Gives ((.interpEnd, "\x7d") :: after)
      [.leaf .interpEnd "\x7d"] after := gives_expect rfl (by simp)
  (((((hopen.andThen (gives_takeNewlines hline)).andThen hexpr).andThen
    (gives_takeNewlines (by simp))).andThen (gives_unlessAt rfl)).andThen hclose).node
    .interpolation

section Body

variable (hspells : ∀ input, (expr input).Spells [] input)

include hspells

theorem gives_stringEnd (quotes : String) :
    (loop (stringStep expr)).Gives ((.stringEnd, quotes) :: after) [.leaf .stringEnd quotes] after :=
  yields_stringEnd hspells quotes

theorem gives_stringText (h : (loop (stringStep expr)).Gives before trees after) (raw : String) :
    (loop (stringStep expr)).Gives (textLeaves raw ++ before)
      ((textLeaves raw).map Tree.ofLeaf ++ trees) after := by
  rw [Gives, List.map_append]
  exact Yields.stringText hspells h raw

theorem gives_stringHole (hexpr : expr.Gives before [tree] ((.interpEnd, "\x7d") :: between))
    (hline : ∀ word ∈ before.head?, word.1 ≠ .newline)
    (h : (loop (stringStep expr)).Gives between trees after) :
    (loop (stringStep expr)).Gives ((.interpStart, "$\x7b") :: before)
      (.node .interpolation [.leaf .interpStart "$\x7b", tree, .leaf .interpEnd "\x7d"] :: trees)
      after :=
  Gives.loop_again (progresses_stringStep hspells)
    (fun input hinput => by simp [stringStep, kind_of_word hinput])
    (gives_interpolation hexpr hline) h

end Body

/-! Lists -/

section List

variable {close : Kind} {startsItem : Kind → Bool} {item : Rule} {cause : SyntaxError.Cause}

theorem gives_list (h : (loop (listStep close startsItem item cause)).Gives before trees after)
    (kind : Kind) (hword : word.1 ≠ .eof) :
    (list kind close startsItem item cause).Gives (word :: before)
      [.node kind (.ofLeaf word :: trees)] after :=
  ((gives_take hword).andThen h).node kind

variable (hprogress : Progresses (listStep close startsItem item cause))

include hprogress

theorem gives_listClose (hclose : closers.contains close = true) (heof : close ≠ .eof)
    (text : String) :
    (loop (listStep close startsItem item cause)).Gives ((close, text) :: after)
      [.leaf close text] after :=
  yields_listClose hprogress rfl (by rintro rfl; cases hclose) (by rintro rfl; cases hclose) heof

theorem gives_listSeparator
    (h : (loop (listStep close startsItem item cause)).Gives before trees after)
    (hword : word.1 = .newline ∨ word.1 = .comma) :
    (loop (listStep close startsItem item cause)).Gives (word :: before) (.ofLeaf word :: trees)
      after :=
  Gives.loop_again hprogress (fun input hinput => by
    simp [listStep, kind_of_word hinput, hword])
    (gives_take (by rintro heof; rw [heof] at hword; simp at hword)) h

/-- An item that can be told from what ends a list. -/
theorem gives_listItem (hitem : item.Gives (word :: before) trees between)
    (hloop : (loop (listStep close startsItem item cause)).Gives between trees' after)
    (hstarts : startsItem word.1 = true) (hclose : closers.contains close = true)
    (hword : (Kind.newline :: .comma :: closers).contains word.1 = false)
    (hdeclaration : ∀ input : List Lexeme,
      input.map Lexeme.piece = (word :: before).map Piece.ofLeaf →
      startsDeclaration input = false) :
    (loop (listStep close startsItem item cause)).Gives (word :: before) (trees ++ trees')
      after := by
  simp only [List.contains_cons, Bool.or_eq_false_iff, beq_eq_false_iff_ne] at hword
  obtain ⟨hline, hcomma, hclosers⟩ := hword
  have hne : word.1 ≠ close := by
    rintro heq
    rw [heq, hclose] at hclosers
    cases hclosers
  refine Gives.loop_again hprogress (fun input hinput => ?_) hitem hloop
  simp only [listStep, kind_of_word hinput, hline, hcomma, hne, hclosers,
    hdeclaration input hinput, hstarts, decide_false, Bool.or_self, Bool.false_eq_true, if_false,
    if_true]

end List

/-! Objects -/

theorem gives_propertyKey_word (hstring : word.1 ≠ .stringStart) (heof : word.1 ≠ .eof) :
    (propertyKey expr).Gives (word :: after) [.node .propertyKey [.leaf .ident word.2]] after :=
  ((gives_takeAs .ident heof).ifAt_neg hstring).node .propertyKey

theorem gives_propertyKey_string (h : (loop (stringStep expr)).Gives before trees after) :
    (propertyKey expr).Gives ((.stringStart, quotes) :: before)
      [.node .propertyKey [.node .string (.leaf .stringStart quotes :: trees)]] after :=
  ((gives_string h).ifAt_pos rfl).node .propertyKey

theorem gives_property (hkey : (propertyKey expr).Gives before [key] ((.colon, ":") :: between))
    (hvalue : expr.Gives between [value] (following :: after))
    (hfollowing : (Kind.newline :: .comma :: closers).contains following.1 = true) :
    (property expr).Gives before [.node .objectProperty [key, .leaf .colon ":", value]]
      (following :: after) :=
  have hcolon : (propertyValue expr).Gives ((.colon, ":") :: between) [.leaf .colon ":", value]
      (following :: after) := ((gives_take (by simp)).andThen hvalue).ifAt_pos rfl
  ((hkey.andThen hcolon).andThen (gives_unlessAt hfollowing)).node .objectProperty

theorem gives_object
    (h : (loop (listStep .rBrace startsProperty (property expr) .notAProperty)).Gives before trees
      after) :
    (primary expr).Gives ((.lBrace, "\x7b") :: before)
      [.node .object (.leaf .lBrace "\x7b" :: trees)] after :=
  (gives_list h .object (by simp)).operand fun _ hinput => (Primary.object hinput).eq

/-! Arrays and loops -/

theorem gives_array
    (h : (loop (listStep .rBrack startsExpr (node .arrayItem expr) .notAnItem)).Gives before
      trees after)
    (hfor : before.head? ≠ some (.ident, "for")) :
    (primary expr).Gives ((.lBrack, "[") :: before)
      [.node .array (.leaf .lBrack "[" :: trees)] after := by
  refine (gives_list h .array (by simp)).congr fun input hinput => ?_
  have htail : isWordAt input.tail "for" = false := by
    cases before with
    | nil =>
        rw [List.map_eq_nil_iff.1 (tail_of_words hinput)]
        rfl
    | cons word before =>
        rw [isWordAt_of_word (tail_of_words hinput)]
        by_contra hword
        simp only [Bool.not_eq_false, Bool.and_eq_true, decide_eq_true_eq] at hword
        exact hfor (congrArg some (Prod.ext hword.1 hword.2))
  exact (Primary.array (kind_of_word hinput) htail).eq

theorem gives_forExpr {name : String} {iterable body : Tree} (hname : name ≠ "in")
    (hiterable : expr.Gives before [iterable] ((.colon, ":") :: between))
    (hbody : expr.Gives between [body] ((.rBrack, "]") :: after))
    (hline : ∀ word ∈ between.head?, word.1 ≠ .newline) :
    (primary expr).Gives
      ((.lBrack, "[") :: (.ident, "for") :: (.ident, name) :: (.ident, "in") :: before)
      [.node .forExpr [.leaf .lBrack "[", .leaf .forKw "for", .node .name [.leaf .ident name],
        .leaf .inKw "in", iterable, .leaf .colon ":", body, .leaf .rBrack "]"]] after := by
  have hvariable : loopVariable.Gives ((.ident, name) :: (.ident, "in") :: before)
      [.node .name [.leaf .ident name]] ((.ident, "in") :: before) :=
    ((gives_take (by simp)).node .name).congr fun input hinput => by
      rw [loopVariable, kind_of_word hinput, isWordAt_of_word hinput, if_pos (by simpa using hname)]
  have hin : inKeyword.Gives ((.ident, "in") :: before) [.leaf .inKw "in"] before :=
    (gives_takeAs .inKw (by simp)).congr fun input hinput => by
      rw [inKeyword, isWordAt_of_word hinput, if_pos (by simp)]
  have hopen : (take ++ takeAs .forKw).Gives
      ((.lBrack, "[") :: (.ident, "for") :: (.ident, name) :: (.ident, "in") :: before)
      [.leaf .lBrack "[", .leaf .forKw "for"] ((.ident, name) :: (.ident, "in") :: before) :=
    (gives_take (by simp)).andThen (gives_takeAs .forKw (by simp))
  have hcolon : (expect .colon).Gives ((.colon, ":") :: between) [.leaf .colon ":"] between :=
    gives_expect rfl (by simp)
  have hclose : (expect .rBrack).Gives ((.rBrack, "]") :: after) [.leaf .rBrack "]"] after :=
    gives_expect rfl (by simp)
  have hrest : (unlessAt (.newline :: closers) (skipTo [.newline, .rBrack] .afterLoop)).Gives
      ((.rBrack, "]") :: after) [] ((.rBrack, "]") :: after) := gives_unlessAt rfl
  have hhead := ((((hopen.andThen hvariable).andThen hin).andThen hiterable).andThen hcolon).andThen
    (gives_takeNewlines hline)
  have hloop := (((hhead.andThen hbody).andThen hrest).andThen
    (gives_takeNewlinesBefore .rBrack (by simp))).andThen hclose
  refine (hloop.node .forExpr).congr fun input hinput =>
    Primary.eq (.loop (kind_of_word hinput) ?_)
  rw [isWordAt_of_word (tail_of_words hinput)]
  rfl

/-! Links -/

variable {budget : Nat} {receiver : Tree}

theorem gives_member (hword : word.1.isWord = true)
    (h : ((level budget).links
      [.node .propertyAccess [receiver, .leaf .dot ".", .leaf .ident word.2]]).Gives before trees
      after) :
    ((level (budget + 1)).links [receiver]).Gives ((.dot, ".") :: word :: before) trees after := by
  have heof : word.1 ≠ .eof := by
    rintro heof
    rw [heof] at hword
    cases hword
  have hmember : Level.member.Gives (word :: before) [.leaf .ident word.2] before :=
    (gives_takeAs .ident heof).congr fun input hinput => by
      rw [Level.member, kind_of_word hinput, if_pos hword]
  refine Gives.links rfl (fun input hinput => ?_)
    (((gives_take (by simp)).andThen hmember).wrap .propertyAccess [receiver]) h
  unfold Level.link
  simp only [hinput]

theorem gives_index {position : Tree}
    (hposition : (level budget).expr.Gives before [position] ((.rBrack, "]") :: between))
    (h : ((level budget).links
      [.node .arrayAccess [receiver, .leaf .lBrack "[", position, .leaf .rBrack "]"]]).Gives
      between trees after) :
    ((level (budget + 1)).links [receiver]).Gives ((.lBrack, "[") :: before) trees after := by
  refine Gives.links rfl (fun input hinput => ?_)
    ((((gives_take (by simp)).andThen hposition).andThen (gives_expect rfl (by simp))).wrap
      .arrayAccess [receiver]) h
  unfold Level.link
  simp only [hinput]

theorem gives_call {arguments : List Tree}
    (harguments : (loop (listStep .rParen startsExpr (level budget).expr .notAnArgument)).Gives
      before arguments between)
    (h : ((level budget).links
      [.node .callExpr [receiver, .node .argList (.leaf .lParen "(" :: arguments)]]).Gives
      between trees after) :
    ((level (budget + 1)).links [receiver]).Gives ((.lParen, "(") :: before) trees after := by
  refine Gives.links rfl (fun input hinput => ?_)
    ((gives_list harguments .argList (by simp)).wrap .callExpr [receiver]) h
  unfold Level.link
  simp only [hinput]
  rfl

end Operand

/-! Declarations -/

section Declaration

variable {tree : Tree} {text : String} {keyword : Kind}

theorem gives_name (text : String) :
    name.Gives ((.ident, text) :: after) [.node .name [.leaf .ident text]] after :=
  yields_name [] text

theorem gives_typeName (text : String) :
    typeName.Gives ((.ident, text) :: after) [.node .typeName [.leaf .ident text]] after :=
  yields_typeName [] text

theorem gives_quoted (h : (loop (stringStep expr)).Gives before trees after) (quotes : String)
    (kind : Kind) (expected : Expected) :
    (quoted kind expected).Gives ((.stringStart, quotes) :: before)
      [.node kind [.node .string (.leaf .stringStart quotes :: trees)]] after :=
  ((gives_string h).node kind).ifAt_pos rfl

theorem gives_existing :
    existing.Gives ((.ident, "existing") :: after) [.leaf .existingKw "existing"] after :=
  (gives_takeAs .existingKw (by simp)).congr fun input hinput => by
    rw [existing, isWordAt_of_word hinput, if_pos (by simp)]

theorem gives_existing_none (h : word.1 ≠ .ident) :
    existing.Gives (word :: after) [] (word :: after) := yields_existing h

/-- The value of a declaration behind an equals sign. -/
theorem gives_value (h : expr.Gives before [tree] after) :
    (expect .eq ++ expr).Gives ((.eq, "=") :: before) [.leaf .eq "=", tree] after :=
  (gives_expect rfl (by simp)).andThen h

theorem Gives.value (h : first.Gives before trees ((.eq, "=") :: between))
    (hvalue : expr.Gives between [tree] after) :
    (first ++ expect .eq ++ expr).Gives before (trees ++ [.leaf .eq "=", tree]) after := by
  have hsign : (expect .eq).Gives ((.eq, "=") :: between) [.leaf .eq "="] between :=
    gives_expect rfl (by simp)
  have hall := (h.andThen hsign).andThen hvalue
  rwa [List.append_assoc] at hall

theorem gives_takeNewline (h : ∀ word ∈ after.head?, word.1 ≠ .newline) :
    takeNewlines.Gives ((.newline, "\n") :: after) [.leaf .newline "\n"] after := by
  intro input hinput
  obtain ⟨lexeme, rest, rfl, hlexeme, hrest⟩ := List.map_eq_cons_iff.1 hinput
  obtain ⟨htrees, herrors, hafter⟩ := gives_takeNewlines h rest hrest
  obtain ⟨hlead, htoken⟩ := Piece.mk.inj hlexeme
  have hkind : lexeme.kind = .newline := congrArg Prod.fst htoken
  have htext : lexeme.token.text = "\n" := congrArg Prod.snd htoken
  have htokens : lexeme.tokens.map Tree.ofToken = [.leaf .newline "\n"] := by
    rw [Lexeme.tokens, List.map_eq_nil_iff.1 hlead, ← hkind, ← htext]
    rfl
  simp only [takeNewlines, if_pos hkind, htrees, htokens]
  exact ⟨rfl, herrors, hafter⟩

/-- A decorator on a line of its own. -/
theorem Gives.decorators
    (hchain : outermost.chain.Gives (word :: before) [tree] ((.newline, "\n") :: between))
    (hident : word.1 = .ident)
    (hline : ∀ word ∈ between.head?, word.1 ≠ .newline)
    (h : (loop decoratorStep).Gives between trees after) :
    (loop decoratorStep).Gives ((.atSign, "@") :: word :: before)
      (.node .decorator [.leaf .atSign "@", tree] :: .leaf .newline "\n" :: trees) after := by
  have hsign : take.Gives ((.atSign, "@") :: word :: before) [.leaf .atSign "@"] (word :: before) :=
    gives_take (by simp)
  have hrest : (unlessAt [.newline, .eof] (skipTo [.newline] .afterDecorator)).Gives
      ((.newline, "\n") :: between) [] ((.newline, "\n") :: between) := gives_unlessAt rfl
  have hdecorator : decorator.Gives ((.atSign, "@") :: word :: before)
      [.node .decorator [.leaf .atSign "@", tree]] ((.newline, "\n") :: between) :=
    ((hsign.andThen (hchain.ifAt_pos hident)).node .decorator).andThen hrest
  exact Gives.loop_again progresses_decoratorStep
    (fun input hinput => by simp [decoratorStep, kind_of_word hinput])
    (hdecorator.andThen (gives_takeNewline hline)) h

theorem gives_noDecorators (h : word.1 ≠ .atSign) :
    (loop decoratorStep).Gives (word :: after) [] (word :: after) := yields_noDecorators h

theorem Gives.undecorated (hword : declarationWords.lookup text = some (kind, keyword))
    (hheader : (header kind).Gives before trees (following :: after))
    (hfollowing : following.1 = .newline ∨ following.1 = .eof) (decorators : List Tree) :
    (undecorated decorators).Gives ((.ident, text) :: before)
      [.node kind (decorators ++ .leaf keyword text :: trees)] (following :: after) :=
  Yields.undecorated hword hheader
    (by obtain h | h := hfollowing <;> simp [Piece.ofLeaf, Piece.kind, h]) [] decorators

end Declaration

/-! Documents -/

theorem gives_documentEnd :
    (loop documentStep).Gives ((.eof, "") :: after) [] ((.eof, "") :: after) :=
  yields_documentEnd rfl

theorem gives_documentNewline (h : (loop documentStep).Gives before trees after) :
    (loop documentStep).Gives ((.newline, "\n") :: before) (.leaf .newline "\n" :: trees) after :=
  Yields.documentNewline rfl h

theorem gives_documentDeclaration (hdeclaration : declaration.Gives (word :: before) trees between)
    (hloop : (loop documentStep).Gives between trees' after) (hline : word.1 ≠ .newline)
    (heof : word.1 ≠ .eof) :
    (loop documentStep).Gives (word :: before) (trees ++ trees') after := by
  refine Gives.loop_again progresses_documentStep (fun input hinput => ?_) hdeclaration hloop
  rw [documentStep, kind_of_word hinput]
  split
  · exact absurd ‹_› heof
  · exact absurd ‹_› hline
  · rfl

end Rule

end Caret
