import Caret.Proofs.Lexer.Written
import Caret.Proofs.Rule.Progress

/-!
# What is read of given pieces

A rule looks at the kinds and the texts of tokens, and not at their places. What it makes of some
pieces is stated for all lexemes that are these pieces, so that such facts are put together as the
rules are, and pieces that are written down one by one are read without the bytes that they take.
-/

namespace Caret

def Tree.ofLeaf (leaf : Kind × String) : Tree := .leaf leaf.1 leaf.2

/-- A lexeme without the places of its tokens. -/
structure Piece where
  lead : List (Kind × String)
  leaf : Kind × String
  deriving DecidableEq, Repr

namespace Piece

def kind (piece : Piece) : Kind := piece.leaf.1

def text (piece : Piece) : String := piece.leaf.2

/-- A piece with nothing in front of it. -/
def ofLeaf (leaf : Kind × String) : Piece := ⟨[], leaf⟩

/-- What is left of a piece when the trivia in front of it are put into a node. -/
def settled (piece : Piece) : Piece := { piece with lead := [] }

/-- The trivia in front of a piece as leaves. -/
def trivia (piece : Piece) : List Tree := piece.lead.map Tree.ofLeaf

@[simp]
theorem kind_ofLeaf (leaf : Kind × String) : (ofLeaf leaf).kind = leaf.1 := rfl

@[simp]
theorem kind_mk (lead : List (Kind × String)) (leaf : Kind × String) :
    kind ⟨lead, leaf⟩ = leaf.1 := rfl

@[simp]
theorem kind_settled (piece : Piece) : piece.settled.kind = piece.kind := rfl

@[simp]
theorem settled_settled (piece : Piece) : piece.settled.settled = piece.settled := rfl

@[simp]
theorem trivia_settled (piece : Piece) : piece.settled.trivia = [] := rfl

end Piece

def Lexeme.piece (lexeme : Lexeme) : Piece := ⟨lexeme.lead.map Token.leaf, lexeme.token.leaf⟩

theorem Lexeme.trivia_piece (lexeme : Lexeme) :
    lexeme.piece.trivia = lexeme.lead.map Tree.ofToken := by
  rw [Piece.trivia, piece, List.map_map]
  rfl

namespace Piece

/-- The leaves that some pieces stand for. -/
def leaves (pieces : List Piece) : List (Kind × String) :=
  pieces.flatMap fun piece => piece.lead ++ [piece.leaf]

@[simp]
theorem leaves_nil : leaves [] = [] := rfl

@[simp]
theorem leaves_cons (piece : Piece) (pieces : List Piece) :
    leaves (piece :: pieces) = piece.lead ++ piece.leaf :: leaves pieces := by
  rw [leaves, List.flatMap_cons, List.append_assoc]
  rfl

@[simp]
theorem leaves_append (left right : List Piece) :
    leaves (left ++ right) = leaves left ++ leaves right := List.flatMap_append

@[simp]
theorem leaves_map_ofLeaf (parts : List (Kind × String)) : leaves (parts.map ofLeaf) = parts := by
  rw [leaves, List.flatMap_map]
  exact List.flatMap_singleton' parts

/-- A token with nothing but trivia in front of it. -/
def IsSplit (piece : Piece) : Prop :=
  (∀ leaf ∈ piece.lead, leaf.1.isTrivia = true) ∧ piece.kind.isTrivia = false

end Piece

/-- The pieces that some leaves make, each one with the trivia in front of it. -/
def Piece.group : List (Kind × String) → List Piece
  | [] => []
  | leaf :: leaves =>
    if leaf.1.isTrivia then
      match group leaves with
      | [] => []
      | first :: rest => { first with lead := leaf :: first.lead } :: rest
    else .ofLeaf leaf :: group leaves

theorem Piece.group_append_of_trivia {lead : List (Kind × String)} {leaves : List (Kind × String)}
    {first : Piece} {rest : List Piece} (hlead : ∀ leaf ∈ lead, leaf.1.isTrivia = true)
    (h : group leaves = first :: rest) :
    group (lead ++ leaves) = { first with lead := lead ++ first.lead } :: rest := by
  induction lead with
  | nil => exact h
  | cons leaf lead ih =>
      obtain ⟨hleaf, hlead⟩ := List.forall_mem_cons.1 hlead
      rw [List.cons_append, group, if_pos hleaf, ih hlead]
      rfl

/-- Leaves that are those of some pieces make these pieces. -/
theorem Piece.group_leaves {pieces : List Piece} (h : ∀ piece ∈ pieces, piece.IsSplit) :
    group (leaves pieces) = pieces := by
  induction pieces with
  | nil => rfl
  | cons piece pieces ih =>
      obtain ⟨⟨hlead, hleaf⟩, hpieces⟩ := List.forall_mem_cons.1 h
      have hgroup : group (piece.leaf :: leaves pieces) = .ofLeaf piece.leaf :: pieces := by
        rw [group, if_neg (by simpa [kind] using hleaf), ih hpieces]
      rw [leaves_cons]
      refine (group_append_of_trivia hlead hgroup).trans ?_
      rw [ofLeaf, List.append_nil]

theorem Lexeme.map_piece_group (tokens : List Token) :
    (group tokens).map piece = Piece.group (tokens.map Token.leaf) := by
  induction tokens with
  | nil => rfl
  | cons token tokens ih =>
      rw [group, List.map_cons, Piece.group, ← ih, Token.isTrivia]
      change List.map piece (if token.kind.isTrivia then _ else _) =
        if token.kind.isTrivia then _ else _
      cases token.kind.isTrivia
      · rfl
      · cases group tokens <;> rfl

namespace Rule

/-- A rule that reads from the pieces before it to the pieces after it, with exactly these trees and
these faults. -/
def Yields (rule : Rule) (before : List Piece) (trees : List Tree)
    (causes : List SyntaxError.Cause) (after : List Piece) : Prop :=
  ∀ input : List Lexeme, input.map Lexeme.piece = before →
    (rule input).trees = trees ∧ (rule input).errors.map SyntaxError.cause = causes ∧
      (rule input).rest.map Lexeme.piece = after

variable {first second body yes no other : Rule} {next : List Tree → Rule}
  {piece : Piece} {before between after : List Piece} {trees trees' left : List Tree}
  {causes causes' : List SyntaxError.Cause} {kind wanted : Kind} {input : List Lexeme}

theorem kind_of_piece (h : input.map Lexeme.piece = piece :: after) : Rule.kind input = piece.kind := by
  obtain ⟨lexeme, rest, rfl, rfl, -⟩ := List.map_eq_cons_iff.1 h
  rfl

theorem text_of_piece (h : input.map Lexeme.piece = piece :: after) :
    (current input).text = piece.text := by
  obtain ⟨lexeme, rest, rfl, rfl, -⟩ := List.map_eq_cons_iff.1 h
  rfl

theorem isWordAt_of_piece (h : input.map Lexeme.piece = piece :: after) (text : String) :
    isWordAt input text = (piece.kind = .ident && piece.text = text) := by
  rw [isWordAt, kind_of_piece h, text_of_piece h]

theorem tail_of_piece (h : input.map Lexeme.piece = piece :: after) :
    input.tail.map Lexeme.piece = after := by
  rw [List.map_tail, h]
  rfl

theorem nextKind_of_pieces {following : Piece}
    (h : input.map Lexeme.piece = piece :: following :: after) : nextKind input = following.kind :=
  kind_of_piece (tail_of_piece h)

/-! The ways to put rules together -/

theorem Yields.congr (h : other.Yields before trees causes after)
    (heq : ∀ input : List Lexeme, input.map Lexeme.piece = before → first input = other input) :
    first.Yields before trees causes after := by
  intro input hinput
  rw [heq input hinput]
  exact h input hinput

theorem yields_done : done.Yields before [] [] before := fun _ hinput => ⟨rfl, rfl, hinput⟩

theorem yields_keep : (keep trees).Yields before trees [] before := fun _ hinput => ⟨rfl, rfl, hinput⟩

theorem yields_report (cause : SyntaxError.Cause) : (report cause).Yields before [] [cause] before :=
  fun _ hinput => ⟨rfl, rfl, hinput⟩

theorem Yields.andThen (hfirst : first.Yields before trees causes between)
    (hsecond : second.Yields between trees' causes' after) :
    (first ++ second).Yields before (trees ++ trees') (causes ++ causes') after := by
  intro input hinput
  obtain ⟨htrees, hcauses, hbetween⟩ := hfirst input hinput
  obtain ⟨htrees', hcauses', hafter⟩ := hsecond _ hbetween
  rw [andThen_apply, htrees, htrees', List.map_append, hcauses, hcauses']
  exact ⟨rfl, rfl, hafter⟩

theorem Yields.into (hfirst : first.Yields before trees causes between)
    (hnext : (next trees).Yields between trees' causes' after) :
    (first.into next).Yields before trees' (causes ++ causes') after := by
  intro input hinput
  obtain ⟨htrees, hcauses, hbetween⟩ := hfirst input hinput
  obtain ⟨htrees', hcauses', hafter⟩ := hnext _ hbetween
  rw [Rule.into, htrees]
  refine ⟨htrees', ?_, hafter⟩
  rw [List.map_append, hcauses, hcauses']

theorem Yields.wrap (hbody : body.Yields before trees causes after) (kind : Kind)
    (left : List Tree) :
    (wrap kind left body).Yields before [.node kind (left ++ trees)] causes after := by
  intro input hinput
  obtain ⟨rfl, hcauses, hafter⟩ := hbody input hinput
  exact ⟨rfl, hcauses, hafter⟩

theorem yields_settle :
    settle.Yields (piece :: after) piece.trivia [] (piece.settled :: after) := by
  intro input hinput
  obtain ⟨lexeme, rest, rfl, rfl, rfl⟩ := List.map_eq_cons_iff.1 hinput
  exact ⟨lexeme.trivia_piece.symm, rfl, rfl⟩

theorem Yields.settled (h : body.Yields (piece.settled :: before) trees causes after) :
    (settle ++ body).Yields (piece :: before) (piece.trivia ++ trees) causes after :=
  yields_settle.andThen h

theorem Yields.node (h : body.Yields (piece.settled :: before) trees causes after) :
    (node kind body).Yields (piece :: before) (piece.trivia ++ [.node kind trees]) causes after :=
  (h.wrap kind []).settled

theorem yields_takeAs (kind : Kind) (h : piece.kind ≠ .eof) :
    (takeAs kind).Yields (piece :: after) (piece.trivia ++ [.leaf kind piece.text]) [] after := by
  intro input hinput
  obtain ⟨lexeme, rest, rfl, rfl, rfl⟩ := List.map_eq_cons_iff.1 hinput
  have hkind : lexeme.kind ≠ .eof := h
  rw [lexeme.trivia_piece]
  simp only [takeAs, if_neg hkind]
  exact ⟨rfl, rfl, trivial⟩

theorem yields_take (h : piece.kind ≠ .eof) :
    take.Yields (piece :: after) (piece.trivia ++ [.leaf piece.kind piece.text]) [] after :=
  (yields_takeAs piece.kind h).congr fun input hinput => by rw [take, kind_of_piece hinput]

theorem yields_absent (expected : Expected) :
    (absent expected).Yields (piece :: after) (piece.trivia ++ [.node .missing []])
      [.absent expected piece.kind] (piece.settled :: after) :=
  have hmissing : (node .missing done).Yields (piece :: after)
      (piece.trivia ++ [.node .missing []]) [] (piece.settled :: after) := yields_done.node
  ((yields_report (.absent expected piece.kind)).andThen hmissing).congr
    fun input hinput => by rw [absent, kind_of_piece hinput]

theorem Yields.ifAt_pos (hyes : yes.Yields (piece :: before) trees causes after)
    (h : piece.kind = wanted) : (ifAt wanted yes no).Yields (piece :: before) trees causes after :=
  hyes.congr fun _ hinput => if_pos ((kind_of_piece hinput).trans h)

theorem Yields.ifAt_neg (hno : no.Yields (piece :: before) trees causes after)
    (h : piece.kind ≠ wanted) : (ifAt wanted yes no).Yields (piece :: before) trees causes after :=
  hno.congr fun _ hinput => if_neg (by rwa [kind_of_piece hinput])

theorem yields_unlessAt {kinds : List Kind} (h : kinds.contains piece.kind = true) :
    (unlessAt kinds body).Yields (piece :: after) [] [] (piece :: after) :=
  yields_done.congr fun _ hinput => if_pos (by rwa [kind_of_piece hinput])

theorem yields_expect (h : piece.kind = wanted) (heof : piece.kind ≠ .eof) :
    (expect wanted).Yields (piece :: after) (piece.trivia ++ [.leaf piece.kind piece.text]) [] after :=
  (yields_take heof).ifAt_pos h

theorem yields_takeNewlines (h : piece.kind ≠ .newline) :
    takeNewlines.Yields (piece :: after) [] [] (piece :: after) :=
  yields_done.congr fun _ hinput => takeNewlines_of_ne (by rwa [kind_of_piece hinput])

theorem Yields.loop_again {choose : List Lexeme → Step} (hprogress : Progresses choose)
    (hchoose : ∀ input : List Lexeme, input.map Lexeme.piece = before → choose input = .again body)
    (hbody : body.Yields before trees causes between)
    (hloop : (loop choose).Yields between trees' causes' after) :
    (loop choose).Yields before (trees ++ trees') (causes ++ causes') after :=
  (hbody.andThen hloop).congr fun input hinput => loop_of_again hprogress (hchoose input hinput)

theorem Yields.loop_last {choose : List Lexeme → Step} (hprogress : Progresses choose)
    (hchoose : ∀ input : List Lexeme, input.map Lexeme.piece = before → choose input = .last body)
    (hbody : body.Yields before trees causes after) :
    (loop choose).Yields before trees causes after :=
  hbody.congr fun input hinput => loop_of_last hprogress (hchoose input hinput)

/-! Expressions that nothing goes on behind -/

namespace Level

/-- Whether an expression goes on with a token of the given kind behind it. -/
def goesOn (kind : Kind) : Bool :=
  startsLink kind || kind.precedence.isSome || kind = .question

variable {below : Option Level} {level : Level} {least : Nat}

theorem yields_links_keep (h : startsLink piece.kind = false) :
    ((above below).links left).Yields (piece :: after) left [] (piece :: after) :=
  yields_keep.congr fun input hinput => by
    rw [links_above, kind_of_piece hinput, h]
    rfl

theorem yields_operators_keep (h : ∀ precedence ∈ piece.kind.precedence, precedence < least) :
    ((above below).operators least left).Yields (piece :: after) left [] (piece :: after) :=
  yields_keep.congr fun input hinput => by
    rw [operators_above, kind_of_piece hinput]
    split
    · rfl
    · rename_i precedence hprecedence
      rw [if_pos (h precedence (by rw [hprecedence]; rfl))]

theorem yields_choice_keep (h : piece.kind ≠ .question) :
    (level.choice left).Yields (piece :: after) left [] (piece :: after) :=
  yields_keep.ifAt_neg h

end Level

variable {budget : Nat} {following : Piece}

/-- An operand with its links. -/
theorem Yields.unary
    (hprimary : (primary (level budget).expr).Yields (piece.settled :: before) trees causes between)
    (hlinks : ((level budget).links trees).Yields between trees' causes' after)
    (hbang : piece.kind ≠ .bang) (hminus : piece.kind ≠ .minus) :
    (level budget).unary.Yields (piece :: before) (piece.trivia ++ trees') (causes ++ causes')
      after := by
  have hchain : (level budget).chain.Yields (piece :: before) (piece.trivia ++ trees')
      (causes ++ causes') after := (hprimary.into hlinks).settled
  obtain ⟨below, hbelow⟩ := exists_level_eq_above budget
  rw [hbelow] at hchain ⊢
  refine hchain.congr fun input hinput => ?_
  rw [Level.unary_above, kind_of_piece hinput, if_neg (by simp [hbang, hminus])]

/-- An expression that is an operand with its links, with one level more. -/
theorem Yields.expr_of_links
    (hprimary : (primary (level budget).expr).Yields (piece.settled :: before) trees causes between)
    (hlinks : ((level budget).links trees).Yields between trees' causes' (following :: after))
    (hbang : piece.kind ≠ .bang) (hminus : piece.kind ≠ .minus)
    (hfollowing : Level.goesOn following.kind = false) :
    (level (budget + 1)).expr.Yields (piece :: before) (piece.trivia ++ trees') (causes ++ causes')
      (following :: after) := by
  simp only [Level.goesOn, Bool.or_eq_false_iff, decide_eq_false_iff_not] at hfollowing
  have hoperators : ((level budget).operators 1 trees').Yields (following :: after) trees' []
      (following :: after) := by
    obtain ⟨below, hbelow⟩ := exists_level_eq_above budget
    rw [hbelow]
    refine Level.yields_operators_keep fun precedence hprecedence => ?_
    rw [Option.mem_def.1 hprecedence] at hfollowing
    simp at hfollowing
  have hunary : (level budget).unary.Yields (piece.settled :: before) trees' (causes ++ causes')
      (following :: after) := Yields.unary hprimary hlinks hbang hminus
  have hbinary : ((level budget).binary 1).Yields (piece.settled :: before) trees'
      (causes ++ causes' ++ []) (following :: after) := Yields.settled (hunary.into hoperators)
  have hternary : (level budget).ternary.Yields (piece :: before) (piece.trivia ++ trees')
      (causes ++ causes' ++ [] ++ []) (following :: after) :=
    (hbinary.into (Level.yields_choice_keep hfollowing.2)).settled
  rwa [List.append_nil, List.append_nil] at hternary

/-- An operand that nothing goes on behind is an expression. -/
theorem Yields.expr_of_primary
    (hprimary : (primary (level budget).expr).Yields (piece.settled :: before) trees causes
      (following :: after))
    (hbang : piece.kind ≠ .bang) (hminus : piece.kind ≠ .minus)
    (hfollowing : Level.goesOn following.kind = false) :
    (level (budget + 1)).expr.Yields (piece :: before) (piece.trivia ++ trees) causes
      (following :: after) := by
  have hlinks : ((level budget).links trees).Yields (following :: after) trees []
      (following :: after) := by
    obtain ⟨below, hbelow⟩ := exists_level_eq_above budget
    rw [hbelow]
    simp only [Level.goesOn, Bool.or_eq_false_iff] at hfollowing
    exact Level.yields_links_keep hfollowing.1.1
  have hexpr := Yields.expr_of_links hprimary hlinks hbang hminus hfollowing
  rwa [List.append_nil] at hexpr

/-- A variable, or a word in the place of one. -/
theorem yields_variable (expr : Rule) (text : String) :
    (primary expr).Yields (.ofLeaf (.ident, text) :: after)
      [.node .variableAccess [.leaf .ident text]] [] after := by
  have haccess : (node .variableAccess (takeAs .ident)).Yields (.ofLeaf (.ident, text) :: after)
      [.node .variableAccess [.leaf .ident text]] [] after := (yields_takeAs .ident (by simp)).node
  refine haccess.congr fun input hinput => ?_
  have hkind : Rule.kind input = .ident := kind_of_piece hinput
  exact (Primary.word (by rw [hkind]; rfl) (by rw [hkind]; decide)).eq

/-! Lists, properties and declarations -/

theorem startsDeclaration_of_pieces (h : input.map Lexeme.piece = piece :: following :: after)
    (hident : following.kind ≠ .ident) (heq : following.kind ≠ .eq) :
    startsDeclaration input = false := by
  rw [startsDeclaration, nextKind_of_pieces h]
  simp [hident, heq]

section List

variable {close : Kind} {startsItem : Kind → Bool} {item : Rule} {cause : SyntaxError.Cause}
  (hprogress : Progresses (listStep close startsItem item cause))

include hprogress

theorem yields_listClose (hclose : piece.kind = close) (hline : close ≠ .newline)
    (hcomma : close ≠ .comma) (heof : close ≠ .eof) :
    (loop (listStep close startsItem item cause)).Yields (piece :: after)
      (piece.trivia ++ [.leaf piece.kind piece.text]) [] after :=
  Yields.loop_last hprogress (fun input hinput => by
    simp [listStep, kind_of_piece hinput, hclose, hline, hcomma]) (yields_take (hclose ▸ heof))

theorem Yields.listItem (hstarts : startsItem piece.kind = true) (hline : piece.kind ≠ .newline)
    (hcomma : piece.kind ≠ .comma) (hclose : piece.kind ≠ close)
    (hclosers : closers.contains piece.kind = false) (hident : following.kind ≠ .ident)
    (heq : following.kind ≠ .eq)
    (hitem : item.Yields (piece :: following :: before) trees causes between)
    (hloop : (loop (listStep close startsItem item cause)).Yields between trees' causes' after) :
    (loop (listStep close startsItem item cause)).Yields (piece :: following :: before)
      (trees ++ trees') (causes ++ causes') after :=
  Yields.loop_again hprogress (fun input hinput => by
    have hdeclaration := startsDeclaration_of_pieces hinput hident heq
    simp only [listStep, kind_of_piece hinput, hline, hcomma, hclose, hclosers, hdeclaration,
      hstarts, decide_false, Bool.or_self, Bool.false_eq_true, if_false, if_true]) hitem hloop

end List

section Expr

variable {expr : Rule} {key : Tree}

/-- A property ends where nothing of its line is left. -/
theorem Yields.property (piece colon : Piece)
    (hkey : (propertyKey expr).Yields (piece.settled :: before) [key] [] (colon :: between))
    (hcolon : colon.kind = .colon)
    (hvalue : expr.Yields between trees causes (following :: after))
    (hfollowing : (Kind.newline :: .comma :: closers).contains following.kind = true) :
    (property expr).Yields (piece :: before)
      (piece.trivia ++ [.node .objectProperty
        (key :: (colon.trivia ++ [.leaf colon.kind colon.text] ++ trees))]) causes
      (following :: after) := by
  have hcolonValue : (propertyValue expr).Yields (colon :: between)
      (colon.trivia ++ [.leaf colon.kind colon.text] ++ trees) causes (following :: after) :=
    ((yields_take (by rw [hcolon]; decide)).andThen hvalue).ifAt_pos hcolon
  have hend : (unlessAt (.newline :: .comma :: closers)
      (skipTo [.newline, .comma, .rBrace] .afterProperty)).Yields (following :: after) [] []
      (following :: after) := yields_unlessAt hfollowing
  have hbody := (hkey.andThen hcolonValue).andThen hend
  rw [List.append_nil, List.append_nil] at hbody
  exact hbody.node

section String

variable (hspells : ∀ input, (expr input).Spells [] input)

include hspells

theorem yields_stringEnd (quotes : String) :
    (loop (stringStep expr)).Yields (.ofLeaf (.stringEnd, quotes) :: after)
      [.leaf .stringEnd quotes] [] after :=
  Yields.loop_last (progresses_stringStep hspells)
    (fun input hinput => by simp [stringStep, kind_of_piece hinput]) (yields_take (by simp))

theorem Yields.stringText (h : (loop (stringStep expr)).Yields before trees causes after)
    (raw : String) :
    (loop (stringStep expr)).Yields ((textLeaves raw).map Piece.ofLeaf ++ before)
      ((textLeaves raw).map Tree.ofLeaf ++ trees) causes after := by
  unfold textLeaves
  split
  · exact h
  · exact Yields.loop_again (progresses_stringStep hspells)
      (fun input hinput => by simp [stringStep, kind_of_piece hinput]) (yields_take (by simp)) h

/-- A string without holes. Nothing stands between the quotes of an empty one. -/
theorem yields_string (lead : List (Kind × String)) (quotes raw : String) :
    (string expr).Yields
      (⟨lead, .stringStart, quotes⟩ ::
        ((textLeaves raw).map Piece.ofLeaf ++ .ofLeaf (.stringEnd, quotes) :: after))
      (lead.map Tree.ofLeaf ++ [.node .string (.leaf .stringStart quotes ::
        ((textLeaves raw).map Tree.ofLeaf ++ [.leaf .stringEnd quotes]))]) [] after :=
  ((yields_take (by simp)).andThen
    ((yields_stringEnd hspells quotes).stringText hspells raw)).node

end String

end Expr

theorem yields_name (lead : List (Kind × String)) (text : String) :
    name.Yields (⟨lead, .ident, text⟩ :: after)
      (lead.map Tree.ofLeaf ++ [.node .name [.leaf .ident text]]) [] after :=
  ((yields_take (by simp)).node).ifAt_pos rfl

theorem yields_typeName (lead : List (Kind × String)) (text : String) :
    typeName.Yields (⟨lead, .ident, text⟩ :: after)
      (lead.map Tree.ofLeaf ++ [.node .typeName [.leaf .ident text]]) [] after :=
  ((yields_take (by simp)).node).ifAt_pos rfl

/-- The type of a resource or the path of a module. -/
theorem yields_quoted (kind : Kind) (expected : Expected) (lead : List (Kind × String))
    (quotes raw : String) :
    (quoted kind expected).Yields
      (⟨lead, .stringStart, quotes⟩ ::
        ((textLeaves raw).map Piece.ofLeaf ++ .ofLeaf (.stringEnd, quotes) :: after))
      (lead.map Tree.ofLeaf ++ [.node kind [.node .string (.leaf .stringStart quotes ::
        ((textLeaves raw).map Tree.ofLeaf ++ [.leaf .stringEnd quotes]))]]) [] after :=
  ((yields_string spells_expr [] quotes raw).node).ifAt_pos rfl

theorem yields_existing (h : piece.kind ≠ .ident) :
    existing.Yields (piece :: after) [] [] (piece :: after) :=
  yields_done.congr fun input hinput => by
    rw [existing, isWordAt_of_piece hinput, if_neg (by simp [h])]

/-- A declaration ends at the end of a line. -/
theorem Yields.undecorated {text : String} {keyword : Kind}
    (hword : declarationWords.lookup text = some (kind, keyword))
    (hheader : (header kind).Yields before trees causes (following :: after))
    (hfollowing : [Kind.newline, .eof, .atSign].contains following.kind = true)
    (lead : List (Kind × String)) (decorators : List Tree) :
    (Rule.undecorated decorators).Yields (⟨lead, .ident, text⟩ :: before)
      [.node kind (decorators ++ (lead.map Tree.ofLeaf ++ .leaf keyword text :: trees))] causes
      (following :: after) := by
  have hend : endDeclaration.Yields (following :: after) [] [] (following :: after) :=
    yields_done.congr fun input hinput => by
      rw [endDeclaration]
      split
      · rfl
      · exact if_pos (by rwa [kind_of_piece hinput])
  have hkeyword : (takeAs keyword).Yields (⟨lead, .ident, text⟩ :: before)
      (lead.map Tree.ofLeaf ++ [.leaf keyword text]) [] before := yields_takeAs keyword (by simp)
  have hbody := ((hkeyword.andThen hheader).wrap kind decorators).andThen hend
  have hdeclaration := hbody.congr (fun input hinput => show Rule.undecorated decorators input = _ by
    have hdeclared : declarationWord input = some (kind, keyword) := by
      have hident : Rule.kind input = .ident := kind_of_piece hinput
      have htext : (current input).text = text := text_of_piece hinput
      rw [declarationWord, if_pos hident, htext, hword]
    rw [Rule.undecorated, hdeclared])
  simpa using hdeclaration

theorem yields_noDecorators (h : piece.kind ≠ .atSign) :
    (loop decoratorStep).Yields (piece :: after) [] [] (piece :: after) :=
  Yields.loop_last progresses_decoratorStep
    (fun input hinput => by simp [decoratorStep, kind_of_piece hinput, h]) yields_done

/-- A declaration without decorators. -/
theorem Yields.declaration {text : String} {keyword : Kind}
    (hword : declarationWords.lookup text = some (kind, keyword))
    (hheader : (header kind).Yields before trees causes (following :: after))
    (hfollowing : [Kind.newline, .eof, .atSign].contains following.kind = true)
    (lead : List (Kind × String)) :
    Rule.declaration.Yields (⟨lead, .ident, text⟩ :: before)
      (lead.map Tree.ofLeaf ++ [.node kind (.leaf keyword text :: trees)]) causes
      (following :: after) :=
  ((yields_noDecorators (by simp)).into
    (hheader.undecorated hword hfollowing [] [])).settled

/-! Documents -/

theorem Yields.documentDeclaration (hline : piece.kind ≠ .newline) (heof : piece.kind ≠ .eof)
    (h : Rule.declaration.Yields (piece :: before) trees causes between)
    (hloop : (loop documentStep).Yields between trees' causes' after) :
    (loop documentStep).Yields (piece :: before) (trees ++ trees') (causes ++ causes') after :=
  Yields.loop_again progresses_documentStep
    (fun input hinput => by
      rw [documentStep, kind_of_piece hinput]
      split
      · exact absurd ‹_› heof
      · exact absurd ‹_› hline
      · rfl) h hloop

theorem Yields.documentNewline (hline : piece.kind = .newline)
    (hloop : (loop documentStep).Yields before trees causes after) :
    (loop documentStep).Yields (piece :: before)
      (piece.trivia ++ [.leaf piece.kind piece.text] ++ trees) causes after :=
  Yields.loop_again progresses_documentStep
    (fun input hinput => by simp [documentStep, kind_of_piece hinput, hline])
    (yields_take (by simp [hline])) hloop

theorem yields_documentEnd (heof : piece.kind = .eof) :
    (loop documentStep).Yields (piece :: after) piece.trivia [] (piece.settled :: after) :=
  Yields.loop_last progresses_documentStep
    (fun input hinput => by simp [documentStep, kind_of_piece hinput, heof]) yields_settle

end Rule

/-- The tree and the faults of a text, by what is read of its pieces. -/
theorem Document.parse_of_yields {text : String} {pieces after : List Piece} {trees : List Tree}
    {causes : List SyntaxError.Cause} (hsplit : ∀ piece ∈ pieces, piece.IsSplit)
    (hleaves : Lexer.cutLeaves [] text.toList ++ [(.eof, "")] = Piece.leaves pieces)
    (h : (Rule.loop Rule.documentStep).Yields pieces trees causes after) :
    (parse text).tree = .node .root trees ∧
      (parse text).errors.map SyntaxError.cause = causes := by
  have hpieces : (Lexeme.group (tokenize text)).map Lexeme.piece = pieces := by
    rw [Lexeme.map_piece_group, map_leaf_tokenize, hleaves, Piece.group_leaves hsplit]
  obtain ⟨htrees, hcauses, -⟩ := h _ hpieces
  exact ⟨congrArg (Tree.node .root) htrees, hcauses⟩

end Caret
