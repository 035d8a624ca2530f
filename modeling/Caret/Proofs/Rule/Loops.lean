import Caret.Proofs.Rule.Ends
import Caret.Proofs.Rule.Kinds

/-!
# The parts of a loop

An expression is one node, or one placeholder where there is none, with trivia in front of it. More
is left behind only where the nesting is cut off, and then the line is at its end, so no colon is
found there. A loop has the word and the colon that divide it once each, or placeholders for them,
and where it has the colon, one expression or one placeholder stands between the two.
-/

namespace Caret

namespace Tree

/-- One expression, or one placeholder for it, among tokens. -/
def StandsAlone (trees : List Tree) : Prop :=
  ∃ (before behind : List Token) (kind : Kind) (children : List Tree),
    trees = before.map ofToken ++ node kind children :: behind.map ofToken ∧
      (kind.isExpr = true ∨ kind = .missing)

/-- What does not divide a loop. -/
def IsAside (tree : Tree) : Prop := tree.kind ≠ .inKw ∧ tree.kind ≠ .colon

/-- A token of some kind, or a placeholder for it. -/
def StandsFor (kind : Kind) (tree : Tree) : Prop :=
  (∃ text, tree = leaf kind text) ∨ tree = node .missing []

/-- The children of a loop: a head, the word in front of the iterable, the iterable, the colon, and
the rest. -/
def IsDivided (children : List Tree) : Prop :=
  ∃ head word iterable colon rest,
    children = head ++ word :: (iterable ++ colon :: rest) ∧
      StandsFor .inKw word ∧ StandsFor .colon colon ∧
      (∀ tree ∈ head ++ iterable ++ rest, tree.IsAside) ∧
      (colon.kind = .colon → StandsAlone iterable)

variable {kind : Kind} {children trees : List Tree} {tree : Tree}

theorem standsAlone_node (h : kind.isExpr = true ∨ kind = .missing) (children : List Tree) :
    StandsAlone [node kind children] := ⟨[], [], kind, children, rfl, h⟩

theorem StandsAlone.behind (tokens : List Token) (h : StandsAlone trees) :
    StandsAlone (tokens.map ofToken ++ trees) := by
  obtain ⟨before, behind, kind, children, rfl, hkind⟩ := h
  exact ⟨tokens ++ before, behind, kind, children, by simp, hkind⟩

theorem StandsAlone.before (tokens : List Token) (h : StandsAlone trees) :
    StandsAlone (trees ++ tokens.map ofToken) := by
  obtain ⟨before, behind, kind, children, rfl, hkind⟩ := h
  exact ⟨before, behind ++ tokens, kind, children, by simp, hkind⟩

theorem IsCovered.isAside (h : tree.IsCovered) : tree.IsAside :=
  ⟨h.kind_ne rfl rfl, h.kind_ne rfl rfl⟩

theorem isAside_of_mem_lead {lead : List Token} (h : ∀ token ∈ lead, token.isTrivia = true)
    (hmem : tree ∈ lead.map ofToken) : tree.IsAside := by
  obtain ⟨token, htoken, rfl⟩ := List.mem_map.1 hmem
  have hcovered : (ofToken token).IsCovered := h token htoken
  exact hcovered.isAside

end Tree

namespace Rule

/-- No more can be read on the line. -/
def IsAtLineEnd (input : List Lexeme) : Prop :=
  Rule.kind input = .eof ∨ Rule.kind input = .newline

end Rule

open Tree (StandsAlone StandsFor IsAside IsDivided)

/-- One expression or placeholder is left behind, or the line is at its end. -/
def Outcome.IsAlone (outcome : Outcome) : Prop :=
  StandsAlone outcome.trees ∨ Rule.IsAtLineEnd outcome.rest

namespace Rule

variable {kind : Kind} {body : Rule} {input : List Lexeme}

/-! ### Expressions -/

theorem alone_settle (h : (body (settle input).rest).IsAlone) :
    ((settle ++ body) input).IsAlone := by
  rcases h with halone | hline
  · left
    cases input with
    | nil => exact halone
    | cons lexeme rest => exact halone.behind lexeme.lead
  · exact Or.inr hline

theorem alone_wrap (h : kind.isExpr = true) (left : List Tree) (body : Rule)
    (input : List Lexeme) : (wrap kind left body input).IsAlone :=
  Or.inl (Tree.standsAlone_node (Or.inl h) _)

theorem alone_node (h : kind.isExpr = true) (body : Rule) (input : List Lexeme) :
    (node kind body input).IsAlone := alone_settle (alone_wrap h [] body _)

theorem alone_absent (expected : Expected) (input : List Lexeme) :
    (absent expected input).IsAlone := by
  have hmissing : (node .missing done input).IsAlone :=
    alone_settle (Or.inl (Tree.standsAlone_node (Or.inr rfl) _))
  exact hmissing

theorem alone_tooDeep (input : List Lexeme) : (tooDeep input).IsAlone := Or.inr (kind_tooDeep input)

theorem alone_keep_tooDeep (left : List Tree) (input : List Lexeme) :
    ((keep left ++ tooDeep) input).IsAlone := Or.inr (kind_tooDeep input)

theorem alone_primary (expr : Rule) (input : List Lexeme) : (primary expr input).IsAlone := by
  have hnode : ∀ kind ∈ operandKinds, kind.isExpr = true := by decide
  rcases primary_eq_node_or_absent expr input with ⟨kind, body, hkind, heq⟩ | heq
  · rw [heq]
    exact alone_node (hnode kind hkind) body input
  · rw [heq]
    exact alone_absent _ input

/-- What is read is left alone, and chains keep it so. -/
structure Level.IsAlone (level : Level) : Prop where
  expr : ∀ input, (level.expr input).IsAlone
  unary : ∀ input, (level.unary input).IsAlone
  links : ∀ receiver input, StandsAlone receiver ∨ IsAtLineEnd input →
    (level.links receiver input).IsAlone
  operators : ∀ least left input, StandsAlone left ∨ IsAtLineEnd input →
    (level.operators least left input).IsAlone

namespace Level

variable {level : Level}

theorem IsAlone.binary (h : level.IsAlone) (least : Nat) (input : List Lexeme) :
    (level.binary least input).IsAlone :=
  alone_settle (h.operators least _ _ (h.unary (settle input).rest))

theorem IsAlone.ternary (h : level.IsAlone) (input : List Lexeme) :
    (level.ternary input).IsAlone := by
  rw [ternary_eq]
  apply alone_settle
  have htest := h.binary 1 (settle input).rest
  change (choice level _ _).IsAlone
  unfold choice ifAt
  split
  · exact alone_wrap rfl _ _ _
  · exact htest

theorem alone_link (level : Level) (receiver : List Tree) (input : List Lexeme) :
    (level.link receiver input).IsAlone := by
  have hnode : ∀ kind ∈ linkKinds, kind.isExpr = true := by decide
  obtain ⟨kind, body, hkind, heq⟩ := link_eq_wrap level receiver input
  rw [heq]
  exact alone_wrap (hnode kind hkind) receiver body input

theorem alone_above {below : Option Level} (h : ∀ level ∈ below, level.IsAlone) :
    (above below).IsAlone := by
  have hlinks : ∀ receiver input, StandsAlone receiver ∨ IsAtLineEnd input →
      ((above below).links receiver input).IsAlone := by
    intro receiver input hreceiver
    rw [links_above]
    by_cases hstarts : startsLink (Rule.kind input) = true
    · rw [if_pos hstarts]
      cases below with
      | none => exact alone_keep_tooDeep receiver input
      | some level =>
          exact (h level rfl).links _ _ (alone_link level receiver input)
    · rw [if_neg hstarts]
      exact hreceiver
  refine ⟨fun input => ?_, fun input => ?_, hlinks, fun least left input hleft => ?_⟩
  · cases below with
    | none => exact alone_tooDeep input
    | some level => exact (h level rfl).ternary input
  · rw [unary_above]
    split
    · cases below with
      | none => exact alone_tooDeep input
      | some level => exact alone_node rfl _ _
    · exact alone_settle (hlinks _ _ (alone_primary _ _))
  · rw [operators_above]
    split
    · exact hleft
    · split
      · exact hleft
      · cases below with
        | none => exact alone_keep_tooDeep left input
        | some level => exact (h level rfl).operators _ _ _ (alone_wrap rfl _ _ _)

end Level

theorem alone_level (budget : Nat) : (level budget).IsAlone :=
  level_induction (fun _ hbelow _ => Level.alone_above hbelow) budget

/-! ### What divides a loop -/

/-- The trees of a rule have no part in dividing a loop. -/
def IsAside (rule : Rule) : Prop := ∀ input, Led input → ∀ tree ∈ (rule input).trees, tree.IsAside

variable {first second rule : Rule}

theorem Covered.isAside (h : rule.Covered) : rule.IsAside := fun input hinput tree hmem =>
  (h input hinput tree hmem).isAside

theorem IsAside.andThen (hfirst : first.IsAside) (hsecond : second.IsAside)
    (hled : ∀ input, Led input → Led (first input).rest) : (first ++ second).IsAside := by
  intro input hinput tree hmem
  rcases List.mem_append.1 hmem with hmem | hmem
  · exact hfirst input hinput tree hmem
  · exact hsecond _ (hled input hinput) tree hmem

theorem ne_of_trivia {tag : Kind} (h : tag.isTrivia = true) : tag ≠ .inKw ∧ tag ≠ .colon :=
  ⟨ne_of_isTrivia rfl h, ne_of_isTrivia rfl h⟩

theorem aside_takeAs (h : kind ≠ .inKw ∧ kind ≠ .colon) : (takeAs kind).IsAside :=
  fun _ hinput => only_takeAs (fun _ => ne_of_trivia) h hinput

theorem aside_takeNewlines : takeNewlines.IsAside := fun input hinput =>
  (only_takeNewlines (fun _ => ne_of_trivia) (by decide) input hinput).1

theorem aside_takeNewlinesBefore (wanted : Kind) : (takeNewlinesBefore wanted).IsAside := by
  intro input hinput tree hmem
  unfold takeNewlinesBefore at hmem
  split at hmem
  · exact aside_takeNewlines input hinput tree hmem
  · cases hmem

theorem aside_expect (h : kind ≠ .inKw ∧ kind ≠ .colon) : (expect kind).IsAside :=
  fun input hinput => (only_expect (fun _ => ne_of_trivia) (by decide) h input hinput).1

theorem aside_loopVariable : loopVariable.IsAside := by
  intro input hinput tree hmem
  unfold loopVariable at hmem
  split at hmem
  · exact (covered_node take rfl).isAside input hinput tree hmem
  · exact (covered_absent _).isAside input hinput tree hmem

theorem exists_trees_takeAs (hinput : Led input) (tag : Kind) (heof : Rule.kind input ≠ .eof) :
    ∃ (lead : List Token) (text : String),
      (takeAs tag input).trees = lead.map Tree.ofToken ++ [.leaf tag text] ∧
        ∀ token ∈ lead, token.isTrivia = true := by
  cases input with
  | nil => exact absurd rfl heof
  | cons lexeme rest =>
      refine ⟨lexeme.lead, lexeme.token.text, ?_, (hinput lexeme List.mem_cons_self).1⟩
      rw [takeAs_cons heof]

theorem exists_trees_absent (hinput : Led input) (expected : Expected) :
    ∃ lead : List Token,
      (absent expected input).trees = lead.map Tree.ofToken ++ [.node .missing []] ∧
        ∀ token ∈ lead, token.isTrivia = true := by
  cases input with
  | nil => exact ⟨[], rfl, nofun⟩
  | cons lexeme rest => exact ⟨lexeme.lead, rfl, (hinput lexeme List.mem_cons_self).1⟩

/-- The word in front of the iterable is taken, or a placeholder is left for it. -/
theorem exists_word (hinput : Led input) :
    ∃ (lead : List Token) (word : Tree),
      (inKeyword input).trees = lead.map Tree.ofToken ++ [word] ∧ StandsFor .inKw word ∧
        ∀ token ∈ lead, token.isTrivia = true := by
  unfold inKeyword
  split
  · rename_i hword
    have heof : Rule.kind input ≠ .eof := by
      rw [kind_eq_of_isWordAt hword]
      decide
    obtain ⟨lead, text, htrees, hlead⟩ := exists_trees_takeAs hinput .inKw heof
    exact ⟨lead, _, htrees, Or.inl ⟨text, rfl⟩, hlead⟩
  · obtain ⟨lead, htrees, hlead⟩ := exists_trees_absent hinput .inKeyword
    exact ⟨lead, _, htrees, Or.inr rfl, hlead⟩

/-- The colon is taken where it is next, and else a placeholder is left for it. -/
theorem exists_colon (hinput : Led input) :
    ∃ (lead : List Token) (colon : Tree),
      (expect .colon input).trees = lead.map Tree.ofToken ++ [colon] ∧ StandsFor .colon colon ∧
        (∀ token ∈ lead, token.isTrivia = true) ∧
          (colon.kind = .colon → Rule.kind input = .colon) := by
  unfold expect ifAt
  split
  · rename_i hcolon
    have heof : Rule.kind input ≠ .eof := by
      rw [hcolon]
      decide
    obtain ⟨lead, text, htrees, hlead⟩ := exists_trees_takeAs hinput .colon heof
    refine ⟨lead, _, ?_, Or.inl ⟨text, rfl⟩, hlead, fun _ => hcolon⟩
    rw [take, hcolon, htrees]
  · obtain ⟨lead, htrees, hlead⟩ := exists_trees_absent hinput (.token .colon)
    refine ⟨lead, _, htrees, Or.inr rfl, hlead, ?_⟩
    intro hmissing
    cases hmissing

/-- What is read of a loop behind its colon. -/
def behindColon (expr : Rule) : Rule :=
  takeNewlines ++ expr ++ unlessAt (.newline :: closers) (skipTo [.newline, .rBrack] .afterLoop) ++
    takeNewlinesBefore .rBrack ++ expect .rBrack

section Expr

variable {expr : Rule} (hspells : ∀ input, (expr input).Spells [] input) (hcovered : expr.Covered)

include hspells hcovered

theorem aside_behindColon : (behindColon expr).IsAside := by
  have hlines : (takeNewlines ++ expr).IsAside :=
    aside_takeNewlines.andThen hcovered.isAside fun input => (spells_takeNewlines input).led
  have hskip : (unlessAt (.newline :: closers) (skipTo [.newline, .rBrack] .afterLoop)).IsAside :=
    ((covered_skipTo _ _).unlessAt _).isAside
  have hspellsLines : ∀ input, ((takeNewlines ++ expr) input).Spells [] input := fun input =>
    spells_andThen (spells_takeNewlines input) (hspells _)
  have hspellsSkip : ∀ input, ((takeNewlines ++ expr ++
      unlessAt (.newline :: closers) (skipTo [.newline, .rBrack] .afterLoop)) input).Spells [] input :=
    fun input => spells_andThen (hspellsLines input) (spells_unlessAt _ (spells_skipTo _ _ _))
  refine ((hlines.andThen hskip fun input => (hspellsLines input).led).andThen
    (aside_takeNewlinesBefore .rBrack) fun input => (hspellsSkip input).led).andThen
    (aside_expect (by decide)) fun input => ?_
  exact (spells_andThen (hspellsSkip input) (spells_takeNewlinesBefore .rBrack _)).led

/-- A loop is divided by its word and its colon, and where it has the colon, one expression or one
placeholder is in front of it. -/
theorem isDivided_forExpr (halone : ∀ input, (expr input).IsAlone) (hinput : Led input)
    (hbracket : Rule.kind input = .lBrack) (hfor : Rule.kind (take input).rest = .ident) :
    IsDivided ((take ++ takeAs .forKw ++ loopVariable ++ inKeyword ++ expr ++
      expect .colon ++ takeNewlines ++ expr ++
      unlessAt (.newline :: closers) (skipTo [.newline, .rBrack] .afterLoop) ++
      takeNewlinesBefore .rBrack ++ expect .rBrack) input).trees := by
  have hparts : take ++ takeAs .forKw ++ loopVariable ++ inKeyword ++ expr ++
      expect .colon ++ takeNewlines ++ expr ++
      unlessAt (.newline :: closers) (skipTo [.newline, .rBrack] .afterLoop) ++
      takeNewlinesBefore .rBrack ++ expect .rBrack =
    take ++ (takeAs .forKw ++ (loopVariable ++ (inKeyword ++ (expr ++
      (expect .colon ++ behindColon expr))))) := by
    simp only [behindColon, andThen_assoc]
  rw [hparts]
  simp only [andThen_apply]
  -- The inputs that are left behind the bracket, the keyword, the variable, the word and the iterable.
  generalize hopened : (take input).rest = opened at hfor ⊢
  generalize hnamed : (takeAs .forKw opened).rest = named
  generalize hbound : (loopVariable named).rest = bound
  generalize hworded : (inKeyword bound).rest = worded
  generalize hread : (expr worded).rest = read
  have hledOpened : Led opened := hopened ▸ (spells_take input).led hinput
  have hledNamed : Led named :=
    hnamed ▸ (spells_takeAs (hfor ▸ Kind.Becomes.keyword rfl)).led hledOpened
  have hledBound : Led bound := hbound ▸ (spells_loopVariable named).led hledNamed
  have hledWorded : Led worded := hworded ▸ (spells_inKeyword bound).led hledBound
  have hledRead : Led read := hread ▸ (hspells worded).led hledWorded
  obtain ⟨lead, word, hwordTrees, hword, hlead⟩ := exists_word hledBound
  obtain ⟨gap, colon, hcolonTrees, hcolon, hgap, hnext⟩ := exists_colon hledRead
  rw [hwordTrees, hcolonTrees]
  refine ⟨(take input).trees ++ ((takeAs .forKw opened).trees ++ ((loopVariable named).trees ++
    lead.map Tree.ofToken)), word, (expr worded).trees ++ gap.map Tree.ofToken, colon,
    (behindColon expr (expect .colon read).rest).trees, by simp, hword, hcolon,
    fun tree hmem => ?_, fun hkind => ?_⟩
  · simp only [List.append_assoc, List.mem_append] at hmem
    rcases hmem with hmem | hmem | hmem | hmem | hmem | hmem | hmem
    · rw [take, hbracket] at hmem
      exact aside_takeAs (by decide) input hinput tree hmem
    · exact aside_takeAs (by decide) opened hledOpened tree hmem
    · exact aside_loopVariable named hledNamed tree hmem
    · exact Tree.isAside_of_mem_lead hlead hmem
    · exact hcovered.isAside worded hledWorded tree hmem
    · exact Tree.isAside_of_mem_lead hgap hmem
    · have hledBehind := (spells_expect .colon read).led hledRead
      exact aside_behindColon hspells hcovered _ hledBehind tree hmem
  · rcases halone worded with hstands | hline
    · exact hstands.before gap
    · rw [hread, IsAtLineEnd, hnext hkind] at hline
      rcases hline with hline | hline <;> cases hline

end Expr

end Rule

end Caret
