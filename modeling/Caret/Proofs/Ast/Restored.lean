import Caret.Proofs.Ast.Parsed
import Caret.Proofs.Ast.Plain
import Caret.Proofs.Ast.Seen

/-!
# Programs are restored from their text

What is written as text, parsed and read off the tree is the program again, with the parentheses
that it is written with.
-/

namespace Caret

open Locus (Shows)

namespace Ast

/-! Reading declarations -/

def Decorator.IsAt (decorator : Decorator) (node : Locus) : Prop :=
  node.kind = .decorator ∧ ∃ below, node.firstExpr = some below ∧ decorator.chain.IsAt below

/-- A name, a type or a member that a node tells. -/
def Name.IsIn (name : Name) (node : Option Locus) : Prop :=
  node.bind Locus.identText = some name.text

/-- The type of a resource or the path of a module. -/
def Parts.IsIn (multiline : Bool) (parts : Parts) (node : Option Locus) : Prop :=
  ∃ string rest, (node.bind fun node => node.nodeOf .string) = some string ∧
    Opens multiline string rest ∧ parts.AreAt multiline rest

def Expr.IsDeclared (value : Expr) (node : Locus) : Prop :=
  ∃ below, node.declaredValue = some below ∧ value.IsAt below

/-- The node of a declaration, decorators aside. -/
def Declaration.IsAt (declaration : Declaration) (node : Locus) : Prop :=
  node.kind = declaration.kind ∧
    match declaration with
    | targetScope value => value.IsDeclared node
    | param name type none =>
      name.IsIn node.nameNode ∧ type.IsIn node.typeNameNode ∧ node.declaredValue = none
    | param name type (some value) =>
      name.IsIn node.nameNode ∧ type.IsIn node.typeNameNode ∧ value.IsDeclared node
    | var name value => name.IsIn node.nameNode ∧ value.IsDeclared node
    | output name type value =>
      name.IsIn node.nameNode ∧ type.IsIn node.typeNameNode ∧ value.IsDeclared node
    | resource name multiline type existing value =>
      name.IsIn node.nameNode ∧ type.IsIn multiline node.resourceTypeNode ∧
        node.isExisting = existing ∧ value.IsDeclared node
    | module name multiline path value =>
      name.IsIn node.nameNode ∧ path.IsIn multiline node.modulePathNode ∧ value.IsDeclared node

def Decorated.IsAt (decorated : Decorated) (node : Locus) : Prop :=
  List.Forall₂ Decorator.IsAt decorated.decorators node.decorators ∧ decorated.declaration.IsAt node

def Program.IsAt (program : Program) (root : Locus) : Prop :=
  List.Forall₂ Decorated.IsAt program.declarations root.declarations

variable {locus : Locus} {wanted : Kind} {tree : Tree} {decorated : Decorated}

/-- The node of a decorator. -/
def Decorator.node (decorator : Decorator) : Tree :=
  .node .decorator [.leaf .atSign "@", decorator.chain.tree]

theorem Decorator.isAt_of_shows {decorator : Decorator} (h : locus.Shows decorator.node) :
    decorator.IsAt locus := by
  obtain ⟨below, hbelow, hshows⟩ := Shows.firstExpr h (show _ = some decorator.chain.tree by simp)
  exact ⟨h.kind_eq, below, hbelow, decorator.chain.isSeen hshows⟩

theorem filter_decorators : ∀ decorators : List Decorator,
    (decorators.flatMap Decorator.trees).filter Tree.isNode = decorators.map Decorator.node
  | [] => rfl
  | decorator :: decorators => by
    rw [List.flatMap_cons, List.filter_append, filter_decorators decorators]
    rfl

theorem dropWhile_decorators (rest : List Tree) : ∀ decorators : List Decorator,
    (decorators.flatMap Decorator.trees ++ rest).dropWhile (fun tree => tree.kind ≠ .eq) =
      rest.dropWhile fun tree => tree.kind ≠ .eq
  | [] => rfl
  | decorator :: decorators => by
    rw [List.flatMap_cons, List.append_assoc, Decorator.trees]
    simpa using dropWhile_decorators rest decorators

theorem find?_decorators (h : wanted ≠ .decorator) (decorators : List Decorator) :
    (decorators.map Decorator.node).find? (fun tree => tree.kind = wanted) = none := by
  rw [List.find?_eq_none]
  simpa [Decorator.node] using fun _ _ heq => h heq.symm

/-- The nodes of a declaration are those of its decorators and those behind its keyword. -/
theorem Decorated.forall₂_nodes (h : locus.Shows decorated.tree) :
    List.Forall₂ Shows locus.nodes (decorated.decorators.map Decorator.node ++
      decorated.declaration.headerTrees.filter Tree.isNode) := by
  have hnodes := Shows.nodes h
  rwa [List.filter_append, filter_decorators, List.filter_cons_of_neg (by simp)] at hnodes

theorem Decorated.nodeOf_of_shows (h : locus.Shows decorated.tree) (hwanted : wanted ≠ .decorator)
    (hfind : (decorated.declaration.headerTrees.filter Tree.isNode).find?
      (fun tree => tree.kind = wanted) = some tree) :
    ∃ node, locus.nodeOf wanted = some node ∧ node.Shows tree := by
  refine Locus.exists_of_kind (Decorated.forall₂_nodes h) ?_
  rw [List.find?_append, find?_decorators hwanted, Option.none_or, hfind]

theorem Declaration.keyword_ne (declaration : Declaration) :
    declaration.keyword ≠ .eq ∧ declaration.keyword ≠ .existingKw := by
  cases declaration <;> simp [keyword]

/-- What is behind the equals sign of a declaration. -/
theorem Decorated.forall₂_nodesAfter (h : locus.Shows decorated.tree) :
    List.Forall₂ Shows ((locus.children.dropWhile fun child => child.kind ≠ .eq).filter Locus.isNode)
      ((decorated.declaration.headerTrees.dropWhile fun tree => tree.kind ≠ .eq).filter
        Tree.isNode) := by
  have hnodes : List.Forall₂ Shows
      ((locus.children.dropWhile fun child => child.kind ≠ .eq).filter Locus.isNode) _ :=
    Shows.nodesAfter h rfl
  rwa [dropWhile_decorators,
    List.dropWhile_cons_of_pos (by simp [decorated.declaration.keyword_ne.1])] at hnodes

theorem Decorated.isDeclared_of_shows {value : Expr} (h : locus.Shows decorated.tree)
    (hfind : ((decorated.declaration.headerTrees.dropWhile fun tree => tree.kind ≠ .eq).filter
      Tree.isNode).find? (fun tree => tree.kind.isExpr) = some value.tree) :
    value.IsDeclared locus := by
  obtain ⟨below, hbelow, hshows⟩ := Locus.exists_expr (Decorated.forall₂_nodesAfter h) hfind
  exact ⟨below, hbelow, value.isSeen hshows⟩

theorem Decorated.isIn_of_shows {name : Name} (h : locus.Shows decorated.tree)
    (hwanted : wanted ≠ .decorator)
    (hfind : (decorated.declaration.headerTrees.filter Tree.isNode).find?
      (fun tree => tree.kind = wanted) = some (.node wanted [.leaf .ident name.text])) :
    name.IsIn (locus.nodeOf wanted) := by
  obtain ⟨node, hnode, hshows⟩ := Decorated.nodeOf_of_shows h hwanted hfind
  rw [Name.IsIn, hnode]
  exact hshows.textOf .ident rfl (by simp)

theorem Decorated.quoted_of_shows {multiline : Bool} {parts : Parts}
    (h : locus.Shows decorated.tree) (hwanted : wanted ≠ .decorator)
    (hfind : (decorated.declaration.headerTrees.filter Tree.isNode).find?
      (fun tree => tree.kind = wanted) = some (.node wanted
        [.node .string (.leaf .stringStart (quotes multiline) :: parts.trees multiline)])) :
    parts.IsIn multiline (locus.nodeOf wanted) := by
  obtain ⟨node, hnode, hshows⟩ := Decorated.nodeOf_of_shows h hwanted hfind
  obtain ⟨string, hstring, hshowsString⟩ := hshows.nodeOf .string (show _ = some (.node .string
    (.leaf .stringStart (quotes multiline) :: parts.trees multiline)) by simp)
  obtain ⟨rest, hopens, hrest⟩ := opens_of_shows hshowsString
  have hall : parts.All Expr.IsSeen := Parts.all_of_step (fun expr _ => expr.isSeen) parts
  rw [hnode]
  exact ⟨string, rest, hstring, hopens, Parts.areAt_of_shows hall hrest⟩

/-- Only its header makes a resource an existing one. -/
theorem find?_existing (rest : List Tree) : ∀ decorators : List Decorator,
    ((decorators.flatMap Decorator.trees ++ rest).filter fun tree => !tree.isNode).find?
        (fun tree => tree.kind = .existingKw) =
      (rest.filter fun tree => !tree.isNode).find? fun tree => tree.kind = .existingKw
  | [] => rfl
  | decorator :: decorators => by
    rw [List.flatMap_cons, List.append_assoc, Decorator.trees]
    simpa using find?_existing rest decorators

theorem isExisting_of_shows {decorators : List Decorator} {name : Name} {multiline existing : Bool}
    {type : Parts} {value : Expr}
    (h : locus.Shows
      (Decorated.tree ⟨decorators, .resource name multiline type existing value⟩)) :
    locus.isExisting = existing := by
  have htokens := Shows.tokens h
  rw [Locus.isExisting, Locus.tokenOf_eq rfl]
  cases existing with
  | false =>
      have hnone := find?_eq_none_of_forall₂ htokens
        (p := fun token => token.kind = .existingKw) (fun _ _ hshows => by
          rw [Shows.kind_eq hshows])
        (by rw [find?_existing]; simp [Declaration.headerTrees, Declaration.keyword])
      rw [hnone]
      rfl
  | true =>
      obtain ⟨token, htoken, -⟩ := Locus.exists_of_kind htokens
        (show _ = some (Tree.leaf .existingKw "existing") by
          rw [find?_existing]; simp [Declaration.headerTrees, Declaration.keyword])
      rw [htoken]
      rfl

theorem Declaration.isAt_of_shows {decorators : List Decorator} {declaration : Declaration}
    (h : locus.Shows (Decorated.tree ⟨decorators, declaration⟩)) : declaration.IsAt locus := by
  refine ⟨h.kind_eq, ?_⟩
  cases declaration with
  | targetScope value => exact Decorated.isDeclared_of_shows h (by simp [headerTrees])
  | param name type default =>
      cases default with
      | none =>
          have hvalue : locus.declaredValue = none :=
            find?_eq_none_of_forall₂ (Decorated.forall₂_nodesAfter h)
              (fun _ _ hshows => by rw [Shows.kind_eq hshows]) (by simp [headerTrees])
          exact ⟨Decorated.isIn_of_shows h (by decide) (by simp [headerTrees]),
            Decorated.isIn_of_shows h (by decide) (by simp [headerTrees]), hvalue⟩
      | some value =>
          exact ⟨Decorated.isIn_of_shows h (by decide) (by simp [headerTrees]),
            Decorated.isIn_of_shows h (by decide) (by simp [headerTrees]),
            Decorated.isDeclared_of_shows h (by simp [headerTrees])⟩
  | var name value =>
      exact ⟨Decorated.isIn_of_shows h (by decide) (by simp [headerTrees]),
        Decorated.isDeclared_of_shows h (by simp [headerTrees])⟩
  | output name type value =>
      exact ⟨Decorated.isIn_of_shows h (by decide) (by simp [headerTrees]),
        Decorated.isIn_of_shows h (by decide) (by simp [headerTrees]),
        Decorated.isDeclared_of_shows h (by simp [headerTrees])⟩
  | resource name multiline type existing value =>
      have hvalue : value.IsDeclared locus :=
        Decorated.isDeclared_of_shows h (by cases existing <;> simp [headerTrees])
      exact ⟨Decorated.isIn_of_shows h (by decide) (by simp [headerTrees]),
        Decorated.quoted_of_shows h (by decide) (by simp [headerTrees]),
        isExisting_of_shows h, hvalue⟩
  | module name multiline path value =>
      exact ⟨Decorated.isIn_of_shows h (by decide) (by simp [headerTrees]),
        Decorated.quoted_of_shows h (by decide) (by simp [headerTrees]),
        Decorated.isDeclared_of_shows h (by simp [headerTrees])⟩

theorem Declaration.filter_headerTrees (declaration : Declaration) :
    (declaration.headerTrees.filter Tree.isNode).filter (fun tree => tree.kind = .decorator) =
      [] := by
  have hvalue : ∀ value : Expr, value.tree.kind ≠ .decorator := fun value => Expr.kind_ne rfl
  cases declaration with
  | param name type default => cases default <;> simp [headerTrees, hvalue]
  | resource name multiline type existing value =>
      cases existing <;> simp [headerTrees, hvalue]
  | _ => simp [headerTrees, hvalue]

theorem Decorated.isAt_of_shows (h : locus.Shows decorated.tree) : decorated.IsAt locus := by
  refine ⟨?_, Declaration.isAt_of_shows h⟩
  have hdecorators := Locus.forall₂_filter (fun kind => kind = .decorator)
    (Decorated.forall₂_nodes h)
  have hall : (decorated.decorators.map Decorator.node).filter
      (fun tree => tree.kind = .decorator) = _ :=
    List.filter_eq_self.2 (by simp [Decorator.node])
  rw [List.filter_append, hall, decorated.declaration.filter_headerTrees, List.append_nil,
    List.forall₂_map_right_iff] at hdecorators
  exact (hdecorators.imp fun _ _ => Decorator.isAt_of_shows).flip

theorem Program.filter_trees (program : Program) :
    program.trees.filter Tree.isNode = program.declarations.map Decorated.tree := by
  obtain ⟨declarations⟩ := program
  unfold trees
  induction declarations with
  | nil => rfl
  | cons decorated declarations ih =>
      cases declarations with
      | nil => rfl
      | cons second declarations =>
          rw [List.map_cons, List.map_cons, List.intersperse_cons_cons,
            List.filter_cons_of_pos rfl, List.filter_cons_of_neg (by simp)]
          exact congrArg _ ih

theorem Program.isAt_of_shows {program : Program} (h : locus.Shows (.node .root program.trees)) :
    program.IsAt locus := by
  have hnodes := Locus.forall₂_filter Kind.isDeclaration h.nodes
  have hkinds : ∀ declaration : Declaration, declaration.kind.isDeclaration = true := by
    intro declaration
    cases declaration <;> rfl
  have hall : (program.declarations.map Decorated.tree).filter
      (fun tree => tree.kind.isDeclaration) = _ :=
    List.filter_eq_self.2 (by simp [Decorated.tree, hkinds])
  rw [filter_trees, hall, List.forall₂_map_right_iff] at hnodes
  exact (hnodes.imp fun _ _ => Decorated.isAt_of_shows).flip

end Ast

/-! The whole document -/

/-- In a place that shows a whole tree, nothing but trivia is left out of what is shown. -/
theorem Locus.Shows.of_under {locus child : Locus} {tree : Tree} (h : locus.Shows tree)
    (hwhole : tree.isWhole = true) (hunder : Locus.Under locus child) (hnode : child.isNode = true) :
    ∃ shown, child.Shows shown ∧ shown.isWhole = true := by
  induction hunder with
  | root => exact ⟨tree, h, hwhole⟩
  | child hparent hchild ih =>
      obtain ⟨shown, hshows, hshown⟩ := ih (Locus.isNode_of_mem_children hchild)
      cases shown with
      | leaf kind text =>
          have hisNode := hshows.isNode_eq
          rw [Locus.isNode_of_mem_children hchild] at hisNode
          cases hisNode
      | node kind trees =>
          rename_i parent node
          have hmem : node ∈ parent.significant :=
            List.mem_filter.2 ⟨hchild, by simp [Locus.isTrivia_of_isNode hshows hchild hnode]⟩
          obtain ⟨inner, hinner, hshowsInner⟩ := exists_mem_of_forall₂ hshows.significant hmem
          exact ⟨inner, hshowsInner,
            Tree.isWhole_of_mem (Bool.and_eq_true_iff.1 hshown).2 hinner⟩

namespace Document

theorem shows_locus {text : String} {tree : Tree} (h : (parse text).tree.bare = tree) :
    (locus text).Shows tree := by
  obtain ⟨trees, rest, hparse, -, hmade⟩ := exists_trees_parse text
  refine ⟨.node .root trees, 0, element_locus hparse, .node rfl fun child hmem => ?_, hparse ▸ h⟩
  exact (hmade child hmem).made.mono fun kind children hfits => hfits.isNode.1

end Document

namespace Ast

variable {program : Program}

theorem Program.bare_text (hwritable : program.grouped.isWritable ["in"] = true)
    (hnesting : program.grouped.nestsWithin Rule.maxDepth = true) :
    (Document.parse program.text).errors = [] ∧
      (Document.parse program.text).tree.bare = .node .root program.grouped.trees := by
  have hparse := Document.parse_of_gives (Program.map_leaf_input hwritable)
    (Program.gives hwritable hnesting)
  rwa [Tree.bareAll_of_areWhole program.grouped.areWhole_trees] at hparse

/-- A program is restored from its text: there is no fault in what is parsed, the tree is that of
the program with blanks in it, and the views find the program in it, with no more than the
parentheses added that keep it together. -/
theorem Program.restored (hwritable : program.grouped.isWritable ["in"] = true)
    (hnesting : program.grouped.nestsWithin Rule.maxDepth = true) :
    (Document.parse program.text).errors = [] ∧
      (∀ node ∈ (Document.locus program.text).descendants,
        node.kind ≠ .missing ∧ node.kind ≠ .error) ∧
      (Document.parse program.text).tree.bare = .node .root program.grouped.trees ∧
      program.grouped.IsAt (Document.locus program.text) ∧
      program.grouped.plain = program.plain := by
  obtain ⟨herrors, hbare⟩ := Program.bare_text hwritable hnesting
  have hshows := Document.shows_locus hbare
  refine ⟨herrors, fun node hmem => ?_, hbare, Program.isAt_of_shows hshows, program.plain_grouped⟩
  obtain ⟨hunder, hnode⟩ := Locus.mem_descendants_iff.1 hmem
  have hwhole : (Tree.node .root program.grouped.trees).isWhole = true :=
    Bool.and_eq_true_iff.2 ⟨rfl, program.grouped.areWhole_trees⟩
  obtain ⟨shown, hshown, hkind⟩ := hshows.of_under hwhole hunder hnode
  have hwholeKind := Tree.isWhole_kind hkind
  rw [← hshown.kind_eq] at hwholeKind
  simp only [Kind.isWhole, Bool.and_eq_true, decide_eq_true_eq] at hwholeKind
  exact ⟨hwholeKind.1.2, hwholeKind.2⟩

/-- A variable with a name that is known to be one. -/
def Expr.named (text : String) (valid : Identifier.isValid text = true := by decide +kernel) :
    Expr := .access ⟨text, valid⟩

/-- A program with a decorator, a resource whose type has a hole in it, operands in need of
parentheses, and a loop. -/
def sample : Program :=
  let product : Expr := .binary ⟨.star, 7, rfl⟩ (.binary ⟨.plus, 6, rfl⟩ (.named "a") (.named "b"))
    (.unary .minus (.integer ⟨"1", by decide, by decide +kernel⟩))
  let names : Expr := .loop ⟨"x", by decide +kernel⟩ (.named "xs")
    (.member (.named "x") ⟨"null", by decide +kernel⟩)
  ⟨[⟨[⟨.call (.named "secure") .nil, rfl⟩],
      .param ⟨"n", by decide +kernel⟩ ⟨"int", by decide +kernel⟩ (some product)⟩,
    ⟨[], .resource ⟨"st", by decide +kernel⟩ false
      (.hole "it\x27s " (.named "n") (.last "@1")) true
      (.object (.one (.word ⟨"names", by decide +kernel⟩) names))⟩]⟩

theorem sample_restored :
    sample.text = "@ secure ( )\nparam n int = ( a + b ) * - 1\nresource st \x27it\\\x27s " ++
      "$\x7b n \x7d@1\x27 existing = \x7b names : [ for x in xs : x . null ] \x7d" ∧
      sample.grouped.isWritable ["in"] = true ∧ sample.grouped.nestsWithin Rule.maxDepth = true ∧
      (Document.parse sample.text).errors = [] ∧
      (∀ node ∈ (Document.locus sample.text).descendants,
        node.kind ≠ .missing ∧ node.kind ≠ .error) ∧
      (Document.parse sample.text).tree.bare = .node .root sample.grouped.trees ∧
      sample.grouped.IsAt (Document.locus sample.text) ∧ sample.grouped.plain = sample.plain := by
  have hwritable : sample.grouped.isWritable ["in"] = true := by decide +kernel
  have hnesting : sample.grouped.nestsWithin Rule.maxDepth = true := by decide +kernel
  exact ⟨by decide +kernel, hwritable, hnesting, Program.restored hwritable hnesting⟩

/-- A loop the variable of which has the name of the word behind it. -/
def loopNamedIn : Program :=
  ⟨[⟨[], .var ⟨"x", by decide +kernel⟩
    (.loop ⟨"in", by decide +kernel⟩ (.named "y") (.named "z"))⟩]⟩

/-- A loop without a variable is expected to go on where the word for it stands, so a variable
cannot have that word for its name. -/
theorem loopNamedIn_not_restored :
    loopNamedIn.text = "var x = [ for in in y : z ]" ∧
      loopNamedIn.grouped.isWritable [] = true ∧
      loopNamedIn.grouped.nestsWithin Rule.maxDepth = true ∧
      (Document.parse loopNamedIn.text).errors ≠ [] ∧
      (∃ node ∈ (Document.locus loopNamedIn.text).descendants, node.kind = .missing) := by
  decide +kernel

end Ast

end Caret
