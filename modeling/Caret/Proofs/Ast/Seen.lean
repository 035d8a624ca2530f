import Caret.Proofs.Ast.Trees
import Caret.Proofs.Document.Shown

/-!
# Programs are read off their places

A place that shows the tree of a program is read as this program: by the kinds of the nodes, the
tokens of the operators, and what the views of declarations and expressions find.
-/

namespace Caret

namespace Ast

/-- Tokens of a string that spell a text. -/
def IsSpelledBy (multiline : Bool) (text : String) (tokens : List Locus) : Prop :=
  (∀ token ∈ tokens, token.kind = .stringText) ∧
    let written := String.join (tokens.map Locus.text)
    (if multiline then written else unescape written) = text

/-- What stands behind the quotes that a string starts with. -/
def Opens (multiline : Bool) (string : Locus) (rest : List Locus) : Prop :=
  string.kind = .string ∧ ∃ start, string.significant = start :: rest ∧
    start.kind = .stringStart ∧ start.text = quotes multiline

mutual

/-- A node that an expression is read off. -/
def Expr.IsAt : Expr → Locus → Prop
  | .access name, node => node.kind = .variableAccess ∧ node.identText = some name.text
  | .integer digits, node =>
    node.kind = .literal ∧ ∃ token, node.significant = [token] ∧ token.kind = .integer ∧
      token.text = digits.text
  | .constant value, node =>
    node.kind = .literal ∧ ∃ token, node.significant = [token] ∧ token.kind = value.kind ∧
      token.text = value.text
  | .string multiline parts, node => ∃ rest, Opens multiline node rest ∧ parts.AreAt multiline rest
  | .object properties, node => node.kind = .object ∧ properties.AreAt node.properties
  | .array items, node => node.kind = .array ∧ items.AreAt node.items
  | .loop item iterable body, node =>
    node.kind = .forExpr ∧ node.nameNode.bind Locus.identText = some item.text ∧
      (∃ inner, node.loopIterable = some inner ∧ iterable.IsAt inner) ∧
      ∃ inner, node.loopBody = some inner ∧ body.IsAt inner
  | .paren inner, node =>
    node.kind = .parenExpr ∧ ∃ below, node.firstExpr = some below ∧ inner.IsAt below
  | .unary sign operand, node =>
    node.kind = .unaryExpr ∧ ∃ token below, node.significant = [token, below] ∧
      token.kind = sign.leaf.1 ∧ operand.IsAt below
  | .binary operator left right, node =>
    node.kind = .binaryExpr ∧ ∃ first token second, node.significant = [first, token, second] ∧
      token.kind = operator.kind ∧ left.IsAt first ∧ right.IsAt second
  | .ternary test yes no, node =>
    node.kind = .ternaryExpr ∧ ∃ first second third, node.nodes = [first, second, third] ∧
      test.IsAt first ∧ yes.IsAt second ∧ no.IsAt third
  | .member receiver name, node =>
    node.kind = .propertyAccess ∧ node.member.map Locus.text = some name.text ∧
      ∃ below, node.operand = some below ∧ receiver.IsAt below
  | .index receiver position, node =>
    node.kind = .arrayAccess ∧ (∃ below, node.operand = some below ∧ receiver.IsAt below) ∧
      ∃ inner, node.exprAfter .lBrack = some inner ∧ position.IsAt inner
  | .call callee arguments, node =>
    node.kind = .callExpr ∧ (∃ below, node.operand = some below ∧ callee.IsAt below) ∧
      arguments.AreAt node.callArguments

/-- What stands in a string behind the quotes that it starts with. -/
def Parts.AreAt (multiline : Bool) : Parts → List Locus → Prop
  | .last text, loci => ∃ tokens stop, loci = tokens ++ [stop] ∧ IsSpelledBy multiline text tokens ∧
    stop.kind = .stringEnd ∧ stop.text = quotes multiline
  | .hole text inner rest, loci => ∃ tokens hole more, loci = tokens ++ hole :: more ∧
    IsSpelledBy multiline text tokens ∧
    (hole.kind = .interpolation ∧ ∃ below, hole.firstExpr = some below ∧ inner.IsAt below) ∧
    rest.AreAt multiline more

def Items.AreAt : Items → List Locus → Prop
  | .nil, loci => loci = []
  | .one item, loci => ∃ node, loci = [node] ∧ item.IsAt node
  | .cons item _ rest, loci => ∃ node more, loci = node :: more ∧ item.IsAt node ∧ rest.AreAt more

/-- The node of a key. -/
def Key.IsAt : Key → Locus → Prop
  | .word name, node => node.identText = some name.text
  | .string multiline parts, node => ∃ string rest, node.nodeOf .string = some string ∧
    Opens multiline string rest ∧ parts.AreAt multiline rest

def Properties.AreAt : Properties → List Locus → Prop
  | .nil, loci => loci = []
  | .one key value, loci => ∃ property, loci = [property] ∧
    (∃ node, property.keyNode = some node ∧ key.IsAt node) ∧
    ∃ node, property.propertyValue = some node ∧ value.IsAt node
  | .cons key value _ rest, loci => ∃ property more, loci = property :: more ∧
    ((∃ node, property.keyNode = some node ∧ key.IsAt node) ∧
      ∃ node, property.propertyValue = some node ∧ value.IsAt node) ∧
    rest.AreAt more

end

open Locus (Shows)

variable {locus : Locus} {loci : List Locus} {multiline : Bool} {kind : Kind} {text : String}

/-- An expression that is read off a place that shows its tree. -/
def Expr.IsSeen (expr : Expr) : Prop := ∀ ⦃locus : Locus⦄, locus.Shows expr.tree → expr.IsAt locus

@[simp]
theorem Expr.isExpr_kind (expr : Expr) : expr.tree.kind.isExpr = true := by
  cases expr <;> rfl

@[simp]
theorem Expr.isNode_tree (expr : Expr) : expr.tree.isNode = true := by
  cases expr <;> rfl

/-! Strings -/

theorem isSpelledBy_of_shows
    (h : List.Forall₂ Shows loci ((textLeaves (raw multiline text)).map .ofLeaf)) :
    IsSpelledBy multiline text loci := by
  have hwritten : (∀ token ∈ loci, token.kind = .stringText) ∧
      String.join (loci.map Locus.text) = raw multiline text := by
    unfold textLeaves at h
    split at h
    · next hempty =>
        obtain rfl := List.forall₂_nil_right_iff.1 h
        exact ⟨by simp, hempty.symm⟩
    · obtain ⟨token, rfl, htoken⟩ := exists_singleton_of_forall₂ h
      have hkind : token.kind = .stringText := htoken.kind_eq
      refine ⟨by simpa using hkind, ?_⟩
      simp [htoken.text_eq, String.join]
  refine ⟨hwritten.1, ?_⟩
  dsimp only
  rw [hwritten.2, raw]
  cases multiline with
  | false => exact unescape_body text
  | true => rfl

theorem Parts.areAt_of_shows : ∀ {parts : Parts} {loci : List Locus}, parts.All Expr.IsSeen →
    List.Forall₂ Shows loci (parts.trees multiline) → parts.AreAt multiline loci
  | .last text, loci, _, h => by
    obtain ⟨tokens, _, rfl, htokens, hlast⟩ := exists_append_of_forall₂ h
    obtain ⟨stop, rfl, hstop⟩ := exists_singleton_of_forall₂ hlast
    exact ⟨tokens, stop, rfl, isSpelledBy_of_shows htokens, hstop.kind_eq, hstop.text_eq⟩
  | .hole text inner rest, loci, ⟨hinner, hrest⟩, h => by
    obtain ⟨tokens, _, rfl, htokens, hbehind⟩ := exists_append_of_forall₂ h
    obtain ⟨hole, more, hhole, hmore, rfl⟩ := List.forall₂_cons_right_iff.1 hbehind
    obtain ⟨below, hbelow, hshows⟩ := hhole.firstExpr (show _ = some inner.tree by simp)
    exact ⟨tokens, hole, more, rfl, isSpelledBy_of_shows htokens,
      ⟨hhole.kind_eq, below, hbelow, hinner hshows⟩, areAt_of_shows hrest hmore⟩

theorem opens_of_shows {trees : List Tree}
    (h : locus.Shows (.node .string (.leaf .stringStart (quotes multiline) :: trees))) :
    ∃ rest, Opens multiline locus rest ∧ List.Forall₂ Shows rest trees := by
  obtain ⟨start, rest, hstart, hrest, hsignificant⟩ := List.forall₂_cons_right_iff.1 h.significant
  exact ⟨rest, ⟨h.kind_eq, start, hsignificant, hstart.kind_eq, hstart.text_eq⟩, hrest⟩

/-! Lists -/

@[simp]
theorem Separator.isNode_leaf (separator : Separator) :
    (Tree.ofLeaf separator.leaf).isNode = false := by
  cases separator <;> rfl

/-- The items of a list without what parts them. -/
def Items.toList : Items → List Expr
  | .nil => []
  | .one item => [item]
  | .cons item _ rest => item :: rest.toList

@[simp]
theorem isNode_asItem (inArray : Bool) (expr : Expr) : (asItem inArray expr.tree).isNode = true := by
  cases inArray
  · exact expr.isNode_tree
  · rfl

theorem Items.filter_trees : ∀ (inArray : Bool) (items : Items),
    (items.trees inArray).filter Tree.isNode =
      items.toList.map fun item => asItem inArray item.tree
  | _, .nil => rfl
  | inArray, .one item => by simp [trees, toList]
  | inArray, .cons item separator rest => by simp [trees, toList, filter_trees inArray rest]

theorem Items.areAt_of_shows : ∀ {items : Items} {loci : List Locus}, items.All Expr.IsSeen →
    List.Forall₂ Shows loci (items.toList.map Expr.tree) → items.AreAt loci
  | .nil, loci, _, h => List.forall₂_nil_right_iff.1 h
  | .one item, loci, hitem, h => by
    obtain ⟨node, rfl, hnode⟩ := exists_singleton_of_forall₂ h
    exact ⟨node, rfl, hitem hnode⟩
  | .cons item separator rest, loci, ⟨hitem, hrest⟩, h => by
    obtain ⟨node, more, hnode, hmore, rfl⟩ := List.forall₂_cons_right_iff.1 h
    exact ⟨node, more, rfl, hitem hnode, areAt_of_shows hrest hmore⟩

/-- The expressions in the items of an array. -/
theorem forall₂_firstExpr {items : List Expr} {nodes : List Locus}
    (h : List.Forall₂ Shows nodes (items.map fun item => asItem true item.tree)) :
    List.Forall₂ Shows (nodes.filterMap Locus.firstExpr) (items.map Expr.tree) := by
  induction items generalizing nodes with
  | nil =>
      obtain rfl := List.forall₂_nil_right_iff.1 h
      exact .nil
  | cons item items ih =>
      obtain ⟨node, more, hnode, hmore, rfl⟩ := List.forall₂_cons_right_iff.1 h
      obtain ⟨below, hbelow, hshows⟩ :=
        Shows.firstExpr hnode (show _ = some item.tree by simp)
      rw [List.filterMap_cons_some hbelow]
      exact .cons hshows (ih hmore)

theorem forall₂_items {items : Items} (h : locus.Shows (Expr.array items).tree) :
    List.Forall₂ Shows locus.items (items.toList.map Expr.tree) := by
  have hnodes : List.Forall₂ Shows locus.nodes
      (items.toList.map fun item => asItem true item.tree) := by
    simpa [Items.filter_trees] using Shows.nodes h
  have hkept := Locus.forall₂_filter (fun kind => kind = .arrayItem) hnodes
  have hall : (items.toList.map fun item => asItem true item.tree).filter
      (fun tree => tree.kind = .arrayItem) = _ := List.filter_eq_self.2 (by simp [asItem])
  rw [hall] at hkept
  exact forall₂_firstExpr hkept

theorem Key.isAt_of_shows : ∀ {key : Key} {locus : Locus}, key.All Expr.IsSeen →
    locus.Shows key.tree → key.IsAt locus
  | .word name, locus, _, h => h.textOf .ident rfl (by simp)
  | .string multiline parts, locus, hparts, h => by
    obtain ⟨string, hstring, hshows⟩ := h.nodeOf .string (show _ = some (Tree.node .string
      (.leaf .stringStart (quotes multiline) :: parts.trees multiline)) by simp)
    obtain ⟨rest, hopens, hrest⟩ := opens_of_shows hshows
    exact ⟨string, rest, hstring, hopens, Parts.areAt_of_shows hparts hrest⟩

/-- The tree of a property. -/
def propertyTree (key : Key) (value : Expr) : Tree :=
  .node .objectProperty [key.tree, .leaf .colon ":", value.tree]

theorem property_of_shows {key : Key} {value : Expr} (hkey : key.All Expr.IsSeen)
    (hvalue : value.IsSeen) (h : locus.Shows (propertyTree key value)) :
    (∃ node, locus.keyNode = some node ∧ key.IsAt node) ∧
      ∃ node, locus.propertyValue = some node ∧ value.IsAt node := by
  have hkind : key.tree.kind = .propertyKey ∧ key.tree.isNode = true := by cases key <;> exact ⟨rfl, rfl⟩
  obtain ⟨node, hnode, hshows⟩ := Shows.nodeOf h .propertyKey (show _ = some key.tree by simp [hkind])
  obtain ⟨inner, hinner, hshows'⟩ := Shows.exprAfter h .colon rfl
    (show _ = some value.tree by simp [hkind])
  exact ⟨⟨node, hnode, Key.isAt_of_shows hkey hshows⟩, inner, hinner, hvalue hshows'⟩

theorem Properties.areAt_of_shows : ∀ {properties : Properties} {loci : List Locus},
    properties.All Expr.IsSeen →
    List.Forall₂ Shows loci (properties.trees.filter Tree.isNode) → properties.AreAt loci
  | .nil, loci, _, h => List.forall₂_nil_right_iff.1 h
  | .one key value, loci, ⟨hkey, hvalue⟩, h => by
    obtain ⟨node, rfl, hnode⟩ := exists_singleton_of_forall₂ h
    exact ⟨node, rfl, property_of_shows hkey hvalue hnode⟩
  | .cons key value separator rest, loci, ⟨⟨hkey, hvalue⟩, hrest⟩, h => by
    rw [trees, List.filter_cons_of_pos rfl, List.filter_cons_of_neg (by simp)] at h
    obtain ⟨node, more, hnode, hmore, rfl⟩ := List.forall₂_cons_right_iff.1 h
    exact ⟨node, more, rfl, property_of_shows hkey hvalue hnode, areAt_of_shows hrest hmore⟩

theorem Properties.kind_of_mem : ∀ {properties : Properties} {tree : Tree},
    tree ∈ properties.trees.filter Tree.isNode → tree.kind = .objectProperty
  | .nil, tree, h => by simp [trees] at h
  | .one key value, tree, h => by
    obtain rfl := List.mem_singleton.1 h
    rfl
  | .cons key value separator rest, tree, h => by
    rw [trees, List.filter_cons_of_pos rfl, List.filter_cons_of_neg (by simp)] at h
    rcases List.mem_cons.1 h with rfl | h
    · rfl
    · exact kind_of_mem h

/-- The properties of an object. -/
theorem forall₂_properties {properties : Properties}
    (h : locus.Shows (Expr.object properties).tree) :
    List.Forall₂ Shows locus.properties (properties.trees.filter Tree.isNode) := by
  have hnodes : List.Forall₂ Shows locus.nodes (properties.trees.filter Tree.isNode) := by
    simpa using Shows.nodes h
  have hproperties := Locus.forall₂_filter (fun kind => kind = .objectProperty) hnodes
  have hkinds : ∀ tree ∈ properties.trees.filter Tree.isNode,
      decide (tree.kind = .objectProperty) = true := fun tree hmem =>
    decide_eq_true (Properties.kind_of_mem hmem)
  rwa [List.filter_eq_self.2 hkinds] at hproperties

/-! Expressions -/

theorem Expr.kind_ne {expr : Expr} {kind : Kind} (h : kind.isExpr = false) :
    expr.tree.kind ≠ kind := by
  rintro rfl
  rw [expr.isExpr_kind] at h
  cases h

/-- The expressions between the parentheses of a call. -/
theorem forall₂_callArguments {callee : Expr} {items : Items}
    (h : locus.Shows (Expr.call callee items).tree) :
    List.Forall₂ Shows locus.callArguments (items.toList.map Expr.tree) := by
  have hnodes : List.Forall₂ Shows locus.nodes _ := Shows.nodes h
  rw [List.filter_cons_of_pos callee.isNode_tree, List.filter_cons_of_pos rfl] at hnodes
  obtain ⟨first, second, hlist, hfirst, hsecond⟩ := exists_pair_of_forall₂ hnodes
  have hkind : first.kind ≠ .argList := by
    rw [hfirst.kind_eq]
    exact Expr.kind_ne rfl
  have hsecondKind : second.kind = .argList := hsecond.kind_eq
  have hitems : List.Forall₂ Shows second.nodes (items.toList.map Expr.tree) := by
    simpa [Items.filter_trees, asItem] using hsecond.nodes
  have hexprs := Locus.forall₂_filter Kind.isExpr hitems
  have hall : (items.toList.map Expr.tree).filter (fun tree => tree.kind.isExpr) = _ :=
    List.filter_eq_self.2 (by simp)
  rw [hall] at hexprs
  rw [Locus.callArguments, hlist, List.filter_cons_of_neg (by simpa using hkind),
    List.filter_cons_of_pos (by simpa using hsecondKind), List.filter_nil, List.flatMap_singleton]
  exact hexprs

theorem Expr.isSeen (expr : Expr) : expr.IsSeen := by
  induction expr using Expr.induction with
  | step expr ih =>
      intro locus h
      cases expr with
      | access name => exact ⟨h.kind_eq, Shows.textOf h .ident rfl (by simp)⟩
      | integer | constant =>
          obtain ⟨token, hlist, htoken⟩ := exists_singleton_of_forall₂ (Shows.significant h)
          exact ⟨h.kind_eq, token, hlist, htoken.kind_eq, htoken.text_eq⟩
      | string multiline parts =>
          obtain ⟨rest, hopens, hrest⟩ := opens_of_shows h
          exact ⟨rest, hopens, Parts.areAt_of_shows ih hrest⟩
      | object properties =>
          exact ⟨h.kind_eq, Properties.areAt_of_shows ih (forall₂_properties h)⟩
      | array items => exact ⟨h.kind_eq, Items.areAt_of_shows ih (forall₂_items h)⟩
      | loop item iterable body =>
          obtain ⟨name, hname, hshowsName⟩ := Shows.nodeOf h .name
            (show _ = some (.node .name [.leaf .ident item.text]) by simp)
          obtain ⟨first, hfirst, hshowsFirst⟩ := Shows.exprAfter h .inKw rfl
            (show _ = some iterable.tree by simp)
          have hcolon : iterable.tree.kind ≠ .colon := Expr.kind_ne rfl
          obtain ⟨second, hsecond, hshowsSecond⟩ := Shows.exprAfter h .colon rfl
            (show _ = some body.tree by simp [hcolon])
          refine ⟨h.kind_eq, ?_, ⟨first, hfirst, ih.1 hshowsFirst⟩, second, hsecond,
            ih.2 hshowsSecond⟩
          rw [Locus.nameNode, hname]
          exact hshowsName.textOf .ident rfl (by simp)
      | paren inner =>
          obtain ⟨below, hbelow, hshows⟩ := Shows.firstExpr h (show _ = some inner.tree by simp)
          exact ⟨h.kind_eq, below, hbelow, ih hshows⟩
      | unary sign operand =>
          obtain ⟨token, below, hlist, htoken, hbelow⟩ :=
            exists_pair_of_forall₂ (Shows.significant h)
          exact ⟨h.kind_eq, token, below, hlist, htoken.kind_eq, ih hbelow⟩
      | binary operator left right =>
          obtain ⟨first, token, second, hlist, hfirst, htoken, hsecond⟩ :=
            exists_triple_of_forall₂ (Shows.significant h)
          exact ⟨h.kind_eq, first, token, second, hlist, htoken.kind_eq, ih.1 hfirst, ih.2 hsecond⟩
      | ternary test yes no =>
          have hnodes : List.Forall₂ Shows locus.nodes [test.tree, yes.tree, no.tree] := by
            simpa using Shows.nodes h
          obtain ⟨first, second, third, hlist, hfirst, hsecond, hthird⟩ :=
            exists_triple_of_forall₂ hnodes
          exact ⟨h.kind_eq, first, second, third, hlist, ih.1 hfirst, ih.2.1 hsecond, ih.2.2 hthird⟩
      | member receiver name =>
          obtain ⟨below, hbelow, hshows⟩ := Shows.operand h
            (show _ = some receiver.tree by simp) receiver.isExpr_kind
          have hdot : receiver.tree.kind ≠ .dot := Expr.kind_ne rfl
          exact ⟨h.kind_eq, Shows.member h (by simp [hdot]), below, hbelow,
            ih hshows⟩
      | index receiver position =>
          obtain ⟨below, hbelow, hshows⟩ := Shows.operand h
            (show _ = some receiver.tree by simp) receiver.isExpr_kind
          have hbracket : receiver.tree.kind ≠ .lBrack := Expr.kind_ne rfl
          obtain ⟨inner, hinner, hshowsInner⟩ := Shows.exprAfter h .lBrack rfl
            (show _ = some position.tree by simp [hbracket])
          exact ⟨h.kind_eq, ⟨below, hbelow, ih.1 hshows⟩, inner, hinner, ih.2 hshowsInner⟩
      | call callee arguments =>
          obtain ⟨below, hbelow, hshows⟩ := Shows.operand h
            (show _ = some callee.tree by simp) callee.isExpr_kind
          exact ⟨h.kind_eq, ⟨below, hbelow, ih.1 hshows⟩,
            Items.areAt_of_shows ih.2 (forall₂_callArguments h)⟩

end Ast

end Caret
