import Caret.Proofs.Document.Marks
import Caret.Proofs.Rule.Made

/-!
# The nodes of a document

Each node of the tree of a text has the children that its kind asks for: a loop stands between two
brackets, a member access has one dot, a name is an identifier, and a placeholder has no children.
Declarations stand right below the root and nowhere else.
-/

namespace Caret

namespace Locus

variable {locus child : Locus} {kind : Kind} {trees : List Tree} {start : Nat}

theorem map_element_children (locus : Locus) :
    locus.children.map element = locus.element.children :=
  map_element_spread _ _ _

theorem map_element_nodeOf (locus : Locus) (kind : Kind) :
    (locus.nodeOf kind).map element =
      (locus.element.children.filter Element.isNode).find? fun child => child.kind = kind := by
  rw [← map_element_children, List.filter_map, List.find?_map]
  rfl

theorem map_element_tokenOf (locus : Locus) (kind : Kind) :
    (locus.tokenOf kind).map element =
      (locus.element.children.filter Element.isToken).find? fun child => child.kind = kind := by
  rw [← map_element_children, List.filter_map, List.find?_map]
  rfl

/-- A child of a placed node is one of the trees of the node. -/
theorem exists_split_of_mem_children (h : locus.element = (Tree.node kind trees).locate start)
    (hchild : child ∈ locus.children) :
    ∃ before tree after, trees = before ++ tree :: after ∧
      child.element = tree.locate (start + Tree.sizeAll before) ∧
      child.here.left.length = before.length ∧ child.here.right.length = after.length := by
  obtain ⟨hchildren, -⟩ := mem_children_iff.1 hchild
  rw [h, Tree.locate, Element.children] at hchildren
  obtain ⟨before, tree, after, rfl, hleft, helement, hright⟩ :=
    Tree.locateAll_eq_append_cons hchildren
  have hlength : ∀ (start : Nat) (trees : List Tree),
      (Tree.locateAll start trees).length = trees.length := by
    intro start trees
    induction trees generalizing start with
    | nil => rfl
    | cons tree trees ih => simp [Tree.locateAll, ih]
  refine ⟨before, tree, after, rfl, helement, ?_, ?_⟩
  · rw [← List.length_reverse, hleft, hlength]
  · rw [hright, hlength]

/-- Each tree of a placed node is a child of the node. -/
theorem exists_child_of_split (before : List Tree) {after : List Tree} {tree : Tree}
    (h : locus.element = (Tree.node kind (before ++ tree :: after)).locate start) :
    ∃ child ∈ locus.children, child.element = tree.locate (start + Tree.sizeAll before) ∧
      (before = [] → child.here.left = []) ∧ (after = [] → child.here.right = []) := by
  have hchildren : locus.element.children = Tree.locateAll start before ++
      tree.locate (start + Tree.sizeAll before) ::
        Tree.locateAll (start + Tree.sizeAll before + tree.size) after := by
    rw [h, Tree.locate, Element.children, Tree.locateAll_append, Tree.locateAll]
  refine ⟨⟨⟨tree.locate (start + Tree.sizeAll before), (Tree.locateAll start before).reverse,
    Tree.locateAll (start + Tree.sizeAll before + tree.size) after⟩,
    locus.here :: locus.above⟩, mem_children_iff.2 ⟨?_, rfl⟩, rfl, ?_, ?_⟩
  · rw [hchildren, List.reverse_reverse]
    rfl
  · rintro rfl
    rfl
  · rintro rfl
    rfl

/-- A place that holds a tree in which the children of each node fit. -/
def Built (fits : Kind → List Tree → Prop) (locus : Locus) : Prop :=
  ∃ tree start, locus.element = Tree.locate start tree ∧ tree.Made fits

variable {fits : Kind → List Tree → Prop}

/-- A node is a placeholder without children or has children that fit. -/
theorem Built.missing_or_fits (h : locus.Built fits) (hnode : locus.isNode = true) :
    locus.kind = .missing ∧ locus.children = [] ∨
      ∃ trees start, locus.element = (Tree.node locus.kind trees).locate start ∧
        fits locus.kind trees ∧ ∀ tree ∈ trees, tree.Made fits := by
  obtain ⟨tree, start, helement, hmade⟩ := h
  have hkind : locus.kind = tree.kind := by rw [Locus.kind, helement, Tree.kind_locate]
  cases hmade with
  | leaf kind text =>
      simp [isNode, helement, Tree.locate, Element.isNode, Element.isToken] at hnode
  | missing =>
      left
      exact ⟨hkind, by simp [children, helement, Tree.locate, Element.children, Tree.locateAll,
        spread]⟩
  | node hfits hchildren => exact .inr ⟨_, start, by rw [helement, hkind]; rfl, hkind ▸ hfits, hchildren⟩

theorem Built.of_mem_children (h : locus.Built fits) (hchild : child ∈ locus.children) :
    child.Built fits := by
  rcases h.missing_or_fits (isNode_of_mem_children hchild) with ⟨-, hnil⟩ |
    ⟨trees, start, helement, -, hmade⟩
  · rw [hnil] at hchild
    cases hchild
  · obtain ⟨before, tree, after, rfl, hinner, -⟩ := exists_split_of_mem_children helement hchild
    exact ⟨tree, _, hinner, hmade tree (by simp)⟩

theorem Built.of_under (h : locus.Built fits) (hunder : Under locus child) :
    child.Built fits := by
  induction hunder with
  | root => exact h
  | child _ hchild ih => exact ih.of_mem_children hchild

theorem isToken_of_element {text : String} (h : locus.element = (Tree.leaf kind text).locate start) :
    locus.isToken = true ∧ locus.kind = kind ∧ locus.text = text := by
  simp [isToken, Locus.kind, Locus.text, h, Tree.locate, Element.isToken, Element.kind,
    Element.text]

theorem isNode_of_element (h : locus.element = (Tree.node kind trees).locate start) :
    locus.isNode = true ∧ locus.kind = kind := by
  simp [isNode, Locus.kind, h, Tree.locate, Element.isNode, Element.isToken, Element.kind]

end Locus

namespace Document

variable {text : String} {node child top : Locus}

theorem sound_input (text : String) : Rule.Sound (input text) := by
  have hleaf : ∀ token ∈ (input text).map Lexeme.token,
      token.leaf ∈ Lexer.cutLeaves [] text.toList ∨ token.leaf = (.eof, "") := by
    intro token hmem
    obtain ⟨lexeme, hlexeme, rfl⟩ := List.mem_map.1 hmem
    have hleaf : lexeme.token.leaf ∈ (input text).map (fun lexeme => lexeme.token.leaf) :=
      List.mem_map_of_mem hlexeme
    rw [map_leaf_input] at hleaf
    rcases List.mem_append.1 hleaf with hleaf | hleaf
    · exact .inl (List.mem_filter.1 hleaf).1
    · exact .inr (List.mem_singleton.1 hleaf)
  refine ⟨Lexeme.led_group _, fun token hmem hmissing => ?_, fun token hmem hident => ?_⟩
  · rcases hleaf token hmem with hcut | heof
    · have hkind := isCut_of_mem_cutLeaves hcut
      rw [show token.leaf.1 = .missing from hmissing] at hkind
      cases hkind
    · have hkind : token.kind = .eof := congrArg Prod.fst heof
      rw [hkind] at hmissing
      cases hmissing
  · rcases hleaf token hmem with hcut | heof
    · exact Lexer.isValid_of_ident hcut hident
    · have hkind : token.kind = .eof := congrArg Prod.fst heof
      rw [hkind] at hident
      cases hident

theorem element_locus {trees : List Tree} (h : (parse text).tree = .node .root trees) :
    (locus text).element = (Tree.node .root trees).locate 0 := by
  rw [← h]
  rfl

/-- The trees of a text are built from its tokens. -/
theorem exists_trees_parse (text : String) :
    ∃ trees rest, (parse text).tree = .node .root trees ∧
      Rule.Derives Tree.Fits [] (input text) trees rest ∧ ∀ tree ∈ trees, tree.MadeAtTop := by
  obtain ⟨hderives, htop⟩ := Rule.makesAtTop_loop Rule.makesAtTop_documentStep (input text)
    (sound_input text)
  exact ⟨_, _, rfl, hderives, htop (by simp)⟩

theorem exists_tree_of_mem_children (htop : top ∈ (locus text).children) :
    ∃ tree start, top.element = Tree.locate start tree ∧ tree.MadeAtTop := by
  obtain ⟨trees, rest, hparse, -, hmade⟩ := exists_trees_parse text
  obtain ⟨before, tree, after, rfl, htree, -⟩ :=
    Locus.exists_split_of_mem_children (element_locus hparse) htop
  exact ⟨tree, _, htree, hmade tree (by simp)⟩

/-- Below the root, the children of each node fit. -/
theorem built_of_under (htop : top ∈ (locus text).children) (h : Locus.Under top node) :
    node.Built Tree.Fits := by
  obtain ⟨tree, start, helement, hmade⟩ := exists_tree_of_mem_children htop
  have hbuilt : top.Built Tree.Fits := ⟨tree, start, helement, hmade.made⟩
  exact hbuilt.of_under h

theorem built_of_kind (h : Locus.Under (locus text) node) (hkind : node.kind ≠ .root) :
    node.Built Tree.Fits := by
  rcases h.eq_or_around with rfl | ⟨top, htop, hunder⟩
  · exact absurd (kind_locus text) hkind
  · exact built_of_under htop hunder

/-- Declarations stand right below the root. -/
theorem mem_children_of_isDeclaration (h : Locus.Under (locus text) node)
    (hnode : node.isNode = true) (hkind : node.kind.isDeclaration = true) :
    node ∈ (locus text).children := by
  have hinside : ∀ {locus : Locus}, locus.Built Tree.FitsInside → locus.isNode = true →
      locus.kind.isDeclaration = false := by
    intro locus hbuilt hnode
    rcases hbuilt.missing_or_fits hnode with ⟨hmissing, -⟩ | ⟨trees, start, -, hfits, -⟩
    · rw [hmissing]
      rfl
    · exact hfits.1
  rcases h.eq_or_around with rfl | ⟨top, htop, hunder⟩
  · rw [kind_locus] at hkind
    cases hkind
  · obtain ⟨tree, start, helement, hmade⟩ := exists_tree_of_mem_children htop
    rcases hmade with hmade | ⟨kind, children, rfl, -, -, hmade⟩
    · have hbuilt : top.Built Tree.FitsInside := ⟨tree, start, helement, hmade⟩
      rw [hinside (hbuilt.of_under hunder) hnode] at hkind
      cases hkind
    · rcases hunder.eq_or_around with rfl | ⟨child, hchild, hbelow⟩
      · exact htop
      · obtain ⟨before, tree, after, rfl, hinner, -⟩ :=
          Locus.exists_split_of_mem_children helement hchild
        have hbuilt : child.Built Tree.FitsInside := ⟨tree, _, hinner, hmade tree (by simp)⟩
        rw [hinside (hbuilt.of_under hbelow) hnode] at hkind
        cases hkind

theorem children_of_missing (h : Locus.Under (locus text) node) (hnode : node.isNode = true)
    (hkind : node.kind = .missing) : node.children = [] := by
  rcases (built_of_kind h (by rw [hkind]; decide)).missing_or_fits hnode with ⟨-, hnil⟩ |
    ⟨trees, start, -, hfits, -⟩
  · exact hnil
  · exact absurd hkind hfits.isNode.2.2

/-- The children of a node that is no root and no placeholder. -/
theorem exists_fits (h : Locus.Under (locus text) node) (hnode : node.isNode = true)
    (hkind : node.kind ≠ .root ∧ node.kind ≠ .missing) :
    ∃ trees start, node.element = (Tree.node node.kind trees).locate start ∧
      Tree.Fits node.kind trees := by
  rcases (built_of_kind h hkind.1).missing_or_fits hnode with ⟨hmissing, -⟩ |
    ⟨trees, start, helement, hfits, -⟩
  · exact absurd hmissing hkind.2
  · exact ⟨trees, start, helement, hfits⟩

/-- A loop starts with the bracket that opens it and ends with the one that closes it or with a
placeholder. -/
theorem exists_brackets_of_forExpr (h : Locus.Under (locus text) node) (hnode : node.isNode = true)
    (hkind : node.kind = .forExpr) :
    (∃ opening ∈ node.children, opening.isToken = true ∧ opening.here.left = []) ∧
      ∃ closing ∈ node.children, closing.here.right = [] ∧
        (closing.isToken = true ∧ closing.kind = .rBrack ∨
          closing.isNode = true ∧ closing.kind = .missing) := by
  obtain ⟨trees, start, helement, hfits⟩ := exists_fits h hnode (by rw [hkind]; decide)
  have hshape := hfits.shape
  rw [hkind] at hshape
  obtain ⟨-, opening, middle, last, rfl, hlast⟩ := hshape
  constructor
  · rw [← List.nil_append (_ :: _)] at helement
    obtain ⟨child, hchild, hinner, hleft, -⟩ := Locus.exists_child_of_split _ helement
    exact ⟨child, hchild, (Locus.isToken_of_element hinner).1, hleft rfl⟩
  · rw [← List.cons_append] at helement
    obtain ⟨child, hchild, hinner, -, hright⟩ := Locus.exists_child_of_split _ helement
    refine ⟨child, hchild, hright rfl, ?_⟩
    rcases hlast with ⟨closing, rfl⟩ | rfl
    · obtain ⟨htoken, hrBrack, -⟩ := Locus.isToken_of_element hinner
      exact .inl ⟨htoken, hrBrack⟩
    · exact .inr (Locus.isNode_of_element hinner)

/-- The only child of a name is an identifier. -/
theorem ident_of_name (h : Locus.Under (locus text) node) (hnode : node.isNode = true)
    (hkind : node.kind = .name) :
    ∃ ident, node.ident = some ident ∧ Identifier.isValid ident.text = true := by
  obtain ⟨trees, start, helement, hfits⟩ := exists_fits h hnode (by rw [hkind]; decide)
  have hshape := hfits.shape
  rw [hkind] at hshape
  obtain ⟨name, rfl, hvalid⟩ := hshape
  refine ⟨⟨⟨.token .ident ⟨start, start + name.utf8ByteSize⟩ name, [], []⟩,
    node.here :: node.above⟩, ?_, hvalid⟩
  rw [Locus.ident, Locus.tokenOf, Locus.tokens, Locus.children, helement]
  rfl

/-- A member access has one dot, with nothing but trivia between it and the name or the placeholder
at the end. -/
theorem exists_children_of_dot (h : Locus.Under (locus text) node) (hkind : node.kind = .propertyAccess)
    (hchild : child ∈ node.children) (hdot : child.kind = .dot) :
    ∃ receiver gap last, node.children = receiver ++ child :: (gap ++ [last]) ∧
      child.isToken = true ∧ (∀ other ∈ receiver, other.kind ≠ .dot) ∧
      (∀ other ∈ gap, other.isToken = true ∧ other.kind.isTrivia = true) ∧
      (last.isToken = true ∧ last.kind = .ident ∨
        last.isNode = true ∧ last.kind = .missing) := by
  obtain ⟨trees, start, helement, hfits⟩ :=
    exists_fits h (Locus.isNode_of_mem_children hchild) (by rw [hkind]; decide)
  have hshape := hfits.shape
  rw [hkind] at hshape
  obtain ⟨before, sign, lead, tail, rfl, hcovered, hlead, htail⟩ := hshape
  have hmap : node.children.map Locus.element = Tree.locateAll start
      (before ++ .leaf .dot sign :: (lead.map Tree.ofToken ++ [tail])) := by
    rw [Locus.children, Locus.map_element_spread, helement]
    rfl
  rw [Tree.locateAll_append, Tree.locateAll, Tree.locateAll_append] at hmap
  obtain ⟨receiver, _, hchildren, hreceiver, hrest⟩ := List.map_eq_append_iff.1 hmap
  obtain ⟨dot, _, rfl, hsign, hrest⟩ := List.map_eq_cons_iff.1 hrest
  obtain ⟨gap, _, rfl, hgap, hrest⟩ := List.map_eq_append_iff.1 hrest
  obtain ⟨last, _, rfl, hlast, hrest⟩ := List.map_eq_cons_iff.1 hrest
  obtain rfl := List.map_eq_nil_iff.1 hrest
  have hnone : ∀ other ∈ receiver, other.kind ≠ .dot := by
    intro other hmem
    have hin := List.mem_map_of_mem (f := Locus.element) hmem
    rw [hreceiver] at hin
    exact Locus.kind_ne_of_mem_locateAll (fun tree htree => (hcovered tree htree).kind_ne rfl rfl) hin
  have htrivia : ∀ other ∈ gap, other.isToken = true ∧ other.kind.isTrivia = true := by
    intro other hmem
    have hin := List.mem_map_of_mem (f := Locus.element) hmem
    rw [hgap] at hin
    obtain ⟨left, right, hsplit⟩ := List.append_of_mem hin
    obtain ⟨_, _, _, hlead', -, hinner, -⟩ := Tree.locateAll_eq_append_cons hsplit
    obtain ⟨token, htoken, rfl⟩ := List.mem_map.1 (hlead' ▸ List.mem_append_right _ List.mem_cons_self)
    obtain ⟨hchildToken, hchildKind, -⟩ := Locus.isToken_of_element hinner
    exact ⟨hchildToken, hchildKind ▸ hlead token htoken⟩
  have hend : last.isToken = true ∧ last.kind = .ident ∨
      last.isNode = true ∧ last.kind = .missing := by
    rcases htail with ⟨name, rfl⟩ | rfl
    · obtain ⟨htoken, hident, -⟩ := Locus.isToken_of_element hlast
      exact .inl ⟨htoken, hident⟩
    · exact .inr (Locus.isNode_of_element hlast)
  have hsame : child = dot := by
    rw [hchildren, List.mem_append, List.mem_cons, List.mem_append, List.mem_singleton] at hchild
    rcases hchild with hmem | rfl | hmem | rfl
    · exact absurd hdot (hnone child hmem)
    · rfl
    · have hskipped := (htrivia child hmem).2
      rw [hdot] at hskipped
      cases hskipped
    · rcases hend with ⟨-, hident⟩ | ⟨-, hmissing⟩
      · rw [hdot] at hident
        cases hident
      · rw [hdot] at hmissing
        cases hmissing
  exact ⟨receiver, gap, last, hsame ▸ hchildren, hsame ▸ (Locus.isToken_of_element hsign).1, hnone,
    htrivia, hend⟩

theorem tokenOf_dot (h : Locus.Under (locus text) node) (hkind : node.kind = .propertyAccess)
    (hchild : child ∈ node.children) (hdot : child.kind = .dot) :
    node.tokenOf .dot = some child := by
  obtain ⟨receiver, gap, last, hchildren, htoken, hreceiver, -⟩ :=
    exists_children_of_dot h hkind hchild hdot
  have hnone : (receiver.filter Locus.isToken).find? (fun child => child.kind = .dot) = none := by
    rw [List.find?_eq_none]
    intro other hmem
    simp [hreceiver other (List.mem_filter.1 hmem).1]
  rw [Locus.tokenOf, Locus.tokens, hchildren, List.filter_append, List.find?_append, hnone,
    Option.none_or, List.filter_cons_of_pos htoken, List.find?_cons_of_pos (by simp [hdot])]

/-- A declaration has its keyword. -/
theorem exists_keyword_of_isDeclaration (h : Locus.Under (locus text) node)
    (hnode : node.isNode = true) (hkind : node.kind.isDeclaration = true) :
    ∃ keyword ∈ node.children, keyword.isToken = true := by
  have hne : node.kind ≠ .root ∧ node.kind ≠ .missing := by
    constructor <;> intro heq <;> rw [heq] at hkind <;> cases hkind
  obtain ⟨trees, start, helement, hfits⟩ := exists_fits h hnode hne
  have hshape := hfits.shape
  have hmem : ∃ keyword text, Tree.leaf keyword text ∈ trees := by
    generalize node.kind = kind at hkind hshape
    cases kind <;> cases hkind
    all_goals exact hshape rfl
  obtain ⟨keyword, text, hmem⟩ := hmem
  obtain ⟨before, after, rfl⟩ := List.append_of_mem hmem
  obtain ⟨child, hchild, hinner, -⟩ := Locus.exists_child_of_split _ helement
  exact ⟨child, hchild, (Locus.isToken_of_element hinner).1⟩

end Document

end Caret
