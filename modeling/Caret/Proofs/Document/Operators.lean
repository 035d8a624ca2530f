import Caret.Proofs.Document.Faults

/-!
# Operators in a document

Operations in a document are put into each other by how tightly their operators bind: those on the
left of an operator bind at least as tightly, those on the right more tightly. A sign is put in
front of no operation of two operands, and a choice is an operand of neither. What is accessed or
called is no operation at all.
-/

namespace Caret

namespace Tree

variable {kind : Kind} {children : List Tree}

theorem tightness_binaryExpr_le (children : List Tree) :
    (node .binaryExpr children).tightness ≤ 7 := by
  rw [tightness]
  cases hfind : children.findSome? ownPrecedence with
  | none => exact Nat.zero_le 7
  | some precedence =>
      obtain ⟨tree, -, hown⟩ := List.exists_of_findSome?_eq_some hfind
      cases tree with
      | leaf kind text => exact (Kind.precedence_le hown).2
      | node kind children => cases hown

/-- What holds together more tightly than any operator is neither an operation of two operands nor a
choice. -/
theorem kind_ne_of_tight (h : 8 ≤ (node kind children).tightness) :
    kind ≠ .binaryExpr ∧ kind ≠ .ternaryExpr := by
  constructor
  · rintro rfl
    have := tightness_binaryExpr_le children
    omega
  · rintro rfl
    cases h

theorem not_isOperation_of_tight (h : 9 ≤ (node kind children).tightness) :
    kind ∉ [Kind.unaryExpr, .binaryExpr, .ternaryExpr] := by
  obtain ⟨hbinary, hternary⟩ := kind_ne_of_tight (Nat.le_of_succ_le h)
  have hunary : kind ≠ .unaryExpr := by
    rintro rfl
    exact absurd h (by rw [tightness]; decide)
  simp [hunary, hbinary, hternary]

theorem kind_ne_ternaryExpr {tree : Tree} (h : 1 ≤ tree.tightness) (hcovered : tree.IsCovered) :
    tree.kind ≠ .ternaryExpr := by
  cases tree with
  | leaf kind text =>
      rintro rfl
      cases hcovered
  | node kind children =>
      rintro rfl
      cases h

end Tree

namespace Locus

/-- An operation of two operands: an operator of some precedence, and nothing but nodes and trivia
before and behind it. -/
structure Joins (operation : Locus) (left right : List Locus) (precedence : Nat) : Prop where
  operator : ∃ sign, operation.children = left ++ sign :: right ∧ sign.isToken = true ∧
    sign.kind.precedence = some precedence
  operands : ∀ child ∈ left ++ right, child.isNode = true ∨ child.kind.isTrivia = true

variable {locus : Locus} {tree : Tree} {trees : List Tree} {kind : Kind} {least : Nat}

theorem Holds.isNode_or_isTrivia (h : locus.Holds tree) (hcovered : tree.IsCovered) :
    locus.isNode = true ∨ locus.kind.isTrivia = true := by
  rw [h.isNode_eq, h.kind_eq]
  cases tree with
  | leaf kind text => exact .inr hcovered
  | node kind children => exact .inl rfl

theorem Holds.exists_eq_node (h : locus.Holds tree) (hnode : locus.isNode = true) :
    ∃ children, tree = .node locus.kind children := by
  rw [h.isNode_eq] at hnode
  rw [h.kind_eq]
  cases tree with
  | leaf kind text => cases hnode
  | node kind children => exact ⟨children, rfl⟩

/-- An operation joins trees that fit to its operator. -/
theorem Holds.exists_joins (h : locus.Holds (.node .binaryExpr trees))
    (hbinds : Tree.Binds .binaryExpr trees) :
    ∃ left right lefts rights precedence, locus.Joins left right precedence ∧
      (Tree.node .binaryExpr trees).tightness = precedence ∧
      List.Forall₂ Holds left lefts ∧ List.Forall₂ Holds right rights ∧
      Tree.Firm precedence lefts ∧ Tree.Firm (precedence + 1) rights ∧
      ∀ tree ∈ lefts ++ rights, tree ∈ trees ∧ tree.IsCovered := by
  obtain ⟨lefts, operator, text, rights, precedence, rfl, hprecedence, hcovered, hleft, hright⟩ :=
    hbinds
  obtain ⟨left, rest, hchildren, hlefts, hrest⟩ := exists_append_of_forall₂ h.forall₂_children
  obtain ⟨sign, right, ⟨start, hsign⟩, hrights, rfl⟩ := List.forall₂_cons_right_iff.1 hrest
  obtain ⟨htoken, hkind, -⟩ := isToken_of_element hsign
  refine ⟨left, right, lefts, rights, precedence, ⟨⟨sign, hchildren, htoken, hkind ▸ hprecedence⟩,
    fun child hmem => ?_⟩, ?_, hlefts, hrights, hleft, hright, fun tree hmem => ⟨?_, hcovered tree hmem⟩⟩
  · obtain ⟨tree, htree, hholds⟩ := exists_mem_of_forall₂ (List.rel_append hlefts hrights) hmem
    exact Holds.isNode_or_isTrivia hholds (hcovered tree htree)
  · exact Tree.tightness_binaryExpr (fun tree hmem => hcovered tree (List.mem_append_left _ hmem))
      hprecedence
  · rcases List.mem_append.1 hmem with hmem | hmem
    · exact List.mem_append_left _ hmem
    · exact List.mem_append_right _ (List.mem_cons_of_mem _ hmem)

/-- An operation that is an operand has an operator that binds as tightly as the operand must. -/
theorem Holds.exists_joins_of_tight (h : locus.Holds tree) (hmade : tree.Made Tree.Regular)
    (hcovered : tree.IsCovered) (hle : least ≤ tree.tightness) (hkind : locus.kind = .binaryExpr) :
    ∃ left right precedence, locus.Joins left right precedence ∧ least ≤ precedence := by
  rw [h.kind_eq] at hkind
  cases hmade with
  | leaf kind text =>
      obtain rfl : kind = .binaryExpr := hkind
      cases hcovered
  | missing => cases hkind
  | node hregular hchildren =>
      rename_i kind children
      obtain rfl : kind = .binaryExpr := hkind
      obtain ⟨left, right, lefts, rights, precedence, hjoins, htightness, -⟩ :=
        h.exists_joins hregular.binds
      exact ⟨left, right, precedence, hjoins, htightness ▸ hle⟩

end Locus

namespace Document

variable {text : String} {node : Locus}

/-- Operators of an operation and of its operands. -/
theorem exists_joins (h : Locus.Under (locus text) node) (hnode : node.isNode = true)
    (hkind : node.kind = .binaryExpr) :
    ∃ left right precedence, node.Joins left right precedence ∧
      (∀ operand ∈ left ++ right, operand.kind ≠ .ternaryExpr) ∧
      (∀ operand ∈ left, operand.kind = .binaryExpr → ∃ lefts rights bound,
        operand.Joins lefts rights bound ∧ precedence ≤ bound) ∧
      ∀ operand ∈ right, operand.kind = .binaryExpr → ∃ lefts rights bound,
        operand.Joins lefts rights bound ∧ precedence < bound := by
  obtain ⟨trees, hholds, hregular, hmade⟩ := exists_regular h hnode (by rw [hkind]; decide)
  rw [hkind] at hholds hregular
  obtain ⟨left, right, lefts, rights, precedence, hjoins, -, hlefts, hrights, hleft, hright, htrees⟩ :=
    hholds.exists_joins hregular.binds
  obtain ⟨sign, -, -, hprecedence⟩ := hjoins.operator
  have hone := (Kind.precedence_le hprecedence).1
  refine ⟨left, right, precedence, hjoins, fun operand hmem => ?_, fun operand hmem hoperand => ?_,
    fun operand hmem hoperand => ?_⟩
  · obtain ⟨tree, htree, hshows⟩ := exists_mem_of_forall₂ (List.rel_append hlefts hrights) hmem
    rw [Locus.Holds.kind_eq hshows]
    refine Tree.kind_ne_ternaryExpr ?_ (htrees tree htree).2
    exact ((hleft.mono hone).append (hright.mono (Nat.le_succ_of_le hone))) tree htree
  · obtain ⟨tree, htree, hshows⟩ := exists_mem_of_forall₂ hlefts hmem
    obtain ⟨hin, hcovered⟩ := htrees tree (List.mem_append_left _ htree)
    exact Locus.Holds.exists_joins_of_tight hshows (hmade tree hin) hcovered (hleft tree htree)
      hoperand
  · obtain ⟨tree, htree, hshows⟩ := exists_mem_of_forall₂ hrights hmem
    obtain ⟨hin, hcovered⟩ := htrees tree (List.mem_append_right _ htree)
    exact Locus.Holds.exists_joins_of_tight hshows (hmade tree hin) hcovered (hright tree htree)
      hoperand

/-- Operands that must hold together as tightly as a unary operation. -/
theorem kind_operand (h : Locus.Under (locus text) node) (hkind : node.kind = .unaryExpr)
    {operand : Locus} (hoperand : operand ∈ node.nodes) :
    operand.kind ≠ .binaryExpr ∧ operand.kind ≠ .ternaryExpr := by
  obtain ⟨hchild, hoperand⟩ := List.mem_filter.1 hoperand
  have hnode := Locus.isNode_of_mem_children hchild
  obtain ⟨trees, hholds, hregular, -⟩ := exists_regular h hnode (by rw [hkind]; decide)
  rw [hkind] at hholds hregular
  have hfirm : Tree.Firm 8 trees := hregular.binds
  obtain ⟨tree, htree, hshows⟩ := exists_mem_of_forall₂ hholds.forall₂_children hchild
  obtain ⟨children, rfl⟩ := Locus.Holds.exists_eq_node hshows hoperand
  exact Tree.kind_ne_of_tight (hfirm _ htree)

/-- What is accessed or called comes first, and is no operation. -/
theorem exists_receiver (h : Locus.Under (locus text) node) (hnode : node.isNode = true)
    (hkind : node.kind ∈ [Kind.propertyAccess, .arrayAccess, .callExpr]) :
    ∃ receiver, node.nodes.head? = some receiver ∧
      receiver.kind ∉ [Kind.unaryExpr, .binaryExpr, .ternaryExpr] := by
  have hmissing : node.kind ≠ .missing := by
    rintro hmissing
    rw [hmissing] at hkind
    exact absurd hkind (by decide)
  obtain ⟨trees, hholds, hregular, -⟩ := exists_regular h hnode hmissing
  have hreceives : Tree.Receives trees := by
    have hbinds := hregular.binds
    simp only [List.mem_cons, List.not_mem_nil, or_false] at hkind
    rcases hkind with hkind | hkind | hkind <;> rwa [hkind] at hbinds
  obtain ⟨_, more, rfl, ⟨before, kind, children, rfl⟩, hfirm⟩ := hreceives
  obtain ⟨receivers, rest, hchildren, hreceivers, -⟩ :=
    exists_append_of_forall₂ hholds.forall₂_children
  -- What is accessed ends in a node, so the first node of all is one of its nodes.
  obtain ⟨last, hlast, hshows⟩ := exists_mem_of_forall₂ hreceivers.flip
    (List.mem_append_right before List.mem_cons_self)
  have hne : receivers.filter Locus.isNode ≠ [] := by
    refine List.ne_nil_of_mem (List.mem_filter.2 ⟨hlast, ?_⟩)
    rw [Locus.Holds.isNode_eq hshows]
    rfl
  obtain ⟨receiver, others, hfilter⟩ := List.exists_cons_of_ne_nil hne
  refine ⟨receiver, ?_, ?_⟩
  · rw [Locus.nodes, hchildren, List.filter_append, hfilter]
    rfl
  · obtain ⟨hmem, hreceiver⟩ := List.mem_filter.1 (hfilter ▸ List.mem_cons_self)
    obtain ⟨tree, htree, hshows'⟩ := exists_mem_of_forall₂ hreceivers hmem
    obtain ⟨children, rfl⟩ := Locus.Holds.exists_eq_node hshows' hreceiver
    exact Tree.not_isOperation_of_tight (hfirm _ htree)

/-- Operators in a text, however faulty it is and wherever its nesting is cut off: on the left of
an operator stand operations of the same precedence or a higher one, on its right those of a higher
one alone, and on neither side a choice; a sign stands in front of neither; and what is accessed or
called is no operation at all. -/
theorem operators_parse (text : String) :
    (∀ node ∈ (locus text).descendants, node.kind = .binaryExpr →
      ∃ left right precedence, node.Joins left right precedence ∧
        (∀ operand ∈ left ++ right, operand.kind ≠ .ternaryExpr) ∧
        (∀ operand ∈ left, operand.kind = .binaryExpr → ∃ lefts rights bound,
          operand.Joins lefts rights bound ∧ precedence ≤ bound) ∧
        ∀ operand ∈ right, operand.kind = .binaryExpr → ∃ lefts rights bound,
          operand.Joins lefts rights bound ∧ precedence < bound) ∧
    (∀ node ∈ (locus text).descendants, node.kind = .unaryExpr → ∀ operand ∈ node.nodes,
      operand.kind ≠ .binaryExpr ∧ operand.kind ≠ .ternaryExpr) ∧
    ∀ node ∈ (locus text).descendants,
      node.kind ∈ [Kind.propertyAccess, .arrayAccess, .callExpr] →
        ∃ receiver, node.nodes.head? = some receiver ∧
          receiver.kind ∉ [Kind.unaryExpr, .binaryExpr, .ternaryExpr] := by
  refine ⟨fun node hmem => ?_, fun node hmem hkind operand => ?_, fun node hmem => ?_⟩
  · obtain ⟨hunder, hnode⟩ := Locus.mem_descendants_iff.1 hmem
    exact exists_joins hunder hnode
  · exact kind_operand (Locus.mem_descendants_iff.1 hmem).1 hkind
  · obtain ⟨hunder, hnode⟩ := Locus.mem_descendants_iff.1 hmem
    exact exists_receiver hunder hnode

example : (locus "var x = a - -b.c * d - e").descendants.map Locus.kind =
    [.root, .varDecl, .name, .binaryExpr, .binaryExpr, .variableAccess, .binaryExpr, .unaryExpr,
      .propertyAccess, .variableAccess, .variableAccess, .variableAccess] := by decide +kernel

end Document

end Caret
