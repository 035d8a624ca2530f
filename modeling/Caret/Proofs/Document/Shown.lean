import Caret.Proofs.Document.Trivia
import Caret.Proofs.Document.Views

/-!
# Places that show a tree

A place shows the tree that is left of the one it holds when trivia are taken out. What is found
among its children is told by that tree, as nothing that is looked for there is trivia.
-/

namespace Caret

namespace Tree

def isNode : Tree → Bool
  | leaf .. => false
  | node .. => true

@[simp]
theorem kind_leaf (kind : Kind) (text : String) : (leaf kind text).kind = kind := rfl

@[simp]
theorem kind_node (kind : Kind) (children : List Tree) : (node kind children).kind = kind := rfl

@[simp]
theorem isNode_leaf (kind : Kind) (text : String) : (leaf kind text).isNode = false := rfl

@[simp]
theorem isNode_node (kind : Kind) (children : List Tree) : (node kind children).isNode = true := rfl

end Tree

/-- What children are found by where trivia stand between them. -/
theorem dropWhile_filter {α : Type} {p q : α → Bool} (h : ∀ a, q a = false → p a = true)
    (xs : List α) : (xs.filter p).dropWhile q = (xs.dropWhile q).filter p := by
  induction xs with
  | nil => rfl
  | cons x xs ih =>
      cases hq : q x
      · rw [List.dropWhile_cons_of_neg (by simp [hq]), List.filter_cons_of_pos (h x hq),
          List.dropWhile_cons_of_neg (by simp [hq])]
      · rw [List.dropWhile_cons_of_pos hq]
        cases hp : p x
        · rw [List.filter_cons_of_neg (by simp [hp]), ih]
        · rw [List.filter_cons_of_pos hp, List.dropWhile_cons_of_pos hq, ih]

section Side

variable {α β : Type} {R : α → β → Prop} {p : α → Bool} {q : β → Bool} {xs : List α} {ys : List β}

/-- What is found on one side is found on the other. -/
theorem exists_find?_of_forall₂ (h : List.Forall₂ R xs ys) (hpq : ∀ x y, R x y → p x = q y) {y : β}
    (hfind : ys.find? q = some y) : ∃ x, xs.find? p = some x ∧ R x y := by
  induction h with
  | nil => cases hfind
  | cons hxy hrest ih =>
      rename_i x z xs ys
      rw [List.find?_cons] at hfind ⊢
      rw [hpq x z hxy]
      split at hfind
      · obtain rfl := Option.some.inj hfind
        exact ⟨x, by simp_all, hxy⟩
      · exact ih hfind

theorem find?_eq_none_of_forall₂ (h : List.Forall₂ R xs ys) (hpq : ∀ x y, R x y → p x = q y)
    (hfind : ys.find? q = none) : xs.find? p = none := by
  induction h with
  | nil => rfl
  | cons hxy hmore ih =>
      rename_i x z xs ys
      obtain ⟨hq, hrest⟩ := List.forall_mem_cons.1 (List.find?_eq_none.1 hfind)
      rw [List.find?_cons_of_neg (by rw [hpq x z hxy]; exact hq)]
      exact ih (List.find?_eq_none.2 hrest)

theorem forall₂_dropWhile (h : List.Forall₂ R xs ys) (hpq : ∀ x y, R x y → p x = q y) :
    List.Forall₂ R (xs.dropWhile p) (ys.dropWhile q) := by
  induction h with
  | nil => exact .nil
  | cons hxy hrest ih =>
      rename_i x z xs ys
      rw [List.dropWhile_cons, List.dropWhile_cons, hpq x z hxy]
      split
      · exact ih
      · exact .cons hxy hrest

theorem exists_mem_of_forall₂ (h : List.Forall₂ R xs ys) {x : α} (hmem : x ∈ xs) :
    ∃ y ∈ ys, R x y := by
  induction h with
  | nil => cases hmem
  | cons hxy _ ih =>
      rcases List.mem_cons.1 hmem with rfl | hmem
      · exact ⟨_, List.mem_cons_self, hxy⟩
      · obtain ⟨y, hy, hR⟩ := ih hmem
        exact ⟨y, List.mem_cons_of_mem _ hy, hR⟩

theorem exists_append_of_forall₂ {left right : List β} (h : List.Forall₂ R xs (left ++ right)) :
    ∃ before after, xs = before ++ after ∧ List.Forall₂ R before left ∧
      List.Forall₂ R after right := by
  induction left generalizing xs with
  | nil => exact ⟨[], xs, rfl, .nil, h⟩
  | cons y left ih =>
      obtain ⟨x, xs, hxy, hrest, rfl⟩ := List.forall₂_cons_right_iff.1 h
      obtain ⟨before, after, rfl, hbefore, hafter⟩ := ih hrest
      exact ⟨x :: before, after, rfl, .cons hxy hbefore, hafter⟩

theorem exists_singleton_of_forall₂ {y : β} (h : List.Forall₂ R xs [y]) :
    ∃ x, xs = [x] ∧ R x y := by
  obtain ⟨x, rest, hxy, hrest, rfl⟩ := List.forall₂_cons_right_iff.1 h
  obtain rfl := List.forall₂_nil_right_iff.1 hrest
  exact ⟨x, rfl, hxy⟩

theorem exists_pair_of_forall₂ {y y' : β} (h : List.Forall₂ R xs [y, y']) :
    ∃ x x', xs = [x, x'] ∧ R x y ∧ R x' y' := by
  obtain ⟨x, rest, hxy, hrest, rfl⟩ := List.forall₂_cons_right_iff.1 h
  obtain ⟨x', rfl, hxy'⟩ := exists_singleton_of_forall₂ hrest
  exact ⟨x, x', rfl, hxy, hxy'⟩

theorem exists_triple_of_forall₂ {y y' y'' : β} (h : List.Forall₂ R xs [y, y', y'']) :
    ∃ x x' x'', xs = [x, x', x''] ∧ R x y ∧ R x' y' ∧ R x'' y'' := by
  obtain ⟨x, rest, hxy, hrest, rfl⟩ := List.forall₂_cons_right_iff.1 h
  obtain ⟨x', x'', rfl, hxy', hxy''⟩ := exists_pair_of_forall₂ hrest
  exact ⟨x, x', x'', rfl, hxy, hxy', hxy''⟩

end Side

namespace Locus

variable {locus child : Locus} {loci : List Locus} {kind wanted : Kind} {tree : Tree} {trees : List Tree}
  {text : String} {start : Nat}

/-- The text of the first token of a kind. -/
def textOf (locus : Locus) (kind : Kind) : Option String := (locus.tokenOf kind).map Locus.text

/-- The children that are no trivia. -/
def significant (locus : Locus) : List Locus :=
  locus.children.filter fun child => !child.kind.isTrivia

/-- A tree the nodes of which have no kinds of tokens. -/
abbrev NodesApart (tree : Tree) : Prop := tree.Made fun kind _ => kind.isToken = false

/-- A place that holds a tree which is the given one without trivia. -/
def Shows (locus : Locus) (tree : Tree) : Prop :=
  ∃ written start, locus.element = Tree.locate start written ∧ NodesApart written ∧
    written.bare = tree

theorem Shows.kind_eq (h : locus.Shows tree) : locus.kind = tree.kind := by
  obtain ⟨written, start, helement, -, rfl⟩ := h
  rw [kind_of_element helement]
  cases written <;> rfl

theorem Shows.isNode_eq (h : locus.Shows tree) : locus.isNode = tree.isNode := by
  obtain ⟨written, start, helement, -, rfl⟩ := h
  cases written with
  | leaf => rw [isNode, helement]; rfl
  | node => rw [isNode, helement]; rfl

theorem Shows.text_eq (h : locus.Shows (.leaf kind text)) : locus.text = text := by
  obtain ⟨written, start, helement, -, hbare⟩ := h
  cases written with
  | leaf =>
      obtain ⟨rfl, rfl⟩ := Tree.leaf.inj hbare
      exact (isToken_of_element helement).2.2
  | node => cases hbare

/-- Of placed trees, those that are no trivia are shown. -/
theorem forall₂_shows {written : List Tree} (h : loci.map element = Tree.locateAll start written)
    (hmade : ∀ tree ∈ written, NodesApart tree) :
    List.Forall₂ Shows (loci.filter fun locus => !locus.kind.isTrivia) (Tree.bareAll written) := by
  induction written generalizing loci start with
  | nil =>
      obtain rfl := List.map_eq_nil_iff.1 h
      exact .nil
  | cons tree written ih =>
      obtain ⟨locus, loci, rfl, helement, hloci⟩ := List.map_eq_cons_iff.1 h
      obtain ⟨htree, hwritten⟩ := List.forall_mem_cons.1 hmade
      have hrest := ih hloci hwritten
      have hkind : locus.kind = tree.kind := kind_of_element helement
      rw [Tree.bareAll]
      cases htrivia : tree.kind.isTrivia
      · rw [List.filter_cons_of_pos (by simp [hkind, htrivia]), if_neg Bool.false_ne_true]
        exact .cons ⟨tree, start, helement, htree, rfl⟩ hrest
      · rw [List.filter_cons_of_neg (by simp [hkind, htrivia]), if_pos rfl]
        exact hrest

/-- The children of a place that are no trivia show the children of the tree that it shows. -/
theorem Shows.significant (h : locus.Shows (.node kind trees)) :
    List.Forall₂ Shows locus.significant trees := by
  obtain ⟨written, start, helement, hmade, hbare⟩ := h
  cases written with
  | leaf => cases hbare
  | node tag written =>
      obtain ⟨rfl, rfl⟩ := Tree.node.inj hbare
      have hchildren : locus.children.map element = Tree.locateAll start written := by
        rw [map_element_children, helement]
        rfl
      refine forall₂_shows hchildren ?_
      cases hmade with
      | missing => simp
      | node _ hmade => exact hmade

/-- Nodes are no trivia. -/
theorem isTrivia_of_isNode (h : locus.Shows tree) (hchild : child ∈ locus.children)
    (hnode : child.isNode = true) : child.kind.isTrivia = false := by
  obtain ⟨written, start, helement, hmade, -⟩ := h
  have hbuilt : locus.Built fun kind _ => kind.isToken = false := ⟨written, start, helement, hmade⟩
  have happart : child.kind.isToken = false := by
    rcases (hbuilt.of_mem_children hchild).missing_or_fits hnode with ⟨hmissing, -⟩ | ⟨_, _, -, h, -⟩
    · rw [hmissing]
      rfl
    · exact h
  cases hkind : child.kind <;> first | rfl | (rw [hkind] at happart; cases happart)

theorem Shows.isToken_eq (h : locus.Shows tree) : locus.isToken = !tree.isNode := by
  rw [← h.isNode_eq, isNode_eq_not, Bool.not_not]

/-! What is found among the children -/

theorem Shows.nodes (h : locus.Shows (.node kind trees)) :
    List.Forall₂ Shows locus.nodes (trees.filter Tree.isNode) := by
  have hnodes : locus.nodes = locus.significant.filter isNode := by
    rw [Locus.significant, List.filter_filter]
    refine List.filter_congr fun child hchild => ?_
    cases hnode : child.isNode
    · rfl
    · rw [isTrivia_of_isNode h hchild hnode]
      rfl
  rw [hnodes]
  refine List.rel_filter (fun child shown hshows => ?_) h.significant
  exact iff_of_eq (congrArg (· = true) (Shows.isNode_eq hshows))

theorem exists_of_kind (h : List.Forall₂ Shows loci trees)
    (hfind : trees.find? (fun tree => tree.kind = wanted) = some tree) :
    ∃ child, loci.find? (fun child => child.kind = wanted) = some child ∧ child.Shows tree :=
  exists_find?_of_forall₂ h (fun _ _ hshows => by rw [Shows.kind_eq hshows]) hfind

theorem exists_expr (h : List.Forall₂ Shows loci trees)
    (hfind : trees.find? (fun tree => tree.kind.isExpr) = some tree) :
    ∃ child, loci.find? (fun child => child.kind.isExpr) = some child ∧ child.Shows tree :=
  exists_find?_of_forall₂ h (fun _ _ hshows => by rw [Shows.kind_eq hshows]) hfind

theorem forall₂_filter (p : Kind → Bool) (h : List.Forall₂ Shows loci trees) :
    List.Forall₂ Shows (loci.filter fun locus => p locus.kind)
      (trees.filter fun tree => p tree.kind) := by
  refine List.rel_filter (fun child shown hshows => ?_) h
  exact iff_of_eq (congrArg (fun kind => p kind = true) (Shows.kind_eq hshows))

theorem Shows.firstExpr (h : locus.Shows (.node kind trees))
    (hfind : (trees.filter Tree.isNode).find? (fun tree => tree.kind.isExpr) = some tree) :
    ∃ node, locus.firstExpr = some node ∧ node.Shows tree := exists_expr h.nodes hfind

theorem Shows.operand (h : locus.Shows (.node kind trees))
    (hhead : (trees.filter Tree.isNode).head? = some tree) (hexpr : tree.kind.isExpr = true) :
    ∃ node, locus.operand = some node ∧ node.Shows tree := by
  obtain ⟨rest, hrest⟩ := List.head?_eq_some_iff.1 hhead
  have hnodes := h.nodes
  rw [hrest] at hnodes
  obtain ⟨node, more, hnode, -, hlist⟩ := List.forall₂_cons_right_iff.1 hnodes
  refine ⟨node, ?_, hnode⟩
  rw [Locus.operand, hlist, List.head?_cons, Option.filter_some, hnode.kind_eq, hexpr]
  rfl

theorem Shows.nodeOf (h : locus.Shows (.node kind trees)) (wanted : Kind)
    (hfind : (trees.filter Tree.isNode).find? (fun tree => tree.kind = wanted) = some tree) :
    ∃ node, locus.nodeOf wanted = some node ∧ node.Shows tree := exists_of_kind h.nodes hfind

/-- The tokens among some children and among the trees that they show. -/
theorem forall₂_tokens (h : List.Forall₂ Shows loci trees) :
    List.Forall₂ Shows (loci.filter isToken) (trees.filter fun tree => !tree.isNode) := by
  refine List.rel_filter (fun child shown hshows => ?_) h
  exact iff_of_eq (congrArg (· = true) (Shows.isToken_eq hshows))

theorem Shows.tokens (h : locus.Shows (.node kind trees)) :
    List.Forall₂ Shows (locus.significant.filter isToken) (trees.filter fun tree => !tree.isNode) :=
  forall₂_tokens h.significant

theorem tokenOf_eq (hwanted : wanted.isTrivia = false) (locus : Locus) :
    locus.tokenOf wanted =
      (locus.significant.filter isToken).find? fun token => token.kind = wanted := by
  rw [tokenOf, Locus.tokens, Locus.significant, List.filter_filter, List.find?_filter,
    List.find?_filter]
  refine congrArg (List.find? · locus.children) (funext fun token => ?_)
  by_cases htoken : token.kind = wanted
  · simp [htoken, hwanted]
  · simp [htoken]

theorem Shows.textOf (h : locus.Shows (.node kind trees)) (wanted : Kind)
    (hwanted : wanted.isTrivia = false)
    (hfind : (trees.filter fun tree => !tree.isNode).find? (fun tree => tree.kind = wanted) =
      some (.leaf wanted text)) : locus.textOf wanted = some text := by
  obtain ⟨token, htoken, hshows⟩ := exists_of_kind h.tokens hfind
  rw [Locus.textOf, tokenOf_eq hwanted, htoken, Option.map_some, hshows.text_eq]

/-- What stands behind a token, trivia left out. -/
theorem Shows.dropWhile (h : locus.Shows (.node kind trees)) (hwanted : wanted.isTrivia = false) :
    List.Forall₂ Shows
      ((locus.children.dropWhile fun child => child.kind ≠ wanted).filter
        fun child => !child.kind.isTrivia)
      (trees.dropWhile fun tree => tree.kind ≠ wanted) := by
  rw [← dropWhile_filter]
  · exact forall₂_dropWhile h.significant fun _ _ hshows => by rw [Shows.kind_eq hshows]
  · intro child hchild
    have heq : child.kind = wanted := by simpa using hchild
    rw [heq, hwanted]
    rfl

theorem Shows.nodesAfter (h : locus.Shows (.node kind trees)) (hwanted : wanted.isTrivia = false) :
    List.Forall₂ Shows ((locus.children.dropWhile fun child => child.kind ≠ wanted).filter isNode)
      ((trees.dropWhile fun tree => tree.kind ≠ wanted).filter Tree.isNode) := by
  have heq : (locus.children.dropWhile fun child => child.kind ≠ wanted).filter isNode =
      ((locus.children.dropWhile fun child => child.kind ≠ wanted).filter
        fun child => !child.kind.isTrivia).filter isNode := by
    rw [List.filter_filter]
    refine List.filter_congr fun child hmem => ?_
    have hchild : child ∈ locus.children := (List.dropWhile_sublist _).subset hmem
    cases hnode : child.isNode
    · rfl
    · rw [isTrivia_of_isNode h hchild hnode]
      rfl
  rw [heq]
  refine List.rel_filter (fun child shown hshows => ?_) (h.dropWhile hwanted)
  exact iff_of_eq (congrArg (· = true) (Shows.isNode_eq hshows))

theorem Shows.exprAfter (h : locus.Shows (.node kind trees)) (wanted : Kind)
    (hwanted : wanted.isTrivia = false)
    (hfind : ((trees.dropWhile fun tree => tree.kind ≠ wanted).filter Tree.isNode).find?
      (fun tree => tree.kind.isExpr) = some tree) :
    ∃ node, locus.exprAfter wanted = some node ∧ node.Shows tree :=
  exists_expr (h.nodesAfter hwanted) hfind

theorem Shows.member (h : locus.Shows (.node kind trees))
    (hfind : ((trees.dropWhile fun tree => tree.kind ≠ .dot).filter fun tree => !tree.isNode).find?
      (fun tree => tree.kind = .ident) = some (.leaf .ident text)) :
    locus.member.map Locus.text = some text := by
  have heq : locus.member = (((locus.children.dropWhile fun child => child.kind ≠ .dot).filter
      fun child => !child.kind.isTrivia).filter isToken).find? fun token => token.kind = .ident := by
    rw [Locus.member, List.filter_filter, List.find?_filter, List.find?_filter]
    refine congrArg (List.find? · _) (funext fun token => ?_)
    by_cases htoken : token.kind = .ident
    · simp [htoken, Kind.isTrivia]
    · simp [htoken]
  obtain ⟨token, htoken, hshows⟩ := exists_of_kind (forall₂_tokens (h.dropWhile rfl)) hfind
  rw [heq, htoken, Option.map_some, hshows.text_eq]

end Locus

end Caret
