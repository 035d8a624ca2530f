import Caret.Proofs.Tree.Located
import Mathlib.Data.List.Forall2

/-!
# The nodes of trees

The nodes of some trees, each with its children, in the order of the text. They are the nodes that a
search comes to once the trees are placed.
-/

namespace Caret

namespace Tree

mutual

/-- The nodes of a tree, each with its children. -/
def nodes : Tree → List (Kind × List Tree)
  | leaf _ _ => []
  | node kind children => (kind, children) :: nodesAll children

def nodesAll : List Tree → List (Kind × List Tree)
  | [] => []
  | tree :: trees => tree.nodes ++ nodesAll trees

end

theorem nodesAll_append (left right : List Tree) :
    nodesAll (left ++ right) = nodesAll left ++ nodesAll right := by
  induction left with
  | nil => rfl
  | cons tree trees ih => simp [nodesAll, ih]

theorem nodesAll_node (kind : Kind) (children : List Tree) :
    nodesAll [node kind children] = (kind, children) :: nodesAll children := by
  simp [nodesAll, nodes]

theorem nodesAll_map_ofToken (tokens : List Token) : nodesAll (tokens.map ofToken) = [] := by
  induction tokens with
  | nil => rfl
  | cons token tokens ih => exact ih

end Tree

namespace Locus

/-- A place that holds a tree. -/
def Holds (locus : Locus) (tree : Tree) : Prop := ∃ start, locus.element = tree.locate start

theorem forall₂_holds_of_map {loci : List Locus} {trees : List Tree} {start : Nat}
    (h : loci.map element = Tree.locateAll start trees) : List.Forall₂ Holds loci trees := by
  induction trees generalizing loci start with
  | nil =>
      obtain rfl := List.map_eq_nil_iff.1 h
      exact .nil
  | cons tree trees ih =>
      obtain ⟨locus, rest, rfl, hfirst, hrest⟩ := List.map_eq_cons_iff.1 h
      exact .cons ⟨start, hfirst⟩ (ih hrest)

/-- The children of a place that holds a node hold the trees of the node. -/
theorem Holds.forall₂_children {locus : Locus} {kind : Kind} {trees : List Tree}
    (h : locus.Holds (.node kind trees)) : List.Forall₂ Holds locus.children trees := by
  obtain ⟨start, helement⟩ := h
  have hmap : locus.children.map element = Tree.locateAll start trees := by
    rw [children, map_element_spread, helement]
    rfl
  exact forall₂_holds_of_map hmap

end Locus

namespace Tree

mutual

theorem forall₂_holds_search (tree : Tree) (start : Nat) (left right : List Element)
    (above : List Crumb) :
    List.Forall₂ (fun locus part => locus.Holds (.node part.1 part.2))
      (((tree.locate start).search (fun _ => true) left right above).filter Locus.isNode)
      tree.nodes := by
  cases tree with
  | leaf kind text => exact .nil
  | node kind children =>
      rw [locate, Element.search, if_pos rfl, nodes]
      exact .cons ⟨start, rfl⟩ (forall₂_holds_searchAll children start [] _)

theorem forall₂_holds_searchAll (trees : List Tree) (start : Nat) (left : List Element)
    (above : List Crumb) :
    List.Forall₂ (fun locus part => locus.Holds (.node part.1 part.2))
      ((Element.searchAll (fun _ => true) left above (locateAll start trees)).filter Locus.isNode)
      (nodesAll trees) := by
  cases trees with
  | nil => exact .nil
  | cons tree trees =>
      rw [locateAll, Element.searchAll, List.filter_append, nodesAll]
      exact List.rel_append (forall₂_holds_search tree start _ _ above)
        (forall₂_holds_searchAll trees _ _ above)

end

/-- The nodes of a placed tree hold its nodes, one after the other. -/
theorem forall₂_holds_descendants (tree : Tree) (start : Nat) :
    List.Forall₂ (fun locus part => locus.Holds (.node part.1 part.2))
      (Locus.root (tree.locate start)).descendants tree.nodes :=
  forall₂_holds_search tree start [] [] []

end Tree

end Caret
