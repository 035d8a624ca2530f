import Caret.Proofs.Tree.Located
import Mathlib.Algebra.GroupWithZero.Nat

/-!
# The leaves of a placed tree

The tokens of a tree, with the kind of the node that each one is a child of. In a placed tree they
cover its bytes one after the other, and the tokens that an offset touches are among them.
-/

namespace Caret

/-- A leaf of a tree with the kind of the node around it. -/
structure Leaf where
  home : Kind
  kind : Kind
  text : String
  deriving DecidableEq, Repr

namespace Tree

mutual

/-- The leaves of a tree that is a child of a node of the given kind. -/
def homed (home : Kind) : Tree → List Leaf
  | leaf kind text => [⟨home, kind, text⟩]
  | node kind children => homedAll kind children

def homedAll (home : Kind) : List Tree → List Leaf
  | [] => []
  | tree :: trees => tree.homed home ++ homedAll home trees

end

theorem homedAll_append (home : Kind) (left right : List Tree) :
    homedAll home (left ++ right) = homedAll home left ++ homedAll home right := by
  induction left with
  | nil => rfl
  | cons tree trees ih => simp [homedAll, ih]

mutual

theorem map_homed (home : Kind) (tree : Tree) :
    (tree.homed home).map (fun leaf => (leaf.kind, leaf.text)) = tree.leaves := by
  cases tree with
  | leaf kind text => rfl
  | node kind children => exact map_homedAll kind children

theorem map_homedAll (home : Kind) (trees : List Tree) :
    (homedAll home trees).map (fun leaf => (leaf.kind, leaf.text)) = leavesAll trees := by
  cases trees with
  | nil => rfl
  | cons tree trees =>
      rw [homedAll, leavesAll, List.map_append, map_homed home tree, map_homedAll home trees]

end

end Tree

namespace Locus

variable {root locus : Locus}

/-- The tokens at and below a place in the order of the text. -/
def leaves (root : Locus) : List Locus := (root.search fun _ => true).filter isToken

theorem mem_leaves_iff : locus ∈ root.leaves ↔ Under root locus ∧ locus.isToken = true := by
  rw [leaves, List.mem_filter, mem_search_true_iff]

theorem tokensAt_eq_filter_leaves (hlocated : root.Located) (offset : Nat) :
    root.tokensAt offset = root.leaves.filter fun token =>
      !token.span.isEmpty && token.span.touches offset := by
  rw [tokensAt, leaves, List.filter_filter, search_eq_filter, List.filter_filter]
  · refine List.filter_congr fun locus _ => ?_
    rw [Bool.and_comm]
    rfl
  · intro locus child hunder hchild henter
    have hcontains := ((hunder.located hlocated).of_mem_children hchild).2.1
    rw [Span.contains_iff] at hcontains
    simp only [Span.isEmpty, Span.touches, Bool.and_eq_true, Bool.not_eq_true', decide_eq_true_eq,
      decide_eq_false_iff_not] at henter ⊢
    simp only [Locus.span] at hcontains
    omega

/-- A token as a leaf, with its bytes. -/
def placed (token : Locus) : Option Kind × Kind × String × Span :=
  (token.parent.map kind, token.kind, token.text, token.span)

end Locus

/-- Leaves that cover the bytes from the given one on. -/
def Leaf.place : Nat → List Leaf → List (Option Kind × Kind × String × Span)
  | _, [] => []
  | start, leaf :: leaves =>
    (some leaf.home, leaf.kind, leaf.text, ⟨start, start + leaf.text.utf8ByteSize⟩) ::
      place (start + leaf.text.utf8ByteSize) leaves

theorem Leaf.place_append (start : Nat) (left right : List Leaf) :
    place start (left ++ right) =
      place start left ++ place (start + (left.map (·.text.utf8ByteSize)).sum) right := by
  induction left generalizing start with
  | nil => rfl
  | cons leaf left ih => simp [place, ih, Nat.add_assoc]

namespace Tree

mutual

theorem sum_leaves (tree : Tree) : (tree.leaves.map (·.2.utf8ByteSize)).sum = tree.size := by
  cases tree with
  | leaf kind text => simp [leaves, size]
  | node kind children => exact sum_leavesAll children

theorem sum_leavesAll (trees : List Tree) :
    ((leavesAll trees).map (·.2.utf8ByteSize)).sum = sizeAll trees := by
  cases trees with
  | nil => rfl
  | cons tree trees =>
      rw [leavesAll, sizeAll, List.map_append, List.sum_append, sum_leaves tree,
        sum_leavesAll trees]

end

theorem sum_homed (home : Kind) (tree : Tree) :
    ((tree.homed home).map (·.text.utf8ByteSize)).sum = tree.size := by
  rw [← sum_leaves, ← map_homed home, List.map_map]
  rfl

theorem sum_homedAll (home : Kind) (trees : List Tree) :
    ((homedAll home trees).map (·.text.utf8ByteSize)).sum = sizeAll trees := by
  rw [← sum_leavesAll, ← map_homedAll home, List.map_map]
  rfl

mutual

theorem placed_search (tree : Tree) (start : Nat) (left right : List Element) (crumb : Crumb)
    (above : List Crumb) :
    (((tree.locate start).search (fun _ => true) left right (crumb :: above)).filter
      Locus.isToken).map Locus.placed = Leaf.place start (tree.homed crumb.element.kind) := by
  cases tree with
  | leaf kind text => rfl
  | node kind children =>
      exact placed_searchAll children start []
        ⟨.node kind ⟨start, start + sizeAll children⟩ (locateAll start children), left, right⟩
        (crumb :: above)

theorem placed_searchAll (trees : List Tree) (start : Nat) (left : List Element) (crumb : Crumb)
    (above : List Crumb) :
    ((Element.searchAll (fun _ => true) left (crumb :: above) (locateAll start trees)).filter
      Locus.isToken).map Locus.placed = Leaf.place start (homedAll crumb.element.kind trees) := by
  cases trees with
  | nil => rfl
  | cons tree trees =>
      rw [locateAll, Element.searchAll, List.filter_append, List.map_append,
        placed_search tree start _ _ crumb above, placed_searchAll trees _ _ crumb above, homedAll,
        Leaf.place_append, sum_homed]

end

/-- The tokens of a placed node are its leaves, one after the other. -/
theorem map_placed_leaves (kind : Kind) (children : List Tree) (start : Nat) :
    (Locus.root ((node kind children).locate start)).leaves.map Locus.placed =
      Leaf.place start (homedAll kind children) :=
  placed_searchAll children start []
    ⟨.node kind ⟨start, start + sizeAll children⟩ (locateAll start children), [], []⟩ []

end Tree

end Caret
