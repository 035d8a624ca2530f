import Caret.Proofs.Tree.Leaf
import Caret.View
import Mathlib.Order.MinMax

/-!
# Trees carried over to another text

The places of a text are moved, their order kept, and newlines are written in another way. What is
found in the tree that results is what is found in the tree before, carried over.
-/

namespace Caret

namespace Tree

mutual

/-- A tree with its newlines written in another way. -/
def respell (spell : String → String) : Tree → Tree
  | leaf kind text => leaf kind (if kind = .newline then spell text else text)
  | node kind children => node kind (respellAll spell children)

def respellAll (spell : String → String) : List Tree → List Tree
  | [] => []
  | tree :: trees => respell spell tree :: respellAll spell trees

end

theorem respellAll_append (spell : String → String) (left right : List Tree) :
    respellAll spell (left ++ right) = respellAll spell left ++ respellAll spell right := by
  induction left with
  | nil => rfl
  | cons tree trees ih => rw [List.cons_append, respellAll, respellAll, ih, List.cons_append]

end Tree

/-- A way to carry trees over to another text. -/
structure Relocation where
  place : Nat → Nat
  strictMono : StrictMono place
  spell : String → String

namespace Relocation

variable (move : Relocation)

@[simp]
theorem place_lt_place {m n : Nat} : move.place m < move.place n ↔ m < n :=
  move.strictMono.lt_iff_lt

@[simp]
theorem place_le_place {m n : Nat} : move.place m ≤ move.place n ↔ m ≤ n :=
  move.strictMono.le_iff_le

@[simp]
theorem place_inj {m n : Nat} : move.place m = move.place n ↔ m = n :=
  move.strictMono.injective.eq_iff

def span (span : Span) : Span := ⟨move.place span.start, move.place span.stop⟩

mutual

def element : Element → Element
  | .token kind span text =>
    .token kind (move.span span) (if kind = .newline then move.spell text else text)
  | .node kind span children => .node kind (move.span span) (elements children)

def elements : List Element → List Element
  | [] => []
  | first :: rest => element first :: elements rest

end

def crumb (crumb : Crumb) : Crumb :=
  ⟨move.element crumb.element, move.elements crumb.left, move.elements crumb.right⟩

def locus (locus : Locus) : Locus := ⟨move.crumb locus.here, locus.above.map move.crumb⟩

def ref (ref : NodeRef) : NodeRef := ⟨ref.kind, move.span ref.span⟩

/-! Spans -/

theorem span_injective : Function.Injective move.span := fun left right h => by
  rw [span, span, Span.mk.injEq, place_inj, place_inj] at h
  exact congrArg₂ Span.mk h.1 h.2

@[simp]
theorem start_span (span : Span) : (move.span span).start = move.place span.start := rfl

@[simp]
theorem stop_span (span : Span) : (move.span span).stop = move.place span.stop := rfl

@[simp]
theorem span_empty (offset : Nat) : move.span (.empty offset) = .empty (move.place offset) := rfl

@[simp]
theorem isEmpty_span (span : Span) : (move.span span).isEmpty = span.isEmpty := by
  simp [Span.isEmpty]

@[simp]
theorem touches_span (span : Span) (offset : Nat) :
    (move.span span).touches (move.place offset) = span.touches offset := by
  simp [Span.touches]

@[simp]
theorem strictlyContains_span (span : Span) (offset : Nat) :
    (move.span span).strictlyContains (move.place offset) = span.strictlyContains offset := by
  simp [Span.strictlyContains]

@[simp]
theorem contains_span (outer inner : Span) :
    (move.span outer).contains (move.span inner) = outer.contains inner := by
  simp [Span.contains]

theorem clamp_span (span : Span) (size : Nat) :
    (move.span span).clamp (move.place size) = move.span (span.clamp size) := by
  simp [Relocation.span, Span.clamp, move.strictMono.monotone.map_min]

theorem ref_injective : Function.Injective move.ref := fun left right h => by
  rw [ref, ref, NodeRef.mk.injEq] at h
  exact congrArg₂ NodeRef.mk h.1 (move.span_injective h.2)

/-! Elements -/

theorem elements_eq_map (elements : List Element) :
    move.elements elements = elements.map move.element := by
  induction elements with
  | nil => rfl
  | cons first rest ih => rw [Relocation.elements, ih, List.map_cons]

@[simp]
theorem length_elements (elements : List Element) :
    (move.elements elements).length = elements.length := by
  rw [elements_eq_map, List.length_map]

@[simp]
theorem kind_element (element : Element) : (move.element element).kind = element.kind := by
  cases element <;> rfl

@[simp]
theorem span_element (element : Element) :
    (move.element element).span = move.span element.span := by
  cases element <;> rfl

@[simp]
theorem isToken_element (element : Element) : (move.element element).isToken = element.isToken := by
  cases element <;> rfl

@[simp]
theorem children_element (element : Element) :
    (move.element element).children = move.elements element.children := by
  cases element <;> rfl

theorem text_element {element : Element} (h : element.kind ≠ .newline) :
    (move.element element).text = element.text := by
  cases element with
  | token kind span text => exact if_neg h
  | node => rfl

mutual

theorem search_element {enter enter' : Element → Bool}
    (h : ∀ element, enter' (move.element element) = enter element) (left right : List Element)
    (above : List Crumb) : ∀ element : Element,
      (move.element element).search enter' (move.elements left) (move.elements right)
          (above.map move.crumb) =
        (element.search enter left right above).map move.locus
  | .token kind span text => by
      have henter := h (.token kind span text)
      rw [element] at henter ⊢
      rw [Element.search, Element.search, henter]
      split <;> rfl
  | .node kind span children => by
      have henter := h (.node kind span children)
      rw [element] at henter ⊢
      rw [Element.search, Element.search, henter]
      split
      · exact congrArg (_ :: ·) (search_elements h [] (⟨.node kind span children, left, right⟩ :: above)
          children)
      · rfl

theorem search_elements {enter enter' : Element → Bool}
    (h : ∀ element, enter' (move.element element) = enter element) (left : List Element)
    (above : List Crumb) : ∀ elements : List Element,
      Element.searchAll enter' (move.elements left) (above.map move.crumb) (move.elements elements) =
        (Element.searchAll enter left above elements).map move.locus
  | [] => rfl
  | first :: rest => by
      rw [elements, Element.searchAll, Element.searchAll, List.map_append,
        search_element h left rest above first]
      exact congrArg (_ ++ ·) (search_elements h (first :: left) above rest)

end

theorem firstToken_element (left right : List Element) (above : List Crumb) (element : Element) :
    (move.element element).firstToken (move.elements left) (move.elements right)
        (above.map move.crumb) =
      (element.firstToken left right above).map move.locus := by
  fun_induction Element.firstToken left right above element with
  | case1 => rfl
  | case2 => rfl
  | case3 left right above kind span first rest ih => exact ih

mutual

theorem lastToken_element (left right : List Element) (above : List Crumb) :
    ∀ element : Element,
      (move.element element).lastToken (move.elements left) (move.elements right)
          (above.map move.crumb) =
        (element.lastToken left right above).map move.locus
  | .token .. => rfl
  | .node kind span children =>
      lastTokenOf_elements [] (⟨.node kind span children, left, right⟩ :: above) children

theorem lastTokenOf_elements (left : List Element) (above : List Crumb) :
    ∀ elements : List Element,
      Element.lastTokenOf (move.elements left) (above.map move.crumb) (move.elements elements) =
        (Element.lastTokenOf left above elements).map move.locus
  | [] => rfl
  | [last] => lastToken_element left [] above last
  | first :: second :: rest => lastTokenOf_elements (first :: left) above (second :: rest)

end

/-! Loci -/

variable (node : Locus)

theorem locus_root (element : Element) : move.locus (.root element) = .root (move.element element) :=
  rfl

@[simp]
theorem element_locus : (move.locus node).element = move.element node.element := rfl

@[simp]
theorem kind_locus : (move.locus node).kind = node.kind := move.kind_element _

@[simp]
theorem span_locus : (move.locus node).span = move.span node.span := move.span_element _

@[simp]
theorem isToken_locus : (move.locus node).isToken = node.isToken := move.isToken_element _

@[simp]
theorem isNode_locus : (move.locus node).isNode = node.isNode := congrArg not (move.isToken_element _)

@[simp]
theorem ref_locus : (move.locus node).ref = move.ref node.ref := by
  simp [Locus.ref, ref]

theorem text_locus {node : Locus} (h : node.kind ≠ .newline) : (move.locus node).text = node.text :=
  move.text_element h

@[simp]
theorem parent_locus : (move.locus node).parent = node.parent.map move.locus := by
  obtain ⟨here, above⟩ := node
  cases above <;> rfl

theorem ancestorsFrom_crumb (here : Crumb) (above : List Crumb) :
    Locus.ancestorsFrom (move.crumb here) (above.map move.crumb) =
      (Locus.ancestorsFrom here above).map move.locus := by
  induction above generalizing here with
  | nil => rfl
  | cons crumb above ih => exact congrArg (_ :: ·) (ih crumb)

@[simp]
theorem ancestors_locus : (move.locus node).ancestors = node.ancestors.map move.locus :=
  move.ancestorsFrom_crumb _ _

@[simp]
theorem properAncestors_locus :
    (move.locus node).properAncestors = node.properAncestors.map move.locus := by
  rw [Locus.properAncestors, ancestors_locus, ← List.map_tail]
  rfl

theorem spread_elements (above : List Crumb) (left elements : List Element) :
    Locus.spread (above.map move.crumb) (move.elements left) (move.elements elements) =
      (Locus.spread above left elements).map move.locus := by
  induction elements generalizing left with
  | nil => rfl
  | cons first rest ih => exact congrArg (_ :: ·) (ih (first :: left))

@[simp]
theorem children_locus : (move.locus node).children = node.children.map move.locus := by
  rw [Locus.children, element_locus, children_element]
  exact move.spread_elements (node.here :: node.above) [] _

/-! Searches that cannot tell the two trees apart -/

variable {test test' : Locus → Bool}

theorem filter_map (h : ∀ node, test' (move.locus node) = test node) (loci : List Locus) :
    (loci.map move.locus).filter test' = (loci.filter test).map move.locus := by
  rw [List.filter_map]
  exact congrArg (fun test => (loci.filter test).map move.locus) (funext h)

theorem find?_map (h : ∀ node, test' (move.locus node) = test node) (loci : List Locus) :
    (loci.map move.locus).find? test' = (loci.find? test).map move.locus := by
  rw [List.find?_map]
  exact congrArg (fun test => (loci.find? test).map move.locus) (funext h)

theorem dropWhile_map (h : ∀ node, test' (move.locus node) = test node) (loci : List Locus) :
    (loci.map move.locus).dropWhile test' = (loci.dropWhile test).map move.locus := by
  rw [List.dropWhile_map]
  exact congrArg (fun test => (loci.dropWhile test).map move.locus) (funext h)

theorem any_map (h : ∀ node, test' (move.locus node) = test node) (loci : List Locus) :
    (loci.map move.locus).any test' = loci.any test := by
  rw [List.any_map]
  exact congrArg loci.any (funext h)

@[simp]
theorem nodes_locus : (move.locus node).nodes = node.nodes.map move.locus := by
  rw [Locus.nodes, children_locus]
  exact move.filter_map move.isNode_locus _

@[simp]
theorem tokens_locus : (move.locus node).tokens = node.tokens.map move.locus := by
  rw [Locus.tokens, children_locus]
  exact move.filter_map move.isToken_locus _

@[simp]
theorem nodeOf_locus (kind : Kind) :
    (move.locus node).nodeOf kind = (node.nodeOf kind).map move.locus := by
  rw [Locus.nodeOf, nodes_locus]
  exact move.find?_map (fun node => by simp) _

@[simp]
theorem tokenOf_locus (kind : Kind) :
    (move.locus node).tokenOf kind = (node.tokenOf kind).map move.locus := by
  rw [Locus.tokenOf, tokens_locus]
  exact move.find?_map (fun node => by simp) _

theorem search_locus {enter enter' : Element → Bool}
    (h : ∀ element, enter' (move.element element) = enter element) :
    (move.locus node).search enter' = (node.search enter).map move.locus :=
  move.search_element h _ _ _ _

@[simp]
theorem descendants_locus : (move.locus node).descendants = node.descendants.map move.locus := by
  rw [Locus.descendants, search_locus _ _ fun _ => rfl]
  exact move.filter_map move.isNode_locus _

@[simp]
theorem tokensAt_locus (offset : Nat) :
    (move.locus node).tokensAt (move.place offset) = (node.tokensAt offset).map move.locus := by
  have henter (element : Element) :
      (!(move.element element).span.isEmpty &&
          (move.element element).span.touches (move.place offset)) =
        (!element.span.isEmpty && element.span.touches offset) := by simp
  rw [Locus.tokensAt, search_locus _ _ henter]
  exact move.filter_map move.isToken_locus _

@[simp]
theorem firstToken_locus : (move.locus node).firstToken = node.firstToken.map move.locus :=
  move.firstToken_element _ _ _ _

@[simp]
theorem lastToken_locus : (move.locus node).lastToken = node.lastToken.map move.locus :=
  move.lastToken_element _ _ _ _

@[simp]
theorem leftSibling_locus : (move.locus node).leftSibling = node.leftSibling.map move.locus := by
  obtain ⟨⟨element, left, right⟩, above⟩ := node
  cases left <;> rfl

@[simp]
theorem previousToken_locus :
    (move.locus node).previousToken = node.previousToken.map move.locus := by
  have hsiblings (loci : List Locus) : (loci.map move.locus).findSome? Locus.leftSibling =
      (loci.findSome? Locus.leftSibling).map move.locus := by
    induction loci with
    | nil => rfl
    | cons first rest ih =>
        rw [List.map_cons, List.findSome?_cons, List.findSome?_cons, leftSibling_locus, ih]
        cases first.leftSibling <;> rfl
  rw [Locus.previousToken, ancestors_locus, hsiblings, Locus.previousToken]
  cases node.ancestors.findSome? Locus.leftSibling with
  | none => rfl
  | some sibling => exact move.lastToken_locus sibling

@[simp]
theorem find?_locus (ref : NodeRef) :
    (move.locus node).find? (move.ref ref) = (node.find? ref).map move.locus := by
  rw [Locus.find?, descendants_locus]
  exact move.find?_map (fun node => by simp [move.ref_injective.eq_iff]) _

/-! Trees that are placed -/

/-- The bytes of some leaves are carried over to the bytes of the same leaves as they are written in
the other text. -/
def Fits : Nat → List (Kind × String) → Prop
  | _, [] => True
  | start, leaf :: leaves =>
    move.place (start + leaf.2.utf8ByteSize) =
        move.place start +
          (if leaf.1 = .newline then move.spell leaf.2 else leaf.2).utf8ByteSize ∧
      Fits (start + leaf.2.utf8ByteSize) leaves

variable {move}

theorem fits_append {start : Nat} {left right : List (Kind × String)} :
    move.Fits start (left ++ right) ↔
      move.Fits start left ∧ move.Fits (start + (left.map (·.2.utf8ByteSize)).sum) right := by
  induction left generalizing start with
  | nil => simp [Fits]
  | cons leaf left ih => simp [Fits, ih, and_assoc, Nat.add_assoc]

mutual

theorem place_size {start : Nat} : ∀ {tree : Tree}, move.Fits start tree.leaves →
    move.place (start + tree.size) = move.place start + (tree.respell move.spell).size
  | .leaf _ _, h => h.1
  | .node _ _, h => place_sizeAll h

theorem place_sizeAll {start : Nat} : ∀ {trees : List Tree}, move.Fits start (Tree.leavesAll trees) →
    move.place (start + Tree.sizeAll trees) =
      move.place start + Tree.sizeAll (Tree.respellAll move.spell trees)
  | [], _ => rfl
  | tree :: trees, h => by
      obtain ⟨hfirst, hrest⟩ := fits_append.1 h
      rw [Tree.sum_leaves] at hrest
      rw [Tree.sizeAll, Tree.respellAll, Tree.sizeAll, ← Nat.add_assoc, place_sizeAll hrest,
        place_size hfirst, Nat.add_assoc]

end

mutual

/-- A tree whose newlines are written in another way is placed where the tree is carried over to. -/
theorem locate_respell {start : Nat} : ∀ {tree : Tree}, move.Fits start tree.leaves →
    (tree.respell move.spell).locate (move.place start) = move.element (tree.locate start)
  | .leaf kind text, h => by
      rw [Tree.locate, element, span, h.1]
      rfl
  | .node kind children, h => by
      rw [Tree.locate, element, span, place_sizeAll h, ← locateAll_respellAll h]
      rfl

theorem locateAll_respellAll {start : Nat} :
    ∀ {trees : List Tree}, move.Fits start (Tree.leavesAll trees) →
      Tree.locateAll (move.place start) (Tree.respellAll move.spell trees) =
        move.elements (Tree.locateAll start trees)
  | [], _ => rfl
  | tree :: trees, h => by
      obtain ⟨hfirst, hrest⟩ := fits_append.1 h
      rw [Tree.sum_leaves] at hrest
      rw [Tree.respellAll, Tree.locateAll, Tree.locateAll, elements, locate_respell hfirst,
        ← place_size hfirst, locateAll_respellAll hrest]

end

end Relocation

end Caret
