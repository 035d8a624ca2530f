import Caret.Proofs.Tree.Search

/-!
# Trees that know their bytes

In a tree that is placed in a text, the children of a node cover the bytes of the node one after
the other. The token found by going to the left and down from a place therefore ends where the
place starts, if it is found at all.
-/

namespace Caret

theorem Span.contains_iff {outer inner : Span} :
    outer.contains inner = true ↔ outer.start ≤ inner.start ∧ inner.stop ≤ outer.stop := by
  simp [contains]

namespace Tree

theorem locateAll_append (start : Nat) (left right : List Tree) :
    locateAll start (left ++ right) =
      locateAll start left ++ locateAll (start + sizeAll left) right := by
  induction left generalizing start with
  | nil => simp [locateAll, sizeAll]
  | cons tree trees ih => simp [locateAll, sizeAll, ih, Nat.add_assoc]

/-- A part of a placed list is a part of the list, placed behind what comes before it. -/
theorem locateAll_eq_append {start : Nat} {trees : List Tree} {left right : List Element}
    (h : locateAll start trees = left ++ right) :
    ∃ before after, trees = before ++ after ∧ left = locateAll start before ∧
      right = locateAll (start + sizeAll before) after := by
  induction trees generalizing start left with
  | nil =>
      obtain ⟨rfl, rfl⟩ := List.append_eq_nil_iff.1 h.symm
      exact ⟨[], [], rfl, rfl, rfl⟩
  | cons tree trees ih =>
      cases left with
      | nil => exact ⟨[], tree :: trees, rfl, rfl, h.symm⟩
      | cons first left =>
          simp only [locateAll, List.cons_append, List.cons.injEq] at h
          obtain ⟨rfl, h⟩ := h
          obtain ⟨before, after, rfl, rfl, rfl⟩ := ih h
          exact ⟨tree :: before, after, rfl, rfl, by simp [sizeAll, Nat.add_assoc]⟩

theorem locateAll_eq_append_cons {start : Nat} {trees : List Tree} {left right : List Element}
    {element : Element} (h : locateAll start trees = left ++ element :: right) :
    ∃ before tree after, trees = before ++ tree :: after ∧ left = locateAll start before ∧
      element = tree.locate (start + sizeAll before) ∧
      right = locateAll (start + sizeAll before + tree.size) after := by
  obtain ⟨before, after, rfl, rfl, hafter⟩ := locateAll_eq_append h
  cases after with
  | nil => exact absurd hafter (by simp [locateAll])
  | cons tree after =>
      simp only [locateAll, List.cons.injEq] at hafter
      exact ⟨before, tree, after, rfl, rfl, hafter.1, hafter.2⟩

theorem children_locate (tree : Tree) (start : Nat) :
    ∃ trees, (tree.locate start).children = locateAll start trees ∧
      (trees ≠ [] → (tree.locate start).span = ⟨start, start + sizeAll trees⟩) := by
  cases tree with
  | leaf kind text => exact ⟨[], by simp [locate, Element.children, locateAll], by simp⟩
  | node kind trees =>
      exact ⟨trees, by simp [locate, Element.children], fun _ => by simp [locate, Element.span]⟩

end Tree

namespace Locus

variable {root locus child token : Locus}

/-- A place that holds a tree at its bytes. -/
def Located (locus : Locus) : Prop := ∃ tree start, locus.element = Tree.locate start tree

theorem located_root (tree : Tree) (start : Nat) : (Locus.root (tree.locate start)).Located :=
  ⟨tree, start, rfl⟩

/-- Where a child of a placed node is: at the start of the node or the end of its left sibling, and
at the end of the node if nothing follows. -/
theorem Located.of_mem_children (h : locus.Located) (hchild : child ∈ locus.children) :
    child.Located ∧ locus.span.contains child.span = true ∧
      (child.here.left = [] → child.span.start = locus.span.start) ∧
      (∀ sibling ∈ child.here.left.head?, sibling.span.stop = child.span.start) ∧
      (child.here.right = [] → child.span.stop = locus.span.stop) := by
  obtain ⟨tree, start, helement⟩ := h
  obtain ⟨hchildren, -⟩ := mem_children_iff.1 hchild
  obtain ⟨trees, htrees, hspan⟩ := tree.children_locate start
  rw [helement, htrees] at hchildren
  obtain ⟨before, inner, after, rfl, hleft, hinner, hright⟩ :=
    Tree.locateAll_eq_append_cons hchildren
  have hlocus : locus.span = ⟨start, start + Tree.sizeAll (before ++ inner :: after)⟩ := by
    rw [Locus.span, helement]
    exact hspan (by simp)
  have hself : child.span =
      ⟨start + Tree.sizeAll before, start + Tree.sizeAll before + inner.size⟩ := by
    rw [Locus.span, hinner, Tree.span_locate]
  rw [Tree.sizeAll_append, Tree.sizeAll] at hlocus
  refine ⟨⟨inner, _, hinner⟩, ?_, ?_, ?_, ?_⟩
  · rw [Span.contains_iff, hlocus, hself]
    constructor <;> dsimp only <;> omega
  · intro hnil
    rw [hnil] at hleft
    cases before with
    | nil => rw [hself, hlocus, Tree.sizeAll, Nat.add_zero]
    | cons first before => simp [Tree.locateAll] at hleft
  · intro sibling hsibling
    obtain ⟨left, hcons⟩ := List.head?_eq_some_iff.1 hsibling
    rw [hcons, List.reverse_cons] at hleft
    obtain ⟨first, last, rfl, -, hlast⟩ := Tree.locateAll_eq_append hleft.symm
    cases last with
    | nil => simp [Tree.locateAll] at hlast
    | cons last none =>
        simp only [Tree.locateAll, List.cons.injEq] at hlast
        obtain ⟨rfl, hnone⟩ := hlast
        cases none with
        | nil =>
            rw [hself, Tree.span_locate, Tree.sizeAll_append]
            simp [Tree.sizeAll, Nat.add_assoc]
        | cons => simp [Tree.locateAll] at hnone
  · intro hnil
    rw [hnil] at hright
    cases after with
    | nil =>
        rw [hself, hlocus]
        simp [Tree.sizeAll, Nat.add_assoc]
    | cons => simp [Tree.locateAll] at hright

theorem Under.located (h : Under root locus) (hroot : root.Located) : locus.Located := by
  induction h with
  | root => exact hroot
  | child _ hchild ih => exact (ih.of_mem_children hchild).1

/-- A place covers what is below it. -/
theorem Under.contains (h : Under root locus) (hroot : root.Located) :
    root.span.contains locus.span = true := by
  induction h with
  | root => exact Span.contains_iff.2 ⟨Nat.le_refl _, Nat.le_refl _⟩
  | child hunder hchild ih =>
      have hstep := ((hunder.located hroot).of_mem_children hchild).2.1
      rw [Span.contains_iff] at ih hstep ⊢
      omega

/-! Going to the left and down -/

theorem leftSibling_mem_children {sibling : Locus} (hchild : child ∈ locus.children)
    (h : child.leftSibling = some sibling) : sibling ∈ locus.children := by
  obtain ⟨hchildren, habove⟩ := mem_children_iff.1 hchild
  unfold leftSibling at h
  split at h
  · cases h
  · rename_i element left hleft
    cases h
    refine mem_children_iff.2 ⟨?_, habove⟩
    rw [hchildren, hleft, List.reverse_cons, List.append_assoc]
    rfl

theorem ancestors_of_mem_children (hchild : child ∈ locus.children) :
    child.ancestors = child :: locus.ancestors := by
  obtain ⟨-, habove⟩ := mem_children_iff.1 hchild
  obtain ⟨here, above⟩ := child
  obtain rfl : above = locus.here :: locus.above := habove
  rfl

/-- A root has nothing around it. -/
def IsRoot (root : Locus) : Prop := root.above = [] ∧ root.here.left = []

theorem isRoot_root (element : Element) : (Locus.root element).IsRoot := ⟨rfl, rfl⟩

theorem Under.leftSibling_ancestors (h : Under root locus) (hroot : root.IsRoot)
    (hlocated : root.Located) {sibling : Locus}
    (hsibling : locus.ancestors.findSome? leftSibling = some sibling) :
    Under root sibling ∧ sibling.span.stop = locus.span.start := by
  induction h with
  | root =>
      have hself : root.ancestors = [root] := by
        obtain ⟨here, above⟩ := root
        obtain rfl : above = [] := hroot.1
        rfl
      simp [hself, leftSibling, hroot.2] at hsibling
  | @child locus child hunder hchild ih =>
      have hlocus := hunder.located hlocated
      obtain ⟨-, -, hstart, hleft, -⟩ := hlocus.of_mem_children hchild
      rw [ancestors_of_mem_children hchild, List.findSome?_cons] at hsibling
      split at hsibling
      · rename_i found hfound
        cases hsibling
        refine ⟨.child hunder (leftSibling_mem_children hchild hfound), hleft _ ?_⟩
        unfold leftSibling at hfound
        split at hfound
        · cases hfound
        · rename_i hcons
          cases hfound
          rw [hcons]
          rfl
      · rename_i hnone
        have hnil : child.here.left = [] := by
          unfold leftSibling at hnone
          split at hnone
          · assumption
          · cases hnone
        obtain ⟨hunder', hstop⟩ := ih hsibling
        exact ⟨hunder', by rw [hstop, hstart hnil]⟩

theorem lastTokenOf_concat (left : List Element) (above : List Crumb) (before : List Element)
    (last : Element) :
    Element.lastTokenOf left above (before ++ [last]) =
      last.lastToken (before.reverse ++ left) [] above := by
  induction before generalizing left with
  | nil => rfl
  | cons first before ih =>
      have hcons : ∃ second rest, before ++ [last] = second :: rest := by
        cases before with
        | nil => exact ⟨last, [], rfl⟩
        | cons second rest => exact ⟨second, rest ++ [last], rfl⟩
      obtain ⟨second, rest, hrest⟩ := hcons
      rw [List.cons_append, hrest, Element.lastTokenOf, ← hrest, ih]
      simp

/-- The last token of a place is below it and ends with it. -/
theorem lastToken_eq_some (h : locus.lastToken = some token) (hlocated : locus.Located) :
    Under locus token ∧ token.isToken = true ∧ token.span.stop = locus.span.stop := by
  induction locus using children_induction with
  | step locus ih =>
      obtain ⟨⟨element, left, right⟩, above⟩ := locus
      cases element with
      | token kind span text =>
          obtain rfl : _ = token := Option.some.inj h
          exact ⟨.root, rfl, rfl⟩
      | node kind span elements =>
          rcases List.eq_nil_or_concat' elements with rfl | ⟨before, last, rfl⟩
          · cases h
          · have hmem : (⟨⟨last, before.reverse, []⟩, ⟨.node kind span (before ++ [last]), left,
                right⟩ :: above⟩ : Locus) ∈
                  (⟨⟨.node kind span (before ++ [last]), left, right⟩, above⟩ : Locus).children := by
              exact mem_children_iff.2 ⟨by simp [Locus.element, Element.children], rfl⟩
            have hlast : (⟨⟨last, before.reverse, []⟩, ⟨.node kind span (before ++ [last]), left,
                right⟩ :: above⟩ : Locus).lastToken = some token := by
              rw [← h]
              simp only [lastToken, Locus.element, Element.lastToken, lastTokenOf_concat,
                List.append_nil]
            obtain ⟨hchild, -, -, -, hstop⟩ := hlocated.of_mem_children hmem
            obtain ⟨hunder, htoken, hend⟩ := ih _ hmem hlast hchild
            exact ⟨(Under.child .root hmem).trans hunder, htoken, hend.trans (hstop rfl)⟩

/-- The first token of a place is below it. -/
theorem firstToken_eq_some (h : locus.firstToken = some token) :
    Under locus token ∧ token.isToken = true := by
  have hbelow : ∀ (left right : List Element) (above : List Crumb) (element : Element),
      element.firstToken left right above = some token →
        Under ⟨⟨element, left, right⟩, above⟩ token ∧ token.isToken = true := by
    intro left right above element hfirst
    fun_induction Element.firstToken left right above element with
    | case1 =>
        cases hfirst
        exact ⟨.root, rfl⟩
    | case2 => cases hfirst
    | case3 left right above kind span first rest ih =>
        obtain ⟨hunder, htoken⟩ := ih hfirst
        exact ⟨(Under.child .root List.mem_cons_self).trans hunder, htoken⟩
  exact hbelow _ _ _ _ h

/-- The token in front of a place ends where the place starts. -/
theorem Under.previousToken_eq_some (h : Under root locus) (hroot : root.IsRoot)
    (hlocated : root.Located) (htoken : locus.previousToken = some token) :
    Under root token ∧ token.isToken = true ∧ token.span.stop = locus.span.start := by
  obtain ⟨sibling, hsibling, hlast⟩ := Option.bind_eq_some_iff.1 htoken
  obtain ⟨hunder, hstop⟩ := h.leftSibling_ancestors hroot hlocated hsibling
  obtain ⟨hbelow, hkind, hend⟩ := lastToken_eq_some hlast (hunder.located hlocated)
  exact ⟨hunder.trans hbelow, hkind, hend.trans hstop⟩

/-! Searching across a byte -/

theorem map_element_spread (above : List Crumb) (left elements : List Element) :
    (spread above left elements).map element = elements := by
  induction elements generalizing left with
  | nil => rfl
  | cons first right ih => simp [spread, ih, element]

theorem pairwise_locateAll (trees : List Tree) (start : Nat) :
    (Tree.locateAll start trees).Pairwise (fun left right => left.span.stop ≤ right.span.start) ∧
      ∀ element ∈ Tree.locateAll start trees, start ≤ element.span.start := by
  induction trees generalizing start with
  | nil => exact ⟨.nil, by simp [Tree.locateAll]⟩
  | cons tree trees ih =>
      obtain ⟨hpairwise, hle⟩ := ih (start + tree.size)
      rw [Tree.locateAll]
      refine ⟨.cons (fun element hmem => ?_) hpairwise, fun element hmem => ?_⟩
      · rw [Tree.span_locate]
        exact hle element hmem
      · rcases List.mem_cons.1 hmem with rfl | hmem
        · simp [Tree.span_locate]
        · have := hle element hmem
          omega

/-- The children of a placed node lie side by side. -/
theorem Located.pairwise_children (h : locus.Located) :
    locus.children.Pairwise fun left right => left.span.stop ≤ right.span.start := by
  obtain ⟨tree, start, helement⟩ := h
  obtain ⟨trees, htrees, -⟩ := tree.children_locate start
  have hmap : locus.children.map element = Tree.locateAll start trees := by
    rw [children, map_element_spread, helement, htrees]
  have hpairwise := (pairwise_locateAll trees start).1
  rw [← hmap, List.pairwise_map] at hpairwise
  exact hpairwise

/-- Of places that lie side by side, two are the same or one is in front of the other. -/
theorem eq_or_apart_of_pairwise {loci : List Locus}
    (h : loci.Pairwise fun left right => left.span.stop ≤ right.span.start) {other : Locus}
    (hlocus : locus ∈ loci) (hother : other ∈ loci) :
    locus = other ∨ locus.span.stop ≤ other.span.start ∨ other.span.stop ≤ locus.span.start := by
  obtain ⟨i, hi, rfl⟩ := List.mem_iff_getElem.1 hlocus
  obtain ⟨j, hj, rfl⟩ := List.mem_iff_getElem.1 hother
  have hpairwise := List.pairwise_iff_getElem.1 h
  rcases Nat.lt_trichotomy i j with hlt | rfl | hlt
  · exact .inr (.inl (hpairwise i j hi hj hlt))
  · exact .inl rfl
  · exact .inr (.inr (hpairwise j i hj hi hlt))

/-- Around a byte inside a child, a search goes on to that child alone. -/
theorem Located.search_across (h : locus.Located) (hchild : child ∈ locus.children)
    {enter : Element → Bool} {offset : Nat}
    (henter : ∀ element, enter element = true ↔
      element.span.start < offset ∧ offset ≤ element.span.stop)
    (hstart : child.span.start < offset) (hstop : offset ≤ child.span.stop) :
    locus.search enter = locus :: child.search enter := by
  have hcontains := Span.contains_iff.1 (h.of_mem_children hchild).2.1
  have hself : enter locus.element = true := by
    refine (henter _).2 ?_
    change locus.span.start < offset ∧ offset ≤ locus.span.stop
    omega
  have hnone : ∀ other : Locus, other.span.stop ≤ child.span.start ∨
      child.span.stop ≤ other.span.start → other.search enter = [] := by
    intro other hapart
    rw [search_eq, if_neg]
    rw [henter]
    change ¬(other.span.start < offset ∧ offset ≤ other.span.stop)
    omega
  obtain ⟨before, after, hsplit⟩ := List.append_of_mem hchild
  have hpairwise := h.pairwise_children
  rw [hsplit, List.pairwise_append] at hpairwise
  obtain ⟨-, hafter, hbefore⟩ := hpairwise
  have hleft : before.flatMap (fun other => other.search enter) = [] :=
    List.flatMap_eq_nil_iff.2 fun other hmem =>
      hnone other (.inl (hbefore other hmem child List.mem_cons_self))
  have hright : after.flatMap (fun other => other.search enter) = [] :=
    List.flatMap_eq_nil_iff.2 fun other hmem =>
      hnone other (.inr ((List.pairwise_cons.1 hafter).1 other hmem))
  rw [search_eq, if_pos hself, hsplit, List.flatMap_append, List.flatMap_cons, hleft, hright]
  simp

/-- A search around a byte inside a place comes to the place last and goes on below it. -/
theorem Under.search_across (hunder : Under root locus) (hlocated : root.Located)
    {enter : Element → Bool} {offset : Nat}
    (henter : ∀ element, enter element = true ↔
      element.span.start < offset ∧ offset ≤ element.span.stop)
    (hstart : locus.span.start < offset) (hstop : offset ≤ locus.span.stop) :
    ∃ above, root.search enter = above ++ locus.search enter := by
  induction hunder with
  | root => exact ⟨[], rfl⟩
  | @child locus child hunder hchild ih =>
      have hlocus := hunder.located hlocated
      have hcontains := Span.contains_iff.1 (hlocus.of_mem_children hchild).2.1
      obtain ⟨above, habove⟩ := ih (by omega) (by omega)
      refine ⟨above ++ [locus], ?_⟩
      rw [habove, hlocus.search_across hchild henter hstart hstop, List.append_assoc]
      rfl

end Locus

end Caret
