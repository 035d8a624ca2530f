import Caret.Proofs.Tree.Located

/-!
# Places and what is around them

The nodes around a place are those that have it below one of their children. A search goes through
a tree in the order of the text: of two places, one is below the other or in front of it. So two
places that have a byte in common lie on one way down from the root.
-/

namespace Caret

namespace Locus

variable {root locus child other ancestor : Locus}

/-! What stands around a place -/

theorem properAncestors_of_mem_children (hchild : child ∈ locus.children) :
    child.properAncestors = locus.ancestors := by
  rw [properAncestors, ancestors_of_mem_children hchild, List.tail_cons]

theorem properAncestors_of_parent {parent : Locus} (h : locus.parent = some parent) :
    locus.properAncestors = parent.ancestors := by
  obtain ⟨here, above⟩ := locus
  cases above with
  | nil => cases h
  | cons crumb above =>
      cases h
      rfl

theorem mem_ancestors (locus : Locus) : locus ∈ locus.ancestors := by
  obtain ⟨here, above⟩ := locus
  cases above <;> exact List.mem_cons_self

theorem parent_of_mem_children (hchild : child ∈ locus.children) :
    child.parent = some locus := by
  obtain ⟨-, habove⟩ := mem_children_iff.1 hchild
  rw [parent, habove]

theorem isNode_of_mem_children (hchild : child ∈ locus.children) : locus.isNode = true := by
  obtain ⟨hchildren, -⟩ := mem_children_iff.1 hchild
  unfold isNode Element.isNode
  cases helement : locus.element with
  | token kind span text => simp [helement, Element.children] at hchildren
  | node kind span children => rfl

/-- The parent of a place below a root is there, too. -/
theorem Under.of_parent {parent : Locus} (h : Under root locus) (hroot : root.IsRoot)
    (hparent : locus.parent = some parent) : Under root parent ∧ locus ∈ parent.children := by
  cases h with
  | root => simp [Locus.parent, hroot.1] at hparent
  | child h hchild =>
      obtain rfl := Option.some.inj ((parent_of_mem_children hchild).symm.trans hparent)
      exact ⟨h, hchild⟩

theorem mem_ancestors_of_parent {parent : Locus} (h : locus.parent = some parent) :
    parent ∈ locus.ancestors := by
  obtain ⟨here, above⟩ := locus
  cases above with
  | nil => cases h
  | cons crumb above =>
      cases h
      exact List.mem_cons_of_mem _ (mem_ancestors ⟨crumb, above⟩)

theorem isNode_eq_not (locus : Locus) : locus.isNode = !locus.isToken := rfl

theorem ancestors_eq_cons (locus : Locus) : locus.ancestors = locus :: locus.properAncestors := by
  obtain ⟨here, above⟩ := locus
  cases above <;> rfl

theorem ancestors_of_isRoot (h : root.IsRoot) : root.ancestors = [root] := by
  obtain ⟨here, above⟩ := root
  obtain rfl : above = [] := h.1
  rfl

/-- A place with another one below it. -/
def Around (locus other : Locus) : Prop := ∃ child ∈ locus.children, Under child other

theorem Around.under (h : Around locus other) : Under locus other := by
  obtain ⟨child, hchild, hunder⟩ := h
  exact (Under.child .root hchild).trans hunder

theorem Around.isNode (h : Around locus other) : locus.isNode = true := by
  obtain ⟨child, hchild, -⟩ := h
  exact isNode_of_mem_children hchild

theorem Around.of_mem_children (h : Around locus other) (hchild : child ∈ other.children) :
    Around locus child := by
  obtain ⟨first, hfirst, hunder⟩ := h
  exact ⟨first, hfirst, hunder.child hchild⟩

/-- What is below a place is the place itself or below one of its children. -/
theorem Under.eq_or_around (h : Under locus other) : locus = other ∨ Around locus other := by
  induction h with
  | root => exact .inl rfl
  | @child parent other _ hchild ih =>
      right
      rcases ih with rfl | haround
      · exact ⟨other, hchild, .root⟩
      · exact haround.of_mem_children hchild

/-- The nodes around a place are those that have it below them. -/
theorem Under.mem_properAncestors_iff (h : Under root locus) (hroot : root.IsRoot) :
    ancestor ∈ locus.properAncestors ↔ Under root ancestor ∧ Around ancestor locus := by
  constructor
  · intro hmem
    induction h with
    | root => simp [properAncestors, ancestors_of_isRoot hroot] at hmem
    | @child parent locus hparent hchild ih =>
        rw [properAncestors_of_mem_children hchild, ancestors_eq_cons] at hmem
        rcases List.mem_cons.1 hmem with rfl | hmem
        · exact ⟨hparent, locus, hchild, .root⟩
        · obtain ⟨hancestor, child, hin, hunder⟩ := ih hmem
          exact ⟨hancestor, child, hin, hunder.child hchild⟩
  · rintro ⟨-, child, hchild, hunder⟩
    clear h
    induction hunder with
    | root =>
        rw [properAncestors_of_mem_children hchild]
        exact mem_ancestors ancestor
    | child _ hbelow ih =>
        rw [properAncestors_of_mem_children hbelow, ancestors_eq_cons]
        exact List.mem_cons_of_mem _ ih

theorem Under.mem_ancestors_iff (h : Under root locus) (hroot : root.IsRoot) :
    ancestor ∈ locus.ancestors ↔ Under root ancestor ∧ Under ancestor locus := by
  rw [ancestors_eq_cons, List.mem_cons, h.mem_properAncestors_iff hroot]
  constructor
  · rintro (rfl | ⟨hancestor, haround⟩)
    · exact ⟨h, .root⟩
    · exact ⟨hancestor, haround.under⟩
  · rintro ⟨hancestor, hunder⟩
    rcases hunder.eq_or_around with heq | haround
    · exact .inl heq
    · exact .inr ⟨hancestor, haround⟩

/-- A place below another one has at least as many nodes around it. -/
theorem Under.length_le (h : Under root locus) : root.above.length ≤ locus.above.length := by
  induction h with
  | root => exact Nat.le_refl _
  | child _ hchild ih =>
      obtain ⟨-, habove⟩ := mem_children_iff.1 hchild
      rw [habove, List.length_cons]
      omega

theorem Around.length_lt (h : Around locus other) : locus.above.length < other.above.length := by
  obtain ⟨child, hchild, hunder⟩ := h
  obtain ⟨-, habove⟩ := mem_children_iff.1 hchild
  have hle := hunder.length_le
  rw [habove, List.length_cons] at hle
  omega

theorem Around.ne (h : Around locus other) : locus ≠ other := by
  rintro rfl
  exact absurd h.length_lt (Nat.lt_irrefl _)

theorem Under.antisymm (h : Under locus other) (hother : Under other locus) : locus = other := by
  rcases h.eq_or_around with heq | haround
  · exact heq
  · have := haround.length_lt
    have := hother.length_le
    omega

/-- What is above a child and is not the child is above its parent. -/
theorem Under.of_mem_children_of_ne {parent : Locus} (h : Under locus child)
    (hchild : child ∈ parent.children) (hne : locus ≠ child) : Under locus parent := by
  cases h with
  | root => exact absurd rfl hne
  | child hunder hchild' =>
      have hparent := parent_of_mem_children hchild
      rw [parent_of_mem_children hchild', Option.some.injEq] at hparent
      rwa [← hparent]

/-- Of the places around a place there is one at each depth. -/
theorem Under.eq_of_length {first second : Locus} (h : Under first locus)
    (hother : Under second locus) (hlength : first.above.length = second.above.length) :
    first = second := by
  induction h with
  | root =>
      rcases hother.eq_or_around with heq | haround
      · exact heq.symm
      · have := haround.length_lt
        omega
  | @child parent child hparent hchild ih =>
      rcases hother.eq_or_around with rfl | haround
      · have hle := hparent.length_le
        obtain ⟨-, habove⟩ := mem_children_iff.1 hchild
        rw [hlength, habove, List.length_cons] at hle
        omega
      · exact ih (hother.of_mem_children_of_ne hchild haround.ne)

theorem children_of_isToken (h : locus.isToken = true) : locus.children = [] := by
  unfold children
  cases helement : locus.element with
  | token kind span text => rfl
  | node kind span children => simp [isToken, helement, Element.isToken] at h

theorem Under.eq_of_isToken (h : Under root locus) (hroot : root.isToken = true) :
    root = locus := by
  rcases h.eq_or_around with heq | haround
  · exact heq
  · have hnode := haround.isNode
    rw [isNode_eq_not, hroot] at hnode
    cases hnode

/-! The order of children -/

theorem eq_of_length_left {other : Locus} (hchild : child ∈ locus.children)
    (hother : other ∈ locus.children)
    (hlength : child.here.left.length = other.here.left.length) : child = other := by
  obtain ⟨hchildren, habove⟩ := mem_children_iff.1 hchild
  obtain ⟨hchildren', habove'⟩ := mem_children_iff.1 hother
  obtain ⟨⟨element, left, right⟩, above⟩ := child
  obtain ⟨⟨element', left', right'⟩, above'⟩ := other
  have heq := hchildren.symm.trans hchildren'
  obtain ⟨hleft, hright⟩ := List.append_inj heq (by simpa using hlength)
  simp only [List.reverse_inj] at hleft
  simp only [List.cons.injEq] at hright
  obtain ⟨rfl, rfl⟩ := hright
  dsimp only at hleft habove habove'
  rw [hleft, habove, habove']
  rfl

/-- What is not the first child of a node comes behind it. -/
theorem Located.eq_or_stop_le_of_first (h : locus.Located) (hfirst : other ∈ locus.children)
    (hleft : other.here.left = []) (hchild : child ∈ locus.children) :
    child = other ∨ other.span.stop ≤ child.span.start := by
  have hpairwise := h.pairwise_children
  cases hchildren : locus.element.children with
  | nil => simp [children, hchildren, spread] at hfirst
  | cons element right =>
      have hcons : locus.children = ⟨⟨element, [], right⟩, locus.here :: locus.above⟩ ::
          spread (locus.here :: locus.above) [element] right := by
        rw [children, hchildren, spread]
      have hhead := eq_of_length_left (hcons ▸ List.mem_cons_self) hfirst (by simp [hleft])
      rw [hcons, hhead] at hpairwise hchild
      rcases List.mem_cons.1 hchild with heq | hmem
      · exact .inl heq
      · exact .inr ((List.pairwise_cons.1 hpairwise).1 child hmem)

/-! The order of a search -/

/-- A search comes to what is below a place right after it, and to what is behind it later. -/
theorem Located.pairwise_search (h : locus.Located) :
    (locus.search fun _ => true).Pairwise fun first second =>
      Around first second ∨ first.span.stop ≤ second.span.start := by
  induction locus using children_induction with
  | step locus ih =>
      rw [search_true, List.pairwise_cons, List.pairwise_flatMap]
      refine ⟨fun other hmem => .inl ?_, fun child hchild => ?_, ?_⟩
      · obtain ⟨child, hchild, hmem⟩ := List.mem_flatMap.1 hmem
        exact ⟨child, hchild, mem_search_true_iff.1 hmem⟩
      · exact ih child hchild (h.of_mem_children hchild).1
      · refine h.pairwise_children.imp_of_mem fun {left right} hleft hright hapart => ?_
        intro first hfirst second hsecond
        have hfirst' := Span.contains_iff.1 ((mem_search_true_iff.1 hfirst).contains
          (h.of_mem_children hleft).1)
        have hsecond' := Span.contains_iff.1 ((mem_search_true_iff.1 hsecond).contains
          (h.of_mem_children hright).1)
        right
        omega

/-- Of two places one is below the other or in front of it. -/
theorem Located.under_or_apart (h : root.Located) (hlocus : Under root locus)
    (hother : Under root other) :
    locus = other ∨ Around locus other ∨ Around other locus ∨
      locus.span.stop ≤ other.span.start ∨ other.span.stop ≤ locus.span.start := by
  obtain ⟨i, hi, rfl⟩ := List.mem_iff_getElem.1 (mem_search_true_iff.2 hlocus)
  obtain ⟨j, hj, rfl⟩ := List.mem_iff_getElem.1 (mem_search_true_iff.2 hother)
  have hpairwise := List.pairwise_iff_getElem.1 h.pairwise_search
  rcases Nat.lt_trichotomy i j with hlt | rfl | hlt
  · rcases hpairwise i j hi hj hlt with haround | hapart
    · exact .inr (.inl haround)
    · exact .inr (.inr (.inr (.inl hapart)))
  · exact .inl rfl
  · rcases hpairwise j i hj hi hlt with haround | hapart
    · exact .inr (.inr (.inl haround))
    · exact .inr (.inr (.inr (.inr hapart)))

theorem Located.start_le_stop (h : locus.Located) : locus.span.start ≤ locus.span.stop := by
  obtain ⟨tree, start, helement⟩ := h
  rw [Locus.span, helement, Tree.span_locate]
  exact Nat.le_add_right _ _

/-- A search around a byte inside a place, or at its end, comes to the places around it. -/
theorem Under.search_eq_reverse (h : Under root locus) (hroot : root.IsRoot)
    (hlocated : root.Located) {enter : Element → Bool} {offset : Nat}
    (henter : ∀ element, enter element = true ↔
      element.span.start < offset ∧ offset ≤ element.span.stop)
    (hstart : locus.span.start < offset) (hstop : offset ≤ locus.span.stop) :
    root.search enter = locus.properAncestors.reverse ++ locus.search enter := by
  induction h with
  | root =>
      rw [properAncestors, ancestors_of_isRoot hroot]
      rfl
  | @child locus child hunder hchild ih =>
      have hlocus := hunder.located hlocated
      have hcontains := Span.contains_iff.1 (hlocus.of_mem_children hchild).2.1
      rw [ih (by omega) (by omega), hlocus.search_across hchild henter hstart hstop,
        properAncestors_of_mem_children hchild, ancestors_eq_cons, List.reverse_cons,
        List.append_assoc]
      rfl

end Locus

end Caret
