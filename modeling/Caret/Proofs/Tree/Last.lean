import Caret.Proofs.Tree.Order

/-!
# The last token of a place

The token in front of a place is the last one of a neighbour. A node whose last child is empty has
no last token, so nothing behind it finds a token in front.
-/

namespace Caret

namespace Locus

variable {root locus child other token : Locus}

/-- Of two places above a third one, one is above the other. -/
theorem Under.comparable {first second : Locus} (h : Under first locus)
    (hother : Under second locus) : Under first second ∨ Under second first := by
  induction h with
  | root => exact .inr hother
  | @child parent child hparent hchild ih =>
      rcases hother.eq_or_around with rfl | haround
      · exact .inl (hparent.child hchild)
      · exact ih (hother.of_mem_children_of_ne hchild haround.ne)

theorem exists_last_child (hchild : child ∈ locus.children) :
    ∃ last ∈ locus.children, last.here.right = [] := by
  obtain ⟨hchildren, -⟩ := mem_children_iff.1 hchild
  rcases List.eq_nil_or_concat' locus.element.children with hnil | ⟨before, last, hlast⟩
  · rw [hnil] at hchildren
    simp at hchildren
  · exact ⟨⟨⟨last, before.reverse, []⟩, locus.here :: locus.above⟩,
      mem_children_iff.2 ⟨by simpa [element] using hlast, rfl⟩, rfl⟩

theorem right_of_children_eq {before : List Locus} (h : locus.children = before ++ [child]) :
    child.here.right = [] := by
  have hspread : ∀ (above : List Crumb) (left elements : List Element) (before : List Locus),
      spread above left elements = before ++ [child] → child.here.right = [] := by
    intro above left elements
    induction elements generalizing left with
    | nil => intro before h; simp [spread] at h
    | cons element right ih =>
        intro before h
        rw [spread] at h
        cases before with
        | nil =>
            obtain ⟨rfl, hnil⟩ := List.cons.inj h
            cases right with
            | nil => rfl
            | cons first rest => simp [spread] at hnil
        | cons first before => exact ih _ before (List.cons.inj h).2
  exact hspread _ _ _ before h

/-- The last token of a node is that of its last child. -/
theorem lastToken_of_right_eq_nil (hchild : child ∈ locus.children)
    (hright : child.here.right = []) : locus.lastToken = child.lastToken := by
  obtain ⟨hchildren, habove⟩ := mem_children_iff.1 hchild
  obtain ⟨⟨element, left, right⟩, above⟩ := locus
  obtain ⟨⟨last, before, after⟩, crumbs⟩ := child
  obtain rfl : after = [] := hright
  obtain rfl : crumbs = ⟨element, left, right⟩ :: above := habove
  cases element with
  | token kind span text => simp [Locus.element, Element.children] at hchildren
  | node kind span elements =>
      obtain rfl : elements = before.reverse ++ [last] := hchildren
      simp only [lastToken, Locus.element, Element.lastToken, lastTokenOf_concat,
        List.reverse_reverse, List.append_nil]

theorem lastToken_of_isToken (h : locus.isToken = true) : locus.lastToken = some locus := by
  obtain ⟨⟨element, left, right⟩, above⟩ := locus
  cases element with
  | token kind span text => rfl
  | node kind span elements => cases h

theorem lastToken_of_children_eq_nil (hnode : locus.isNode = true) (h : locus.children = []) :
    locus.lastToken = none := by
  obtain ⟨⟨element, left, right⟩, above⟩ := locus
  cases element with
  | token kind span text => cases hnode
  | node kind span elements =>
      cases elements with
      | nil => rfl
      | cons first rest => cases h

/-- The last token of a place is the last one of each place between the two. -/
theorem lastToken_of_under (hlocated : locus.Located) (h : locus.lastToken = some token)
    (hother : Under locus other) (htoken : Under other token) : other.lastToken = some token := by
  induction locus using children_induction with
  | step locus ih =>
      rcases hother.eq_or_around with rfl | ⟨child, hchild, hbelow⟩
      · exact h
      · obtain ⟨last, hlast, hright⟩ := exists_last_child hchild
        rw [lastToken_of_right_eq_nil hlast hright] at h
        have hlocated' := (hlocated.of_mem_children hlast).1
        have hunder := (lastToken_eq_some h hlocated').1
        have hsame : last = child := hunder.eq_of_length (hbelow.trans htoken) (by
          rw [(mem_children_iff.1 hlast).2, (mem_children_iff.1 hchild).2])
        exact ih last hlast hlocated' h (hsame ▸ hbelow)

/-- A node is left to its right through its last token alone. -/
theorem lastToken_of_previousToken (hroot : root.IsRoot) (hlocated : root.Located)
    (hlocus : Under root locus) (h : locus.previousToken = some token)
    (htoken : Under other token) (hapart : ¬Under other locus) : other.lastToken = some token := by
  obtain ⟨sibling, hsibling, hlast⟩ := Option.bind_eq_some_iff.1 h
  obtain ⟨ancestor, hmem, hleft⟩ := List.exists_of_findSome?_eq_some hsibling
  obtain ⟨hancestor, hbelow⟩ := (hlocus.mem_ancestors_iff hroot).1 hmem
  cases hancestor with
  | root => simp [leftSibling, hroot.2] at hleft
  | child hparent hchild =>
      have hsibling' := leftSibling_mem_children hchild hleft
      have hlocated' := (hparent.child hsibling').located hlocated
      have hunder := (lastToken_eq_some hlast hlocated').1
      rcases hunder.comparable htoken with hin | hout
      · exact lastToken_of_under hlocated' hlast hin htoken
      · rcases hout.eq_or_around with rfl | haround
        · exact hlast
        · have habove := hout.of_mem_children_of_ne hsibling' haround.ne
          exact absurd ((habove.child hchild).trans hbelow) hapart

end Locus

end Caret
