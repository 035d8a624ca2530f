import Caret.View
import Mathlib.Data.List.Basic

/-!
# Places in a tree

A search lists a place and what is below it, and it may be read as going through all places and
keeping some whenever a place that is kept has its parents kept with it. In a tree that knows its
bytes the children of a node stand side by side, so the token that is found by going to the left
and down ends where the search for it began.
-/

namespace Caret

namespace Locus

variable {root locus child : Locus}

theorem mem_spread_iff {above : List Crumb} {left elements : List Element} :
    child ∈ spread above left elements ↔
      ∃ before, elements = before ++ child.element :: child.here.right ∧
        child.here.left = before.reverse ++ left ∧ child.above = above := by
  induction elements generalizing left with
  | nil => simp [spread]
  | cons element right ih =>
      rw [spread, List.mem_cons, ih]
      constructor
      · rintro (rfl | ⟨before, rfl, hleft, habove⟩)
        · exact ⟨[], rfl, rfl, rfl⟩
        · exact ⟨element :: before, rfl, by simp [hleft], habove⟩
      · rintro ⟨before, helements, hleft, rfl⟩
        cases before with
        | nil =>
            obtain ⟨⟨_, _, _⟩, _⟩ := child
            simp only [List.nil_append, List.cons.injEq, Locus.element] at helements
            obtain ⟨rfl, rfl⟩ := helements
            exact .inl (by simpa using hleft)
        | cons first before =>
            simp only [List.cons_append, List.cons.injEq] at helements
            obtain ⟨rfl, rfl⟩ := helements
            exact .inr ⟨before, rfl, by simp [hleft], rfl⟩

/-- A child knows its siblings and its way up. -/
theorem mem_children_iff :
    child ∈ locus.children ↔
      locus.element.children = child.here.left.reverse ++ child.element :: child.here.right ∧
        child.above = locus.here :: locus.above := by
  rw [children, mem_spread_iff]
  constructor
  · rintro ⟨before, helements, hleft, habove⟩
    rw [List.append_nil] at hleft
    exact ⟨by rw [hleft, List.reverse_reverse, helements], habove⟩
  · rintro ⟨helements, habove⟩
    exact ⟨child.here.left.reverse, helements, by simp, habove⟩

theorem searchAll_eq_flatMap (enter : Element → Bool) (left : List Element) (above : List Crumb)
    (elements : List Element) :
    Element.searchAll enter left above elements =
      (spread above left elements).flatMap fun child => child.search enter := by
  induction elements generalizing left with
  | nil => simp [Element.searchAll, spread]
  | cons element right ih =>
      rw [Element.searchAll, spread, List.flatMap_cons, ih]
      rfl

/-- A search goes to a place first and then to its children. -/
theorem search_eq (enter : Element → Bool) (locus : Locus) :
    locus.search enter =
      if enter locus.element then
        locus :: locus.children.flatMap fun child => child.search enter
      else [] := by
  obtain ⟨⟨element, left, right⟩, above⟩ := locus
  cases element with
  | token kind span text =>
      simp only [search, element, Element.search, children, Element.children, spread,
        List.flatMap_nil]
  | node kind span elements =>
      simp only [search, element, Element.search, children, Element.children,
        searchAll_eq_flatMap]
      rfl

/-- A place at or below another one. -/
inductive Under (root : Locus) : Locus → Prop where
  | root : Under root root
  | child {locus child : Locus} : Under root locus → child ∈ locus.children → Under root child

theorem Under.trans (h : Under root locus) {below : Locus} (hbelow : Under locus below) :
    Under root below := by
  induction hbelow with
  | root => exact h
  | child _ hmem ih => exact .child ih hmem

/-- Going through the children of a place, and of each of them in turn, comes to an end. -/
theorem children_induction {motive : Locus → Prop}
    (step : ∀ locus : Locus, (∀ child ∈ locus.children, motive child) → motive locus)
    (locus : Locus) : motive locus := by
  induction hsize : sizeOf locus.element using Nat.strongRecOn generalizing locus with
  | ind size ih =>
      refine step locus fun child hmem => ?_
      have hless := sizeOf_lt_of_mem_children hmem
      exact ih _ (by omega) child rfl

theorem search_true (locus : Locus) :
    locus.search (fun _ => true) =
      locus :: locus.children.flatMap fun child => child.search fun _ => true := by
  rw [search_eq]
  rfl

theorem mem_search_of_mem_children (hlocus : locus ∈ root.search fun _ => true)
    (hchild : child ∈ locus.children) : child ∈ root.search fun _ => true := by
  induction root using children_induction with
  | step root ih =>
      rw [search_true, List.mem_cons, List.mem_flatMap] at hlocus ⊢
      rcases hlocus with rfl | ⟨other, hother, hmem⟩
      · refine .inr ⟨child, hchild, ?_⟩
        rw [search_true]
        exact List.mem_cons_self
      · exact .inr ⟨other, hother, ih other hother hmem⟩

theorem mem_search_true_iff : locus ∈ root.search (fun _ => true) ↔ Under root locus := by
  constructor
  · induction root using children_induction with
    | step root ih =>
        rw [search_true, List.mem_cons, List.mem_flatMap]
        rintro (rfl | ⟨child, hchild, hmem⟩)
        · exact .root
        · exact (Under.child .root hchild).trans (ih child hchild hmem)
  · intro h
    induction h with
    | root =>
        rw [search_true]
        exact List.mem_cons_self
    | child _ hchild ih => exact mem_search_of_mem_children ih hchild

/-- The nodes at and below a place. -/
theorem mem_descendants_iff :
    locus ∈ root.descendants ↔ Under root locus ∧ locus.isNode = true := by
  rw [descendants, List.mem_filter, mem_search_true_iff]

/-- A search that enters the parent of each place that it would enter finds all such places. -/
theorem search_eq_filter {enter : Element → Bool}
    (hup : ∀ locus child, Under root locus → child ∈ locus.children →
      enter child.element = true → enter locus.element = true) :
    root.search enter = (root.search fun _ => true).filter fun locus => enter locus.element := by
  induction root using children_induction with
  | step root ih =>
      rw [search_eq, search_true]
      by_cases henter : enter root.element = true
      · rw [if_pos henter, List.filter_cons, if_pos henter, List.filter_flatMap]
        congr 1
        refine List.flatMap_congr fun child hchild => ?_
        exact ih child hchild fun locus below hlocus =>
          hup locus below ((Under.child .root hchild).trans hlocus)
      · have hnone : ∀ locus, Under root locus → enter locus.element ≠ true := by
          intro locus hlocus
          induction hlocus with
          | root => exact henter
          | child hlocus hchild ihlocus => exact fun h => ihlocus (hup _ _ hlocus hchild h)
        rw [if_neg henter, ← search_true]
        refine (List.filter_eq_nil_iff.2 fun locus hmem => ?_).symm
        exact hnone locus (mem_search_true_iff.1 hmem)

end Locus

end Caret
