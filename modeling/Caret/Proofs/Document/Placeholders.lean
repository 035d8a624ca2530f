import Caret.Proofs.Context.Expected
import Caret.Proofs.Document.Built
import Caret.Proofs.Rule.Beads

/-!
# Placeholders in a document

No trivia starts where a placeholder stands. A token after which an expression is expected has
something behind it in the same node, a token or a placeholder. So between such a token and a cursor
with nothing but trivia in front of it there is no placeholder.
-/

namespace Caret

namespace Locus

variable {root locus child other : Locus}

/-- A token or a placeholder. -/
def isBead (locus : Locus) : Bool := locus.isToken || locus.kind = .missing

/-- The tokens and placeholders at and below a place in the order of the text. -/
def beads (root : Locus) : List Locus := (root.search fun _ => true).filter isBead

theorem mem_beads_iff : locus ∈ root.beads ↔ Under root locus ∧ locus.isBead = true := by
  rw [beads, List.mem_filter, mem_search_true_iff]

/-- What is below a place is searched in one go. -/
theorem Under.exists_search_eq_append (h : Under root locus) :
    ∃ before after, root.search (fun _ => true) =
      before ++ (locus.search (fun _ => true) ++ after) := by
  induction h with
  | root => exact ⟨[], [], by simp⟩
  | @child parent child _ hchild ih =>
      obtain ⟨before, after, hsplit⟩ := ih
      obtain ⟨left, right, hchildren⟩ := List.append_of_mem hchild
      refine ⟨before ++ parent :: left.flatMap fun child => child.search fun _ => true,
        (right.flatMap fun child => child.search fun _ => true) ++ after, ?_⟩
      rw [hsplit, search_true parent, hchildren]
      simp

end Locus

namespace Tree

/-- The byte at an offset belongs to one of the trees that are placed around it. -/
theorem exists_split_of_lt {trees : List Tree} {start offset : Nat} (hstart : start ≤ offset)
    (hstop : offset < start + sizeAll trees) :
    ∃ before tree after, trees = before ++ tree :: after ∧ start + sizeAll before ≤ offset ∧
      offset < start + sizeAll before + tree.size := by
  induction trees generalizing start with
  | nil =>
      rw [sizeAll] at hstop
      omega
  | cons first trees ih =>
      rw [sizeAll, ← Nat.add_assoc] at hstop
      rcases Nat.lt_or_ge offset (start + first.size) with hlt | hge
      · exact ⟨[], first, trees, rfl, by rwa [sizeAll, Nat.add_zero], by rwa [sizeAll, Nat.add_zero]⟩
      · obtain ⟨before, tree, after, rfl, hle, hlt⟩ := ih hge hstop
        refine ⟨first :: before, tree, after, rfl, ?_, ?_⟩ <;> rw [sizeAll, ← Nat.add_assoc] <;>
          assumption

mutual

theorem map_kind_beads (tree : Tree) (start : Nat) (left right : List Element)
    (above : List Crumb) :
    (((tree.locate start).search (fun _ => true) left right above).filter Locus.isBead).map
      Locus.kind = tree.beads := by
  cases tree with
  | leaf kind text => rfl
  | node kind children =>
      have hrest := map_kind_beadsAll children start []
        (⟨.node kind ⟨start, start + sizeAll children⟩ (locateAll start children), left, right⟩ ::
          above)
      rw [locate, Element.search, if_pos rfl, beads, ← hrest]
      by_cases hkind : kind = .missing
      · subst hkind
        rfl
      · rw [if_neg hkind, List.filter_cons, if_neg]
        · rfl
        · simp [Locus.isBead, Locus.isToken, Locus.kind, Locus.element, Element.isToken,
            Element.kind, hkind]

theorem map_kind_beadsAll (trees : List Tree) (start : Nat) (left : List Element)
    (above : List Crumb) :
    ((Element.searchAll (fun _ => true) left above (locateAll start trees)).filter
      Locus.isBead).map Locus.kind = beadsAll trees := by
  cases trees with
  | nil => rfl
  | cons tree trees =>
      rw [locateAll, Element.searchAll, List.filter_append, List.map_append,
        map_kind_beads tree start _ _ above, map_kind_beadsAll trees _ _ above, beadsAll]

end

end Tree

namespace Locus

variable {locus : Locus}

/-- The byte at an offset belongs to a token. -/
theorem Located.exists_token_across {offset : Nat} (h : locus.Located)
    (hstart : locus.span.start ≤ offset) (hstop : offset < locus.span.stop) :
    ∃ token, Under locus token ∧ token.isToken = true ∧ token.span.start ≤ offset ∧
      offset < token.span.stop := by
  induction locus using children_induction with
  | step locus ih =>
      obtain ⟨tree, start, helement⟩ := h
      cases tree with
      | leaf kind text => exact ⟨locus, .root, (isToken_of_element helement).1, hstart, hstop⟩
      | node kind trees =>
          rw [Locus.span, helement, Tree.span_locate] at hstart hstop
          obtain ⟨before, tree, after, rfl, hle, hlt⟩ := Tree.exists_split_of_lt hstart hstop
          obtain ⟨child, hchild, hinner, -⟩ := exists_child_of_split _ helement
          have hspan : child.span = ⟨start + Tree.sizeAll before,
              start + Tree.sizeAll before + tree.size⟩ := by
            rw [Locus.span, hinner, Tree.span_locate]
          obtain ⟨token, hunder, hacross⟩ := ih child hchild ⟨tree, _, hinner⟩
            (by rw [hspan]; exact hle) (by rw [hspan]; exact hlt)
          exact ⟨token, (Under.child .root hchild).trans hunder, hacross⟩

end Locus

namespace Document

variable {text : String} {node missing leaf last : Locus} {offset : Nat} {replacement : Span}

/-- No token is a placeholder. -/
theorem isNode_of_missing (h : Locus.Under (locus text) node) (hkind : node.kind = .missing) :
    node.isNode = true := by
  by_contra hnode
  rw [Locus.isNode_eq_not, Bool.not_eq_true, Bool.not_eq_false'] at hnode
  obtain ⟨token, htoken, hbecomes, -, -⟩ := exists_token (Locus.mem_leaves_iff.2 ⟨h, hnode⟩)
  rw [hkind] at hbecomes
  have hmissing := hbecomes.eq_of_not_isWord hbecomes.isWord_eq.symm
  have hcut := isCut_of_mem_cutTokens htoken
  rw [← hmissing] at hcut
  cases hcut

/-- A placeholder takes no bytes. -/
theorem stop_of_missing (h : Locus.Under (locus text) node) (hkind : node.kind = .missing) :
    node.span.stop = node.span.start := by
  have hnode := isNode_of_missing h hkind
  have hchildren := children_of_missing h hnode hkind
  obtain ⟨tree, start, helement⟩ := h.located (located_locus text)
  cases tree with
  | leaf kind text =>
      simp [Locus.isNode, helement, Tree.locate, Element.isNode, Element.isToken] at hnode
  | node kind trees =>
      cases trees with
      | nil => simp [Locus.span, helement, Tree.locate, Element.span, Tree.sizeAll]
      | cons tree trees =>
          simp [Locus.children, helement, Tree.locate, Element.children, Tree.locateAll,
            Locus.spread] at hchildren

theorem children_of_isBead (h : Locus.Under (locus text) node) (hbead : node.isBead = true) :
    node.children = [] := by
  rw [Locus.isBead, Bool.or_eq_true, decide_eq_true_eq] at hbead
  rcases hbead with htoken | hkind
  · exact Locus.children_of_isToken htoken
  · exact children_of_missing h (isNode_of_missing h hkind) hkind

/-- Nothing is below a token or a placeholder. -/
theorem not_around_of_isBead (h : Locus.Under (locus text) node) (hbead : node.isBead = true)
    (other : Locus) : ¬node.Around other := by
  rintro ⟨child, hchild, -⟩
  rw [children_of_isBead h hbead] at hchild
  cases hchild

theorem pairwise_beads (text : String) :
    (locus text).beads.Pairwise fun first second => first.span.stop ≤ second.span.start := by
  have hpairwise := (located_locus text).pairwise_search.filter Locus.isBead
  refine hpairwise.imp_of_mem fun {first second} hfirst _ horder => ?_
  obtain ⟨hunder, hbead⟩ := Locus.mem_beads_iff.1 hfirst
  exact horder.resolve_left (not_around_of_isBead hunder hbead second)

theorem tight_beads (text : String) : Tight ((locus text).beads.map Locus.kind) := by
  obtain ⟨trees, rest, hparse, hderives, -⟩ := exists_trees_parse text
  have hbeads : (locus text).beads.map Locus.kind = (parse text).tree.beads :=
    Tree.map_kind_beads (parse text).tree 0 [] [] []
  have htight := hderives.tightBefore (sound_input text) (⟨.nil, by simp⟩ : Rule.TightBefore ([] ++ _) _)
  rw [hbeads, hparse]
  exact htight.1

/-- No trivia starts where a placeholder stands. -/
theorem not_isTrivia_of_missing (h : Locus.Under (locus text) missing)
    (hkind : missing.kind = .missing) (hleaf : leaf ∈ (locus text).leaves)
    (hstart : leaf.span.start = missing.span.start) : leaf.kind.isTrivia = false := by
  have hbead : missing ∈ (locus text).beads :=
    Locus.mem_beads_iff.2 ⟨h, by simp [Locus.isBead, hkind]⟩
  obtain ⟨hunder, htoken⟩ := Locus.mem_leaves_iff.1 hleaf
  have hbead' : leaf ∈ (locus text).beads :=
    Locus.mem_beads_iff.2 ⟨hunder, by simp [Locus.isBead, htoken]⟩
  have hsize := start_lt_stop hleaf
  have hempty := stop_of_missing h hkind
  have hpairwise := List.pairwise_iff_getElem.1 (pairwise_beads text)
  have htight := List.isChain_iff_getElem.1 (tight_beads text)
  obtain ⟨i, hi, rfl⟩ := List.mem_iff_getElem.1 hbead
  obtain ⟨j, hj, rfl⟩ := List.mem_iff_getElem.1 hbead'
  have hlt : i < j := by
    rcases Nat.lt_trichotomy i j with hlt | rfl | hlt
    · exact hlt
    · omega
    · have := hpairwise j i hj hi hlt
      omega
  -- What stands in between takes no bytes, so the leaf comes right behind a placeholder.
  obtain ⟨k, rfl⟩ : ∃ k, j = k + 1 := ⟨j - 1, by omega⟩
  have hk : k < (locus text).beads.length := by omega
  have hbefore : ((locus text).beads[k]).kind = .missing := by
    rcases Nat.eq_or_lt_of_le (Nat.le_of_lt_succ hlt) with rfl | hik
    · exact hkind
    · obtain ⟨hunder', hbead'⟩ := Locus.mem_beads_iff.1 (List.getElem_mem hk)
      have hleft := hpairwise i k hi hk hik
      have hright := hpairwise k (k + 1) hk hj (Nat.lt_succ_self k)
      rw [Locus.isBead, Bool.or_eq_true, decide_eq_true_eq] at hbead'
      refine hbead'.resolve_left fun htoken' => ?_
      have := start_lt_stop (Locus.mem_leaves_iff.2 ⟨hunder', htoken'⟩)
      omega
  have hstep := htight k (by simpa using hj)
  rw [List.getElem_map, List.getElem_map] at hstep
  exact hstep hbefore

/-! What is behind a token that invites an expression -/

theorem kind_ne_root (h : (locus text).Around node) (hnode : node.isNode = true) :
    node.kind ≠ .root := by
  obtain ⟨top, htop, hunder⟩ := h
  rcases (built_of_under htop hunder).missing_or_fits hnode with ⟨hmissing, -⟩ |
    ⟨trees, start, -, hfits, -⟩
  · rw [hmissing]
    decide
  · exact hfits.isNode.2.1

/-- Each node below the root holds a token that is no trivia, or a placeholder. -/
theorem exists_bead (h : (locus text).Around node) (hnode : node.isNode = true) :
    ∃ bead ∈ (locus text).beads, Locus.Under node bead ∧ bead.kind.isTrivia = false := by
  induction node using Locus.children_induction with
  | step node ih =>
      by_cases hmissing : node.kind = .missing
      · refine ⟨node, Locus.mem_beads_iff.2 ⟨h.under, by simp [Locus.isBead, hmissing]⟩, .root, ?_⟩
        rw [hmissing]
        rfl
      · obtain ⟨trees, start, helement, hfits⟩ :=
          exists_fits h.under hnode ⟨kind_ne_root h hnode, hmissing⟩
        obtain ⟨before, last, rfl, hcloses⟩ := hfits.ends
        obtain ⟨child, hchild, hinner, -⟩ := Locus.exists_child_of_split _ helement
        cases last with
        | leaf kind text =>
            obtain ⟨htoken, hleaf, -⟩ := Locus.isToken_of_element hinner
            refine ⟨child, Locus.mem_beads_iff.2
              ⟨h.under.child hchild, by simp [Locus.isBead, htoken]⟩, .child .root hchild, ?_⟩
            rw [hleaf]
            exact hcloses.1
        | node kind children =>
            obtain ⟨bead, hbead, hunder, htrivia⟩ := ih child hchild (h.of_mem_children hchild)
              (Locus.isNode_of_element hinner).1
            exact ⟨bead, hbead, (Locus.Under.child .root hchild).trans hunder, htrivia⟩

/-- Behind a token that invites an expression there is a token or a placeholder in the same node. -/
theorem exists_bead_behind (h : (locus text).Around node) (hlast : last ∈ node.children)
    (htoken : last.isToken = true) (hinvites : last.leaf.invites = true) :
    ∃ bead ∈ (locus text).beads, Locus.Under node bead ∧ bead.kind.isTrivia = false ∧
      last.span.stop ≤ bead.span.start := by
  have hnode := Locus.isNode_of_mem_children hlast
  have hmissing : node.kind ≠ .missing := by
    intro hkind
    rw [children_of_missing h.under hnode hkind] at hlast
    cases hlast
  obtain ⟨trees, start, helement, hfits⟩ :=
    exists_fits h.under hnode ⟨kind_ne_root h hnode, hmissing⟩
  obtain ⟨before, closing, rfl, hcloses⟩ := hfits.ends
  obtain ⟨child, hchild, hinner, -, hright⟩ := Locus.exists_child_of_split _ helement
  have hleaf : last.leaf = ⟨node.kind, last.kind, last.text⟩ := by
    rw [← home_of_parent (Locus.parent_of_mem_children hlast)]
    rfl
  have hlocated := h.under.located (located_locus text)
  have hsize := start_lt_stop (Locus.mem_leaves_iff.2 ⟨h.under.child hlast, htoken⟩)
  have hbehind : last ≠ child → last.span.stop ≤ child.span.start := by
    intro hne
    rcases Locus.eq_or_apart_of_pairwise hlocated.pairwise_children hlast hchild with heq | hlt | hlt
    · exact absurd heq hne
    · exact hlt
    · have hend := (hlocated.of_mem_children hchild).2.2.2.2 (hright rfl)
      have hcontains := Span.contains_iff.1 (hlocated.of_mem_children hlast).2.1
      omega
  cases closing with
  | leaf kind text =>
      obtain ⟨htoken', hkind, htext⟩ := Locus.isToken_of_element hinner
      refine ⟨child, Locus.mem_beads_iff.2
        ⟨h.under.child hchild, by simp [Locus.isBead, htoken']⟩, .child .root hchild, ?_, ?_⟩
      · rw [hkind]
        exact hcloses.1
      · refine hbehind fun heq => ?_
        have hquiet := hcloses.2
        rw [← hkind, ← htext, ← heq, ← hleaf, hinvites] at hquiet
        cases hquiet
  | node kind children =>
      have hnode' := (Locus.isNode_of_element hinner).1
      obtain ⟨bead, hbead, hunder, htrivia⟩ := exists_bead (h.of_mem_children hchild) hnode'
      refine ⟨bead, hbead, (Locus.Under.child .root hchild).trans hunder, htrivia, ?_⟩
      have hne : last ≠ child := by
        rintro rfl
        rw [Locus.isNode_eq_not, htoken] at hnode'
        cases hnode'
      have hstart := Span.contains_iff.1
        (hunder.contains (hlocated.of_mem_children hchild).1)
      have := hbehind hne
      omega

/-- With nothing but trivia up to the bytes that are replaced, no token or placeholder comes
before them. -/
theorem Awaits.le_start (h : Awaits text offset replacement last) {bead : Locus}
    (hbead : bead ∈ (locus text).beads) (htrivia : bead.kind.isTrivia = false)
    (hbehind : last.span.stop ≤ bead.span.start) : replacement.start ≤ bead.span.start := by
  by_contra hlt
  rw [Nat.not_le] at hlt
  obtain ⟨hunder, hsort⟩ := Locus.mem_beads_iff.1 hbead
  rw [Locus.isBead, Bool.or_eq_true, decide_eq_true_eq] at hsort
  rcases hsort with htoken | hkind
  · have := h.between bead (Locus.mem_leaves_iff.2 ⟨hunder, htoken⟩) hbehind hlt
    rw [htrivia] at this
    cases this
  · obtain ⟨front, hfront, -, hstop⟩ := h.front
    have hcontains := Span.contains_iff.1
      ((Locus.mem_leaves_iff.1 hfront).1.contains (located_locus text))
    have hroot := Span.contains_iff.1 (hunder.contains (located_locus text))
    obtain ⟨token, hunder', htoken, hle, hacross⟩ :=
      (located_locus text).exists_token_across hroot.1 (by omega : bead.span.start < _)
    have hleaf : token ∈ (locus text).leaves := Locus.mem_leaves_iff.2 ⟨hunder', htoken⟩
    have hbead' : token ∈ (locus text).beads :=
      Locus.mem_beads_iff.2 ⟨hunder', by simp [Locus.isBead, htoken]⟩
    have hempty := stop_of_missing hunder hkind
    have hstart : token.span.start = bead.span.start := by
      rcases Locus.eq_or_apart_of_pairwise (pairwise_beads text) hbead hbead' with rfl | hapart | hapart
      · rfl
      · omega
      · omega
    have hquiet := not_isTrivia_of_missing hunder hkind hleaf hstart
    rw [h.between token hleaf (by omega) (by omega)] at hquiet
    cases hquiet

end Document

end Caret
