import Caret.Proofs.Document.Built
import Caret.Proofs.Rule.Rests
import Caret.Proofs.Tree.Last

/-!
# What stands in front of a line

A newline right below the root ends what was written in front of it. The way back from there leads to
the last token of a child of the root, and neither that token nor a node around it is one that
something has to come after.
-/

namespace Caret

namespace Locus

variable {locus other last : Locus} {tree : Tree} {home : Kind} {start : Nat}

/-- Nothing on the way down to the last token asks for something behind it. -/
theorem dangles_of_rests (h : tree.Rests home) (helement : locus.element = tree.locate start)
    (hlocated : locus.Located) (hlast : locus.lastToken = some last) (hunder : Under locus other)
    (hbelow : Under other last) :
    other = locus ∨ ∃ parent, other.parent = some parent ∧
      parent.kind.dangles other.kind = false := by
  induction h generalizing locus start with
  | leaf text h => exact .inl (hunder.eq_of_isToken (isToken_of_element helement).1).symm
  | missing home =>
      have hnone : locus.lastToken = none := by
        refine lastToken_of_children_eq_nil (isNode_of_element helement).1 ?_
        simp [children, helement, Tree.locate, Element.children, Tree.locateAll, spread]
      rw [hnone] at hlast
      cases hlast
  | @node home kind before tree hkind hrests ih =>
      obtain ⟨child, hchild, hinner, -, hright⟩ := exists_child_of_split before helement
      rw [lastToken_of_right_eq_nil hchild (hright rfl)] at hlast
      have hlocated' := (hlocated.of_mem_children hchild).1
      rcases hunder.eq_or_around with rfl | ⟨first, hfirst, hfirst'⟩
      · exact .inl rfl
      · have hsame : first = child := by
          refine (hfirst'.trans hbelow).eq_of_length (lastToken_eq_some hlast hlocated').1 ?_
          rw [(mem_children_iff.1 hfirst).2, (mem_children_iff.1 hchild).2]
        subst hsame
        right
        rcases ih hinner hlocated' hlast hfirst' with rfl | hres
        · refine ⟨locus, parent_of_mem_children hchild, ?_⟩
          rw [(isNode_of_element helement).2, Locus.kind, hinner, Tree.kind_locate]
          exact hrests.dangles_eq_false
        · exact hres

end Locus

namespace Document

variable {text : String} {top token last other parent : Locus}

/-- A node right below the root is one that can be the last one. -/
theorem exists_rests (htop : top ∈ (locus text).children) (hnode : top.isNode = true) :
    ∃ tree start, top.element = Tree.locate start tree ∧ tree.Rests .root := by
  have hparse : (parse text).tree = .node .root (Rule.loop Rule.documentStep (input text)).trees :=
    rfl
  obtain ⟨before, tree, after, hsplit, htree, -⟩ :=
    Locus.exists_split_of_mem_children (element_locus hparse) htop
  have hrest := Rule.restAtTop_document (input text) tree (by rw [hsplit]; simp)
  rcases hrest with ⟨kind, leaf, rfl⟩ | hrests
  · rw [Locus.isNode_eq_not, (Locus.isToken_of_element htree).1] at hnode
    cases hnode
  · exact ⟨tree, _, htree, hrests⟩

theorem dangles_root (kind : Kind) : Kind.dangles .root kind = decide (kind = .newline) := by
  cases kind <;> rfl

/-- Neither the last token of what stands below the root nor a node around it asks for more. -/
theorem dangles_of_lastToken (htop : top ∈ (locus text).children)
    (hlast : top.lastToken = some last) (hline : top.isToken = true → last.kind ≠ .newline)
    (hunder : Locus.Under (locus text) other) (hbelow : Locus.Under other last)
    (hparent : other.parent = some parent) : parent.kind.dangles other.kind = false := by
  have hlocated := ((located_locus text).of_mem_children htop).1
  have hroot : top.parent = some (locus text) := Locus.parent_of_mem_children htop
  rcases hunder.eq_or_around with rfl | ⟨top', htop', hunder'⟩
  · cases hparent
  · have hsame : top' = top := by
      refine (hunder'.trans hbelow).eq_of_length (Locus.lastToken_eq_some hlast hlocated).1 ?_
      rw [(Locus.mem_children_iff.1 htop').2, (Locus.mem_children_iff.1 htop).2]
    subst hsame
    cases hnode : top'.isNode with
    | true =>
        obtain ⟨tree, start, helement, hrests⟩ := exists_rests htop hnode
        rcases Locus.dangles_of_rests hrests helement hlocated hlast hunder' hbelow with
          rfl | ⟨_, hother, hfree⟩
        · obtain rfl := Option.some.inj (hroot.symm.trans hparent)
          rw [kind_locus, Locus.kind, helement, Tree.kind_locate]
          exact hrests.dangles_eq_false
        · obtain rfl := Option.some.inj (hother.symm.trans hparent)
          exact hfree
    | false =>
        have htoken : top'.isToken = true := by simpa [Locus.isNode_eq_not] using hnode
        obtain rfl := hunder'.eq_of_isToken htoken
        obtain rfl : top' = last :=
          Option.some.inj ((Locus.lastToken_of_isToken htoken).symm.trans hlast)
        obtain rfl := Option.some.inj (hroot.symm.trans hparent)
        rw [kind_locus, dangles_root]
        simpa using hline htoken

/-- The last token of a node is no trivia. -/
theorem isTrivia_lastToken (htop : top ∈ (locus text).children) (hnode : top.isNode = true)
    (hlast : top.lastToken = some last) : last.kind.isTrivia = false := by
  have hlocated := ((located_locus text).of_mem_children htop).1
  obtain ⟨hbelow, htoken, -⟩ := Locus.lastToken_eq_some hlast hlocated
  rcases hbelow with _ | @⟨parent, _, hparent, hmem⟩
  · rw [Locus.isNode_eq_not, htoken] at hnode
    cases hnode
  · have hlocated' := hparent.located hlocated
    have hlastOf := Locus.lastToken_of_under hlocated hlast hparent (.child .root hmem)
    rcases (built_of_under htop hparent).missing_or_fits (Locus.isNode_of_mem_children hmem) with
      ⟨-, hnil⟩ | ⟨trees, start, helement, hfits, -⟩
    · rw [hnil] at hmem
      cases hmem
    · obtain ⟨before, tree, rfl, hcloses⟩ := hfits.ends
      obtain ⟨child, hchild, hinner, -, hright⟩ := Locus.exists_child_of_split before helement
      rw [Locus.lastToken_of_right_eq_nil hchild (hright rfl)] at hlastOf
      have hsame : child = last := by
        refine (Locus.lastToken_eq_some hlastOf (hlocated'.of_mem_children hchild).1).1.eq_of_length
          .root ?_
        rw [(Locus.mem_children_iff.1 hchild).2, (Locus.mem_children_iff.1 hmem).2]
      subst hsame
      cases tree with
      | leaf kind leaf =>
          rw [(Locus.isToken_of_element hinner).2.1]
          exact hcloses.1
      | node kind children =>
          have hinnerNode := (Locus.isNode_of_element hinner).1
          rw [Locus.isNode_eq_not, htoken] at hinnerNode
          cases hinnerNode

/-- Behind trivia or a newline, the way back goes from child to child of the root. -/
theorem eq_of_lastToken (htop : top ∈ (locus text).children) (hlast : top.lastToken = some last)
    (hkind : last.kind.isTrivia = true ∨ last.kind = .newline) : top = last := by
  cases hnode : top.isNode with
  | true =>
      have htrivia := isTrivia_lastToken htop hnode hlast
      rcases hkind with hkind | hkind
      · rw [htrivia] at hkind
        cases hkind
      · obtain ⟨hbelow, htoken, -⟩ :=
          Locus.lastToken_eq_some hlast ((located_locus text).of_mem_children htop).1
        have hunder := (Locus.Under.child .root htop).trans hbelow
        obtain ⟨parent, hparent, hmem⟩ := exists_parent (Locus.mem_leaves_iff.2 ⟨hunder, htoken⟩)
        have hdangles := dangles_of_lastToken htop hlast
          (fun htoken => by rw [Locus.isNode_eq_not, htoken] at hnode; cases hnode) hunder .root
          (Locus.parent_of_mem_children hmem)
        rw [hkind, Kind.dangles] at hdangles
        simp at hdangles
  | false =>
      have htoken : top.isToken = true := by simpa [Locus.isNode_eq_not] using hnode
      exact Option.some.inj ((Locus.lastToken_of_isToken htoken).symm.trans hlast)

/-- The token in front of a token right below the root is the last one of another child. -/
theorem exists_top_of_previousToken (htoken : token ∈ (locus text).children)
    (h : token.previousToken = some last) :
    ∃ top ∈ (locus text).children, top.lastToken = some last := by
  obtain ⟨sibling, hsibling, hlast⟩ := Option.bind_eq_some_iff.1 h
  refine ⟨sibling, Locus.leftSibling_mem_children htoken ?_, hlast⟩
  rw [Locus.ancestors_of_mem_children htoken, Locus.ancestors_of_isRoot (isRoot_locus text),
    List.findSome?_cons, List.findSome?_cons] at hsibling
  cases hleft : token.leftSibling with
  | some found => simpa [hleft] using hsibling
  | none =>
      have hroot : (locus text).leftSibling = none := rfl
      simp [hleft, hroot] at hsibling

/-- From a token right below the root, the way back over trivia and newlines leads to the last token
of a child of the root. -/
theorem exists_top_of_skipBack {skip : Kind → Bool}
    (hskip : ∀ kind, skip kind = true → kind.isTrivia = true ∨ kind = .newline)
    (htoken : token ∈ (locus text).children) (hleaf : token.isToken = true)
    (h : token.skipBack skip = some last) :
    ∃ top ∈ (locus text).children, top.lastToken = some last := by
  have hfor : ∀ fuel token, token ∈ (locus text).children → token.isToken = true →
      Locus.skipBackFor skip fuel token = some last →
        ∃ top ∈ (locus text).children, top.lastToken = some last := by
    intro fuel
    induction fuel with
    | zero => intro token _ _ h; cases h
    | succ fuel ih =>
        intro token htoken hleaf h
        rw [Locus.skipBackFor] at h
        split at h
        · obtain ⟨previous, hprevious, hrest⟩ := Option.bind_eq_some_iff.1 h
          obtain ⟨top, htop, hlast⟩ := exists_top_of_previousToken htoken hprevious
          by_cases hagain : skip previous.kind = true
          · obtain rfl := eq_of_lastToken htop hlast (hskip _ hagain)
            have hisToken := (Locus.lastToken_eq_some hlast
              ((located_locus text).of_mem_children htop).1).2.1
            exact ih top htop hisToken hrest
          · cases fuel with
            | zero => cases hrest
            | succ fuel =>
                rw [Locus.skipBackFor, if_neg hagain] at hrest
                obtain rfl := Option.some.inj hrest
                exact ⟨top, htop, hlast⟩
        · obtain rfl := Option.some.inj h
          exact ⟨token, htoken, Locus.lastToken_of_isToken hleaf⟩
  exact hfor _ token htoken hleaf h

end Document

end Caret
