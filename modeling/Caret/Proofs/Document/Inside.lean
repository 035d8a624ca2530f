import Caret.Proofs.Document.Strings

/-!
# What is open around a node

In a tree without error nodes the strings and holes that the tokens in front of a node leave open
are those that the node stands in. A child of a string is one of its quotes or a part of its body,
and a child of a hole is one of the two tokens around it or stands between them; every other node
has nothing but code in it.
-/

namespace Caret

open Construct (inString Admits Settles behind)

namespace Construct

/-- The token that opens a construct. -/
def opening : Construct → Kind
  | string => .stringStart
  | hole => .interpStart

/-- The token that closes a construct. -/
def closing : Construct → Kind
  | string => .stringEnd
  | hole => .interpEnd

theorem leavesOpen_opening (construct : Construct) (outer : List Construct) :
    construct.opening.leavesOpen outer = construct :: outer := by
  cases construct <;> rfl

end Construct

/-- The kind of the nodes that are a construct. -/
def Construct.kind : Construct → Kind
  | string => .string
  | hole => .interpolation

/-- The construct that a node of some kind is. -/
def Kind.construct : Kind → Option Construct
  | string => some .string
  | interpolation => some .hole
  | _ => none

theorem Kind.construct_eq_some_iff {kind : Kind} {construct : Construct} :
    kind.construct = some construct ↔ kind = construct.kind := by
  constructor
  · unfold Kind.construct
    split <;> intro h <;> cases h <;> rfl
  · rintro rfl
    cases construct <;> rfl

namespace Tree

variable {outer : List Construct} {after : List (Kind × String)} {trees : List Tree} {tree : Tree}
  {kind : Kind} {construct : Construct}

/-- What stands between the ends of a construct leaves it open, if anything comes behind it. -/
theorem behind_kinds_leavesAll (hsuits : ∀ tree ∈ trees, tree.Suits outer)
    (hstrung : StrungAll after trees) (hrecovers : RecoversAll trees)
    (hadmits : Admits outer (kinds (leavesAll trees) ++ kinds after)) (hafter : after ≠ []) :
    behind outer (kinds (leavesAll trees)) = outer := by
  have hsettles := settlesAll (fun tree _ => settlesAnywhere tree) hsuits hstrung hrecovers hadmits
  exact Construct.behind_frame outer (hsettles.balanced (kinds_eq_nil.not.2 hafter))

/-- Trees between a token that opens a construct and, unless it is missing, one that closes it. -/
def Wraps (construct : Construct) (trees : List Tree) : Prop :=
  ∃ first middle tail, trees = leaf construct.opening first :: (middle ++ tail) ∧
    (∀ tree ∈ middle, tree.Suits [construct]) ∧
    (tail = [] ∨ ∃ last, tail = [leaf construct.closing last])

theorem IsString.wraps (h : IsString trees after) : Wraps .string trees := by
  obtain ⟨quote, body, hbody, ⟨last, rfl⟩ | ⟨rfl, -⟩⟩ := h
  · exact ⟨quote, body, _, rfl, hbody, .inr ⟨last, rfl⟩⟩
  · exact ⟨quote, body, [], by rw [List.append_nil]; rfl, hbody, .inl rfl⟩

theorem IsHole.wraps (h : IsHole trees after) : Wraps .hole trees := by
  obtain ⟨first, middle, hmiddle, ⟨last, rfl⟩ | ⟨rfl, -⟩⟩ := h
  · exact ⟨first, middle, _, rfl, hmiddle, .inr ⟨last, rfl⟩⟩
  · refine ⟨first, middle ++ [node .missing []], [], by rw [List.append_nil]; rfl, ?_, .inl rfl⟩
    exact List.forall_mem_append.2 ⟨hmiddle, List.forall_mem_singleton.2 rfl⟩

/-- A tree between the ends of a construct opens it, closes it or stands inside of it, with nothing
but what stands inside of it in front. -/
theorem Wraps.cases {left right : List Tree}
    (h : Wraps construct (left ++ tree :: right)) :
    (left = [] ∧ ∃ text, tree = leaf construct.opening text) ∨
      ∃ first middle, left = leaf construct.opening first :: middle ∧
        (∀ tree ∈ middle, tree.Suits [construct]) ∧
        (tree.Suits [construct] ∨ right = [] ∧ ∃ text, tree = leaf construct.closing text) := by
  obtain ⟨first, middle, tail, htrees, hmiddle, htail⟩ := h
  cases left with
  | nil => exact .inl ⟨rfl, first, (List.cons.inj htrees).1⟩
  | cons head left =>
      obtain ⟨rfl, hrest⟩ := List.cons.inj htrees
      right
      rcases List.append_eq_append_iff.1 hrest with ⟨inner, rfl, hinner⟩ | ⟨inner, rfl, rfl⟩
      · cases inner with
        | nil =>
            refine ⟨first, left, rfl, by simpa using hmiddle, .inr ?_⟩
            rcases htail with rfl | ⟨last, rfl⟩
            · cases hinner
            · obtain ⟨rfl, rfl⟩ := List.cons.inj hinner
              exact ⟨rfl, last, rfl⟩
        | cons head inner =>
            obtain ⟨rfl, -⟩ := List.cons.inj hinner
            exact ⟨first, left, rfl, fun tree hmem => hmiddle tree (by simp [hmem]),
              .inl (hmiddle _ (by simp))⟩
      · rcases htail with htail | ⟨last, htail⟩
        · exact absurd htail (by simp)
        · obtain ⟨rfl, hlast⟩ := List.append_eq_singleton_iff.1 htail |>.resolve_right (by simp)
          obtain ⟨rfl, rfl⟩ := List.cons.inj hlast
          rw [List.append_nil]
          exact ⟨first, middle, rfl, hmiddle, .inr ⟨rfl, last, rfl⟩⟩

/-- What the children of a node are told by its kind. -/
theorem Holds.cases (h : Holds kind trees after) (herror : kind ≠ .error) :
    (∃ construct, kind.construct = some construct ∧ Wraps construct trees) ∨
      kind.construct = none ∧ ∀ tree ∈ trees, tree.kind.isApart = true := by
  unfold Holds at h
  split at h
  · exact .inl ⟨.string, rfl, h.wraps⟩
  · exact .inl ⟨.hole, rfl, h.wraps⟩
  · exact absurd rfl herror
  · refine .inr ⟨?_, h⟩
    unfold Kind.construct
    split
    · contradiction
    · contradiction
    · rfl

end Tree

namespace Locus

variable {text : String} {outer : List Construct} {locus child : Locus} {kind : Kind}
  {construct : Construct} {before after front : List (Kind × String)} {tree : Tree}
  {trees middle : List Tree}

/-- A place in the tree of a text, with what the tokens in front of it leave open. -/
def At (text : String) (outer : List Construct) (locus : Locus) : Prop :=
  ∃ before tree after, locus.Amid text before tree after ∧ behind [] (Tree.kinds before) = outer

/-- A place in the tree of a text that stands inside of what the tokens in front of it leave open. -/
def Inside (text : String) (outer : List Construct) (locus : Locus) : Prop :=
  ∃ before tree after, locus.Amid text before tree after ∧ behind [] (Tree.kinds before) = outer ∧
    tree.Suits outer

theorem Inside.at (h : locus.Inside text outer) : locus.At text outer := by
  obtain ⟨before, tree, after, hamid, hbehind, -⟩ := h
  exact ⟨before, tree, after, hamid, hbehind⟩

theorem Amid.admits (h : locus.Amid text before tree after) :
    Admits (behind [] (Tree.kinds before)) (Tree.kinds (tree.leaves ++ after)) := by
  have hadmits := Document.admits_leaves_parse text
  rw [h.leaves, Tree.kinds_append, Construct.admits_append] at hadmits
  exact hadmits.2

theorem Amid.leaves_ne_nil (h : locus.Amid text before tree after)
    (hne : locus.span.start < locus.span.stop) : tree.leaves ≠ [] := by
  intro hnil
  have hsize := Tree.sum_leaves tree
  rw [Locus.span, h.element, Tree.span_locate, ← hsize, hnil] at hne
  exact Nat.lt_irrefl _ hne

/-- Siblings that stand inside of something leave it open. -/
theorem Amid.behind_append (h : child.Amid text (front ++ Tree.leavesAll middle) tree after)
    (hfront : behind [] (Tree.kinds front) = outer) (hsuits : ∀ tree ∈ middle, tree.Suits outer)
    (hstrung : Tree.StrungAll (tree.leaves ++ after) middle) (hrecovers : Tree.RecoversAll middle)
    (hne : child.span.start < child.span.stop) :
    behind [] (Tree.kinds (front ++ Tree.leavesAll middle)) = outer := by
  have hadmits := Document.admits_leaves_parse text
  rw [h.leaves, List.append_assoc, Tree.kinds_append, Construct.admits_append, hfront,
    Tree.kinds_append] at hadmits
  rw [Tree.kinds_append, Construct.behind_append, hfront]
  refine Tree.behind_kinds_leavesAll hsuits hstrung hrecovers hadmits.2 ?_
  exact List.append_ne_nil_of_left_ne_nil (h.leaves_ne_nil hne) _

/-- A child of a construct opens it, closes it or stands inside of it. -/
theorem Amid.cases_of_wraps (h : locus.Amid text before (.node kind trees) after)
    (hbefore : behind [] (Tree.kinds before) = outer) (hrecovers : locus.Recovers)
    (hwraps : Tree.Wraps construct trees) (hchild : child ∈ locus.children)
    (hne : child.span.start < child.span.stop) :
    child.isToken = true ∧ child.kind = construct.opening ∧ child.here.left = [] ∧
        child.At text outer ∨
      child.isToken = true ∧ child.kind = construct.closing ∧ child.here.right = [] ∧
        child.At text (construct :: outer) ∨
      child.Inside text (construct :: outer) := by
  obtain ⟨left, tree, right, rfl, hinner, hleft, hright⟩ := h.of_mem_children hchild
  have hstrung := (Tree.strungAll_append.1 h.strung.2).1
  have hrecovers := (Tree.recoversAll_append.1 (hrecovers.of_element h.element).2).1
  rcases hwraps.cases with ⟨rfl, word, rfl⟩ | ⟨word, middle, rfl, hmiddle, hsuits⟩
  · obtain ⟨htoken, hkind, -⟩ := isToken_of_element hinner.element
    rw [Tree.leavesAll, List.append_nil] at hinner
    exact .inl ⟨htoken, hkind, List.length_eq_zero_iff.1 hleft, _, _, _, hinner, hbefore⟩
  · have hleaves : before ++ Tree.leavesAll (.leaf construct.opening word :: middle) =
        (before ++ [(construct.opening, word)]) ++ Tree.leavesAll middle := by
      simp [Tree.leavesAll, Tree.leaves]
    have hfront : behind [] (Tree.kinds (before ++ [(construct.opening, word)])) =
        construct :: outer := by
      rw [Tree.kinds_append, Construct.behind_append, hbefore]
      exact construct.leavesOpen_opening outer
    rw [Tree.leavesAll, List.append_assoc] at hstrung
    rw [hleaves] at hinner
    have hbehind := hinner.behind_append hfront hmiddle hstrung.2 hrecovers.2 hne
    rcases hsuits with hsuits | ⟨rfl, word, rfl⟩
    · exact .inr (.inr ⟨_, _, _, hinner, hbehind, hsuits⟩)
    · obtain ⟨htoken, hkind, -⟩ := isToken_of_element hinner.element
      exact .inr (.inl ⟨htoken, hkind, List.length_eq_zero_iff.1 hright, _, _, _, hinner, hbehind⟩)

/-- A child of a node that is no construct stands where the node does. -/
theorem Amid.inside_of_apart (h : locus.Amid text before (.node kind trees) after)
    (hbefore : behind [] (Tree.kinds before) = outer) (hrecovers : locus.Recovers)
    (houter : inString outer = false) (hapart : ∀ tree ∈ trees, tree.kind.isApart = true)
    (hchild : child ∈ locus.children) (hne : child.span.start < child.span.stop) :
    child.Inside text outer := by
  obtain ⟨left, tree, right, rfl, hinner, -⟩ := h.of_mem_children hchild
  have hsuits : ∀ sibling ∈ left ++ tree :: right, sibling.Suits outer := by
    intro sibling hmem
    rw [Tree.Suits, houter]
    exact hapart sibling hmem
  have hstrung := (Tree.strungAll_append.1 h.strung.2).1
  have hrecovers := (Tree.recoversAll_append.1 (hrecovers.of_element h.element).2).1
  rw [Tree.leavesAll, List.append_assoc] at hstrung
  refine ⟨_, _, _, hinner, ?_, hsuits tree (by simp)⟩
  exact hinner.behind_append hbefore (fun tree hmem => hsuits tree (by simp [hmem])) hstrung
    hrecovers hne

/-- A hole is a part of the body of a string, and no other node is. -/
theorem Inside.inString_iff (h : locus.Inside text outer) (hnode : locus.isNode = true) :
    inString outer = true ↔ locus.kind = .interpolation := by
  obtain ⟨before, tree, after, hamid, -, hsuits⟩ := h
  cases tree with
  | leaf tag word =>
      rw [isNode_eq_not, (isToken_of_element hamid.element).1] at hnode
      cases hnode
  | node tag trees =>
      obtain ⟨-, rfl⟩ := isNode_of_element hamid.element
      constructor
      · intro hstring
        rwa [Tree.Suits, if_pos hstring] at hsuits
      · intro hkind
        by_contra hcode
        rw [Tree.Suits, if_neg hcode, hkind] at hsuits
        cases hsuits

theorem Inside.isApart (h : locus.Inside text outer) (hcode : inString outer = false) :
    locus.kind.isApart = true := by
  obtain ⟨before, tree, after, hamid, -, hsuits⟩ := h
  rw [Locus.kind, hamid.element, Tree.kind_locate]
  rwa [Tree.Suits, hcode] at hsuits

/-- The only tokens inside of a string are its text. -/
theorem Inside.eq_stringText (h : locus.Inside text outer) (htoken : locus.isToken = true)
    (hstring : inString outer = true) : locus.kind = .stringText := by
  obtain ⟨before, tree, after, hamid, hbefore, hsuits⟩ := h
  rw [Tree.Suits, if_pos hstring] at hsuits
  have hadmits := hamid.admits
  rw [hbefore] at hadmits
  cases tree with
  | leaf tag word =>
      obtain ⟨-, hkind, -⟩ := isToken_of_element hamid.element
      have hpart : tag.isBodyPart = true := hadmits.1.trans hstring
      rcases hsuits with htrivia | rfl
      · have hnone : tag.isBodyPart = false := by
          cases tag <;> first | rfl | cases htrivia
        rw [hnone] at hpart
        cases hpart
      · exact hkind
  | node tag trees =>
      have hnode := (isNode_of_element hamid.element).1
      rw [isNode_eq_not, htoken] at hnode
      cases hnode

/-- Where a child of a node stands. -/
theorem Inside.cases_of_mem_children (h : locus.Inside text outer) (hrecovers : locus.Recovers)
    (herror : locus.kind ≠ .error) (hchild : child ∈ locus.children)
    (hne : child.span.start < child.span.stop) :
    (∃ construct, locus.kind.construct = some construct ∧
      (child.isToken = true ∧ child.kind = construct.opening ∧ child.here.left = [] ∧
          child.At text outer ∨
        child.isToken = true ∧ child.kind = construct.closing ∧ child.here.right = [] ∧
          child.At text (construct :: outer) ∨
        child.Inside text (construct :: outer))) ∨
      locus.kind.construct = none ∧ child.Inside text outer := by
  obtain ⟨before, tree, after, hamid, hbefore, -⟩ := id h
  obtain ⟨trees, rfl⟩ := hamid.eq_node hchild
  rcases hamid.strung.1.cases herror with ⟨construct, hconstruct, hwraps⟩ | ⟨hnone, hapart⟩
  · exact .inl ⟨construct, hconstruct, hamid.cases_of_wraps hbefore hrecovers hwraps hchild hne⟩
  · refine .inr ⟨hnone, hamid.inside_of_apart hbefore hrecovers ?_ hapart hchild hne⟩
    by_contra hstring
    rw [Bool.not_eq_false] at hstring
    rw [(h.inString_iff (isNode_of_mem_children hchild)).1 hstring] at hnone
    cases hnone

/-- A place that has a last token has a last child, which has the same one. -/
theorem exists_last_child_of_lastToken (hnode : locus.isNode = true) {token : Locus}
    (hlast : locus.lastToken = some token) :
    ∃ last ∈ locus.children, last.here.right = [] ∧ last.lastToken = some token := by
  rcases hchildren : locus.children with - | ⟨first, rest⟩
  · rw [lastToken_of_children_eq_nil hnode hchildren] at hlast
    cases hlast
  · have hfirst : first ∈ locus.children := by simp [hchildren]
    obtain ⟨last, hmem, hright⟩ := exists_last_child hfirst
    rw [lastToken_of_right_eq_nil hmem hright] at hlast
    exact ⟨last, hchildren ▸ hmem, hright, hlast⟩

end Locus

namespace Document

variable {text : String} {string hole child token : Locus}

/-- A hole ends with the token that closes it, or with a placeholder. -/
theorem closing_of_last (h : Locus.Under (locus text) hole) (hkind : hole.kind = .interpolation)
    (hchild : child ∈ hole.children) (hright : child.here.right = [])
    (hne : child.span.start < child.span.stop) :
    child.isToken = true ∧ child.kind = .interpEnd := by
  obtain ⟨before, tree, after, hamid⟩ := exists_amid h
  obtain ⟨trees, rfl⟩ := hamid.eq_node hchild
  have hholds := hamid.strung.1
  rw [hkind] at hholds
  obtain ⟨left, tree, right, rfl, hinner, -, hlength⟩ := hamid.of_mem_children hchild
  obtain rfl : right = [] := by
    rw [hright] at hlength
    exact List.length_eq_zero_iff.1 hlength.symm
  obtain ⟨first, middle, -, ⟨last, hclosed⟩ | ⟨hopen, -⟩⟩ := hholds
  · rw [← List.cons_append] at hclosed
    obtain ⟨-, hlast⟩ := List.append_inj' hclosed rfl
    obtain ⟨rfl, -⟩ := List.cons.inj hlast
    obtain ⟨htoken, hkind, -⟩ := Locus.isToken_of_element hinner.element
    exact ⟨htoken, hkind⟩
  · rw [← List.cons_append] at hopen
    obtain ⟨-, hlast⟩ := List.append_inj' hopen rfl
    obtain ⟨rfl, -⟩ := List.cons.inj hlast
    exact absurd rfl (hinner.leaves_ne_nil hne)

/-- The children of a string are tokens and holes. -/
theorem isToken_or_hole (h : Locus.Under (locus text) string) (hkind : string.kind = .string)
    (hchild : child ∈ string.children) : child.isToken = true ∨ child.kind = .interpolation := by
  obtain ⟨before, tree, after, hamid⟩ := exists_amid h
  obtain ⟨trees, rfl⟩ := hamid.eq_node hchild
  have hholds := hamid.strung.1
  rw [hkind] at hholds
  obtain ⟨left, tree, right, rfl, hinner, -⟩ := hamid.of_mem_children hchild
  rcases hholds.wraps.cases with ⟨-, word, rfl⟩ | ⟨-, -, -, -, hbody | ⟨-, word, rfl⟩⟩
  · exact .inl (Locus.isToken_of_element hinner.element).1
  · cases tree with
    | leaf tag word => exact .inl (Locus.isToken_of_element hinner.element).1
    | node tag trees => exact .inr ((Locus.isNode_of_element hinner.element).2.trans hbody)
  · exact .inl (Locus.isToken_of_element hinner.element).1

/-- A quote at the end of a string is its own one and not that of another string in it. -/
theorem mem_children_of_lastToken (h : Locus.Under (locus text) string)
    (hkind : string.kind = .string) (hnode : string.isNode = true)
    (hlast : string.lastToken = some token) (hquote : token.kind = .stringEnd) :
    token ∈ string.children := by
  have hfilled : ∀ {place : Locus}, Locus.Under (locus text) place →
      place.lastToken = some token → place.span.start < place.span.stop := by
    intro place hplace hlast
    have hlocated := hplace.located (located_locus text)
    obtain ⟨hbelow, htoken, -⟩ := Locus.lastToken_eq_some hlast hlocated
    have hne := start_lt_stop (Locus.mem_leaves_iff.2 ⟨hplace.trans hbelow, htoken⟩)
    have hcontains := Span.contains_iff.1 (hbelow.contains hlocated)
    omega
  obtain ⟨last, hmem, -, hsame⟩ := Locus.exists_last_child_of_lastToken hnode hlast
  by_cases htoken : last.isToken = true
  · rw [Locus.lastToken_of_isToken htoken] at hsame
    exact Option.some.inj hsame ▸ hmem
  · have hhole := (isToken_or_hole h hkind hmem).resolve_left htoken
    have hlastNode : last.isNode = true := by
      rw [Locus.isNode_eq_not, Bool.not_eq_true']
      exact Bool.eq_false_iff.2 htoken
    have hunder := h.child hmem
    obtain ⟨final, hfinal, hright, hsame⟩ := Locus.exists_last_child_of_lastToken hlastNode hsame
    obtain ⟨hfinalToken, hclosing⟩ :=
      closing_of_last hunder hhole hfinal hright (hfilled (hunder.child hfinal) hsame)
    rw [Locus.lastToken_of_isToken hfinalToken] at hsame
    rw [← Option.some.inj hsame, hclosing] at hquote
    cases hquote

end Document

end Caret
