import Caret.Proofs.Document.Leaves
import Caret.Proofs.Rule.Hole
import Caret.Proofs.Tree.Order
import Mathlib.Data.Option.Basic

/-!
# The token that opens a hole

An offset inside the token that opens a hole is a part of the string around the hole, and not of
the hole: the string is the innermost one there, and the hole begins behind the token.
-/

namespace Caret

theorem Lexeme.led_group (tokens : List Token) : Rule.Led (group tokens) := by
  induction tokens with
  | nil => simp [Rule.Led, group]
  | cons token tokens ih =>
      by_cases htrivia : token.isTrivia = true
      · rw [group, if_pos htrivia]
        cases hgroup : group tokens with
        | nil => simp [Rule.Led]
        | cons first rest =>
            rw [hgroup] at ih
            obtain ⟨hlead, hfirst⟩ := ih first List.mem_cons_self
            intro lexeme hmem
            rcases List.mem_cons.1 hmem with rfl | hmem
            · refine ⟨fun other hother => ?_, hfirst⟩
              rcases List.mem_cons.1 hother with rfl | hother
              · exact htrivia
              · exact hlead other hother
            · exact ih.tail lexeme hmem
      · rw [group_cons_of_not_trivia (by simpa using htrivia)]
        intro lexeme hmem
        rcases List.mem_cons.1 hmem with rfl | hmem
        · exact ⟨by simp, by simpa using htrivia⟩
        · exact ih lexeme hmem

theorem Document.neat_parse (text : String) : (parse text).tree.Neat := by
  have htrees := (Rule.neatIn_document _ (Lexeme.led_group (tokenize text)) :
    Tree.NeatAll .root _ ∧ _).1
  exact htrees.2.1

namespace Locus

variable {root locus child hole string opening token : Locus} {offset : Nat}

/-- A place that holds a neat tree at its bytes. -/
def Tidy (locus : Locus) : Prop :=
  ∃ tree start, locus.element = Tree.locate start tree ∧ tree.Neat

theorem Tidy.located (h : locus.Tidy) : locus.Located := by
  obtain ⟨tree, start, helement, -⟩ := h
  exact ⟨tree, start, helement⟩

theorem Tidy.of_mem_children (h : locus.Tidy) (hchild : child ∈ locus.children) :
    child.Tidy ∧ (child.kind = .interpolation → child.isNode = true → locus.kind = .string) := by
  obtain ⟨tree, start, helement, hneat⟩ := h
  obtain ⟨hchildren, -⟩ := mem_children_iff.1 hchild
  cases tree with
  | leaf kind text => simp [helement, Tree.locate, Element.children] at hchildren
  | node kind trees =>
      rw [helement, Tree.locate, Element.children] at hchildren
      obtain ⟨before, inner, after, rfl, -, hinner, -⟩ := Tree.locateAll_eq_append_cons hchildren
      obtain ⟨hhole, hinnerneat⟩ := Tree.neatAll_iff.1 hneat.2.2 inner (by simp)
      refine ⟨⟨inner, _, hinner, hinnerneat⟩, fun hkind hnode => ?_⟩
      have hlocus : locus.kind = kind := by simp [Locus.kind, helement, Tree.locate, Element.kind]
      rw [hlocus]
      apply hhole
      cases inner with
      | leaf kind text => simp [isNode, hinner, Tree.locate, Element.isNode, Element.isToken] at hnode
      | node kind trees =>
          obtain rfl : kind = .interpolation := by
            simpa [Locus.kind, hinner, Tree.locate, Element.kind] using hkind
          rfl

theorem Under.tidy (h : Under root locus) (hroot : root.Tidy) : locus.Tidy := by
  induction h with
  | root => exact hroot
  | child _ hchild ih => exact (ih.of_mem_children hchild).1

theorem kind_ne_of_mem_locateAll {trees : List Tree} {start : Nat} {kind : Kind}
    (h : ∀ tree ∈ trees, tree.kind ≠ kind) {element : Element}
    (hmem : element ∈ Tree.locateAll start trees) : element.kind ≠ kind := by
  obtain ⟨before, after, hsplit⟩ := List.append_of_mem hmem
  obtain ⟨_, tree, _, rfl, -, rfl, -⟩ := Tree.locateAll_eq_append_cons hsplit
  rw [Tree.kind_locate]
  exact h tree (by simp)

/-- The opening token of a hole is the only child of the hole that is such a token. -/
theorem Tidy.tokenOf_interpStart (h : hole.Tidy) (hkind : hole.kind = .interpolation)
    (hchild : token ∈ hole.children) (hstart : token.kind = .interpStart) :
    hole.tokenOf .interpStart = some token := by
  obtain ⟨tree, start, helement, hneat⟩ := h
  cases tree with
  | leaf kind text =>
      obtain ⟨hchildren, -⟩ := mem_children_iff.1 hchild
      simp [helement, Tree.locate, Element.children] at hchildren
  | node kind trees =>
      obtain rfl : kind = .interpolation := by
        simpa [Locus.kind, helement, Tree.locate, Element.kind] using hkind
      obtain ⟨text, rest, rfl, hrest⟩ := hneat.1 rfl
      rw [children, helement, Tree.locate, Element.children, Tree.locateAll, spread] at hchild
      rw [tokenOf, tokens, children, helement, Tree.locate, Element.children, Tree.locateAll, spread]
      rcases List.mem_cons.1 hchild with rfl | hlater
      · rfl
      · exact absurd hstart (kind_ne_of_mem_locateAll hrest (mem_of_mem_spread hlater))

/-- The only child of the type of a resource is a string, and that starts with its quote. -/
theorem Tidy.children_of_resourceType (h : locus.Tidy) (hkind : locus.kind = .resourceType)
    (hchild : child ∈ locus.children) :
    locus.nodeOf .string = some child ∧
      ∃ opening ∈ child.children, child.firstToken = some opening ∧ opening.isToken = true ∧
        opening.here.left = [] ∧ opening.kind = .stringStart := by
  obtain ⟨tree, start, helement, hneat⟩ := h
  cases tree with
  | leaf kind text =>
      obtain ⟨hchildren, -⟩ := mem_children_iff.1 hchild
      simp [helement, Tree.locate, Element.children] at hchildren
  | node kind trees =>
      obtain rfl : kind = .resourceType := by
        simpa [Locus.kind, helement, Tree.locate, Element.kind] using hkind
      obtain ⟨text, rest, rfl⟩ := hneat.2.1 rfl
      rw [children, helement, Tree.locate, Element.children, Tree.locateAll, spread] at hchild
      rcases List.mem_cons.1 hchild with rfl | hnone
      · refine ⟨?_, ?_⟩
        · rw [nodeOf, nodes, children, helement]
          rfl
        · refine ⟨⟨⟨.token .stringStart ⟨start, start + text.utf8ByteSize⟩ text, [],
            Tree.locateAll (start + text.utf8ByteSize) rest⟩,
            ⟨(Tree.node .string (.leaf .stringStart text :: rest)).locate start, [], []⟩ ::
              locus.here :: locus.above⟩, List.mem_cons_self, rfl, rfl, rfl, rfl⟩
      · cases hnone

/-- A hole that is on the other side of a token does not reach to an offset inside the token. -/
theorem Located.isInHole_eq_false (h : hole.Located)
    (hapart : hole.span.stop < offset ∨ offset < hole.span.start) :
    isInHole offset hole = false := by
  have hmem : ∀ {kind token}, hole.tokenOf kind = some token → token ∈ hole.children :=
    fun htoken => (List.mem_filter.1 (List.mem_of_find?_eq_some htoken)).1
  unfold isInHole
  split
  · rfl
  · rename_i opening hopening
    obtain ⟨⟨tree, start, htree⟩, hcontains, -⟩ := h.of_mem_children (hmem hopening)
    have hopens : opening.span = ⟨start, start + tree.size⟩ := by
      rw [Locus.span, htree, Tree.span_locate]
    rw [Span.contains_iff, hopens] at hcontains
    have hstop : ∀ closing, hole.tokenOf .interpEnd = some closing →
        closing.span.start ≤ hole.span.stop := by
      intro closing hclosing
      obtain ⟨⟨tree, start, htree⟩, hcontains, -⟩ := h.of_mem_children (hmem hclosing)
      have hcloses : closing.span = ⟨start, start + tree.size⟩ := by
        rw [Locus.span, htree, Tree.span_locate]
      rw [Span.contains_iff, hcloses] at hcontains
      rw [hcloses]
      dsimp only at hcontains ⊢
      omega
    rw [Bool.and_eq_false_iff, decide_eq_false_iff_not, decide_eq_false_iff_not, hopens]
    dsimp only at hcontains ⊢
    rcases hapart with hbefore | hafter
    · right
      split
      · omega
      · rename_i closing hclosing
        have := hstop closing hclosing
        omega
    · left
      omega

/-- Inside the token that opens a hole, the region is that of the string around the hole. -/
theorem Tidy.regionInString_of_opening (h : string.Tidy) (hhole : hole ∈ string.children)
    (hkind : hole.kind = .interpolation) (htoken : token ∈ hole.children)
    (hstart : token.kind = .interpStart) (hbefore : token.span.start < offset)
    (hafter : offset < token.span.stop) :
    regionInString string offset = .delimiter ∨ regionInString string offset = .literalText := by
  have hholetidy := (h.of_mem_children hhole).1
  have hcontains := Span.contains_iff.1 (hholetidy.located.of_mem_children htoken).2.1
  have hnone : ∀ other ∈ string.interpolations, isInHole offset other = false := by
    intro other hother
    have hchild : other ∈ string.children :=
      (List.mem_filter.1 (List.mem_filter.1 hother).1).1
    have hlocated := (h.located.of_mem_children hchild).1
    rcases eq_or_apart_of_pairwise h.located.pairwise_children hhole hchild with rfl | hlt | hlt
    · rw [isInHole, hholetidy.tokenOf_interpStart hkind htoken hstart]
      dsimp only
      rw [Bool.and_eq_false_iff, decide_eq_false_iff_not]
      left
      omega
    · exact hlocated.isInHole_eq_false (.inr (by omega))
    · exact hlocated.isInHole_eq_false (.inl (by omega))
  unfold regionInString
  rw [if_neg]
  · split
    · exact .inl rfl
    · exact .inr rfl
  · simpa using hnone

end Locus

namespace Document

variable {text : String} {token hole : Locus} {offset : Nat}

theorem tidy_locus (text : String) : (locus text).Tidy := ⟨_, 0, rfl, neat_parse text⟩

theorem kind_locus (text : String) : (locus text).kind = .root := Tree.kind_locate _ _

/-- The string around the hole is the innermost one. -/
theorem innermostString_of_opening {string : Locus} (hunder : Locus.Under (locus text) string)
    (hkind : string.kind = .string) (hhole : hole ∈ string.children)
    (hinterpolation : hole.kind = .interpolation) (htoken : token ∈ hole.children)
    (hisToken : token.isToken = true) (hstart : token.kind = .interpStart)
    (hbefore : token.span.start < offset) (hafter : offset < token.span.stop)
    (htype : ∀ parent ∈ string.parent, parent.kind ≠ .resourceType) :
    (locus text).innermostString offset = some string := by
  have hlocated := hunder.located (located_locus text)
  have hholelocated := (hlocated.of_mem_children hhole).1
  have hinner := Span.contains_iff.1 (hholelocated.of_mem_children htoken).2.1
  have houter := Span.contains_iff.1 (hlocated.of_mem_children hhole).2.1
  have henter : ∀ element : Element, (decide (element.span.start < offset) &&
      decide (offset ≤ element.span.stop)) = true ↔
        element.span.start < offset ∧ offset ≤ element.span.stop := by simp
  obtain ⟨above, habove⟩ := hunder.search_across (located_locus text) henter (by omega) (by omega)
  rw [hlocated.search_across hhole henter (by omega) (by omega),
    hholelocated.search_across htoken henter hbefore (Nat.le_of_lt hafter)] at habove
  have hleaf : token.search (fun element => decide (element.span.start < offset) &&
      decide (offset ≤ element.span.stop)) = [token] := by
    have hchildren : token.children = [] := by
      unfold Locus.children
      cases helement : token.element with
      | token kind span text => rfl
      | node kind span children =>
          simp [Locus.isToken, helement, Element.isToken] at hisToken
    rw [Locus.search_eq, hchildren, if_pos ((henter _).2 ⟨hbefore, Nat.le_of_lt hafter⟩)]
    rfl
  have hstring : Locus.isStringAround offset string = true := by
    unfold Locus.isStringAround
    have hend : offset < string.span.stop := by omega
    split
    · simp [hkind, hend]
    · rename_i parent hparent
      simp [hkind, hend, htype parent hparent]
  have hothers : ∀ other : Locus, other.kind ≠ .string →
      Locus.isStringAround offset other = false := by
    intro other hother
    simp [Locus.isStringAround, hother]
  unfold Locus.innermostString
  rw [habove, hleaf, List.filter_append, List.filter_cons, if_pos hstring, List.filter_cons,
    if_neg (by simp [hothers hole (by rw [hinterpolation]; decide)]), List.filter_cons,
    if_neg (by simp [hothers token (by rw [hstart]; decide)])]
  simp

/-- Nothing can be completed inside the token that opens a hole, outside of resource types. -/
theorem isInStringBody_of_opening (htoken : token ∈ (locus text).leaves)
    (hstart : token.kind = .interpStart) (hparent : token.parent = some hole)
    (hinterpolation : hole.kind = .interpolation) (hbefore : token.span.start < offset)
    (hafter : offset < token.span.stop)
    (htype : ∀ ancestor ∈ token.properAncestors, ancestor.kind ≠ .resourceType) :
    ((locus text).resolve offset).isInStringBody = true ∨
      ((locus text).resolve offset).isInComment = true := by
  obtain ⟨hunder, hisToken⟩ := Locus.mem_leaves_iff.1 htoken
  have hroot := kind_locus text
  cases hunder with
  | root =>
      rw [hroot] at hstart
      cases hstart
  | @child other token hother hchild =>
      obtain rfl : other = hole := by
        rw [Locus.parent_of_mem_children hchild] at hparent
        exact Option.some.inj hparent
      rw [Locus.properAncestors_of_mem_children hchild] at htype
      cases hother with
      | root =>
          rw [hroot] at hinterpolation
          cases hinterpolation
      | @child string hole hstring hhole =>
          have htidy := hstring.tidy (tidy_locus text)
          have hkind := (htidy.of_mem_children hhole).2 hinterpolation
            (Locus.isNode_of_mem_children hchild)
          have hinnermost := innermostString_of_opening hstring hkind hhole hinterpolation hchild
            hisToken hstart hbefore hafter fun parent hparent => by
              refine htype parent ?_
              rw [Locus.ancestors_of_mem_children hhole]
              exact List.mem_cons_of_mem _ (Locus.mem_ancestors_of_parent hparent)
          have hregion := htidy.regionInString_of_opening hhole hinterpolation hchild hstart hbefore
            hafter
          change (Locus.regionAt _ offset = some .literalText ||
            Locus.regionAt _ offset = some .delimiter) = true ∨ decide (Locus.regionAt _ offset =
              some .comment) = true
          unfold Locus.regionAt
          rw [hinnermost]
          split
          · exact .inr rfl
          · left
            rcases hregion with hvalue | hvalue <;> simp [hvalue]

/-- A token that an offset is inside of is the only one that the offset touches. -/
theorem eq_of_mem_tokensAt (htoken : token ∈ (locus text).leaves)
    (hbefore : token.span.start < offset) (hafter : offset < token.span.stop) {other : Locus}
    (hother : other ∈ (locus text).tokensAt offset) : other = token := by
  obtain ⟨hleaf, hle, hge⟩ := mem_tokensAt_iff.1 hother
  rcases eq_or_apart hleaf htoken with heq | hlt | hlt
  · exact heq
  · omega
  · omega

theorem findSome?_tokensAt {α : Type} {f : Locus → Option α} {found : α}
    (htoken : token ∈ (locus text).leaves) (hbefore : token.span.start < offset)
    (hafter : offset < token.span.stop) (hfound : f token = some found) :
    ((locus text).tokensAt offset).findSome? f = some found := by
  have htouched : token ∈ (locus text).tokensAt offset :=
    mem_tokensAt_iff.2 ⟨htoken, Nat.le_of_lt hbefore, Nat.le_of_lt hafter⟩
  cases htokens : (locus text).tokensAt offset with
  | nil => simp [htokens] at htouched
  | cons first others =>
      obtain rfl := eq_of_mem_tokensAt htoken hbefore hafter
        (by rw [htokens]; exact List.mem_cons_self : first ∈ (locus text).tokensAt offset)
      rw [List.findSome?_cons, hfound]

/-- Inside the token that opens a hole in the type of a resource, that type is completed. -/
theorem insideTypeString_of_opening (htoken : token ∈ (locus text).leaves)
    (hstart : token.kind = .interpStart) (hbefore : token.span.start < offset)
    (hafter : offset < token.span.stop)
    (htype : ∃ ancestor ∈ token.properAncestors, ancestor.kind = .resourceType)
    {place : Vicinity} (hroot : place.root = locus text) (hoffset : place.offset = offset) :
    place.insideTypeString.isSome = true := by
  have hfound : (token.properAncestors.find? fun ancestor =>
      decide (ancestor.kind = .resourceType)).isSome = true := by
    simpa using htype
  obtain ⟨typeNode, htypeNode⟩ := Option.isSome_iff_exists.1 hfound
  have hkind : typeNode.kind = .resourceType := by simpa using List.find?_some htypeNode
  obtain ⟨hunder, string, hstring, hbelow⟩ := ((Locus.mem_leaves_iff.1
    htoken).1.mem_properAncestors_iff (isRoot_locus text)).1 (List.mem_of_find?_eq_some htypeNode)
  obtain ⟨hnode, opening, hopening, hfirst, hisToken, hleft, hquote⟩ :=
    (hunder.tidy (tidy_locus text)).children_of_resourceType hkind hstring
  have hfind : ((locus text).tokensAt offset).findSome? (fun token =>
      token.properAncestors.find? fun ancestor => ancestor.kind = .resourceType) =
        some typeNode := findSome?_tokensAt htoken hbefore hafter htypeNode
  have hinside : opening.span.stop ≤ offset ∧ offset < string.span.stop := by
    have hstringUnder := hunder.child hstring
    have hleaf : opening ∈ (locus text).leaves :=
      Locus.mem_leaves_iff.2 ⟨hstringUnder.child hopening, hisToken⟩
    have hlocated := hstringUnder.located (located_locus text)
    have hin := Span.contains_iff.1 (hbelow.contains hlocated)
    have hstarts := (hlocated.of_mem_children hopening).2.2.1 hleft
    refine ⟨?_, by omega⟩
    rcases eq_or_apart hleaf htoken with rfl | hlt | hlt
    · rw [hquote] at hstart
      cases hstart
    · omega
    · have := start_lt_stop htoken
      omega
  obtain ⟨parent, hparent⟩ : ∃ parent, typeNode.parent = some parent := by
    cases hunder with
    | root =>
        rw [kind_locus] at hkind
        cases hkind
    | child _ hchild => exact ⟨_, Locus.parent_of_mem_children hchild⟩
  unfold Vicinity.insideTypeString
  rw [hroot, hoffset, hfind]
  simp [hnode, hfirst, hquote, hinside, hparent]

end Document

end Caret
