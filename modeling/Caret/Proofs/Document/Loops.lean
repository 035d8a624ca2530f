import Caret.Proofs.Document.Faults
import Caret.Proofs.Tree.Order

/-!
# The loops of a document

A loop has one part between the word in front of its iterable and its colon, an expression or a
placeholder. Where the part is an expression it is the iterable, and the body stands behind the
colon. Behind a placeholder the search for the iterable goes on past the colon and finds the body.
-/

namespace Caret

namespace Locus

variable {locus mark expr : Locus} {head tail : List Locus} {kind : Kind}

/-! ### What is behind a mark -/

theorem exprAfter_of_split (hchildren : locus.children = head ++ mark :: tail)
    (hhead : ∀ child ∈ head, child.kind ≠ kind) (hmark : mark.kind = kind)
    (htoken : mark.isToken = true) :
    locus.exprAfter kind = (tail.filter isNode).find? fun node => node.kind.isExpr := by
  have hdrop : locus.children.dropWhile (fun child => child.kind ≠ kind) = mark :: tail := by
    rw [hchildren, List.dropWhile_append_of_pos (by simpa using hhead),
      List.dropWhile_cons_of_neg (by simpa using hmark)]
  have hnode : mark.isNode = false := by rw [isNode_eq_not, htoken]; rfl
  rw [exprAfter, hdrop, List.filter_cons_of_neg (by simp [hnode])]

theorem exprAfter_eq_none (h : ∀ child ∈ locus.children, child.kind ≠ kind) :
    locus.exprAfter kind = none := by
  have hdrop : locus.children.dropWhile (fun child => child.kind ≠ kind) = [] := by
    rw [List.dropWhile_eq_nil_iff]
    exact fun child hmem => decide_eq_true (h child hmem)
  rw [exprAfter, hdrop]
  rfl

theorem tokenOf_of_split (hchildren : locus.children = head ++ mark :: tail)
    (hhead : ∀ child ∈ head, child.kind ≠ kind) (hmark : mark.kind = kind)
    (htoken : mark.isToken = true) : locus.tokenOf kind = some mark := by
  have hnone : (head.filter isToken).find? (fun child => child.kind = kind) = none := by
    rw [List.find?_eq_none]
    exact fun child hmem => by simpa using hhead child (List.mem_of_mem_filter hmem)
  rw [tokenOf, tokens, hchildren, List.filter_append, List.find?_append, hnone, Option.none_or,
    List.filter_cons_of_pos htoken, List.find?_cons_of_pos (by simpa using hmark)]

/-- A token of some kind, or a placeholder for it. -/
def MarksFor (kind : Kind) (locus : Locus) : Prop :=
  locus.isToken = true ∧ locus.kind = kind ∨ locus.isNode = true ∧ locus.kind = .missing

theorem MarksFor.isToken (h : locus.MarksFor kind) (hkind : locus.kind = kind)
    (hmissing : kind ≠ .missing) : locus.isToken = true := by
  rcases h with ⟨htoken, -⟩ | ⟨-, hplaceholder⟩
  · exact htoken
  · exact absurd (hkind.symm.trans hplaceholder) hmissing

theorem Holds.marksFor {tree : Tree} (h : locus.Holds tree) (hstands : tree.StandsFor kind) :
    locus.MarksFor kind := by
  obtain ⟨start, helement⟩ := h
  rcases hstands with ⟨text, rfl⟩ | rfl
  · obtain ⟨htoken, hkind, -⟩ := isToken_of_element helement
    exact Or.inl ⟨htoken, hkind⟩
  · exact Or.inr (isNode_of_element helement)

/-- Where a mark occurs once, an expression that is found behind it comes after its token. -/
theorem tokenOf_of_exprAfter (hlocated : locus.Located)
    (hchildren : locus.children = head ++ mark :: tail)
    (hother : ∀ child ∈ head ++ tail, child.kind ≠ kind) (hmark : mark.MarksFor kind)
    (hmissing : kind ≠ .missing) (h : locus.exprAfter kind = some expr) :
    expr.kind.isExpr = true ∧ ∃ token, locus.tokenOf kind = some token ∧
      token.span.stop ≤ expr.span.start := by
  have hhead : ∀ child ∈ head, child.kind ≠ kind := fun child hmem =>
    hother child (List.mem_append_left _ hmem)
  by_cases hkind : mark.kind = kind
  · have htoken := hmark.isToken hkind hmissing
    rw [exprAfter_of_split hchildren hhead hkind htoken] at h
    have hmem : expr ∈ tail := List.mem_of_mem_filter (List.mem_of_find?_eq_some h)
    have hpairwise := hlocated.pairwise_children
    rw [hchildren, List.pairwise_append] at hpairwise
    refine ⟨by simpa using List.find?_some h, mark,
      tokenOf_of_split hchildren hhead hkind htoken, ?_⟩
    exact (List.pairwise_cons.1 hpairwise.2.1).1 expr hmem
  · have hnone : locus.exprAfter kind = none := by
      apply exprAfter_eq_none
      intro child hmem
      rw [hchildren, List.mem_append, List.mem_cons] at hmem
      rcases hmem with hmem | rfl | hmem
      · exact hhead child hmem
      · exact hkind
      · exact hother child (List.mem_append_right _ hmem)
    rw [hnone] at h
    cases h

/-! ### What a loop is made of -/

/-- One expression, or one placeholder for it, among tokens. -/
def StandAlone (loci : List Locus) : Prop :=
  ∃ before part behind, loci = before ++ part :: behind ∧
    (∀ token ∈ before ++ behind, token.isToken = true) ∧ part.isNode = true ∧
      (part.kind.isExpr = true ∨ part.kind = .missing)

theorem isToken_of_forall₂ {loci : List Locus} {tokens : List Token}
    (h : List.Forall₂ Holds loci (tokens.map Tree.ofToken)) :
    ∀ locus ∈ loci, locus.isToken = true := by
  intro locus hmem
  obtain ⟨tree, htree, start, helement⟩ := exists_mem_of_forall₂ h hmem
  obtain ⟨token, -, rfl⟩ := List.mem_map.1 htree
  exact (isToken_of_element helement).1

theorem standAlone_of_forall₂ {loci : List Locus} {trees : List Tree}
    (h : List.Forall₂ Holds loci trees) (halone : Tree.StandsAlone trees) : StandAlone loci := by
  obtain ⟨before, behind, kind, children, rfl, hkind⟩ := halone
  obtain ⟨left, tail, rfl, hleft, htail⟩ := exists_append_of_forall₂ h
  obtain ⟨part, right, ⟨start, helement⟩, hright, rfl⟩ := List.forall₂_cons_right_iff.1 htail
  obtain ⟨hnode, hpart⟩ := isNode_of_element helement
  exact ⟨left, part, right, rfl,
    List.forall_mem_append.2 ⟨isToken_of_forall₂ hleft, isToken_of_forall₂ hright⟩, hnode,
    hpart ▸ hkind⟩

/-- The children of a loop around the word in front of its iterable and its colon. -/
structure Divided (loop : Locus) (head : List Locus) (word : Locus) (iterable : List Locus)
    (colon : Locus) (rest : List Locus) : Prop where
  children : loop.children = head ++ word :: (iterable ++ colon :: rest)
  marksWord : word.MarksFor .inKw
  marksColon : colon.MarksFor .colon
  aside : ∀ child ∈ head ++ iterable ++ rest, child.kind ≠ .inKw ∧ child.kind ≠ .colon
  alone : colon.kind = .colon → StandAlone iterable

theorem MarksFor.kind_ne {other : Kind} (h : locus.MarksFor kind) (hne : kind ≠ other)
    (hmissing : Kind.missing ≠ other) : locus.kind ≠ other := by
  rcases h with ⟨-, hkind⟩ | ⟨-, hkind⟩
  · rwa [hkind]
  · rwa [hkind]

/-- The token of a kind is the one child that can have this kind. -/
theorem eq_of_tokenOf {front behind : List Locus} {child token : Locus}
    (hchildren : locus.children = front ++ child :: behind)
    (haround : ∀ other ∈ front ++ behind, other.kind ≠ kind)
    (htoken : locus.tokenOf kind = some token) : token = child ∧ child.kind = kind := by
  have hkind : token.kind = kind := by simpa using List.find?_some htoken
  have hmem : token ∈ locus.children :=
    List.mem_of_mem_filter (List.mem_of_find?_eq_some htoken)
  rw [hchildren, List.mem_append, List.mem_cons] at hmem
  rcases hmem with hmem | rfl | hmem
  · exact absurd hkind (haround token (List.mem_append_left _ hmem))
  · exact ⟨rfl, hkind⟩
  · exact absurd hkind (haround token (List.mem_append_right _ hmem))

namespace Divided

variable {loop word colon : Locus} {iterable rest : List Locus}

theorem around_word (h : loop.Divided head word iterable colon rest) :
    ∀ child ∈ head ++ (iterable ++ colon :: rest), child.kind ≠ .inKw := by
  intro child hmem
  simp only [List.mem_append, List.mem_cons] at hmem
  rcases hmem with hmem | hmem | rfl | hmem
  · exact (h.aside child (by simp [hmem])).1
  · exact (h.aside child (by simp [hmem])).1
  · exact h.marksColon.kind_ne (by decide) (by decide)
  · exact (h.aside child (by simp [hmem])).1

theorem before_colon (h : loop.Divided head word iterable colon rest) :
    ∀ child ∈ head ++ word :: iterable, child.kind ≠ .colon := by
  intro child hmem
  simp only [List.mem_append, List.mem_cons] at hmem
  rcases hmem with hmem | rfl | hmem
  · exact (h.aside child (by simp [hmem])).2
  · exact h.marksWord.kind_ne (by decide) (by decide)
  · exact (h.aside child (by simp [hmem])).2

theorem around_colon (h : loop.Divided head word iterable colon rest) :
    ∀ child ∈ (head ++ word :: iterable) ++ rest, child.kind ≠ .colon :=
  List.forall_mem_append.2 ⟨h.before_colon, fun child hmem => (h.aside child (by simp [hmem])).2⟩

theorem children_colon (h : loop.Divided head word iterable colon rest) :
    loop.children = (head ++ word :: iterable) ++ colon :: rest := by
  rw [h.children, List.append_assoc, List.cons_append]

theorem kind_word (h : loop.Divided head word iterable colon rest) {token : Locus}
    (htoken : loop.tokenOf .inKw = some token) : token = word ∧ word.kind = .inKw :=
  eq_of_tokenOf h.children h.around_word htoken

theorem kind_colon (h : loop.Divided head word iterable colon rest) {token : Locus}
    (htoken : loop.tokenOf .colon = some token) : token = colon ∧ colon.kind = .colon :=
  eq_of_tokenOf h.children_colon h.around_colon htoken

/-- One part stands between the marks, an expression or a placeholder. -/
theorem exists_alone (h : loop.Divided head word iterable colon rest) (hword : word.kind = .inKw)
    (hcolon : colon.kind = .colon) :
    ∃ part ∈ iterable,
      loop.nodes = head.filter isNode ++ part :: rest.filter isNode ∧
        (iterable ++ colon :: rest).filter isNode = part :: rest.filter isNode ∧
        (part.kind.isExpr = true ∨ part.kind = .missing) := by
  obtain ⟨before, part, behind, rfl, htokens, hnode, hkind⟩ := h.alone hcolon
  obtain ⟨hbefore, hbehind⟩ := List.forall_mem_append.1 htokens
  have htoken : ∀ {loci : List Locus}, (∀ token ∈ loci, token.isToken = true) →
      loci.filter isNode = [] := fun hloci =>
    List.filter_eq_nil_iff.2 fun child hmem => by simp [isNode_eq_not, hloci child hmem]
  have hcolonNode : colon.isNode = false := by
    rw [isNode_eq_not, h.marksColon.isToken hcolon (by decide)]
    rfl
  have hwordNode : word.isNode = false := by
    rw [isNode_eq_not, h.marksWord.isToken hword (by decide)]
    rfl
  have htail : ((before ++ part :: behind) ++ colon :: rest).filter isNode =
      part :: rest.filter isNode := by
    simp [htoken hbefore, htoken hbehind, hnode, hcolonNode]
  refine ⟨part, by simp, ?_, htail, hkind⟩
  rw [nodes, h.children, List.filter_append, List.filter_cons_of_neg (by simp [hwordNode]), htail]

/-- Where both marks are there, the iterable is the part between them if it is an expression, and
else the body. -/
theorem exists_part (h : loop.Divided head word iterable colon rest) (hlocated : loop.Located)
    (hword : word.kind = .inKw) (hcolon : colon.kind = .colon)
    (hsize : colon.span.start < colon.span.stop) :
    ∃ left part right, loop.nodes = left ++ part :: right ∧
      (∀ node ∈ left, node.span.stop ≤ word.span.start) ∧
      word.span.stop ≤ part.span.start ∧ part.span.stop ≤ colon.span.start ∧
      (∀ node ∈ right, colon.span.stop ≤ node.span.start) ∧
      (part.kind.isExpr = true ∧ loop.loopIterable = some part ∧ loop.loopBody ≠ some part ∨
        part.kind = .missing ∧ loop.loopIterable = loop.loopBody) := by
  have hhead : ∀ child ∈ head, child.kind ≠ .inKw := fun child hmem =>
    h.around_word child (List.mem_append_left _ hmem)
  have hiterable := exprAfter_of_split h.children hhead hword
    (h.marksWord.isToken hword (by decide))
  have hbody := exprAfter_of_split h.children_colon h.before_colon hcolon
    (h.marksColon.isToken hcolon (by decide))
  obtain ⟨part, hpart, hnodes, htail, hkind⟩ := h.exists_alone hword hcolon
  rw [htail] at hiterable
  have hpairwise := hlocated.pairwise_children
  rw [h.children, List.pairwise_append, List.pairwise_cons, List.pairwise_append,
    List.pairwise_cons] at hpairwise
  obtain ⟨-, ⟨hfromWord, -, ⟨hfromColon, -⟩, htoColon⟩, htoWord⟩ := hpairwise
  refine ⟨head.filter isNode, part, rest.filter isNode, hnodes, ?_, ?_, ?_, ?_, ?_⟩
  · exact fun node hmem => htoWord node (List.mem_of_mem_filter hmem) word List.mem_cons_self
  · exact hfromWord part (List.mem_append_left _ hpart)
  · exact htoColon part hpart colon List.mem_cons_self
  · exact fun node hmem => hfromColon node (List.mem_of_mem_filter hmem)
  · rcases hkind with hexpr | hmissing
    · refine Or.inl ⟨hexpr, ?_, fun hsame => ?_⟩
      · rw [loopIterable, hiterable]
        exact List.find?_cons_of_pos hexpr
      · rw [loopBody, hbody] at hsame
        have hmem : part ∈ loop.children := by
          rw [h.children]
          simp [hpart]
        have hle := (hlocated.of_mem_children hmem).1.start_le_stop
        have hpartColon := htoColon part hpart colon List.mem_cons_self
        have hbehindColon :=
          hfromColon part (List.mem_of_mem_filter (List.mem_of_find?_eq_some hsame))
        omega
    · refine Or.inr ⟨hmissing, ?_⟩
      rw [loopIterable, loopBody, hiterable, hbody,
        List.find?_cons_of_neg (by rw [hmissing]; decide)]

end Divided

end Locus

namespace Document

variable {text : String} {loop : Locus}

theorem exists_divided (h : Locus.Under (locus text) loop) (hnode : loop.isNode = true)
    (hkind : loop.kind = .forExpr) :
    ∃ head word iterable colon rest, loop.Divided head word iterable colon rest := by
  obtain ⟨trees, start, helement, hfits⟩ := exists_fits h hnode (by rw [hkind]; decide)
  have hshape := hfits.shape
  rw [hkind] at hshape
  obtain ⟨⟨head, word, iterable, colon, rest, rfl, hword, hcolon, haside, halone⟩, -⟩ := hshape
  have hholds : loop.Holds (.node loop.kind _) := ⟨start, helement⟩
  obtain ⟨heads, tail, hchildren, hheads, htail⟩ := exists_append_of_forall₂ hholds.forall₂_children
  obtain ⟨wordPlace, inner, hwordHolds, hinner, rfl⟩ := List.forall₂_cons_right_iff.1 htail
  obtain ⟨iterables, last, rfl, hiterables, hlast⟩ := exists_append_of_forall₂ hinner
  obtain ⟨colonPlace, rests, hcolonHolds, hrests, rfl⟩ := List.forall₂_cons_right_iff.1 hlast
  refine ⟨heads, wordPlace, iterables, colonPlace, rests, hchildren,
    hwordHolds.marksFor hword, hcolonHolds.marksFor hcolon, fun child hmem => ?_, fun hcolonKind => ?_⟩
  · have hall := List.rel_append (List.rel_append hheads hiterables) hrests
    obtain ⟨tree, htree, hchild⟩ := exists_mem_of_forall₂ hall hmem
    rw [hchild.kind_eq]
    exact haside tree htree
  · exact Locus.standAlone_of_forall₂ hiterables (halone (hcolonHolds.kind_eq ▸ hcolonKind))

/-- What is found of a loop is an expression behind the word or the colon. Where both are there, one
part stands between them, and the parts are told apart exactly if it is an expression: behind a
placeholder the body is taken for the iterable, too. -/
theorem loopParts_parse (text : String) (loop : Locus) (hmem : loop ∈ (locus text).descendants)
    (hkind : loop.kind = .forExpr) :
    (∀ iterable, loop.loopIterable = some iterable → iterable.kind.isExpr = true ∧
      ∃ word, loop.tokenOf .inKw = some word ∧ word.span.stop ≤ iterable.span.start) ∧
    (∀ body, loop.loopBody = some body → body.kind.isExpr = true ∧
      ∃ colon, loop.tokenOf .colon = some colon ∧ colon.span.stop ≤ body.span.start) ∧
    ∀ word colon, loop.tokenOf .inKw = some word → loop.tokenOf .colon = some colon →
      ∃ left part right, loop.nodes = left ++ part :: right ∧
        (∀ node ∈ left, node.span.stop ≤ word.span.start) ∧
        word.span.stop ≤ part.span.start ∧ part.span.stop ≤ colon.span.start ∧
        (∀ node ∈ right, colon.span.stop ≤ node.span.start) ∧
        (part.kind.isExpr = true ∧ loop.loopIterable = some part ∧ loop.loopBody ≠ some part ∨
          part.kind = .missing ∧ loop.loopIterable = loop.loopBody) := by
  obtain ⟨hunder, hnode⟩ := Locus.mem_descendants_iff.1 hmem
  have hlocated := hunder.located (located_locus text)
  obtain ⟨head, word, iterable, colon, rest, hdivided⟩ := exists_divided hunder hnode hkind
  refine ⟨fun found hfound => ?_, fun found hfound => ?_, fun word' colon' hword hcolon => ?_⟩
  · exact Locus.tokenOf_of_exprAfter hlocated hdivided.children hdivided.around_word
      hdivided.marksWord (by decide) hfound
  · exact Locus.tokenOf_of_exprAfter hlocated hdivided.children_colon hdivided.around_colon
      hdivided.marksColon (by decide) hfound
  · obtain ⟨rfl, hwordKind⟩ := hdivided.kind_word hword
    obtain ⟨rfl, hcolonKind⟩ := hdivided.kind_colon hcolon
    have hchild : colon' ∈ loop.children := by
      rw [hdivided.children_colon]
      simp
    have htoken := hdivided.marksColon.isToken hcolonKind (by decide)
    exact hdivided.exists_part hlocated hwordKind hcolonKind
      (start_lt_stop (Locus.mem_leaves_iff.2 ⟨hunder.child hchild, htoken⟩))

/-- A loop without an iterable has its body for one. -/
theorem loopIterable_eq_loopBody :
    ∃ loop ∈ (locus "var x = [for i in : y]").descendants, loop.kind = .forExpr ∧
      (∃ word, loop.tokenOf .inKw = some word) ∧ (∃ colon, loop.tokenOf .colon = some colon) ∧
      (∃ part ∈ loop.nodes, part.kind = .missing) ∧ loop.loopIterable = loop.loopBody ∧
      loop.loopBody.map Locus.ref = some ⟨.variableAccess, 20, 21⟩ := by
  have hloops : ((locus "var x = [for i in : y]").descendants.filter fun node =>
      node.kind = .forExpr).map (fun loop => (loop.loopIterable.map Locus.ref,
        loop.loopBody.map Locus.ref, (loop.tokenOf .inKw).map Locus.ref,
        (loop.tokenOf .colon).map Locus.ref)) =
      [(some ⟨.variableAccess, 20, 21⟩, some ⟨.variableAccess, 20, 21⟩, some ⟨.inKw, 15, 17⟩,
        some ⟨.colon, 18, 19⟩)] := by decide +kernel
  obtain ⟨loop, hfilter, hvalues⟩ := List.mem_map.1 (hloops ▸ List.mem_singleton_self _)
  obtain ⟨hmem, hkind⟩ := List.mem_filter.1 hfilter
  simp only [Prod.mk.injEq, Option.map_eq_some_iff] at hvalues
  obtain ⟨⟨iterable, hiterable, hiterableRef⟩, hbody, ⟨word, hword, -⟩, colon, hcolon, hcolonRef⟩ :=
    hvalues
  have hfor : loop.kind = .forExpr := of_decide_eq_true hkind
  obtain ⟨-, -, hparts⟩ := loopParts_parse "var x = [for i in : y]" loop hmem hfor
  obtain ⟨left, part, right, hnodes, -, -, hstop, -, hfound⟩ := hparts word colon hword hcolon
  rcases hfound with ⟨-, hpart, -⟩ | ⟨hmissing, hsame⟩
  · obtain rfl := Option.some.inj (hpart.symm.trans hiterable)
    have hstop' := congrArg (fun ref : NodeRef => ref.span.stop) hiterableRef
    have hstart := congrArg (fun ref : NodeRef => ref.span.start) hcolonRef
    simp only [Locus.ref] at hstop' hstart
    omega
  · exact ⟨loop, hmem, hfor, ⟨word, hword⟩, ⟨colon, hcolon⟩, ⟨part, by simp [hnodes], hmissing⟩,
      hsame, Option.map_eq_some_iff.2 hbody⟩

end Document

end Caret
