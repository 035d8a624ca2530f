import Caret.Proofs.Rule.Building

/-!
# What documents are built of

The children of the root are tokens, declarations, and nodes of the sorts that stand inside of
declarations. No declaration stands inside of another, whatever is wrong with a text.
-/

namespace Caret

open Tree (EndsWell FitsInside)

namespace Rule

/-! The rules of documents -/

theorem builder_expr : Builder expr :=
  ⟨(makes_level maxDepth).expr, endsInNode_expr, (progresses_level maxDepth).expr, spells_expr,
    (covered_level maxDepth).expr, (alone_level maxDepth).expr⟩

theorem makes_decorator (input : List Lexeme) : (decorator input).Makes FitsInside [] input := by
  refine makes_andThen (makes_loose rfl ?_ fun _ => ends_decorator_body _)
    (makes_unlessAt fun _ => makes_skipTo _ _ _)
  refine makes_andThen (makes_take _) (makes_ifAt (fun _ => ?_) fun _ => makes_absent _ _)
  exact makes_andThen (makes_settle _) (makes_into (makes_primary builder_expr _) fun hinput =>
    (makes_level maxDepth).links _ _ ⟨covered_primary _ _ hinput.led, endsInNode_primary _ _⟩)

theorem makes_decorators (input : List Lexeme) :
    (loop decoratorStep input).Makes FitsInside [] input := by
  refine makes_loop (fun input => ?_) input
  generalize hstep : decoratorStep input = step
  cases decoratorRound_of_eq hstep with
  | decorator => exact makes_andThen (makes_decorator input) (makes_takeNewlines _)
  | done => exact makes_done input

theorem makes_quoted {tag : Kind} (htag : Tree.isLoose tag = true) (expected : Expected)
    (input : List Lexeme) : (quoted tag expected input).Makes FitsInside [] input :=
  makes_ifAt (fun hkind => makes_loose htag (makes_string builder_expr (by rwa [kind_settle]))
    fun _ => (endsInNode_node _ _ _).ends) fun _ => makes_absent _ _

theorem makes_header (kind : Kind) (input : List Lexeme) :
    (header kind input).Makes FitsInside [] input := by
  have hexpr : ∀ input, (expr input).Makes FitsInside [] input := builder_expr.makes
  refine header_induction (motive := fun rule => ∀ input, (rule input).Makes FitsInside [] input)
    (fun hpart input => ?_) (fun hfirst hsecond input => makes_andThen (hfirst input) (hsecond _))
    input
  cases hpart with
  | name => exact makes_ifAt makes_name fun _ => makes_absent _ _
  | typeName =>
      refine makes_ifAt (fun hkind => ?_) fun _ => makes_absent _ _
      rw [← kind_settle] at hkind
      exact makes_loose rfl (makes_take _) fun _ => ends_take hkind ⟨by decide, rfl, fun _ => rfl⟩
  | resourceType | modulePath => exact makes_quoted rfl _ input
  | existing =>
      unfold existing
      split
      · exact makes_takeAs (kind_eq_of_isWordAt ‹_› ▸ .keyword rfl)
      · exact makes_done input
  | equals => exact makes_expect _ input
  | value => exact hexpr input
  | default =>
      exact makes_ifAt (fun _ => makes_andThen (makes_take _) (hexpr _)) fun _ => makes_done _
  | done => exact makes_done input

end Rule

/-! What is built -/

namespace Tree

/-- A tree in which the children of each node fit. -/
inductive Made (fits : Kind → List Tree → Prop) : Tree → Prop where
  | leaf (kind : Kind) (text : String) : Made fits (leaf kind text)
  | missing : Made fits (node .missing [])
  | node {kind : Kind} {children : List Tree} :
      fits kind children → (∀ child ∈ children, Made fits child) → Made fits (node kind children)

theorem Made.mono {fits fits' : Kind → List Tree → Prop} {tree : Tree} (h : tree.Made fits)
    (hfits : ∀ kind children, fits kind children → fits' kind children) : tree.Made fits' := by
  induction h with
  | leaf kind text => exact .leaf kind text
  | missing => exact .missing
  | node hnode _ ih => exact .node (hfits _ _ hnode) ih

theorem made_of_mem_tokens (fits : Kind → List Tree → Prop) {tokens : List Token} {tree : Tree}
    (h : tree ∈ tokens.map ofToken) : tree.Made fits := by
  obtain ⟨token, -, rfl⟩ := List.mem_map.1 h
  exact .leaf _ _

/-- A tree right below the root: a declaration, or what can stand inside of one. -/
def MadeAtTop (tree : Tree) : Prop :=
  tree.Made FitsInside ∨ ∃ kind children, tree = node kind children ∧
    kind.isDeclaration = true ∧ Fits kind children ∧ ∀ child ∈ children, child.Made FitsInside

theorem MadeAtTop.made {tree : Tree} (h : tree.MadeAtTop) : tree.Made Fits := by
  rcases h with hmade | ⟨kind, children, rfl, -, hfits, hchildren⟩
  · exact hmade.mono fun _ _ h => h.2
  · exact .node hfits fun child hmem => (hchildren child hmem).mono fun _ _ h => h.2

end Tree

namespace Rule

theorem Derives.made {fits : Kind → List Tree → Prop} {left trees : List Tree}
    {input rest : List Lexeme} (h : Derives fits left input trees rest)
    (hleft : ∀ tree ∈ left, tree.Made fits) : ∀ tree ∈ trees, tree.Made fits := by
  induction h with
  | done trees input => exact hleft
  | settle trees lead token rest =>
      intro tree hmem
      rcases List.mem_append.1 hmem with hmem | hmem
      · exact hleft tree hmem
      · exact Tree.made_of_mem_tokens fits hmem
  | take trees lead rest hkind hbecomes =>
      intro tree hmem
      rcases List.mem_append.1 hmem with hmem | hmem
      · exact hleft tree hmem
      · rcases List.mem_append.1 hmem with hmem | hmem
        · exact Tree.made_of_mem_tokens fits hmem
        · obtain rfl := List.mem_singleton.1 hmem
          exact .leaf _ _
  | absent trees hclean =>
      intro tree hmem
      rcases List.mem_append.1 hmem with hmem | hmem
      · exact hleft tree hmem
      · obtain rfl := List.mem_singleton.1 hmem
        exact .missing
  | wrap trees _ hfits ih =>
      intro tree hmem
      rcases List.mem_append.1 hmem with hmem | hmem
      · exact hleft tree (List.mem_append_left _ hmem)
      · obtain rfl := List.mem_singleton.1 hmem
        exact .node hfits (ih fun tree hmem => hleft tree (List.mem_append_right _ hmem))
  | trans _ _ ihfirst ihsecond => exact ihsecond (ihfirst hleft)

end Rule

/-- An outcome that is built from a sound input, with declarations right below the root alone. -/
def Outcome.MakesAtTop (outcome : Outcome) (left : List Tree) (input : List Lexeme) : Prop :=
  Rule.Sound input → Rule.Derives Tree.Fits left input outcome.trees outcome.rest ∧
    ((∀ tree ∈ left, tree.Made FitsInside) → ∀ tree ∈ outcome.trees, tree.MadeAtTop)

theorem Outcome.Makes.atTop {outcome : Outcome} {left : List Tree} {input : List Lexeme}
    (h : outcome.Makes FitsInside left input) : outcome.MakesAtTop left input := fun hinput =>
  ⟨(h hinput).mono fun _ _ hfits => hfits.2, fun hleft tree hmem =>
    .inl ((h hinput).made hleft tree hmem)⟩

namespace Rule

variable {first second : Rule} {left : List Tree} {input : List Lexeme}

theorem makesAtTop_andThen (hfirst : (first input).MakesAtTop left input)
    (hsecond : (second (first input).rest).MakesAtTop [] (first input).rest) :
    ((first ++ second) input).MakesAtTop left input := by
  intro hinput
  obtain ⟨hderives, htop⟩ := hfirst hinput
  obtain ⟨hmore, htop'⟩ := hsecond (hderives.sound hinput)
  have hframe := hmore.frame (first input).trees
  rw [List.append_nil] at hframe
  refine ⟨hderives.trans hframe, fun hleft tree hmem => ?_⟩
  rcases List.mem_append.1 hmem with hmem | hmem
  · exact htop hleft tree hmem
  · exact htop' (by simp) tree hmem

theorem makesAtTop_loop {choose : List Lexeme → Step}
    (h : ∀ input, ((choose input).rule input).MakesAtTop [] input) (input : List Lexeme) :
    (loop choose input).MakesAtTop [] input :=
  loop_of_rounds (p := fun input outcome => outcome.MakesAtTop [] input)
    (fun input => (makes_done input).atTop) makesAtTop_andThen h input

/-- The node of a declaration holds its keyword and does not end where something has to follow. -/
theorem fits_declaration {kind : Kind} {input : List Lexeme} (decorators : List Tree)
    (keyword : Kind) (hident : Rule.kind input = .ident) (hdeclaration : kind.isDeclaration = true) :
    Tree.Fits kind (decorators ++ ((takeAs keyword ++ header kind) input).trees) := by
  refine ⟨?_, (ends_andThen (ends_header hdeclaration _)).append _, ?_⟩
  · cases kind <;> first | exact ⟨rfl, by decide, by decide⟩ | cases hdeclaration
  · obtain ⟨text, hmem⟩ : ∃ text, .leaf keyword text ∈ (takeAs keyword input).trees := by
      cases input with
      | nil => cases hident
      | cons lexeme rest =>
          rw [kind_cons] at hident
          rw [takeAs, if_neg (by rw [hident]; decide)]
          exact ⟨_, List.mem_append_right _ List.mem_cons_self⟩
    exact Tree.shape_of_isDeclaration hdeclaration
      (List.mem_append_right _ (List.mem_append_left _ hmem))

theorem makesAtTop_undecorated (decorators : List Tree) (input : List Lexeme) :
    (undecorated decorators input).MakesAtTop decorators input := by
  have hend : ∀ input, (endDeclaration input).Makes FitsInside [] input := by
    intro input
    unfold endDeclaration
    split
    · exact makes_done input
    · exact makes_unlessAt fun _ => makes_skipTo _ _ _
  obtain ⟨rule, hrule, heq⟩ := exists_undecorated decorators input
  rw [heq]
  cases hrule with
  | @declaration kind keyword _ hident hkeyword hdeclaration =>
      refine makesAtTop_andThen ?_ (hend _).atTop
      have hbody : ((takeAs keyword ++ header kind) input).Makes FitsInside [] input :=
        makes_andThen (makes_takeAs (hident ▸ .keyword hkeyword)) (makes_header kind _)
      have hfits := fits_declaration decorators keyword hident hdeclaration
      intro hinput
      have hderives := (hbody hinput).frame decorators
      rw [List.append_nil] at hderives
      refine ⟨(hderives.mono fun _ _ h => h.2).wrap [] hfits, fun hleft tree hmem => .inr ?_⟩
      obtain rfl := List.mem_singleton.1 hmem
      exact ⟨_, _, rfl, hdeclaration, hfits, hderives.made hleft⟩
  | alone => exact (makes_keep decorators input).atTop
  | stray =>
      exact (makes_andThen (makes_keep decorators input) (makes_skipTo _ _ input)).atTop

theorem makesAtTop_declaration (input : List Lexeme) : (declaration input).MakesAtTop [] input := by
  refine makesAtTop_andThen (makes_settle input).atTop fun hinput => ?_
  have hdecorators := makes_decorators (settle input).rest hinput
  obtain ⟨hderives, htop⟩ := makesAtTop_undecorated (loop decoratorStep (settle input).rest).trees _
    (hdecorators.sound hinput)
  exact ⟨(hdecorators.mono fun _ _ h => h.2).trans hderives, fun _ =>
    htop (hdecorators.made (by simp))⟩

theorem makesAtTop_documentStep (input : List Lexeme) :
    ((documentStep input).rule input).MakesAtTop [] input := by
  generalize hstep : documentStep input = step
  cases documentRound_of_eq hstep with
  | fileEnd => exact (makes_settle input).atTop
  | newline => exact (makes_take input).atTop
  | declaration => exact makesAtTop_declaration input

end Rule

end Caret
