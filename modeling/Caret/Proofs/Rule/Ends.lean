import Caret.Proofs.Rule.InStep

/-!
# What a node ends with

The last child of a node is another node or a token after which no expression is expected: where
one is expected and not found, a placeholder is put behind the token. So an expression can only be
written inside of a declaration or a decorator, never right behind one.
-/

namespace Caret

namespace Tree

/-- What can be the last child of a node of the given kind: a node, or a token that does not invite
an expression. -/
def Closes (home : Kind) : Tree → Prop
  | leaf kind text => kind.isTrivia = false ∧ Leaf.invites ⟨home, kind, text⟩ = false
  | node _ _ => True

/-- Trees the last of which can be the last child of a node of the given kind. -/
def EndsWell (home : Kind) (trees : List Tree) : Prop :=
  ∃ before last, trees = before ++ [last] ∧ last.Closes home

/-- Trees the last of which is a node. -/
def EndsInNode (trees : List Tree) : Prop :=
  ∃ before kind children, trees = before ++ [.node kind children]

variable {home : Kind} {left right trees : List Tree}

theorem EndsInNode.ends (h : EndsInNode trees) : EndsWell home trees := by
  obtain ⟨before, kind, children, rfl⟩ := h
  exact ⟨before, _, rfl, trivial⟩

theorem EndsInNode.append (left : List Tree) (h : EndsInNode right) :
    EndsInNode (left ++ right) := by
  obtain ⟨before, kind, children, rfl⟩ := h
  exact ⟨left ++ before, kind, children, (List.append_assoc ..).symm⟩

theorem endsInNode_node (before : List Tree) (kind : Kind) (children : List Tree) :
    EndsInNode (before ++ [.node kind children]) := ⟨before, kind, children, rfl⟩

theorem EndsWell.append (left : List Tree) (h : EndsWell home right) : EndsWell home (left ++ right) := by
  obtain ⟨before, last, rfl, hlast⟩ := h
  exact ⟨left ++ before, last, (List.append_assoc ..).symm, hlast⟩

/-- What follows may be nothing. -/
theorem EndsWell.append_of (h : EndsWell home left) (hright : right = [] ∨ EndsWell home right) :
    EndsWell home (left ++ right) := by
  rcases hright with rfl | hright
  · rwa [List.append_nil]
  · exact hright.append left

end Tree

namespace Rule

open Tree (EndsWell EndsInNode)

variable {home kind : Kind} {first second body inner : Rule} {input : List Lexeme}

/-! Rules that end in a node -/

theorem endsInNode_andThen (h : EndsInNode (second (first input).rest).trees) :
    EndsInNode ((first ++ second) input).trees := h.append _

theorem endsInNode_wrap (kind : Kind) (left : List Tree) (body : Rule) (input : List Lexeme) :
    EndsInNode (wrap kind left body input).trees := ⟨[], kind, _, rfl⟩

theorem endsInNode_node (kind : Kind) (body : Rule) (input : List Lexeme) :
    EndsInNode (node kind body input).trees :=
  endsInNode_andThen (endsInNode_wrap kind [] body _)

theorem endsInNode_absent (expected : Expected) (input : List Lexeme) :
    EndsInNode (absent expected input).trees :=
  endsInNode_andThen (endsInNode_node _ _ _)

theorem endsInNode_tooDeep (input : List Lexeme) : EndsInNode (tooDeep input).trees :=
  endsInNode_andThen (endsInNode_node _ _ _)

theorem endsInNode_primary (expr : Rule) (input : List Lexeme) :
    EndsInNode (primary expr input).trees := by
  rcases primary_eq_node_or_absent expr input with ⟨kind, body, -, heq⟩ | heq
  · rw [heq]
    exact endsInNode_node kind body input
  · rw [heq]
    exact endsInNode_absent _ input

/-- The expressions and operands of a level end in a node, and chains keep it so. -/
structure Level.EndsInNode (level : Level) : Prop where
  expr : ∀ input, Tree.EndsInNode (level.expr input).trees
  unary : ∀ input, Tree.EndsInNode (level.unary input).trees
  links : ∀ receiver input, Tree.EndsInNode receiver →
    Tree.EndsInNode (level.links receiver input).trees
  operators : ∀ least left input, Tree.EndsInNode left →
    Tree.EndsInNode (level.operators least left input).trees

namespace Level

variable {level : Level}

theorem EndsInNode.binary (h : level.EndsInNode) (least : Nat) (input : List Lexeme) :
    Tree.EndsInNode (level.binary least input).trees :=
  endsInNode_andThen (h.operators _ _ _ (h.unary _))

theorem EndsInNode.ternary (h : level.EndsInNode) (input : List Lexeme) :
    Tree.EndsInNode (level.ternary input).trees := by
  refine endsInNode_andThen ?_
  change Tree.EndsInNode (choice level _ _).trees
  unfold choice ifAt
  split
  · exact endsInNode_wrap _ _ _ _
  · exact h.binary 1 _

theorem endsInNode_link (level : Level) (receiver : List Tree) (input : List Lexeme) :
    Tree.EndsInNode (level.link receiver input).trees := by
  obtain ⟨kind, body, -, heq⟩ := link_eq_wrap level receiver input
  rw [heq]
  exact endsInNode_wrap kind receiver body input

theorem endsInNode_above {below : Option Level} (h : ∀ level ∈ below, level.EndsInNode) :
    (above below).EndsInNode := by
  have hlinks : ∀ receiver input, Tree.EndsInNode receiver →
      Tree.EndsInNode ((above below).links receiver input).trees := by
    intro receiver input hreceiver
    rw [links_above]
    split
    · cases below with
      | none => exact endsInNode_andThen (endsInNode_tooDeep _)
      | some level => exact (h level rfl).links _ _ (endsInNode_link level receiver input)
    · exact hreceiver
  refine ⟨fun input => ?_, fun input => ?_, hlinks, fun least left input hleft => ?_⟩
  · cases below with
    | none => exact endsInNode_tooDeep input
    | some level => exact (h level rfl).ternary input
  · rw [unary_above]
    split
    · cases below with
      | none => exact endsInNode_tooDeep input
      | some level => exact endsInNode_node _ _ _
    · exact endsInNode_andThen (hlinks _ _ (endsInNode_primary _ _))
  · rw [operators_above]
    split
    · exact hleft
    · split
      · exact hleft
      · cases below with
        | none => exact endsInNode_andThen (endsInNode_tooDeep _)
        | some level => exact (h level rfl).operators _ _ _ (endsInNode_wrap _ _ _ _)

end Level

theorem endsInNode_level (budget : Nat) : (level budget).EndsInNode :=
  level_induction (fun _ hbelow _ => Level.endsInNode_above hbelow) budget

/-! Rules that end in a token -/

theorem ends_andThen (h : EndsWell home (second (first input).rest).trees) :
    EndsWell home ((first ++ second) input).trees := h.append _

theorem ends_takeAs {tag : Kind} (heof : Rule.kind input ≠ .eof) (htrivia : tag.isTrivia = false)
    (hquiet : Leaf.invites ⟨home, tag, (current input).text⟩ = false) :
    EndsWell home (takeAs tag input).trees := by
  cases input with
  | nil => exact absurd rfl heof
  | cons lexeme rest =>
      rw [kind_cons] at heof
      rw [takeAs, if_neg heof]
      exact ⟨_, _, rfl, htrivia, hquiet⟩

theorem ends_take {tag : Kind} (hkind : Rule.kind input = tag)
    (htag : tag ≠ .eof ∧ tag.isTrivia = false ∧ ∀ text, Leaf.invites ⟨home, tag, text⟩ = false) :
    EndsWell home (take input).trees := by
  subst hkind
  exact ends_takeAs htag.1 htag.2.1 (htag.2.2 _)

theorem ends_expect {wanted : Kind} (htag : wanted ≠ .eof ∧ wanted.isTrivia = false ∧
    ∀ text, Leaf.invites ⟨home, wanted, text⟩ = false) (input : List Lexeme) :
    EndsWell home (expect wanted input).trees := by
  unfold expect ifAt
  split
  · exact ends_take ‹_› htag
  · exact (endsInNode_absent _ _).ends

theorem ends_tokens_append {lexeme : Lexeme} {rest : List Lexeme} {trees : List Tree}
    (h : Led (lexeme :: rest)) (hquiet : ∀ text, Leaf.invites ⟨home, lexeme.kind, text⟩ = false)
    (htrees : trees = [] ∨ EndsWell home trees) :
    EndsWell home (lexeme.tokens.map Tree.ofToken ++ trees) := by
  refine EndsWell.append_of ?_ htrees
  rw [Lexeme.tokens, List.map_append]
  exact ⟨_, _, rfl, (h lexeme List.mem_cons_self).2, hquiet _⟩

theorem eq_nil_or_ends_sweep {σ : Type} (next : σ → Kind → Option σ) (state : σ) (h : Led input) :
    (sweep next state input).trees = [] ∨ EndsWell .error (sweep next state input).trees := by
  fun_induction sweep next state input with
  | case1 state => exact .inl rfl
  | case2 state lexeme rest hnone => exact .inl rfl
  | case3 state lexeme rest after hsome more ih =>
      exact .inr (ends_tokens_append h (invites_error _) (ih h.tail))

theorem ends_takeUntil {stop : List Kind} (h : Led input)
    (hkind : Rule.kind input ∉ Kind.eof :: stop) : EndsWell .error (takeUntil stop input).trees := by
  rw [takeUntil_eq_sweep]
  exact (eq_nil_or_ends_sweep _ _ h).resolve_left
    (trees_sweep_ne_nil (stopsAtEnd_upTo stop ()) (mt upTo_eq_none_iff.1 hkind))

theorem ends_takeStray (h : Led input) (hkind : Rule.kind input ∉ [Kind.interpEnd, .eof]) :
    EndsWell .error (takeStray 0 input).trees := by
  rw [takeStray_eq_sweep]
  exact (eq_nil_or_ends_sweep _ _ h).resolve_left
    (trees_sweep_ne_nil (stopsAtEnd_overHoles 0) (mt overHoles_eq_none hkind))

theorem eq_nil_or_ends_unlessAt (kinds : List Kind) (h : EndsWell home (inner input).trees) :
    (unlessAt kinds inner input).trees = [] ∨ EndsWell home (unlessAt kinds inner input).trees := by
  unfold unlessAt
  split
  · exact .inl rfl
  · exact .inr h

theorem eq_nil_or_ends_skipTo (stop : List Kind) (cause : SyntaxError.Cause)
    (input : List Lexeme) :
    (skipTo stop cause input).trees = [] ∨ EndsWell home (skipTo stop cause input).trees := by
  change (unlessAt _ _ input).trees = [] ∨ EndsWell home (unlessAt _ _ input).trees
  exact eq_nil_or_ends_unlessAt _ (endsInNode_node _ _ _).ends

/-- What is so of nothing and of what two rounds leave together is so of a whole loop. -/
theorem trees_loop {motive : List Tree → Prop} {choose : List Lexeme → Step} (hnil : motive [])
    (happend : ∀ {left right}, motive left → motive right → motive (left ++ right))
    (h : ∀ input, motive ((choose input).rule input).trees) (input : List Lexeme) :
    motive (loop choose input).trees :=
  loop_of_rounds (p := fun _ outcome => motive outcome.trees) (fun _ => hnil) happend h input

/-- A loop ends as its rounds do, if it has any that leave something. -/
theorem eq_nil_or_ends_loop {choose : List Lexeme → Step}
    (h : ∀ input, ((choose input).rule input).trees = [] ∨
      EndsWell home ((choose input).rule input).trees) (input : List Lexeme) :
    (loop choose input).trees = [] ∨ EndsWell home (loop choose input).trees := by
  refine trees_loop (motive := fun trees => trees = [] ∨ EndsWell home trees) (.inl rfl) ?_ h input
  rintro left right (rfl | hleft) hright
  · exact hright
  · exact .inr (hleft.append_of hright)

/-! The bodies of nodes -/

theorem ends_string_body {expr : Rule} (h : Rule.kind input = .stringStart) :
    EndsWell .string ((take ++ loop (stringStep expr)) input).trees := by
  refine (ends_take h ⟨by decide, rfl, fun _ => rfl⟩).append_of (eq_nil_or_ends_loop (fun input => ?_) _)
  unfold stringStep
  split
  · exact .inr (ends_take ‹_› ⟨by decide, rfl, fun _ => rfl⟩)
  · exact .inr (endsInNode_node _ _ _).ends
  · exact .inr (ends_take ‹_› ⟨by decide, rfl, fun _ => rfl⟩)
  · exact .inl rfl

/-- A list ends with its closing bracket or with a placeholder for it. -/
theorem ends_loop_listStep {close : Kind} {startsItem : Kind → Bool} {item : Rule}
    {cause : SyntaxError.Cause} (hprogress : Progresses (listStep close startsItem item cause))
    (hclose : close ≠ .eof ∧ close.isTrivia = false ∧
      ∀ text, Leaf.invites ⟨home, close, text⟩ = false) (input : List Lexeme) :
    EndsWell home (loop (listStep close startsItem item cause) input).trees := by
  induction input using loop_induction hprogress with
  | last input inner hchoose =>
      rw [loop_of_last hprogress hchoose]
      unfold listStep at hchoose
      dsimp only at hchoose
      split at hchoose
      · cases hchoose
      · split at hchoose
        · cases hchoose
          exact ends_take ‹_› hclose
        · split at hchoose
          · cases hchoose
            exact (endsInNode_absent _ _).ends
          · split at hchoose
            · cases hchoose
            · cases hchoose
  | again input inner hchoose ih =>
      rw [loop_of_again hprogress hchoose]
      exact ih.append _

section Expr

variable {expr : Rule} (hexpr : ∀ input, EndsInNode (expr input).trees)

include hexpr

theorem ends_propertyValue (input : List Lexeme) : EndsWell home (propertyValue expr input).trees := by
  unfold propertyValue ifAt
  split
  · exact ends_andThen (hexpr _).ends
  · exact (endsInNode_absent _ _).ends.append_of (eq_nil_or_ends_unlessAt _ (hexpr _).ends)

theorem ends_property_body (input : List Lexeme) :
    EndsWell .objectProperty ((propertyKey expr ++ propertyValue expr ++
      unlessAt (.newline :: .comma :: closers)
        (skipTo [.newline, .comma, .rBrace] .afterProperty)) input).trees := by
  refine (ends_andThen (ends_propertyValue hexpr _)).append_of ?_
  unfold unlessAt
  split
  · exact .inl rfl
  · exact eq_nil_or_ends_skipTo _ _ _

end Expr

/-! The rules of documents -/

theorem endsInNode_expr (input : List Lexeme) : EndsInNode (expr input).trees :=
  (endsInNode_level maxDepth).expr input

theorem endsInNode_chain (input : List Lexeme) : EndsInNode (outermost.chain input).trees :=
  endsInNode_andThen ((endsInNode_level maxDepth).links _ _ (endsInNode_primary _ _))

theorem ends_decorator_body (input : List Lexeme) :
    EndsWell home ((take ++ ifAt .ident outermost.chain (absent .decoratorName)) input).trees := by
  refine ends_andThen ?_
  unfold ifAt
  split
  · exact (endsInNode_chain _).ends
  · exact (endsInNode_absent _ _).ends

theorem ends_header {kind : Kind} (h : kind.isDeclaration = true) (input : List Lexeme) :
    EndsWell home (header kind input).trees := by
  cases kind with
  | targetScopeDecl | varDecl | outputDecl | resourceDecl | moduleDecl =>
      exact ends_andThen (endsInNode_expr _).ends
  | paramDecl =>
      -- a parameter ends in its type or, if it has one, in its default value
      refine (ends_andThen ?_).append_of ?_
      · unfold typeName ifAt
        split
        · exact (endsInNode_node _ _ _).ends
        · exact (endsInNode_absent _ _).ends
      · unfold ifAt
        split
        · exact .inr (ends_andThen (endsInNode_expr _).ends)
        · exact .inl rfl
  | _ => cases h

end Rule

end Caret
