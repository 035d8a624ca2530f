import Caret.Proofs.Rule.Ends

/-!
# What a line can be left with

A token or a node that something has to come after is never the last one of its node, as what does
not come leaves a placeholder. So it is with every node on the way down to the last token of a tree:
the name of a parameter stands in front of a type, and a dot in front of a member, whether these are
written or not. Newlines stay in the midst of their nodes.
-/

namespace Caret

namespace Kind

/-- Nodes with children that something has to come after. -/
def leading : List (Kind × Kind) :=
  [(paramDecl, name), (outputDecl, name), (resourceDecl, name), (resourceDecl, resourceType),
   (resourceDecl, eq), (moduleDecl, eq), (decorator, atSign), (objectProperty, colon),
   (propertyAccess, dot)]

/-- Whether a child of a node asks for something behind it. -/
def dangles (home kind : Kind) : Bool := kind = newline || leading.contains (home, kind)

/-- Kinds that ask for nothing behind them, wherever they are. -/
def isFinal (kind : Kind) : Bool := kind ≠ newline && !(leading.map Prod.snd).contains kind

theorem dangles_of_isFinal {kind : Kind} (h : kind.isFinal = true) (home : Kind) :
    home.dangles kind = false := by
  simp only [isFinal, Bool.and_eq_true, decide_eq_true_eq, Bool.not_eq_true', ← Bool.not_eq_true,
    List.contains_iff_mem] at h
  rw [dangles, Bool.or_eq_false_iff, decide_eq_false_iff_not, ← Bool.not_eq_true,
    List.contains_iff_mem]
  exact ⟨h.1, fun hmem => h.2 (List.mem_map_of_mem (f := Prod.snd) hmem)⟩

theorem dangles_error {kind : Kind} (h : kind ≠ newline) : error.dangles kind = false := by
  cases kind <;> first | rfl | exact absurd rfl h

end Kind

namespace Tree

/-- A tree that can be the last child of a node of the given kind, and each last child on the way
down to its last token as well. -/
inductive Rests : Kind → Tree → Prop where
  | leaf {home kind : Kind} (text : String) : home.dangles kind = false → Rests home (leaf kind text)
  | missing (home : Kind) : Rests home (node .missing [])
  | node {home kind : Kind} (before : List Tree) {last : Tree} :
      home.dangles kind = false → Rests kind last → Rests home (node kind (before ++ [last]))

/-- Trees the last of which is one that can be the last child of a node of the given kind. -/
def EndsAtRest (home : Kind) (trees : List Tree) : Prop :=
  ∃ before last, trees = before ++ [last] ∧ last.Rests home

/-- A tree right below the root: a token, or a node that can be the last one. -/
def RestsAtTop (tree : Tree) : Prop := (∃ kind text, tree = leaf kind text) ∨ tree.Rests .root

variable {home kind : Kind} {left right trees : List Tree} {tree : Tree}

theorem Rests.dangles_eq_false (h : tree.Rests home) : home.dangles tree.kind = false := by
  cases h with
  | leaf text h => exact h
  | missing => exact Kind.dangles_of_isFinal (by decide) home
  | node before h => exact h

theorem EndsAtRest.node (h : EndsAtRest kind trees) (hkind : home.dangles kind = false) :
    (Tree.node kind trees).Rests home := by
  obtain ⟨before, last, rfl, hlast⟩ := h
  exact .node before hkind hlast

theorem endsAtRest_concat (before : List Tree) (h : tree.Rests home) :
    EndsAtRest home (before ++ [tree]) := ⟨before, tree, rfl, h⟩

theorem EndsAtRest.append (left : List Tree) (h : EndsAtRest home right) :
    EndsAtRest home (left ++ right) := by
  obtain ⟨before, last, rfl, hlast⟩ := h
  exact ⟨left ++ before, last, (List.append_assoc ..).symm, hlast⟩

/-- What follows may be nothing. -/
theorem EndsAtRest.append_of (h : EndsAtRest home left)
    (hright : right = [] ∨ EndsAtRest home right) : EndsAtRest home (left ++ right) := by
  rcases hright with rfl | hright
  · rwa [List.append_nil]
  · exact hright.append left

theorem restsAtTop_map_ofToken {tokens : List Token} :
    ∀ tree ∈ tokens.map ofToken, tree.RestsAtTop := by
  intro tree hmem
  obtain ⟨token, -, rfl⟩ := List.mem_map.1 hmem
  exact .inl ⟨_, _, rfl⟩

end Tree

namespace Rule

open Tree (EndsAtRest RestsAtTop)

variable {home kind wanted : Kind} {first second body inner : Rule} {input : List Lexeme}

theorem rests_andThen (h : EndsAtRest home (second (first input).rest).trees) :
    EndsAtRest home ((first ++ second) input).trees := h.append _

theorem rests_wrap {left : List Tree} (hkind : kind.isFinal = true)
    (h : EndsAtRest kind (left ++ (body input).trees)) (home : Kind) :
    EndsAtRest home (wrap kind left body input).trees :=
  Tree.endsAtRest_concat [] (h.node (Kind.dangles_of_isFinal hkind home))

theorem rests_node (hkind : kind.isFinal = true)
    (h : EndsAtRest kind (body (settle input).rest).trees) (home : Kind) :
    EndsAtRest home (node kind body input).trees := by
  rw [← List.nil_append (body _).trees] at h
  exact rests_andThen (rests_wrap hkind h home)

theorem rests_missing (home : Kind) (input : List Lexeme) :
    EndsAtRest home (node .missing done input).trees :=
  rests_andThen (Tree.endsAtRest_concat [] (.missing home))

theorem rests_absent (expected : Expected) (home : Kind) (input : List Lexeme) :
    EndsAtRest home (absent expected input).trees :=
  rests_andThen (rests_missing home _)

theorem rests_takeAs (heof : Rule.kind input ≠ .eof) (hkind : home.dangles kind = false) :
    EndsAtRest home (takeAs kind input).trees := by
  cases input with
  | nil => exact absurd rfl heof
  | cons lexeme rest =>
      rw [kind_cons] at heof
      rw [takeAs, if_neg heof]
      exact Tree.endsAtRest_concat _ (.leaf _ hkind)

theorem rests_take (hkind : Rule.kind input = kind) (heof : kind ≠ .eof)
    (hrests : home.dangles kind = false) : EndsAtRest home (take input).trees := by
  subst hkind
  exact rests_takeAs heof hrests

theorem rests_expect (heof : wanted ≠ .eof) (hkind : wanted.isFinal = true) (home : Kind)
    (input : List Lexeme) : EndsAtRest home (expect wanted input).trees := by
  unfold expect ifAt
  split
  · exact rests_take ‹_› heof (Kind.dangles_of_isFinal hkind home)
  · exact rests_absent _ _ _

theorem eq_nil_or_rests_takeUntil {stop : List Kind} (hstop : Kind.newline ∈ stop)
    (input : List Lexeme) : (takeUntil stop input).trees = [] ∨
      EndsAtRest .error (takeUntil stop input).trees := by
  induction input with
  | nil => exact .inl rfl
  | cons lexeme rest ih =>
      unfold takeUntil
      split
      · exact .inl rfl
      · rename_i hkind
        have hline : lexeme.kind ≠ .newline := by
          intro heq
          simp [heq, hstop] at hkind
        refine .inr (EndsAtRest.append_of ?_ ih)
        rw [Lexeme.tokens, List.map_append]
        exact Tree.endsAtRest_concat _ (.leaf _ (Kind.dangles_error hline))

/-- What is left out ends in front of a newline. -/
theorem rests_takeUntil {stop : List Kind} (hstop : Kind.newline ∈ stop)
    (hkind : Rule.kind input ∉ Kind.eof :: stop) :
    EndsAtRest .error (takeUntil stop input).trees := by
  refine (eq_nil_or_rests_takeUntil hstop _).resolve_left ?_
  rw [takeUntil_eq_sweep]
  exact trees_sweep_ne_nil (stopsAtEnd_upTo stop ()) (mt upTo_eq_none_iff.1 hkind)

theorem skipTo_cases (stop : List Kind) (cause : SyntaxError.Cause) (input : List Lexeme) :
    (skipTo stop cause input).trees = [] ∨ Rule.kind (settle input).rest ∉ Kind.eof :: stop ∧
      (skipTo stop cause input).trees = (node .error (takeUntil stop) input).trees := by
  change (unlessAt _ _ input).trees = [] ∨ _ ∧ (unlessAt _ _ input).trees = _
  rw [kind_settle]
  unfold unlessAt
  split
  · exact .inl rfl
  · exact .inr ⟨by simpa using ‹¬(Kind.eof :: stop).contains _ = true›, rfl⟩

theorem rests_tooDeep (home : Kind) (input : List Lexeme) :
    EndsAtRest home (tooDeep input).trees :=
  rests_andThen (rests_missing home _)

theorem rests_interpolation (expr : Rule) (home : Kind) (input : List Lexeme) :
    EndsAtRest home (interpolation expr input).trees :=
  rests_node (by decide) (rests_andThen (rests_expect (by decide) (by decide) _ _)) home

theorem rests_string {expr : Rule} (h : Rule.kind input = .stringStart) (home : Kind) :
    EndsAtRest home (string expr input).trees := by
  rw [← kind_settle] at h
  refine rests_node (by decide) ((rests_take h (by decide) rfl).append_of ?_) home
  refine trees_loop (motive := fun trees => trees = [] ∨ EndsAtRest .string trees) (.inl rfl) ?_
    (fun input => ?_) _
  · rintro left right (rfl | hleft) hright
    · exact hright
    · exact .inr (hleft.append_of hright)
  · generalize hstep : stringStep expr input = step
    cases stringRound_of_eq hstep with
    | text hkind | close hkind => exact .inr (rests_take hkind (by decide) rfl)
    | hole => exact .inr (rests_interpolation expr _ _)
    | unclosed => exact .inl rfl

/-- A list ends with its closing bracket or with a placeholder for it. -/
theorem rests_list {close : Kind} {startsItem : Kind → Bool} {item : Rule}
    {cause : SyntaxError.Cause} (hkind : kind.isFinal = true)
    (hclose : close ≠ .eof ∧ close.isFinal = true)
    (hless : ∀ input, startsItem (Rule.kind input) = true →
      (item input).rest.length < input.length) (home : Kind) (input : List Lexeme) :
    EndsAtRest home (list kind close startsItem item cause input).trees := by
  have hprogress : Progresses (listStep close startsItem item cause) := progresses_listStep hless
  refine rests_node hkind (rests_andThen ?_) home
  generalize (take (settle input).rest).rest = input
  induction input using loop_induction hprogress with
  | last input inner hchoose =>
      rw [loop_of_last hprogress hchoose]
      cases listRound_of_eq hchoose with
      | close _ hat => exact rests_take hat hclose.1 (Kind.dangles_of_isFinal hclose.2 kind)
      | unclosed => exact rests_absent _ _ _
  | again input inner hchoose ih =>
      rw [loop_of_again hprogress hchoose]
      exact ih.append _

/-- What the rules in brackets and holes need to know of the rule for expressions in them. -/
structure Resting (expr : Rule) : Prop where
  rests : ∀ home input, EndsAtRest home (expr input).trees
  less : ∀ input, startsExpr (Rule.kind input) = true → (expr input).rest.length < input.length
  spells : ∀ input, (expr input).Spells [] input

section Expr

variable {expr : Rule} (hexpr : Resting expr)

include hexpr

theorem rests_object (home : Kind) (input : List Lexeme) :
    EndsAtRest home (object expr input).trees :=
  rests_list (by decide) ⟨by decide, by decide⟩
    (fun _ hword => length_property_lt hexpr.spells hword) home input

theorem rests_array (home : Kind) (input : List Lexeme) :
    EndsAtRest home (array expr input).trees :=
  rests_list (by decide) ⟨by decide, by decide⟩
    (fun _ hstart => length_node_lt (hexpr.less _ (by rwa [kind_settle]))) home input

theorem rests_arguments (home : Kind) (input : List Lexeme) :
    EndsAtRest home (arguments expr input).trees :=
  rests_list (by decide) ⟨by decide, by decide⟩ hexpr.less home input

omit hexpr in
theorem rests_forExpr (home : Kind) (input : List Lexeme) :
    EndsAtRest home (forExpr expr input).trees :=
  rests_node (by decide) (rests_andThen (rests_expect (by decide) (by decide) _ _)) home

omit hexpr in
theorem rests_paren (home : Kind) (input : List Lexeme) :
    EndsAtRest home (paren expr input).trees :=
  rests_node (by decide) (rests_andThen (rests_expect (by decide) (by decide) _ _)) home

theorem rests_primary (home : Kind) (input : List Lexeme) :
    EndsAtRest home (primary expr input).trees := by
  have hliteral : ∀ kind ∈ literalKinds, kind ≠ .eof ∧ kind.isFinal = true := by decide
  obtain ⟨rule, hrule, heq⟩ := exists_primary expr input
  rw [heq]
  cases hrule with
  | literal hkind =>
      obtain ⟨heof, hfinal⟩ := hliteral _ hkind
      exact rests_node (by decide)
        (rests_take (kind_settle input) heof (Kind.dangles_of_isFinal hfinal _)) home
  | string hkind => exact rests_string hkind home
  | object => exact rests_object hexpr home input
  | loop => exact rests_forExpr home input
  | array => exact rests_array hexpr home input
  | paren => exact rests_paren home input
  | word hword =>
      refine rests_node (by decide) (rests_takeAs (fun heof => ?_) rfl) home
      rw [kind_settle] at heof
      rw [heof] at hword
      cases hword
  | absent => exact rests_absent _ home input

end Expr

/-- The expressions and operands of a level rest on what they end with, and chains keep it so. -/
structure Level.Rests (level : Level) : Prop where
  expr : ∀ home input, EndsAtRest home (level.expr input).trees
  unary : ∀ home input, EndsAtRest home (level.unary input).trees
  links : ∀ receiver input, (∀ home, EndsAtRest home receiver) →
    ∀ home, EndsAtRest home (level.links receiver input).trees
  operators : ∀ least left input, (∀ home, EndsAtRest home left) →
    ∀ home, EndsAtRest home (level.operators least left input).trees

namespace Level

variable {level : Level}

theorem Rests.binary (h : level.Rests) (least : Nat) (home : Kind) (input : List Lexeme) :
    EndsAtRest home (level.binary least input).trees :=
  rests_andThen (h.operators _ _ _ (fun home => h.unary home _) home)

theorem Rests.ternary (h : level.Rests) (home : Kind) (input : List Lexeme) :
    EndsAtRest home (level.ternary input).trees := by
  refine rests_andThen ?_
  change EndsAtRest home (choice level _ _).trees
  unfold choice ifAt
  split
  · exact rests_wrap (by decide) ((rests_andThen (h.expr _ _)).append _) home
  · exact h.binary 1 home _

theorem rests_link (hexpr : Resting level.expr) (receiver : List Tree)
    (input : List Lexeme) (home : Kind) : EndsAtRest home (level.link receiver input).trees := by
  unfold Level.link
  split
  · refine rests_wrap (by decide) (EndsAtRest.append _ (rests_andThen ?_)) home
    unfold member
    split
    · rename_i hword
      refine rests_takeAs (fun heof => ?_) rfl
      rw [heof] at hword
      cases hword
    · exact rests_absent _ _ _
  · exact rests_wrap (by decide)
      (EndsAtRest.append _ (rests_andThen (rests_expect (by decide) (by decide) _ _))) home
  · exact rests_wrap (by decide) ((rests_arguments hexpr _ _).append _) home

theorem rests_above {below : Option Level} (hspells : ∀ level ∈ below, level.Spells)
    (hprogress : ∀ level ∈ below, level.Progresses) (h : ∀ level ∈ below, level.Rests) :
    (above below).Rests := by
  have hresting : ∀ level ∈ below, Resting level.expr := fun level hlevel =>
    ⟨(h level hlevel).expr, (hprogress level hlevel).expr, (hspells level hlevel).expr⟩
  have hexpr : ∀ home input, EndsAtRest home ((above below).expr input).trees := by
    intro home input
    cases below with
    | none => exact rests_tooDeep home input
    | some level => exact (h level rfl).ternary home input
  have hlinks : ∀ receiver input, (∀ home, EndsAtRest home receiver) →
      ∀ home, EndsAtRest home ((above below).links receiver input).trees := by
    intro receiver input hreceiver home
    rw [links_above]
    split
    · cases below with
      | none => exact rests_andThen (rests_tooDeep home _)
      | some level =>
          exact (h level rfl).links _ _
            (rests_link (hresting level rfl) receiver input) home
    · exact hreceiver home
  refine ⟨hexpr, fun home input => ?_, hlinks, fun least left input hleft home => ?_⟩
  · rw [unary_above]
    split
    · cases below with
      | none => exact rests_tooDeep home input
      | some level =>
          exact rests_node (by decide) (rests_andThen ((h level rfl).unary _ _)) home
    · refine rests_andThen (hlinks _ _ (fun home => rests_primary ?_ home _) home)
      exact ⟨hexpr, (progresses_above hspells hprogress).expr, (spells_above hspells).expr⟩
  · rw [operators_above]
    split
    · exact hleft home
    · split
      · exact hleft home
      · cases below with
        | none => exact rests_andThen (rests_tooDeep home _)
        | some level =>
            exact (h level rfl).operators _ _ _ (rests_wrap (by decide)
              ((rests_andThen ((h level rfl).binary _ _ _)).append _)) home

end Level

theorem rests_level (budget : Nat) : (level budget).Rests :=
  level_induction (fun _ hbelow known => Level.rests_above (known spells_level)
    (known progresses_level) hbelow) budget

/-! The rules of documents -/

theorem resting_expr : Resting expr :=
  ⟨(rests_level maxDepth).expr, (progresses_level maxDepth).expr, spells_expr⟩

theorem rests_decorator_body (input : List Lexeme) :
    EndsAtRest .decorator
      ((take ++ ifAt .ident outermost.chain (absent .decoratorName)) input).trees := by
  refine rests_andThen ?_
  unfold ifAt
  split
  · exact rests_andThen ((rests_level maxDepth).links _ _
      (fun home => rests_primary resting_expr home _) _)
  · exact rests_absent _ _ _

theorem rests_header (h : kind.isDeclaration = true) (input : List Lexeme) :
    EndsAtRest kind (header kind input).trees := by
  cases kind with
  | targetScopeDecl | varDecl | outputDecl | resourceDecl | moduleDecl =>
      exact rests_andThen (resting_expr.rests _ _)
  | paramDecl =>
      refine (rests_andThen ?_).append_of ?_
      · unfold typeName ifAt
        split
        · rename_i hident
          rw [← kind_settle] at hident
          exact rests_node (by decide) (rests_take hident (by decide) rfl) _
        · exact rests_absent _ _ _
      · unfold ifAt
        split
        · exact .inr (rests_andThen (resting_expr.rests _ _))
        · exact .inl rfl
  | _ => cases h

/-! What stands right below the root -/

/-- The trees of an outcome that stand right below the root. -/
def RestAtTop (trees : List Tree) : Prop := ∀ tree ∈ trees, tree.RestsAtTop

theorem RestAtTop.append {left right : List Tree} (h : RestAtTop left) (hright : RestAtTop right) :
    RestAtTop (left ++ right) := by
  intro tree hmem
  rcases List.mem_append.1 hmem with hmem | hmem
  · exact h tree hmem
  · exact hright tree hmem

theorem restAtTop_settle (input : List Lexeme) : RestAtTop (settle input).trees := by
  cases input with
  | nil => simp [RestAtTop, settle]
  | cons lexeme rest => exact Tree.restsAtTop_map_ofToken

theorem restAtTop_take (input : List Lexeme) : RestAtTop (take input).trees := by
  cases input with
  | nil => simp [RestAtTop, take, takeAs]
  | cons lexeme rest =>
      rw [take, takeAs]
      split
      · exact restAtTop_settle _
      · refine RestAtTop.append Tree.restsAtTop_map_ofToken fun tree hmem => ?_
        rw [List.mem_singleton.1 hmem]
        exact .inl ⟨_, _, rfl⟩

theorem restAtTop_takeNewlines (input : List Lexeme) : RestAtTop (takeNewlines input).trees := by
  obtain ⟨tokens, htrees⟩ := isFlat_takeNewlines input
  rw [htrees]
  exact Tree.restsAtTop_map_ofToken

theorem restAtTop_node (hkind : Kind.dangles .root kind = false)
    (h : EndsAtRest kind (body (settle input).rest).trees) :
    RestAtTop (node kind body input).trees := by
  refine RestAtTop.append (restAtTop_settle input) fun tree hmem => ?_
  rw [List.mem_singleton.1 hmem]
  exact .inr (h.node hkind)

theorem restAtTop_skipTo {stop : List Kind} (hstop : Kind.newline ∈ stop)
    (cause : SyntaxError.Cause) (input : List Lexeme) :
    RestAtTop (skipTo stop cause input).trees := by
  rcases skipTo_cases stop cause input with hnil | ⟨hkind, htrees⟩
  · simp [RestAtTop, hnil]
  · rw [htrees]
    exact restAtTop_node (by decide) (rests_takeUntil hstop hkind)

theorem restAtTop_decorators (input : List Lexeme) :
    RestAtTop (loop decoratorStep input).trees := by
  refine trees_loop (motive := RestAtTop) (by simp [RestAtTop]) RestAtTop.append (fun input => ?_) _
  generalize hstep : decoratorStep input = step
  cases decoratorRound_of_eq hstep with
  | decorator =>
      refine RestAtTop.append (RestAtTop.append ?_ ?_) (restAtTop_takeNewlines _)
      · exact restAtTop_node (by decide) (rests_decorator_body _)
      · unfold unlessAt
        split
        · simp [RestAtTop, done]
        · exact restAtTop_skipTo (by decide) _ _
  | done => simp [RestAtTop, Step.rule, done]

theorem restAtTop_undecorated {decorators : List Tree} (h : RestAtTop decorators)
    (input : List Lexeme) : RestAtTop (undecorated decorators input).trees := by
  obtain ⟨rule, hrule, heq⟩ := exists_undecorated decorators input
  rw [heq]
  cases hrule with
  | @declaration kind keyword _ _ _ hdeclaration =>
      refine RestAtTop.append (fun tree hmem => ?_) ?_
      · have hends : EndsAtRest kind ((takeAs keyword ++ header kind) input).trees :=
          rests_andThen (rests_header hdeclaration _)
        have hkind : Kind.dangles .root kind = false := by
          cases kind <;> first | rfl | cases hdeclaration
        rw [List.mem_singleton.1 hmem]
        exact .inr ((hends.append decorators).node hkind)
      · unfold endDeclaration unlessAt
        split
        · simp [RestAtTop, done]
        · split
          · simp [RestAtTop, done]
          · exact restAtTop_skipTo (by decide) _ _
  | alone => exact h
  | stray => exact RestAtTop.append h (restAtTop_skipTo (by decide) _ _)

theorem restAtTop_documentStep (input : List Lexeme) :
    RestAtTop ((documentStep input).rule input).trees := by
  generalize hstep : documentStep input = step
  cases documentRound_of_eq hstep with
  | fileEnd => exact restAtTop_settle input
  | newline => exact restAtTop_take input
  | declaration =>
      exact RestAtTop.append (restAtTop_settle input)
        (restAtTop_undecorated (restAtTop_decorators _) _)

/-- What stands right below the root are tokens and nodes that are not left dangling. -/
theorem restAtTop_document (input : List Lexeme) :
    RestAtTop (loop documentStep input).trees :=
  trees_loop (motive := RestAtTop) (by simp [RestAtTop]) RestAtTop.append restAtTop_documentStep
    input

end Rule

end Caret
