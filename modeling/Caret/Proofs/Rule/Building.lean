import Caret.Proofs.Rule.Covered
import Caret.Proofs.Rule.Ends
import Caret.Proofs.Rule.Loops
import Caret.Text.Identifier

/-!
# How trees are built

Whatever the rules of the grammar decide, they do no more than these: put trivia into the open node,
take a token, leave a placeholder, or put a node around what was read last. The nodes that they make
have the children that their kinds ask for. What holds of every tree that is built in this way is
shown by induction on the building, apart from the grammar.
-/

namespace Caret

namespace Tree

/-- What stands on the left of an operator or a link: nodes, with trivia in front of them. -/
structure IsOperand (trees : List Tree) : Prop where
  covered : ∀ tree ∈ trees, tree.IsCovered
  ends : EndsInNode trees

/-- The children that the nodes of some kinds have: a name is an identifier, a loop starts with a
bracket, is divided by its word and its colon, and ends with a bracket or without it, a member access
ends with a dot and a name or none, and a declaration has a keyword. -/
def Shape : Kind → List Tree → Prop
  | .name, children => ∃ text, children = [.leaf .ident text] ∧ Identifier.isValid text = true
  | .forExpr, children => IsDivided children ∧ ∃ opening middle last,
      children = .leaf .lBrack opening :: (middle ++ [last]) ∧
        ((∃ closing, last = .leaf .rBrack closing) ∨ last = .node .missing [])
  | .propertyAccess, children => ∃ (receiver : List Tree) (dot : String) (lead : List Token),
      ∃ last, children = receiver ++ .leaf .dot dot :: (lead.map ofToken ++ [last]) ∧
        (∀ tree ∈ receiver, tree.IsCovered) ∧ (∀ token ∈ lead, token.isTrivia = true) ∧
          ((∃ name, last = .leaf .ident name) ∨ last = .node .missing [])
  | kind, children => kind.isDeclaration = true → ∃ keyword text, leaf keyword text ∈ children

/-- The kinds of nodes, other than the root and placeholders, whose children are not told by
`Shape`. -/
def isLoose (kind : Kind) : Bool :=
  !kind.isToken && !kind.isDeclaration &&
    decide (kind ∉ [Kind.root, .missing, .name, .forExpr, .propertyAccess])

/-- Whether some trees can be the children of a node that a rule makes. -/
structure Fits (kind : Kind) (children : List Tree) : Prop where
  isNode : kind.isToken = false ∧ kind ≠ .root ∧ kind ≠ .missing
  ends : EndsWell kind children
  shape : Shape kind children

/-- A node inside of a declaration or a decorator. -/
def FitsInside (kind : Kind) (children : List Tree) : Prop :=
  kind.isDeclaration = false ∧ Fits kind children

theorem fitsInside_of_isLoose {kind : Kind} {children : List Tree} (hkind : isLoose kind = true)
    (hends : EndsWell kind children) : FitsInside kind children := by
  have hshape : Shape kind children := by
    cases kind <;> first | (intro h; cases h; done) | cases hkind
  simp only [isLoose, Bool.and_eq_true, Bool.not_eq_true', List.mem_cons, List.not_mem_nil,
    or_false, decide_eq_true_eq, not_or] at hkind
  exact ⟨hkind.1.2, ⟨hkind.1.1, hkind.2.1, hkind.2.2.1⟩, hends, hshape⟩

theorem shape_of_isDeclaration {kind keyword : Kind} {text : String} {children : List Tree}
    (hkind : kind.isDeclaration = true) (hmem : leaf keyword text ∈ children) :
    Shape kind children := by
  have hshape : ∃ keyword text, leaf keyword text ∈ children := ⟨_, _, hmem⟩
  cases kind <;> first | (intro _; exact hshape) | cases hkind

end Tree

open Tree (EndsWell EndsInNode IsOperand FitsInside fitsInside_of_isLoose)

namespace Rule

/-- The first token has no trivia in front of it. -/
def Clean (input : List Lexeme) : Prop := ∀ lexeme ∈ input.head?, lexeme.lead = []

/-- The ways in which rules get from some trees and an input to other trees and what is left of the
input, with nodes whose children fit. -/
inductive Derives (fits : Kind → List Tree → Prop) :
    List Tree → List Lexeme → List Tree → List Lexeme → Prop where
  | done (trees : List Tree) (input : List Lexeme) : Derives fits trees input trees input
  | settle (trees : List Tree) (lead : List Token) (token : Token) (rest : List Lexeme) :
      Derives fits trees (⟨lead, token⟩ :: rest) (trees ++ lead.map Tree.ofToken)
        (⟨[], token⟩ :: rest)
  | take (trees : List Tree) (lead : List Token) {token : Token} {kind : Kind}
      (rest : List Lexeme) (hkind : token.kind ≠ .eof) (hbecomes : token.kind.Becomes kind) :
      Derives fits trees (⟨lead, token⟩ :: rest)
        (trees ++ (lead.map Tree.ofToken ++ [.leaf kind token.text])) rest
  | absent (trees : List Tree) {input : List Lexeme} (hclean : Clean input) :
      Derives fits trees input (trees ++ [.node .missing []]) input
  | wrap (trees : List Tree) {left children : List Tree} {input rest : List Lexeme} {kind : Kind}
      (hderives : Derives fits left input children rest) (hfits : fits kind children) :
      Derives fits (trees ++ left) input (trees ++ [.node kind children]) rest
  | trans {first second third : List Tree} {input middle rest : List Lexeme} :
      Derives fits first input second middle → Derives fits second middle third rest →
        Derives fits first input third rest

namespace Derives

variable {fits fits' : Kind → List Tree → Prop} {left trees : List Tree}
  {input rest : List Lexeme}

/-- What is there already stays in front. -/
theorem frame (before : List Tree) (h : Derives fits left input trees rest) :
    Derives fits (before ++ left) input (before ++ trees) rest := by
  induction h with
  | done trees input => exact .done _ _
  | settle trees lead token rest =>
      rw [← List.append_assoc]
      exact .settle _ _ _ _
  | take trees lead rest hkind hbecomes =>
      rw [← List.append_assoc]
      exact .take _ _ _ hkind hbecomes
  | absent trees hclean =>
      rw [← List.append_assoc]
      exact .absent _ hclean
  | wrap trees hderives hfits _ =>
      rw [← List.append_assoc, ← List.append_assoc]
      exact .wrap _ hderives hfits
  | trans _ _ ihfirst ihsecond => exact ihfirst.trans ihsecond

theorem mono (h : Derives fits left input trees rest)
    (hfits : ∀ kind children, fits kind children → fits' kind children) :
    Derives fits' left input trees rest := by
  induction h with
  | done trees input => exact .done _ _
  | settle trees lead token rest => exact .settle _ _ _ _
  | take trees lead rest hkind hbecomes => exact .take _ _ _ hkind hbecomes
  | absent trees hclean => exact .absent _ hclean
  | wrap trees _ hinner ih => exact .wrap _ ih (hfits _ _ hinner)
  | trans _ _ ihfirst ihsecond => exact ihfirst.trans ihsecond

/-- Building reads the input. -/
theorem reads (h : Derives fits left input trees rest) :
    ∃ leaves, Reads input leaves rest ∧ Tree.leavesAll trees = Tree.leavesAll left ++ leaves := by
  induction h with
  | done trees input => exact ⟨[], .done _, by simp⟩
  | settle trees lead token rest =>
      exact ⟨_, .settle lead token rest, by rw [Tree.leavesAll_append, Tree.leavesAll_map_ofToken]⟩
  | take trees lead rest hkind hbecomes =>
      refine ⟨_, .take lead rest hkind hbecomes, ?_⟩
      rw [Tree.leavesAll_append, Tree.leavesAll_append, Tree.leavesAll_map_ofToken]
      rfl
  | absent trees hclean =>
      exact ⟨[], .done _, by simp [Tree.leavesAll_append, Tree.leavesAll, Tree.leaves]⟩
  | wrap trees _ _ ih =>
      obtain ⟨leaves, hreads, htrees⟩ := ih
      refine ⟨leaves, hreads, ?_⟩
      rw [Tree.leavesAll_append, Tree.leavesAll_append, Tree.leavesAll, Tree.leaves, htrees]
      simp [Tree.leavesAll]
  | trans _ _ ihfirst ihsecond =>
      obtain ⟨leaves, hreads, htrees⟩ := ihfirst
      obtain ⟨more, hmore, htrees'⟩ := ihsecond
      exact ⟨leaves ++ more, hreads.trans hmore, by rw [htrees', htrees, List.append_assoc]⟩

end Derives

/-- An input as it is made from tokens: trivia is in front of other tokens, no token is a
placeholder, and identifiers are spelled like identifiers. -/
structure Sound (input : List Lexeme) : Prop where
  led : Led input
  present : ∀ token ∈ input.map Lexeme.token, token.kind ≠ .missing
  valid : ∀ token ∈ input.map Lexeme.token, token.kind = .ident →
    Identifier.isValid token.text = true

theorem Sound.tail {lexeme : Lexeme} {rest : List Lexeme} (h : Sound (lexeme :: rest)) :
    Sound rest :=
  ⟨h.led.tail, fun token hmem => h.present token (List.mem_cons_of_mem _ hmem),
    fun token hmem => h.valid token (List.mem_cons_of_mem _ hmem)⟩

theorem Derives.sound {fits : Kind → List Tree → Prop} {left trees : List Tree}
    {input rest : List Lexeme} (h : Derives fits left input trees rest) (hinput : Sound input) :
    Sound rest := by
  obtain ⟨leaves, hreads, -⟩ := h.reads
  have hsubset := hreads.tokens_suffix.subset
  exact ⟨hreads.led hinput.led, fun token hmem => hinput.present token (hsubset hmem),
    fun token hmem => hinput.valid token (hsubset hmem)⟩

end Rule

/-- An outcome that is built from the given trees and a sound input. -/
def Outcome.Makes (outcome : Outcome) (fits : Kind → List Tree → Prop) (left : List Tree)
    (input : List Lexeme) : Prop :=
  Rule.Sound input → Rule.Derives fits left input outcome.trees outcome.rest

namespace Rule

variable {fits : Kind → List Tree → Prop} {first second body inner : Rule} {left : List Tree}
  {input : List Lexeme} {kind : Kind}

theorem makes_keep (left : List Tree) (input : List Lexeme) :
    (keep left input).Makes fits left input := fun _ => .done left input

theorem makes_done (input : List Lexeme) : (done input).Makes fits [] input :=
  makes_keep [] input

theorem makes_report (cause : SyntaxError.Cause) (input : List Lexeme) :
    (report cause input).Makes fits [] input := fun _ => .done [] input

theorem makes_andThen (hfirst : (first input).Makes fits left input)
    (hsecond : (second (first input).rest).Makes fits [] (first input).rest) :
    ((first ++ second) input).Makes fits left input := by
  intro hinput
  have hderives := hfirst hinput
  have hmore := (hsecond (hderives.sound hinput)).frame (first input).trees
  rw [List.append_nil] at hmore
  exact hderives.trans hmore

theorem makes_into {next : List Tree → Rule} (hfirst : (first input).Makes fits left input)
    (hnext : Sound input → (next (first input).trees (first input).rest).Makes fits
      (first input).trees (first input).rest) :
    (first.into next input).Makes fits left input := fun hinput =>
  (hfirst hinput).trans (hnext hinput ((hfirst hinput).sound hinput))

theorem makes_wrap (h : (body input).Makes fits [] input)
    (hfits : Sound input → fits kind (left ++ (body input).trees)) :
    (wrap kind left body input).Makes fits left input := by
  intro hinput
  have hderives := (h hinput).frame left
  rw [List.append_nil] at hderives
  exact hderives.wrap [] (hfits hinput)

theorem makes_settle (input : List Lexeme) : (settle input).Makes fits [] input := by
  intro _
  cases input with
  | nil => exact .done _ _
  | cons lexeme rest => exact .settle [] lexeme.lead lexeme.token rest

theorem clean_settle (input : List Lexeme) : Clean (settle input).rest := by
  cases input with
  | nil => simp [Clean, settle]
  | cons lexeme rest => simp [Clean, settle]

theorem makes_node (h : (body (settle input).rest).Makes fits [] (settle input).rest)
    (hfits : Sound (settle input).rest → fits kind (body (settle input).rest).trees) :
    (node kind body input).Makes fits [] input :=
  makes_andThen (makes_settle input) (makes_wrap h hfits)

theorem makes_takeAs (h : (Rule.kind input).Becomes kind) :
    (takeAs kind input).Makes fits [] input := by
  intro hinput
  cases input with
  | nil => exact .done _ _
  | cons lexeme rest =>
      rw [takeAs]
      split
      · exact makes_settle _ hinput
      · rename_i hkind
        exact .take [] lexeme.lead rest hkind h

theorem makes_take (input : List Lexeme) : (take input).Makes fits [] input :=
  makes_takeAs (.same _)

theorem makes_ifAt {yes no : Rule}
    (hyes : Rule.kind input = kind → (yes input).Makes fits left input)
    (hno : Rule.kind input ≠ kind → (no input).Makes fits left input) :
    (ifAt kind yes no input).Makes fits left input := by
  unfold ifAt
  split
  · exact hyes ‹_›
  · exact hno ‹_›

theorem makes_unlessAt {kinds : List Kind}
    (h : Rule.kind input ∉ kinds → (inner input).Makes fits [] input) :
    (unlessAt kinds inner input).Makes fits [] input := by
  unfold unlessAt
  split
  · exact makes_done input
  · exact h (by simpa using ‹¬kinds.contains (Rule.kind input) = true›)

theorem makes_missing (input : List Lexeme) : (node .missing done input).Makes fits [] input :=
  makes_andThen (makes_settle input) fun _ => .absent [] (clean_settle input)

theorem makes_absent (expected : Expected) (input : List Lexeme) :
    (absent expected input).Makes fits [] input :=
  makes_andThen (makes_report _ input) (makes_missing _)

theorem makes_expect (wanted : Kind) (input : List Lexeme) :
    (expect wanted input).Makes fits [] input :=
  makes_ifAt (fun _ => makes_take input) (fun _ => makes_absent _ input)

/-- The lexeme in front is taken whole, and the rest is read by a rule that looks at it alone. -/
theorem makes_cons {lexeme : Lexeme} {rest : List Lexeme} {more : Outcome}
    (hkind : lexeme.kind ≠ .eof) (h : more.Makes fits [] rest) :
    Outcome.Makes { more with trees := lexeme.tokens.map Tree.ofToken ++ more.trees } fits []
      (lexeme :: rest) := by
  intro hinput
  have hmore := (h hinput.tail).frame (lexeme.tokens.map Tree.ofToken)
  rw [List.append_nil] at hmore
  refine Derives.trans ?_ hmore
  rw [Lexeme.tokens, List.map_append]
  exact .take [] lexeme.lead rest hkind (.same _)

theorem makes_sweep {σ : Type} {next : σ → Kind → Option σ} (hend : StopsAtEnd next) (state : σ)
    (input : List Lexeme) : (sweep next state input).Makes fits [] input := by
  fun_induction sweep next state input with
  | case1 state => exact makes_done []
  | case2 state lexeme rest hnone => exact makes_done _
  | case3 state lexeme rest after hsome more ih => exact makes_cons (hend.ne_eof hsome) ih

theorem makes_takeNewlines (input : List Lexeme) : (takeNewlines input).Makes fits [] input := by
  rw [takeNewlines_eq_sweep]
  exact makes_sweep stopsAtEnd_overNewlines () input

theorem makes_takeNewlinesBefore (wanted : Kind) (input : List Lexeme) :
    (takeNewlinesBefore wanted input).Makes fits [] input := by
  unfold takeNewlinesBefore
  split
  · exact makes_takeNewlines input
  · exact makes_done input

theorem makes_takeUntil (stop : List Kind) (input : List Lexeme) :
    (takeUntil stop input).Makes fits [] input := by
  rw [takeUntil_eq_sweep]
  exact makes_sweep (stopsAtEnd_upTo stop) () input

theorem makes_takeStray (depth : Nat) (input : List Lexeme) :
    (takeStray depth input).Makes fits [] input := by
  rw [takeStray_eq_sweep]
  exact makes_sweep stopsAtEnd_overHoles depth input

theorem makes_loop {choose : List Lexeme → Step}
    (h : ∀ input, ((choose input).rule input).Makes fits [] input) (input : List Lexeme) :
    (loop choose input).Makes fits [] input :=
  loop_of_rounds (p := fun input outcome => outcome.Makes fits [] input) makes_done
    makes_andThen h input

/-! The rules that make nodes inside of declarations -/

/-- A node of a kind that asks for no certain children. -/
theorem makes_loose (hkind : Tree.isLoose kind = true)
    (h : (body (settle input).rest).Makes FitsInside [] (settle input).rest)
    (hends : Sound (settle input).rest → EndsWell kind (body (settle input).rest).trees) :
    (node kind body input).Makes FitsInside [] input :=
  makes_node h fun hinput => fitsInside_of_isLoose hkind (hends hinput)

theorem makes_skipTo (stop : List Kind) (cause : SyntaxError.Cause) (input : List Lexeme) :
    (skipTo stop cause input).Makes FitsInside [] input := by
  refine makes_andThen (makes_report cause input) (makes_unlessAt fun hkind => ?_)
  refine makes_loose rfl (makes_takeUntil stop _) fun hinput => ends_takeUntil hinput.led ?_
  rwa [kind_settle]

theorem makes_tooDeep (input : List Lexeme) : (tooDeep input).Makes FitsInside [] input :=
  makes_andThen (makes_skipTo _ _ input) (makes_missing _)

/-- What the rules in brackets and holes need to know of the rule for expressions in them. -/
structure Builder (expr : Rule) : Prop where
  makes : ∀ input, (expr input).Makes FitsInside [] input
  ends : ∀ input, EndsInNode (expr input).trees
  less : ∀ input, startsExpr (Rule.kind input) = true → (expr input).rest.length < input.length
  spells : ∀ input, (expr input).Spells [] input
  covered : expr.Covered
  alone : ∀ input, (expr input).IsAlone

section Expr

variable {expr : Rule} (hexpr : Builder expr)

include hexpr

theorem makes_interpolation (input : List Lexeme) :
    (interpolation expr input).Makes FitsInside [] input := by
  refine makes_loose rfl ?_ fun _ =>
    ends_andThen (ends_expect ⟨by decide, rfl, fun _ => rfl⟩ _)
  refine makes_andThen (makes_andThen (makes_andThen (makes_andThen (makes_andThen (makes_take _)
    (makes_takeNewlines _)) (hexpr.makes _)) (makes_takeNewlines _)) ?_) (makes_expect _ _)
  refine makes_unlessAt fun hkind => makes_andThen (makes_report _ _) ?_
  refine makes_loose rfl (makes_takeStray 0 _) fun hinput => ends_takeStray hinput.led ?_
  rwa [kind_settle]

theorem makes_string (h : Rule.kind input = .stringStart) :
    (string expr input).Makes FitsInside [] input := by
  refine makes_loose rfl ?_ fun _ => ends_string_body (by rwa [kind_settle])
  refine makes_andThen (makes_take _) (makes_loop (fun input => ?_) _)
  generalize hstep : stringStep expr input = step
  cases stringRound_of_eq hstep with
  | text | close => exact makes_take input
  | hole => exact makes_interpolation hexpr input
  | unclosed => exact makes_report _ input

theorem makes_property (h : startsProperty (Rule.kind input) = true) :
    (property expr input).Makes FitsInside [] input := by
  rw [← kind_settle] at h
  refine makes_loose rfl ?_ fun _ => ends_property_body hexpr.ends _
  refine makes_andThen (makes_andThen ?_ ?_) (makes_unlessAt fun _ => makes_skipTo _ _ _)
  · rw [← kind_settle] at h
    refine makes_loose rfl (makes_ifAt (makes_string hexpr) fun hquote => ?_) fun _ => ?_
    · simp only [startsProperty, hquote, decide_false, Bool.or_false] at h
      exact makes_takeAs (.name h)
    · unfold ifAt
      split
      · exact (endsInNode_node _ _ _).ends
      · rename_i hquote
        simp only [startsProperty, hquote, decide_false, Bool.or_false] at h
        refine ends_takeAs (fun heof => ?_) rfl rfl
        rw [heof] at h
        cases h
  · exact makes_ifAt (fun _ => makes_andThen (makes_take _) (hexpr.makes _))
      (fun _ => makes_andThen (makes_absent _ _) (makes_unlessAt fun _ => hexpr.makes _))

omit hexpr in
theorem makes_list {close : Kind} {startsItem : Kind → Bool} {item : Rule}
    {cause : SyntaxError.Cause} (hkind : Tree.isLoose kind = true)
    (hitem : ∀ input, startsItem (Rule.kind input) = true → (item input).Makes FitsInside [] input)
    (hless : ∀ input, startsItem (Rule.kind input) = true →
      (item input).rest.length < input.length)
    (hclose : close ≠ .eof ∧ close.isTrivia = false ∧
      ∀ text, Leaf.invites ⟨kind, close, text⟩ = false) (input : List Lexeme) :
    (list kind close startsItem item cause input).Makes FitsInside [] input := by
  refine makes_loose hkind (makes_andThen (makes_take _) (makes_loop (fun input => ?_) _)) fun _ =>
    ends_andThen (ends_loop_listStep (progresses_listStep hless) hclose _)
  generalize hstep : listStep close startsItem item cause input = step
  cases listRound_of_eq hstep with
  | newline | comma | close => exact makes_take input
  | unclosed => exact makes_absent _ input
  | item _ hstart => exact hitem input hstart
  | stray => exact makes_skipTo _ _ input

theorem makes_object (input : List Lexeme) : (object expr input).Makes FitsInside [] input :=
  makes_list rfl (fun _ hword => makes_property hexpr hword)
    (fun _ hword => length_property_lt hexpr.spells hword) ⟨by decide, rfl, fun _ => rfl⟩ input

theorem makes_array (input : List Lexeme) : (array expr input).Makes FitsInside [] input :=
  makes_list rfl (fun _ _ => makes_loose rfl (hexpr.makes _) fun _ => (hexpr.ends _).ends)
    (fun _ hstart => length_node_lt (hexpr.less _ (by rwa [kind_settle])))
    ⟨by decide, rfl, fun _ => rfl⟩ input

theorem makes_arguments (input : List Lexeme) :
    (arguments expr input).Makes FitsInside [] input :=
  makes_list rfl (fun input _ => hexpr.makes input) hexpr.less
    ⟨by decide, rfl, fun _ => rfl⟩ input

omit hexpr in
/-- A name is made where an identifier stands. -/
theorem makes_name (h : Rule.kind input = .ident) :
    (node .name take input).Makes FitsInside [] input := by
  refine makes_node (makes_take _) fun hinput => ?_
  have hident : Rule.kind (settle input).rest = .ident := by rwa [kind_settle]
  have hends : EndsWell .name (take (settle input).rest).trees :=
    ends_take hident ⟨by decide, rfl, fun _ => rfl⟩
  refine ⟨rfl, ⟨rfl, by decide, by decide⟩, hends, ?_⟩
  cases input with
  | nil => cases h
  | cons lexeme rest =>
      refine ⟨lexeme.token.text, ?_, hinput.valid _ List.mem_cons_self h⟩
      have hident : (Lexeme.mk [] lexeme.token).kind = .ident := h
      simp [settle, take, takeAs, kind_cons, hident]

omit hexpr in
theorem exists_last_expect {wanted : Kind} (hwanted : wanted ≠ .eof) (input : List Lexeme) :
    ∃ before last, (expect wanted input).trees = before ++ [last] ∧
      ((∃ text, last = .leaf wanted text) ∨ last = .node .missing []) := by
  unfold expect ifAt
  split
  · rename_i hkind
    cases input with
    | nil => exact absurd hkind.symm hwanted
    | cons lexeme rest =>
        rw [kind_cons] at hkind
        rw [take, takeAs, if_neg (hkind ▸ hwanted), kind_cons, hkind]
        exact ⟨_, _, rfl, .inl ⟨_, rfl⟩⟩
  · exact ⟨_, _, rfl, .inr rfl⟩

omit hexpr in
/-- What stands between two brackets, the closing one or a placeholder for it at the end. -/
theorem exists_between_brackets {opening closing : Kind} (body : Rule)
    (hopening : Rule.kind input = opening) (heof : opening ≠ .eof) (hclosing : closing ≠ .eof) :
    ∃ text middle last, ((take ++ (body ++ expect closing)) (settle input).rest).trees =
        .leaf opening text :: (middle ++ [last]) ∧
      ((∃ text, last = .leaf closing text) ∨ last = .node .missing []) := by
  cases input with
  | nil => exact absurd hopening.symm heof
  | cons lexeme rest =>
      have hlexeme : (Lexeme.mk [] lexeme.token).kind = opening := hopening
      have htake : take (settle (lexeme :: rest)).rest =
          ⟨[.leaf opening lexeme.token.text], [], rest⟩ := by
        simp [settle, take, takeAs, kind_cons, hlexeme, heof]
      rw [andThen_apply, htake, andThen_apply]
      obtain ⟨before, last, hbefore, hlast⟩ := exists_last_expect hclosing (body rest).rest
      refine ⟨lexeme.token.text, (body rest).trees ++ before, last, ?_, hlast⟩
      simp [hbefore]

/-- A loop starts with the bracket that opens it and ends with one, or with a placeholder for it. -/
theorem shape_forExpr (hinput : Led (settle input).rest) (hbracket : Rule.kind input = .lBrack)
    (hfor : isWordAt input.tail "for" = true) :
    Tree.Shape .forExpr ((take ++ takeAs .forKw ++ loopVariable ++ inKeyword ++ expr ++
      expect .colon ++ takeNewlines ++ expr ++
      unlessAt (.newline :: closers) (skipTo [.newline, .rBrack] .afterLoop) ++
      takeNewlinesBefore .rBrack ++ expect .rBrack) (settle input).rest).trees := by
  have hshape := exists_between_brackets (takeAs .forKw ++ loopVariable ++ inKeyword ++ expr ++
    expect .colon ++ takeNewlines ++ expr ++
    unlessAt (.newline :: closers) (skipTo [.newline, .rBrack] .afterLoop) ++
    takeNewlinesBefore .rBrack) hbracket (by decide) (by decide : Kind.rBrack ≠ .eof)
  have hbody := isDivided_forExpr hexpr.spells hexpr.covered hexpr.alone hinput
    (by rwa [kind_settle]) (kind_eq_of_isWordAt (isWordAt_rest_take hbracket hfor))
  refine ⟨hbody, ?_⟩
  simp only [andThen_assoc] at hshape ⊢
  exact hshape

theorem makes_forExpr (hbracket : Rule.kind input = .lBrack)
    (hfor : isWordAt input.tail "for" = true) :
    (forExpr expr input).Makes FitsInside [] input := by
  have hvariable : ∀ input, (loopVariable input).Makes FitsInside [] input := by
    intro input
    unfold loopVariable
    split
    · rename_i hword
      simp only [Bool.and_eq_true, decide_eq_true_eq] at hword
      exact makes_name hword.1
    · exact makes_absent _ input
  have hin : ∀ input, (inKeyword input).Makes FitsInside [] input := by
    intro input
    unfold inKeyword
    split
    · rename_i hword
      exact makes_takeAs (kind_eq_of_isWordAt hword ▸ .keyword rfl)
    · exact makes_absent _ input
  refine makes_node ?_ fun hinput => ⟨rfl, ⟨rfl, by decide, by decide⟩, ?_,
    shape_forExpr hexpr hinput.led hbracket hfor⟩
  · refine makes_andThen (makes_andThen (makes_andThen (makes_andThen (makes_andThen
      (makes_andThen (makes_andThen (makes_andThen (makes_andThen (makes_andThen (makes_take _)
      (makes_takeAs ?_)) (hvariable _)) (hin _)) (hexpr.makes _)) (makes_expect _ _))
      (makes_takeNewlines _)) (hexpr.makes _)) (makes_unlessAt fun _ => makes_skipTo _ _ _))
      (makes_takeNewlinesBefore _ _)) (makes_expect _ _)
    rw [kind_eq_of_isWordAt (isWordAt_rest_take hbracket hfor)]
    exact .keyword rfl
  · exact ends_andThen (ends_expect ⟨by decide, rfl, fun _ => rfl⟩ _)

theorem makes_paren (input : List Lexeme) : (paren expr input).Makes FitsInside [] input :=
  makes_loose rfl (makes_andThen (makes_andThen (makes_andThen (makes_andThen (makes_take _)
    (makes_takeNewlines _)) (hexpr.makes _)) (makes_takeNewlinesBefore _ _)) (makes_expect _ _))
    fun _ => ends_andThen (ends_expect ⟨by decide, rfl, fun _ => rfl⟩ _)

theorem makes_primary (input : List Lexeme) : (primary expr input).Makes FitsInside [] input := by
  have hliteral : ∀ tag ∈ literalKinds, tag ≠ .eof ∧ tag.isTrivia = false ∧
      ∀ text, Leaf.invites ⟨.literal, tag, text⟩ = false := by
    simp [literalKinds, Kind.isTrivia, Leaf.invites, Kind.awaits]
  obtain ⟨rule, hrule, heq⟩ := exists_primary expr input
  rw [heq]
  cases hrule with
  | literal hkind =>
      exact makes_loose rfl (makes_take _) fun _ =>
        ends_take (kind_settle input) (hliteral _ hkind)
  | string hkind => exact makes_string hexpr hkind
  | object => exact makes_object hexpr input
  | loop hbracket hfor => exact makes_forExpr hexpr hbracket hfor
  | array => exact makes_array hexpr input
  | paren => exact makes_paren hexpr input
  | word hword =>
      rw [← kind_settle] at hword
      refine makes_loose rfl (makes_takeAs (.name hword)) fun _ =>
        ends_takeAs (fun heof => ?_) rfl rfl
      rw [heof] at hword
      cases hword
  | absent => exact makes_absent _ input

end Expr

/-- The rules of a level build, and chains go on from operands. -/
structure Level.Makes (level : Level) : Prop where
  expr : ∀ input, (level.expr input).Makes FitsInside [] input
  unary : ∀ input, (level.unary input).Makes FitsInside [] input
  links : ∀ receiver input, IsOperand receiver →
    (level.links receiver input).Makes FitsInside receiver input
  operators : ∀ least left input, IsOperand left →
    (level.operators least left input).Makes FitsInside left input

namespace Level

variable {level : Level}

theorem isOperand_wrap {kind : Kind} (h : kind.isToken = false) (left : List Tree) (body : Rule)
    (input : List Lexeme) : IsOperand (wrap kind left body input).trees :=
  ⟨fun tree hmem => by
    obtain rfl := List.mem_singleton.1 hmem
    exact h, endsInNode_wrap _ _ _ _⟩

theorem Makes.binary (h : level.Makes) (hcovered : level.Covered) (hends : level.EndsInNode)
    (least : Nat) (input : List Lexeme) :
    (level.binary least input).Makes FitsInside [] input :=
  makes_andThen (makes_settle input) (makes_into (h.unary _) fun hinput =>
    h.operators _ _ _ ⟨hcovered.unary _ hinput.led, hends.unary _⟩)

theorem Makes.ternary (h : level.Makes) (hcovered : level.Covered)
    (hends : level.EndsInNode) (input : List Lexeme) :
    (level.ternary input).Makes FitsInside [] input := by
  rw [ternary_eq]
  refine makes_andThen (makes_settle input) (makes_into (h.binary hcovered hends 1 _) fun _ => ?_)
  refine makes_ifAt (fun _ => makes_wrap ?_ fun _ => ?_) fun _ => makes_keep _ _
  · exact makes_andThen (makes_andThen (makes_andThen (makes_take _) (h.expr _))
      (makes_expect _ _)) (h.expr _)
  · exact fitsInside_of_isLoose rfl ((ends_andThen (hends.expr _).ends).append _)

/-- What is read behind a dot is a name or a placeholder for it, with trivia in front. -/
theorem exists_trees_member {input : List Lexeme} (hinput : Led input) :
    ∃ (lead : List Token) (last : Tree),
      (member input).trees = lead.map Tree.ofToken ++ [last] ∧
      (∀ token ∈ lead, token.isTrivia = true) ∧
        ((∃ name, last = .leaf .ident name) ∨ last = .node .missing []) := by
  unfold member
  split
  · rename_i hword
    cases input with
    | nil => cases hword
    | cons lexeme rest =>
        have heof : lexeme.kind ≠ .eof := by
          intro heof
          rw [kind_cons, heof] at hword
          cases hword
        rw [takeAs, if_neg heof]
        exact ⟨_, _, rfl, (hinput lexeme List.mem_cons_self).1, .inl ⟨_, rfl⟩⟩
  · cases input with
    | nil => exact ⟨[], _, rfl, by simp, .inr rfl⟩
    | cons lexeme rest =>
        exact ⟨lexeme.lead, _, rfl, (hinput lexeme List.mem_cons_self).1, .inr rfl⟩

theorem shape_propertyAccess {receiver : List Tree} {input : List Lexeme} (hinput : Led input)
    (hreceiver : IsOperand receiver) (hdot : Rule.kind input = .dot) :
    Tree.Shape .propertyAccess (receiver ++ ((take ++ member) input).trees) := by
  cases input with
  | nil => cases hdot
  | cons lexeme rest =>
      rw [kind_cons] at hdot
      have htake : take (lexeme :: rest) =
          ⟨lexeme.lead.map Tree.ofToken ++ [.leaf .dot lexeme.token.text], [], rest⟩ := by
        rw [take, takeAs, if_neg (by rw [hdot]; decide), kind_cons, hdot]
      obtain ⟨lead, last, htrees, hlead, hlast⟩ := exists_trees_member hinput.tail
      rw [andThen_apply, htake]
      dsimp only
      rw [htrees]
      refine ⟨receiver ++ lexeme.lead.map Tree.ofToken, lexeme.token.text, lead, last, by simp,
        fun tree hmem => ?_, hlead, hlast⟩
      rcases List.mem_append.1 hmem with hmem | hmem
      · exact hreceiver.covered tree hmem
      · exact Tree.isCovered_of_mem_lead (hinput lexeme List.mem_cons_self).1 hmem

theorem Makes.link (h : level.Makes) (hspells : level.Spells) (hprogress : level.Progresses)
    (hcovered : level.Covered) (halone : level.IsAlone) (hends : level.EndsInNode)
    {receiver : List Tree} (hreceiver : IsOperand receiver) (input : List Lexeme) :
    (level.link receiver input).Makes FitsInside receiver input := by
  have hmember : ∀ input, (member input).Makes FitsInside [] input := by
    intro input
    unfold member
    split
    · exact makes_takeAs (.name ‹_›)
    · exact makes_absent _ input
  have hbuilder : Builder level.expr :=
    ⟨h.expr, hends.expr, hprogress.expr, hspells.expr, hcovered.expr, halone.expr⟩
  unfold Level.link
  split
  · rename_i hdot
    refine makes_wrap (makes_andThen (makes_take _) (hmember _)) fun hinput =>
      ⟨rfl, ⟨rfl, by decide, by decide⟩, (ends_andThen ?_).append _,
        shape_propertyAccess hinput.led hreceiver hdot⟩
    unfold member
    split
    · rename_i hword
      refine ends_takeAs (fun heof => ?_) rfl rfl
      rw [heof] at hword
      cases hword
    · exact (endsInNode_absent _ _).ends
  · refine makes_wrap (makes_andThen (makes_andThen (makes_take _) (h.expr _)) (makes_expect _ _))
      fun _ => fitsInside_of_isLoose rfl (EndsWell.append _ (ends_andThen ?_))
    exact ends_expect ⟨by decide, rfl, fun _ => rfl⟩ _
  · exact makes_wrap (makes_arguments hbuilder input) fun _ =>
      fitsInside_of_isLoose rfl (EndsWell.append _ (endsInNode_node _ _ _).ends)

theorem makes_above {below : Option Level} (hspells : ∀ level ∈ below, level.Spells)
    (hprogress : ∀ level ∈ below, level.Progresses) (hcovered : ∀ level ∈ below, level.Covered)
    (halone : ∀ level ∈ below, level.IsAlone) (hends : ∀ level ∈ below, level.EndsInNode)
    (h : ∀ level ∈ below, level.Makes) :
    (above below).Makes := by
  have hdeep : ∀ left input, (keep left ++ tooDeep) input |>.Makes FitsInside left input :=
    fun left input => makes_andThen (makes_keep left input) (makes_tooDeep input)
  have hexpr : ∀ input, ((above below).expr input).Makes FitsInside [] input := by
    intro input
    cases below with
    | none => exact makes_tooDeep input
    | some level =>
        exact (h level rfl).ternary (hcovered level rfl) (hends level rfl) input
  have hbuilder : Builder (above below).expr :=
    ⟨hexpr, (endsInNode_above hends).expr, (progresses_above hspells hprogress).expr,
      (spells_above hspells).expr, (covered_above hspells hcovered).expr, (alone_above halone).expr⟩
  have hlinks : ∀ receiver input, IsOperand receiver →
      ((above below).links receiver input).Makes FitsInside receiver input := by
    intro receiver input hreceiver
    rw [links_above]
    split
    · cases below with
      | none => exact hdeep receiver input
      | some level =>
          refine makes_into ((h level rfl).link (hspells level rfl) (hprogress level rfl)
            (hcovered level rfl) (halone level rfl) (hends level rfl) hreceiver input) fun hinput =>
            (h level rfl).links _ _ ?_
          exact ⟨covered_link level receiver input hinput.led, endsInNode_link level receiver input⟩
    · exact makes_keep receiver input
  refine ⟨hexpr, fun input => ?_, hlinks, fun least left input hleft => ?_⟩
  · rw [unary_above]
    split
    · cases below with
      | none => exact makes_tooDeep input
      | some level =>
          exact makes_loose rfl (makes_andThen (makes_take _) ((h level rfl).unary _)) fun _ =>
            ends_andThen ((hends level rfl).unary _).ends
    · exact makes_andThen (makes_settle input) (makes_into (makes_primary hbuilder _) fun hinput =>
        hlinks _ _ ⟨covered_primary _ _ hinput.led, endsInNode_primary _ _⟩)
  · rw [operators_above]
    split
    · exact makes_keep left input
    · rename_i precedence _
      split
      · exact makes_keep left input
      · cases below with
        | none => exact hdeep left input
        | some level =>
            refine makes_into (makes_wrap (makes_andThen (makes_take _) ((h level rfl).binary
              (hcovered level rfl) (hends level rfl) _ _)) fun _ => fitsInside_of_isLoose rfl ?_)
              fun _ => (h level rfl).operators _ _ _ (isOperand_wrap rfl _ _ _)
            exact (ends_andThen ((hends level rfl).binary _ _).ends).append _

end Level

theorem makes_level (budget : Nat) : (level budget).Makes :=
  level_induction (fun _ hbelow known => Level.makes_above (known spells_level)
    (known progresses_level) (known covered_level) (known alone_level) (known endsInNode_level)
    hbelow) budget

end Rule

end Caret
