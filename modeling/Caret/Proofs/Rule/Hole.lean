import Caret.Proofs.Rule.Kinds

/-!
# Holes stand in strings

The node of a hole is a child of the node of a string, whatever recovery does around it, and its
first child is the token that opens it. No other child of the hole is such a token: holes that are
skipped over lie in an error node. The type of a resource is a string and nothing else.
-/

namespace Caret

namespace Tree

def isHole : Tree → Bool
  | node .interpolation _ => true
  | _ => false

/-- The children of a hole: the token that opens it and no other such token. -/
def OpensHole (children : List Tree) : Prop :=
  ∃ text rest, children = leaf .interpStart text :: rest ∧ ∀ tree ∈ rest, tree.kind ≠ .interpStart

/-- The children of the type of a resource: a string with the quote that opens it. -/
def IsQuoted (children : List Tree) : Prop :=
  ∃ text rest, children = [node .string (leaf .stringStart text :: rest)]

mutual

/-- A tree in which holes are children of strings and start with the token that opens them, and in
which types of resources are strings. -/
def Neat : Tree → Prop
  | leaf _ _ => True
  | node kind children => (kind = .interpolation → OpensHole children) ∧
      (kind = .resourceType → IsQuoted children) ∧ NeatAll kind children

def NeatAll (home : Kind) : List Tree → Prop
  | [] => True
  | tree :: trees => (tree.isHole = true → home = .string) ∧ tree.Neat ∧ NeatAll home trees

end

theorem neatAll_append {home : Kind} {left right : List Tree} :
    NeatAll home (left ++ right) ↔ NeatAll home left ∧ NeatAll home right := by
  induction left with
  | nil => simp [NeatAll]
  | cons tree trees ih => simp [NeatAll, ih, and_assoc]

theorem neatAll_iff {home : Kind} {trees : List Tree} :
    NeatAll home trees ↔ ∀ tree ∈ trees, (tree.isHole = true → home = .string) ∧ tree.Neat := by
  induction trees with
  | nil => simp [NeatAll]
  | cons tree trees ih => simp [NeatAll, ih, and_assoc]

theorem neatAll_map_ofToken (home : Kind) (tokens : List Token) :
    NeatAll home (tokens.map ofToken) := by
  induction tokens with
  | nil => trivial
  | cons token tokens ih => exact ⟨by simp [ofToken, isHole], trivial, ih⟩

end Tree

namespace Rule

/-- The kinds of nodes that need no certain children. -/
def IsPlain (kind : Kind) : Prop := kind ≠ .interpolation ∧ kind ≠ .resourceType

instance : DecidablePred IsPlain := fun _ => inferInstanceAs (Decidable (_ ∧ _))

/-- A rule whose trees are neat as children of a node of the given kind. -/
def NeatIn (home : Kind) (rule : Rule) : Prop :=
  ∀ input, Led input → Tree.NeatAll home (rule input).trees ∧ Led (rule input).rest

/-- A rule whose trees are neat wherever they are put. -/
def Neat (rule : Rule) : Prop := ∀ home, rule.NeatIn home

variable {first second body inner : Rule} {home kind : Kind}

theorem neatIn_keep {trees : List Tree} (h : Tree.NeatAll home trees) : (keep trees).NeatIn home :=
  fun _ hinput => ⟨h, hinput⟩

theorem neatIn_done : done.NeatIn home := fun _ hinput => ⟨trivial, hinput⟩

theorem neatIn_report (cause : SyntaxError.Cause) : (report cause).NeatIn home :=
  fun _ hinput => ⟨trivial, hinput⟩

theorem NeatIn.andThen (hfirst : first.NeatIn home) (hsecond : second.NeatIn home) :
    (first ++ second).NeatIn home := by
  intro input hinput
  obtain ⟨htrees, hrest⟩ := hfirst input hinput
  obtain ⟨htrees', hrest'⟩ := hsecond _ hrest
  exact ⟨Tree.neatAll_append.2 ⟨htrees, htrees'⟩, hrest'⟩

theorem Neat.into {next : List Tree → Rule} (hfirst : first.Neat)
    (hnext : ∀ trees, (∀ home, Tree.NeatAll home trees) → (next trees).NeatIn home) :
    (first.into next).NeatIn home :=
  fun input hinput => hnext _ (fun home => (hfirst home input hinput).1) _
    (hfirst home input hinput).2

theorem NeatIn.wrap {left : List Tree} (hbody : body.NeatIn kind)
    (hleft : Tree.NeatAll kind left) (hkind : IsPlain kind) :
    (wrap kind left body).NeatIn home := by
  intro input hinput
  obtain ⟨htrees, hrest⟩ := hbody input hinput
  refine ⟨⟨fun hhole => ?_, ⟨fun h => absurd h hkind.1, fun h => absurd h hkind.2,
    Tree.neatAll_append.2 ⟨hleft, htrees⟩⟩, trivial⟩, hrest⟩
  unfold Tree.isHole at hhole
  split at hhole
  · rename_i heq
    exact absurd (Tree.node.inj heq).1 hkind.1
  · cases hhole

theorem neatIn_settle : settle.NeatIn home := by
  intro input hinput
  refine ⟨?_, (spells_settle input).led hinput⟩
  cases input with
  | nil => trivial
  | cons lexeme rest => exact Tree.neatAll_map_ofToken home lexeme.lead

theorem NeatIn.node (hbody : body.NeatIn kind) (hkind : IsPlain kind) :
    (node kind body).NeatIn home :=
  neatIn_settle.andThen (hbody.wrap trivial hkind)

theorem neatIn_takeAs (tag : Kind) : (takeAs tag).NeatIn home := by
  intro input hinput
  cases input with
  | nil => exact ⟨trivial, hinput⟩
  | cons lexeme rest =>
      rw [takeAs]
      split
      · exact neatIn_settle _ hinput
      · refine ⟨Tree.neatAll_append.2 ⟨Tree.neatAll_map_ofToken home _, ?_⟩, hinput.tail⟩
        exact ⟨by simp [Tree.isHole], trivial, trivial⟩

theorem neatIn_take : take.NeatIn home := fun input => neatIn_takeAs _ input

theorem NeatIn.ifAt {wanted : Kind} {yes no : Rule} (hyes : yes.NeatIn home)
    (hno : no.NeatIn home) : (ifAt wanted yes no).NeatIn home := by
  intro input hinput
  unfold Rule.ifAt
  split
  · exact hyes input hinput
  · exact hno input hinput

theorem NeatIn.unlessAt (h : inner.NeatIn home) (kinds : List Kind) :
    (unlessAt kinds inner).NeatIn home := by
  intro input hinput
  unfold Rule.unlessAt
  split
  · exact neatIn_done input hinput
  · exact h input hinput

theorem neatIn_absent (expected : Expected) : (absent expected).NeatIn home :=
  fun input hinput => (neatIn_report _).andThen (neatIn_done.node (by decide)) input hinput

theorem neatIn_expect (wanted : Kind) : (expect wanted).NeatIn home :=
  neatIn_take.ifAt (neatIn_absent _)

/-- Trees of tokens alone, by a rule that reads. -/
theorem IsFlat.neatIn {rule : Rule} (h : rule.IsFlat)
    (hspells : ∀ input, (rule input).Spells [] input) : rule.NeatIn home := by
  refine fun input hinput => ⟨?_, (hspells input).led hinput⟩
  obtain ⟨tokens, htrees⟩ := h input
  rw [htrees]
  exact Tree.neatAll_map_ofToken home tokens

theorem neatIn_takeNewlines : takeNewlines.NeatIn home :=
  isFlat_takeNewlines.neatIn spells_takeNewlines

theorem neatIn_takeNewlinesBefore (wanted : Kind) : (takeNewlinesBefore wanted).NeatIn home :=
  (isFlat_takeNewlinesBefore wanted).neatIn (spells_takeNewlinesBefore wanted)

theorem neatIn_takeUntil (stop : List Kind) : (takeUntil stop).NeatIn home :=
  (isFlat_takeUntil stop).neatIn (spells_takeUntil stop)

theorem neatIn_takeStray (depth : Nat) : (takeStray depth).NeatIn home :=
  (isFlat_takeStray depth).neatIn (spells_takeStray depth)

theorem neatIn_skipTo (stop : List Kind) (cause : SyntaxError.Cause) :
    (skipTo stop cause).NeatIn home :=
  (neatIn_report cause).andThen (((neatIn_takeUntil stop).node (by decide)).unlessAt _)

theorem neatIn_loop {choose : List Lexeme → Step}
    (h : ∀ input, Led input → Tree.NeatAll home ((choose input).rule input).trees ∧
      Led ((choose input).rule input).rest) : (loop choose).NeatIn home := by
  refine loop_of_rounds (p := fun input outcome => Led input →
    Tree.NeatAll home outcome.trees ∧ Led outcome.rest) neatIn_done ?_ h
  intro first second input hfirst hsecond hinput
  obtain ⟨htrees, hrest⟩ := hfirst hinput
  obtain ⟨htrees', hrest'⟩ := hsecond hrest
  exact ⟨Tree.neatAll_append.2 ⟨htrees, htrees'⟩, hrest'⟩

/-! The children of a hole -/

/-- A rule none of whose trees is a token that opens a hole. -/
def Shuns (rule : Rule) : Prop :=
  ∀ input, Led input → (∀ tree ∈ (rule input).trees, tree.kind ≠ .interpStart) ∧
    Led (rule input).rest

theorem Covered.shuns {rule : Rule} (h : rule.Covered)
    (hspells : ∀ input, (rule input).Spells [] input) : rule.Shuns :=
  h.only (p := (· ≠ .interpStart)) hspells fun kind hkind heq => by
    rw [heq] at hkind
    rcases hkind with hkind | hkind <;> cases hkind

theorem Shuns.andThen (hfirst : first.Shuns) (hsecond : second.Shuns) :
    (first ++ second).Shuns :=
  Only.andThen (p := (· ≠ .interpStart)) hfirst hsecond

theorem shuns_takeNewlines : takeNewlines.Shuns :=
  only_takeNewlines (p := (· ≠ .interpStart)) (fun _ => ne_of_isTrivia rfl) (by decide)

theorem shuns_expect {wanted : Kind} (h : wanted ≠ .interpStart) : (expect wanted).Shuns :=
  only_expect (p := (· ≠ .interpStart)) (fun _ => ne_of_isTrivia rfl) (by decide) h

/-! The rules that read expressions -/

section Expr

variable {expr : Rule} (hexpr : expr.Neat)

include hexpr

theorem neatIn_interpolation (hspells : ∀ input, (expr input).Spells [] input)
    (hcovered : expr.Covered) {input : List Lexeme} (hinput : Led input)
    (hstart : Rule.kind input = .interpStart) :
    Tree.NeatAll .string (interpolation expr input).trees ∧ Led (interpolation expr input).rest := by
  have hstray : (report .strayInHole ++ Rule.node .error (takeStray 0)).NeatIn .interpolation :=
    (neatIn_report _).andThen ((neatIn_takeStray 0).node (by decide))
  have hshunned : (report .strayInHole ++ Rule.node .error (takeStray 0)).Covered :=
    (covered_report _).andThen (covered_node _ rfl) fun input => (spells_report _ input).led
  have hclean : (unlessAt [.interpEnd, .eof]
      (report .strayInHole ++ Rule.node .error (takeStray 0))).Shuns := by
    refine (hshunned.unlessAt _).shuns fun input => spells_unlessAt _ ?_
    exact spells_andThen (spells_report _ _) (spells_node _ (spells_takeStray _ _))
  have htail : (takeNewlines ++ (expr ++ (takeNewlines ++ (unlessAt [.interpEnd, .eof]
      (report .strayInHole ++ Rule.node .error (takeStray 0)) ++ expect .interpEnd)))).Shuns :=
    shuns_takeNewlines.andThen ((hcovered.shuns hspells).andThen (shuns_takeNewlines.andThen
      (hclean.andThen (shuns_expect (by decide)))))
  have hbody : (take ++ takeNewlines ++ expr ++ takeNewlines ++ unlessAt [.interpEnd, .eof]
      (report .strayInHole ++ Rule.node .error (takeStray 0)) ++ expect .interpEnd).NeatIn
      .interpolation :=
    ((((neatIn_take.andThen neatIn_takeNewlines).andThen (hexpr _)).andThen
      neatIn_takeNewlines).andThen (hstray.unlessAt _)).andThen (neatIn_expect _)
  have hled := (spells_settle input).led hinput
  refine ⟨Tree.neatAll_append.2 ⟨(neatIn_settle input hinput).1, ?_⟩, (hbody _ hled).2⟩
  refine ⟨fun _ => rfl, ⟨fun _ => ?_, nofun, (hbody _ hled).1⟩, trivial⟩
  cases input with
  | nil => cases hstart
  | cons lexeme rest =>
      have hkind : lexeme.kind = .interpStart := hstart
      refine ⟨lexeme.token.text, _, ?_, (htail rest hinput.tail).1⟩
      simp only [andThen_assoc]
      rw [andThen_apply]
      have htake : take (settle (lexeme :: rest)).rest =
          ⟨[.leaf .interpStart lexeme.token.text], [], rest⟩ := by
        have hne : (Lexeme.mk [] lexeme.token).kind = .interpStart := hkind
        simp [settle, take, takeAs, kind_cons, hne]
      rw [htake]
      rfl

theorem neatIn_string (hspells : ∀ input, (expr input).Spells [] input)
    (hcovered : expr.Covered) : (string expr).NeatIn home := by
  refine NeatIn.node (neatIn_take.andThen (neatIn_loop fun input hinput => ?_)) (by decide)
  generalize hstep : stringStep expr input = step
  cases stringRound_of_eq hstep with
  | text | close => exact neatIn_take input hinput
  | hole hkind => exact neatIn_interpolation hexpr hspells hcovered hinput hkind
  | unclosed => exact neatIn_report _ input hinput

end Expr

section Parts

variable {expr : Rule} (hexpr : expr.Neat) (hstring : (string expr).Neat)

include hexpr hstring

theorem neatIn_property : (property expr).NeatIn home :=
  NeatIn.node (((NeatIn.node ((hstring _).ifAt (neatIn_takeAs _)) (by decide)).andThen
    ((neatIn_take.andThen (hexpr _)).ifAt ((neatIn_absent _).andThen ((hexpr _).unlessAt _)))).andThen
    ((neatIn_skipTo _ _).unlessAt _)) (by decide)

omit hexpr hstring in
theorem neatIn_list {item : Rule} (hitem : item.Neat) (hkind : IsPlain kind) (close : Kind)
    (startsItem : Kind → Bool) (cause : SyntaxError.Cause) :
    (list kind close startsItem item cause).NeatIn home := by
  refine NeatIn.node (neatIn_take.andThen (neatIn_loop fun input hinput => ?_)) hkind
  generalize hstep : listStep close startsItem item cause input = step
  cases listRound_of_eq hstep with
  | newline | comma | close => exact neatIn_take input hinput
  | unclosed => exact neatIn_absent _ input hinput
  | item => exact hitem _ input hinput
  | stray => exact neatIn_skipTo _ _ input hinput

omit hstring in
theorem neatIn_forExpr : (forExpr expr).NeatIn home := by
  have hvariable : loopVariable.NeatIn .forExpr := by
    intro input hinput
    unfold loopVariable
    split
    · exact neatIn_take.node (by decide) input hinput
    · exact neatIn_absent _ input hinput
  have hin : inKeyword.NeatIn .forExpr := by
    intro input hinput
    unfold inKeyword
    split
    · exact neatIn_takeAs _ input hinput
    · exact neatIn_absent _ input hinput
  exact NeatIn.node ((((((((((neatIn_take.andThen (neatIn_takeAs _)).andThen hvariable).andThen
    hin).andThen (hexpr _)).andThen (neatIn_expect _)).andThen neatIn_takeNewlines).andThen
    (hexpr _)).andThen ((neatIn_skipTo _ _).unlessAt _)).andThen
    (neatIn_takeNewlinesBefore _)).andThen (neatIn_expect _)) (by decide)

theorem neatIn_primary : (primary expr).NeatIn home := by
  intro input hinput
  obtain ⟨rule, hrule, heq⟩ := exists_primary expr input
  rw [heq]
  cases hrule with
  | literal => exact neatIn_take.node (by decide) input hinput
  | string => exact hstring _ input hinput
  | object =>
      exact neatIn_list (fun _ => neatIn_property hexpr hstring) (by decide) _ _ _ input hinput
  | loop => exact neatIn_forExpr hexpr input hinput
  | array =>
      exact neatIn_list (fun _ => (hexpr _).node (by decide)) (by decide) _ _ _ input hinput
  | paren =>
      exact NeatIn.node ((((neatIn_take.andThen neatIn_takeNewlines).andThen (hexpr _)).andThen
        (neatIn_takeNewlinesBefore _)).andThen (neatIn_expect _)) (by decide) input hinput
  | word => exact (neatIn_takeAs _).node (by decide) input hinput
  | absent => exact neatIn_absent _ input hinput

end Parts

theorem neatIn_tooDeep : tooDeep.NeatIn home :=
  (neatIn_skipTo _ _).andThen (neatIn_done.node (by decide))

/-- The rules of a level build neat trees, and chains keep them so. -/
structure Level.Neat (level : Level) : Prop where
  expr : level.expr.Neat
  unary : level.unary.Neat
  links : ∀ receiver, (∀ home, Tree.NeatAll home receiver) → (level.links receiver).Neat
  operators : ∀ least left, (∀ home, Tree.NeatAll home left) → (level.operators least left).Neat

namespace Level

variable {level : Level}

theorem Neat.binary (h : level.Neat) (least : Nat) : (level.binary least).Neat := fun home =>
  neatIn_settle.andThen (Rule.Neat.into h.unary fun left hleft => h.operators least left hleft home)

theorem Neat.ternary (h : level.Neat) : level.ternary.Neat := by
  intro home
  rw [ternary_eq]
  refine neatIn_settle.andThen (Rule.Neat.into (h.binary 1) fun test htest => ?_)
  exact NeatIn.ifAt (NeatIn.wrap (((neatIn_take.andThen (h.expr _)).andThen
    (neatIn_expect _)).andThen (h.expr _)) (htest _) (by decide)) (neatIn_keep (htest _))

theorem Neat.link (h : level.Neat) {receiver : List Tree}
    (hreceiver : ∀ home, Tree.NeatAll home receiver) : (level.link receiver).Neat := by
  intro home input hinput
  have hmember : member.NeatIn .propertyAccess := by
    intro input hinput
    unfold member
    split
    · exact neatIn_takeAs _ input hinput
    · exact neatIn_absent _ input hinput
  unfold Level.link
  split
  · exact (neatIn_take.andThen hmember).wrap (hreceiver _) (by decide) input hinput
  · exact ((neatIn_take.andThen (h.expr _)).andThen (neatIn_expect _)).wrap (hreceiver _)
      (by decide) input hinput
  · exact (neatIn_list h.expr (by decide) _ _ _).wrap (hreceiver _) (by decide) input hinput

theorem neat_above {below : Option Level} (hspells : ∀ level ∈ below, level.Spells)
    (hcovered : ∀ level ∈ below, level.Covered) (h : ∀ level ∈ below, level.Neat) :
    (above below).Neat := by
  have hexpr : (above below).expr.Neat := by
    intro home
    cases below with
    | none => exact neatIn_tooDeep
    | some level => exact (h level rfl).ternary home
  have hlinks : ∀ receiver, (∀ home, Tree.NeatAll home receiver) →
      ((above below).links receiver).Neat := by
    intro receiver hreceiver home input hinput
    rw [links_above]
    split
    · cases below with
      | none => exact (neatIn_keep (hreceiver _)).andThen neatIn_tooDeep input hinput
      | some level =>
          exact Rule.Neat.into ((h level rfl).link hreceiver) (fun trees htrees =>
            (h level rfl).links trees htrees home) input hinput
    · exact neatIn_keep (hreceiver _) input hinput
  have hstring : (string (above below).expr).Neat := fun home =>
    neatIn_string hexpr (spells_above hspells).expr (covered_above hspells hcovered).expr
  have hchain : (above below).chain.Neat := fun home =>
    neatIn_settle.andThen (Rule.Neat.into (fun _ => neatIn_primary hexpr hstring)
      fun receiver hreceiver => hlinks receiver hreceiver home)
  refine ⟨hexpr, fun home input hinput => ?_, hlinks, fun least left hleft home input hinput => ?_⟩
  · rw [unary_above]
    split
    · cases below with
      | none => exact neatIn_tooDeep input hinput
      | some level => exact (neatIn_take.andThen ((h level rfl).unary _)).node (by decide) input hinput
    · exact hchain home input hinput
  · rw [operators_above]
    split
    · exact neatIn_keep (hleft _) input hinput
    · rename_i precedence _
      split
      · exact neatIn_keep (hleft _) input hinput
      · cases below with
        | none => exact (neatIn_keep (hleft _)).andThen neatIn_tooDeep input hinput
        | some level =>
            exact Rule.Neat.into (fun _ => (neatIn_take.andThen
              ((h level rfl).binary _ _)).wrap (hleft _) (by decide)) (fun trees htrees =>
              (h level rfl).operators least trees htrees home) input hinput

end Level

theorem neat_level (budget : Nat) : (level budget).Neat :=
  level_induction (fun _ hbelow known => Level.neat_above (known spells_level)
    (known covered_level) hbelow) budget

/-! The rules of documents -/

theorem neat_expr : expr.Neat := (neat_level maxDepth).expr

theorem neat_string_expr : (string expr).Neat := fun _ =>
  neatIn_string neat_expr (spells_level maxDepth).expr (covered_level maxDepth).expr

theorem neatIn_decorator : decorator.NeatIn home := by
  have hchain : outermost.chain.Neat := by
    intro home
    exact neatIn_settle.andThen (Rule.Neat.into (fun _ => neatIn_primary neat_expr neat_string_expr)
      fun receiver hreceiver => (neat_level maxDepth).links receiver hreceiver home)
  exact (NeatIn.node (neatIn_take.andThen ((hchain _).ifAt (neatIn_absent _))) (by decide)).andThen
    ((neatIn_skipTo _ _).unlessAt _)

/-- The type of a resource starts with the quote of its string, as nothing comes in front of it in
its node. -/
theorem neatIn_quoted_resourceType : (quoted .resourceType .resourceType).NeatIn home := by
  intro input hinput
  unfold quoted ifAt
  split
  · rename_i hkind
    have hled := (spells_settle input).led hinput
    obtain ⟨htrees, hrest⟩ := neat_string_expr .resourceType (settle input).rest hled
    refine ⟨Tree.neatAll_append.2 ⟨(neatIn_settle input hinput).1, by simp [Tree.isHole],
      ⟨nofun, fun _ => ?_, htrees⟩, trivial⟩, hrest⟩
    cases input with
    | nil => cases hkind
    | cons lexeme rest =>
        have hne : (Lexeme.mk [] lexeme.token).kind = .stringStart := hkind
        refine ⟨lexeme.token.text, (loop (stringStep expr) rest).trees, ?_⟩
        have htake : take (⟨[], lexeme.token⟩ :: rest) =
            ⟨[.leaf .stringStart lexeme.token.text], [], rest⟩ := by
          simp [take, takeAs, kind_cons, hne]
        change [Tree.node .string ((take ++ loop (stringStep expr))
          (⟨[], lexeme.token⟩ :: rest)).trees] = _
        rw [andThen_apply, htake]
        rfl
  · exact neatIn_absent _ input hinput

theorem neatIn_header (kind : Kind) : (header kind).NeatIn home := by
  refine header_induction (motive := fun rule => rule.NeatIn home) (fun hpart => ?_) .andThen
  cases hpart with
  | name | typeName => exact (neatIn_take.node (by decide)).ifAt (neatIn_absent _)
  | resourceType => exact neatIn_quoted_resourceType
  | modulePath => exact ((neat_string_expr _).node (by decide)).ifAt (neatIn_absent _)
  | existing =>
      intro input hinput
      unfold existing
      split
      · exact neatIn_takeAs _ input hinput
      · exact neatIn_done input hinput
  | equals => exact neatIn_expect _
  | value => exact neat_expr home
  | default => exact (neatIn_take.andThen (neat_expr home)).ifAt neatIn_done
  | done => exact neatIn_done

theorem neatIn_undecorated {decorators : List Tree} (h : ∀ home, Tree.NeatAll home decorators) :
    (undecorated decorators).NeatIn home := by
  have hend : endDeclaration.NeatIn home := by
    intro input hinput
    unfold endDeclaration
    split
    · exact neatIn_done input hinput
    · exact (neatIn_skipTo _ _).unlessAt _ input hinput
  intro input hinput
  obtain ⟨rule, hrule, heq⟩ := exists_undecorated decorators input
  rw [heq]
  cases hrule with
  | @declaration node keyword _ _ _ hdeclaration =>
      have hnode : IsPlain node := by
        constructor <;> rintro rfl <;> cases hdeclaration
      exact (((neatIn_takeAs keyword).andThen (neatIn_header node)).wrap (h _) hnode).andThen hend
        input hinput
  | alone => exact neatIn_keep (h _) input hinput
  | stray => exact (neatIn_keep (h _)).andThen (neatIn_skipTo _ _) input hinput

theorem neatIn_document : document.NeatIn home := by
  have hdecorators : (loop decoratorStep).Neat := by
    refine fun home => neatIn_loop fun input hinput => ?_
    generalize hstep : decoratorStep input = step
    cases decoratorRound_of_eq hstep with
    | decorator => exact neatIn_decorator.andThen neatIn_takeNewlines input hinput
    | done => exact neatIn_done input hinput
  have hdeclaration : declaration.NeatIn .root :=
    neatIn_settle.andThen (hdecorators.into fun _ htrees => neatIn_undecorated htrees)
  refine NeatIn.wrap (neatIn_loop fun input hinput => ?_) trivial (by decide)
  generalize hstep : documentStep input = step
  cases documentRound_of_eq hstep with
  | fileEnd => exact neatIn_settle input hinput
  | newline => exact neatIn_take input hinput
  | declaration => exact hdeclaration input hinput

end Rule

end Caret
