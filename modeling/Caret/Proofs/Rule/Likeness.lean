import Caret.Proofs.Rule.Spelling

/-!
# Readings side by side

A rule decides by the kinds of the tokens and by the words that identifiers spell. Trivia, places and
the texts of all other tokens pass through it. So on two inputs that are alike in kinds and words it
does the same step by step, and its trees and errors are alike as far as those of each step are:
what it means to be alike is left open here.
-/

namespace Caret

namespace Rule

/-- A way to compare the lexemes, trees and errors of two readings. Alike lexemes cannot be told
apart by a rule, and what a rule makes of alike parts is alike. -/
structure Likeness where
  lexeme : Lexeme → Lexeme → Prop
  trees : List Tree → List Tree → Prop
  error : SyntaxError → SyntaxError → Prop
  kind_eq {x y : Lexeme} : lexeme x y → x.kind = y.kind
  text_eq {x y : Lexeme} : lexeme x y → x.kind = .ident → x.token.text = y.token.text
  settled {x y : Lexeme} : lexeme x y → lexeme { x with lead := [] } { y with lead := [] }
  lead {x y : Lexeme} : lexeme x y → trees (x.lead.map Tree.ofToken) (y.lead.map Tree.ofToken)
  leaf {x y : Lexeme} {tag : Kind} : lexeme x y → x.kind.Becomes tag →
    trees [.leaf tag x.token.text] [.leaf tag y.token.text]
  located {x y : Lexeme} (cause : SyntaxError.Cause) : lexeme x y →
    error ⟨cause, x.token.span⟩ ⟨cause, y.token.span⟩
  nil : trees [] []
  append {left left' right right' : List Tree} : trees left left' → trees right right' →
    trees (left ++ right) (left' ++ right')
  wrapped (kind : Kind) {children children' : List Tree} : trees children children' →
    trees [.node kind children] [.node kind children']

namespace Likeness

variable (like : Likeness)

/-- Inputs of alike lexemes that end with the end of the file. -/
inductive Inputs : List Lexeme → List Lexeme → Prop where
  | last {x y : Lexeme} : like.lexeme x y → x.kind = .eof → Inputs [x] [y]
  | cons {x y : Lexeme} {rest rest' : List Lexeme} : like.lexeme x y → x.kind ≠ .eof →
      Inputs rest rest' → Inputs (x :: rest) (y :: rest')

structure Outcomes (outcome outcome' : Outcome) : Prop where
  trees : like.trees outcome.trees outcome'.trees
  errors : List.Forall₂ like.error outcome.errors outcome'.errors
  rest : like.Inputs outcome.rest outcome'.rest

/-- A rule that gives alike outcomes for alike inputs. -/
def Keeps (rule : Rule) : Prop :=
  ∀ ⦃input input' : List Lexeme⦄, like.Inputs input input' → like.Outcomes (rule input) (rule input')

/-- The rounds of two loops: both go on or both end, by a rule with alike outcomes. -/
inductive Steps (input input' : List Lexeme) : Step → Step → Prop where
  | again {rule : Rule} : like.Outcomes (rule input) (rule input') →
      Steps input input' (.again rule) (.again rule)
  | last {rule : Rule} : like.Outcomes (rule input) (rule input') →
      Steps input input' (.last rule) (.last rule)

variable {like} {input input' : List Lexeme} {first second body inner : Rule}

/-! What rules look at -/

theorem Inputs.exists_lexemes (h : like.Inputs input input') :
    ∃ x y rest rest', input = x :: rest ∧ input' = y :: rest' ∧ like.lexeme x y := by
  cases h with
  | last hlike => exact ⟨_, _, _, _, rfl, rfl, hlike⟩
  | cons hlike => exact ⟨_, _, _, _, rfl, rfl, hlike⟩

theorem Inputs.kind_eq (h : like.Inputs input input') : kind input = kind input' := by
  obtain ⟨x, y, rest, rest', rfl, rfl, hlike⟩ := h.exists_lexemes
  exact like.kind_eq hlike

theorem Inputs.length_eq (h : like.Inputs input input') : input.length = input'.length := by
  induction h with
  | last => rfl
  | cons _ _ _ ih => rw [List.length_cons, List.length_cons, ih]

theorem Inputs.text_eq (h : like.Inputs input input') (hident : kind input = .ident) :
    (current input).text = (current input').text := by
  obtain ⟨x, y, rest, rest', rfl, rfl, hlike⟩ := h.exists_lexemes
  exact like.text_eq hlike hident

theorem Inputs.nextKind_eq (h : like.Inputs input input') : nextKind input = nextKind input' := by
  cases h with
  | last => rfl
  | cons _ _ hrest => exact hrest.kind_eq

theorem Inputs.isWordAt_eq (h : like.Inputs input input') (word : String) :
    isWordAt input word = isWordAt input' word := by
  unfold isWordAt
  by_cases hident : kind input = .ident
  · rw [h.text_eq hident, h.kind_eq]
  · have hident' : kind input' ≠ .ident := h.kind_eq ▸ hident
    simp [hident, hident']

theorem Inputs.isWordAt_tail_eq (h : like.Inputs input input') (word : String) :
    isWordAt input.tail word = isWordAt input'.tail word := by
  cases h with
  | last => rfl
  | cons _ _ hrest => exact hrest.isWordAt_eq word

theorem Inputs.declarationWord_eq (h : like.Inputs input input') :
    declarationWord input = declarationWord input' := by
  unfold declarationWord
  by_cases hident : kind input = .ident
  · rw [h.text_eq hident, h.kind_eq]
  · rw [if_neg hident, if_neg (h.kind_eq ▸ hident)]

theorem Inputs.startsDeclaration_eq (h : like.Inputs input input') :
    startsDeclaration input = startsDeclaration input' := by
  unfold startsDeclaration
  rw [h.isWordAt_eq, h.nextKind_eq, h.declarationWord_eq]

theorem Inputs.kindAfterNewlines_eq (h : like.Inputs input input') :
    kindAfterNewlines input = kindAfterNewlines input' := by
  induction h with
  | last hlike heof =>
      have heof' := (like.kind_eq hlike).symm.trans heof
      simp [kindAfterNewlines, heof, heof']
  | cons hlike heof hrest ih =>
      rw [kindAfterNewlines, kindAfterNewlines, like.kind_eq hlike, ih]

/-- Lexemes that are alike one by one, the last one being the end of the file. -/
theorem inputs_concat {front : List Lexeme} {last : Lexeme}
    (h : List.Forall₂ like.lexeme (front ++ [last]) input')
    (hfront : ∀ x ∈ front, x.kind ≠ .eof) (hlast : last.kind = .eof) :
    like.Inputs (front ++ [last]) input' := by
  induction front generalizing input' with
  | nil =>
      cases h with
      | cons hlike hrest =>
          cases hrest
          exact .last hlike hlast
  | cons first front ih =>
      cases h with
      | cons hlike hrest =>
          exact .cons hlike (hfront _ List.mem_cons_self)
            (ih hrest fun x hx => hfront x (List.mem_cons_of_mem _ hx))

/-! Steps of reading -/

theorem keeps_done : like.Keeps done := fun _ _ h => ⟨like.nil, .nil, h⟩

theorem outcomes_keep {left left' : List Tree} (hleft : like.trees left left')
    (h : like.Inputs input input') : like.Outcomes (keep left input) (keep left' input') :=
  ⟨hleft, .nil, h⟩

theorem keeps_report (cause : SyntaxError.Cause) : like.Keeps (report cause) := by
  intro input input' h
  refine ⟨like.nil, .cons ?_ .nil, h⟩
  obtain ⟨x, y, rest, rest', rfl, rfl, hlike⟩ := h.exists_lexemes
  exact like.located cause hlike

theorem Outcomes.andThen {first' : Rule} (hfirst : like.Outcomes (first input) (first' input'))
    (hsecond : like.Outcomes (second (first input).rest) (second (first' input').rest)) :
    like.Outcomes ((first ++ second) input) ((first' ++ second) input') := by
  rw [andThen_apply, andThen_apply]
  exact ⟨like.append hfirst.trees hsecond.trees, List.rel_append hfirst.errors hsecond.errors,
    hsecond.rest⟩

theorem Keeps.andThen (hfirst : like.Keeps first) (hsecond : like.Keeps second) :
    like.Keeps (first ++ second) := fun _ _ h => (hfirst h).andThen (hsecond (hfirst h).rest)

theorem Outcomes.into {first' : Rule} {next : List Tree → Rule}
    (hfirst : like.Outcomes (first input) (first' input'))
    (hnext : like.Outcomes (next (first input).trees (first input).rest)
      (next (first' input').trees (first' input').rest)) :
    like.Outcomes (first.into next input) (first'.into next input') :=
  ⟨hnext.trees, List.rel_append hfirst.errors hnext.errors, hnext.rest⟩

/-- A rule that goes on from the trees on its left. -/
def KeepsFrom (like : Likeness) (next : List Tree → Rule) : Prop :=
  ∀ ⦃left left' : List Tree⦄, like.trees left left' → ∀ ⦃input input' : List Lexeme⦄,
    like.Inputs input input' → like.Outcomes (next left input) (next left' input')

theorem Keeps.into {next : List Tree → Rule} (hfirst : like.Keeps first)
    (hnext : like.KeepsFrom next) : like.Keeps (first.into next) :=
  fun _ _ h => (hfirst h).into (hnext (hfirst h).trees (hfirst h).rest)

theorem Outcomes.wrap (kind : Kind) {left left' : List Tree} (hleft : like.trees left left')
    (h : like.Outcomes (body input) (body input')) :
    like.Outcomes (wrap kind left body input) (wrap kind left' body input') :=
  ⟨like.wrapped kind (like.append hleft h.trees), h.errors, h.rest⟩

theorem keeps_settle : like.Keeps settle := by
  intro input input' h
  cases h with
  | last hlike heof => exact ⟨like.lead hlike, .nil, .last (like.settled hlike) heof⟩
  | cons hlike heof hrest => exact ⟨like.lead hlike, .nil, .cons (like.settled hlike) heof hrest⟩

theorem Outcomes.node (kind : Kind) (hinput : like.Inputs input input')
    (h : like.Outcomes (body (settle input).rest) (body (settle input').rest)) :
    like.Outcomes (node kind body input) (node kind body input') :=
  (keeps_settle hinput).andThen (h.wrap kind like.nil)

theorem Keeps.node (kind : Kind) (h : like.Keeps body) : like.Keeps (node kind body) :=
  fun _ _ hinput => .node kind hinput (h (keeps_settle hinput).rest)

theorem outcomes_takeAs {tag : Kind} (h : like.Inputs input input')
    (htag : (kind input).Becomes tag) :
    like.Outcomes (takeAs tag input) (takeAs tag input') := by
  cases h with
  | last hlike heof =>
      rw [takeAs, takeAs, if_pos heof, if_pos ((like.kind_eq hlike).symm.trans heof)]
      exact keeps_settle (.last hlike heof)
  | cons hlike heof hrest =>
      rw [takeAs, takeAs, if_neg heof, if_neg (like.kind_eq hlike ▸ heof)]
      exact ⟨like.append (like.lead hlike) (like.leaf hlike htag), .nil, hrest⟩

theorem outcomes_takeAs_keyword {keyword : Kind} (h : like.Inputs input input')
    (hkeyword : keyword.isContextual = true) (hident : kind input = .ident) :
    like.Outcomes (takeAs keyword input) (takeAs keyword input') :=
  outcomes_takeAs h (hident ▸ .keyword hkeyword)

theorem keeps_take : like.Keeps take := by
  intro input input' h
  unfold take
  rw [← h.kind_eq]
  exact outcomes_takeAs h (.same _)

theorem outcomes_ifAt {kind : Kind} {yes no yes' no' : Rule} (h : like.Inputs input input')
    (hyes : Rule.kind input = kind → like.Outcomes (yes input) (yes' input'))
    (hno : Rule.kind input ≠ kind → like.Outcomes (no input) (no' input')) :
    like.Outcomes (ifAt kind yes no input) (ifAt kind yes' no' input') := by
  unfold ifAt
  rw [← h.kind_eq]
  split
  · exact hyes ‹_›
  · exact hno ‹_›

theorem keeps_ifAt {kind : Kind} {yes no : Rule} (hyes : like.Keeps yes) (hno : like.Keeps no) :
    like.Keeps (ifAt kind yes no) :=
  fun _ _ h => outcomes_ifAt h (fun _ => hyes h) (fun _ => hno h)

theorem Keeps.unlessAt (kinds : List Kind) (hinner : like.Keeps inner) :
    like.Keeps (unlessAt kinds inner) := by
  intro input input' h
  unfold Rule.unlessAt
  rw [← h.kind_eq]
  split
  · exact keeps_done h
  · exact hinner h

theorem keeps_missing : like.Keeps (node .missing done) := keeps_done.node .missing

theorem keeps_absent (expected : Expected) : like.Keeps (absent expected) := by
  intro input input' h
  unfold absent
  rw [← h.kind_eq]
  exact (keeps_report _).andThen keeps_missing h

theorem keeps_expect (wanted : Kind) : like.Keeps (expect wanted) :=
  keeps_ifAt keeps_take (keeps_absent _)

/-- The lexemes in front are taken whole, and the rest is read by a rule that looks at it alone. -/
theorem Outcomes.cons {x y : Lexeme} {more more' : Outcome} (hlike : like.lexeme x y)
    (h : like.Outcomes more more') :
    like.Outcomes { more with trees := x.tokens.map Tree.ofToken ++ more.trees }
      { more' with trees := y.tokens.map Tree.ofToken ++ more'.trees } := by
  refine ⟨like.append ?_ h.trees, h.errors, h.rest⟩
  rw [Lexeme.tokens, Lexeme.tokens, List.map_append, List.map_append]
  have hleaf := like.leaf hlike (.same _)
  have hkind : x.kind = y.token.kind := like.kind_eq hlike
  refine like.append (like.lead hlike) ?_
  change like.trees [.leaf x.kind x.token.text] [.leaf y.token.kind y.token.text]
  rw [← hkind]
  exact hleaf

theorem keeps_sweep {σ : Type} {next : σ → Kind → Option σ} (hend : StopsAtEnd next) (state : σ) :
    like.Keeps (sweep next state) := by
  intro input input' h
  induction h generalizing state with
  | last hlike heof =>
      have heof' := (like.kind_eq hlike).symm.trans heof
      rw [sweep_of_none (heof ▸ hend state), sweep_of_none (heof' ▸ hend state)]
      exact keeps_done (.last hlike heof)
  | @cons x y _ _ hlike heof hrest ih =>
      have hkind := like.kind_eq hlike
      cases hnext : next state x.kind with
      | none =>
          rw [sweep_of_none hnext, sweep_of_none (hkind ▸ hnext)]
          exact keeps_done (.cons hlike heof hrest)
      | some after =>
          rw [sweep_of_some hnext, sweep_of_some (hkind ▸ hnext)]
          exact (ih after).cons hlike

theorem keeps_takeNewlines : like.Keeps takeNewlines :=
  takeNewlines_eq_sweep ▸ keeps_sweep stopsAtEnd_overNewlines ()

theorem keeps_takeNewlinesBefore (wanted : Kind) : like.Keeps (takeNewlinesBefore wanted) := by
  intro input input' h
  unfold takeNewlinesBefore
  rw [← h.kindAfterNewlines_eq]
  split
  · exact keeps_takeNewlines h
  · exact keeps_done h

theorem keeps_takeUntil (stop : List Kind) : like.Keeps (takeUntil stop) :=
  takeUntil_eq_sweep stop ▸ keeps_sweep (stopsAtEnd_upTo stop) ()

theorem keeps_takeStray (depth : Nat) : like.Keeps (takeStray depth) :=
  takeStray_eq_sweep depth ▸ keeps_sweep stopsAtEnd_overHoles depth

theorem keeps_skipTo (stop : List Kind) (cause : SyntaxError.Cause) :
    like.Keeps (skipTo stop cause) :=
  (keeps_report cause).andThen (((keeps_takeUntil stop).node .error).unlessAt _)

theorem keeps_loop {choose : List Lexeme → Step}
    (h : ∀ {input input'}, like.Inputs input input' →
      like.Steps input input' (choose input) (choose input')) :
    like.Keeps (loop choose) := by
  have hfor : ∀ fuel, like.Keeps (loopFor choose fuel) := by
    intro fuel
    induction fuel with
    | zero => exact keeps_done
    | succ fuel ih =>
        intro input input' hinput
        have hstep := h hinput
        unfold loopFor
        generalize choose input = step at hstep
        generalize choose input' = step' at hstep
        cases hstep with
        | again hrule => exact hrule.andThen (ih hrule.rest)
        | last hrule => exact hrule
  intro input input' hinput
  unfold loop
  rw [hinput.length_eq]
  exact hfor _ hinput

/-! The rules of expressions -/

section Expr

variable {expr : Rule} (hexpr : like.Keeps expr)

include hexpr

theorem keeps_interpolation : like.Keeps (interpolation expr) :=
  ((((((keeps_take.andThen keeps_takeNewlines).andThen hexpr).andThen keeps_takeNewlines).andThen
    (((keeps_report _).andThen ((keeps_takeStray 0).node _)).unlessAt _)).andThen
      (keeps_expect _))).node _

theorem steps_stringStep (h : like.Inputs input input') :
    like.Steps input input' (stringStep expr input) (stringStep expr input') := by
  rw [stringStep_congr h.kind_eq.symm]
  generalize hstep : stringStep expr input = step
  cases stringRound_of_eq hstep with
  | text => exact .again (keeps_take h)
  | hole => exact .again (keeps_interpolation hexpr h)
  | close => exact .last (keeps_take h)
  | unclosed => exact .last (keeps_report _ h)

theorem keeps_string : like.Keeps (string expr) :=
  (keeps_take.andThen (keeps_loop (steps_stringStep hexpr))).node _

theorem outcomes_propertyKey (h : like.Inputs input input')
    (hword : startsProperty (kind input) = true) :
    like.Outcomes (propertyKey expr input) (propertyKey expr input') := by
  have hsettled := (keeps_settle h).rest
  refine .node _ h (outcomes_ifAt hsettled (fun _ => keeps_string hexpr hsettled) fun hstart => ?_)
  rw [kind_settle] at hstart
  refine outcomes_takeAs hsettled ?_
  rw [kind_settle]
  simp only [startsProperty, Bool.or_eq_true, decide_eq_true_eq] at hword
  exact .name (hword.resolve_right hstart)

theorem keeps_propertyValue : like.Keeps (propertyValue expr) :=
  keeps_ifAt (keeps_take.andThen hexpr) ((keeps_absent _).andThen (hexpr.unlessAt _))

theorem outcomes_property (h : like.Inputs input input')
    (hword : startsProperty (kind input) = true) :
    like.Outcomes (property expr input) (property expr input') := by
  rw [← kind_settle] at hword
  have hkey := outcomes_propertyKey hexpr (keeps_settle h).rest hword
  have hvalue := hkey.andThen (keeps_propertyValue hexpr hkey.rest)
  exact .node _ h (hvalue.andThen ((keeps_skipTo _ _).unlessAt _ hvalue.rest))

omit hexpr in
theorem steps_listStep {close : Kind} {startsItem : Kind → Bool} {item : Rule}
    {cause : SyntaxError.Cause}
    (hitem : ∀ {input input'}, like.Inputs input input' → startsItem (kind input) = true →
      like.Outcomes (item input) (item input'))
    (h : like.Inputs input input') :
    like.Steps input input' (listStep close startsItem item cause input)
      (listStep close startsItem item cause input') := by
  rw [listStep_congr h.kind_eq.symm h.startsDeclaration_eq.symm]
  generalize hstep : listStep close startsItem item cause input = step
  cases listRound_of_eq hstep with
  | newline | comma => exact .again (keeps_take h)
  | close => exact .last (keeps_take h)
  | unclosed => exact .last (keeps_absent _ h)
  | item _ hstart => exact .again (hitem h hstart)
  | stray => exact .again (keeps_skipTo _ _ h)

omit hexpr in
theorem keeps_list {node close : Kind} {startsItem : Kind → Bool} {item : Rule}
    {cause : SyntaxError.Cause}
    (hitem : ∀ {input input'}, like.Inputs input input' → startsItem (kind input) = true →
      like.Outcomes (item input) (item input')) :
    like.Keeps (list node close startsItem item cause) :=
  (keeps_take.andThen (keeps_loop (steps_listStep hitem))).node _

theorem keeps_object : like.Keeps (object expr) :=
  keeps_list fun h hword => outcomes_property hexpr h hword

theorem keeps_array : like.Keeps (array expr) := keeps_list fun h _ => hexpr.node _ h

theorem keeps_arguments : like.Keeps (arguments expr) := keeps_list fun h _ => hexpr h

omit hexpr in
theorem keeps_loopVariable : like.Keeps loopVariable := by
  intro input input' h
  unfold loopVariable
  rw [← h.kind_eq, ← h.isWordAt_eq]
  split
  · exact keeps_take.node _ h
  · exact keeps_absent _ h

omit hexpr in
theorem keeps_inKeyword : like.Keeps inKeyword := by
  intro input input' h
  unfold inKeyword
  rw [← h.isWordAt_eq]
  split
  · exact outcomes_takeAs_keyword h rfl (kind_eq_of_isWordAt ‹_›)
  · exact keeps_absent _ h

theorem outcomes_forExpr (h : like.Inputs input input') (hbracket : kind input = .lBrack)
    (hfor : isWordAt input.tail "for" = true) :
    like.Outcomes (forExpr expr input) (forExpr expr input') := by
  have htake := keeps_take (keeps_settle h).rest
  have hident := kind_eq_of_isWordAt (isWordAt_rest_take hbracket hfor)
  have hkeyword := htake.andThen
    (outcomes_takeAs_keyword htake.rest (rfl : Kind.forKw.isContextual = true) hident)
  have hvariable := hkeyword.andThen (keeps_loopVariable hkeyword.rest)
  have hin := hvariable.andThen (keeps_inKeyword hvariable.rest)
  have hiterable := hin.andThen (hexpr hin.rest)
  have hcolon := hiterable.andThen (keeps_expect .colon hiterable.rest)
  have hlines := hcolon.andThen (keeps_takeNewlines hcolon.rest)
  have hbody := hlines.andThen (hexpr hlines.rest)
  have hafter := hbody.andThen ((keeps_skipTo [.newline, .rBrack] .afterLoop).unlessAt
    (.newline :: closers) hbody.rest)
  have hbefore := hafter.andThen (keeps_takeNewlinesBefore .rBrack hafter.rest)
  exact .node _ h (hbefore.andThen (keeps_expect .rBrack hbefore.rest))

theorem keeps_paren : like.Keeps (paren expr) :=
  ((((keeps_take.andThen keeps_takeNewlines).andThen hexpr).andThen
    (keeps_takeNewlinesBefore _)).andThen (keeps_expect _)).node _

theorem keeps_primary : like.Keeps (primary expr) := by
  intro input input' h
  obtain ⟨rule, hrule, heq⟩ := exists_primary expr input
  rw [heq, hrule.eq_of_kind_eq h.kind_eq.symm fun _ => (h.isWordAt_tail_eq "for").symm]
  cases hrule with
  | literal => exact keeps_take.node _ h
  | string => exact keeps_string hexpr h
  | object => exact keeps_object hexpr h
  | loop hbracket hfor => exact outcomes_forExpr hexpr h hbracket hfor
  | array => exact keeps_array hexpr h
  | paren => exact keeps_paren hexpr h
  | word hword =>
      refine .node _ h (outcomes_takeAs (keeps_settle h).rest ?_)
      rw [kind_settle]
      exact .name hword
  | absent => exact keeps_absent _ h

end Expr

theorem keeps_tooDeep : like.Keeps tooDeep := (keeps_skipTo _ _).andThen keeps_missing

theorem keepsFrom_tooDeep : like.KeepsFrom fun left => keep left ++ tooDeep :=
  fun _ _ hleft _ _ h => (outcomes_keep hleft h).andThen (keeps_tooDeep h)

/-- The rules of a level do the same on alike inputs. -/
structure Levels (like : Likeness) (level : Level) : Prop where
  expr : like.Keeps level.expr
  unary : like.Keeps level.unary
  links : like.KeepsFrom level.links
  operators (least : Nat) : like.KeepsFrom (level.operators least)

namespace Levels

variable {below : Level}

theorem binary (h : like.Levels below) (least : Nat) : like.Keeps (below.binary least) :=
  keeps_settle.andThen (h.unary.into (h.operators least))

theorem chain (h : like.Levels below) : like.Keeps below.chain :=
  keeps_settle.andThen ((keeps_primary h.expr).into h.links)

theorem choice (h : like.Levels below) : like.KeepsFrom below.choice :=
  fun _ _ hleft _ _ hinput => outcomes_ifAt hinput
    (fun _ => .wrap _ hleft ((((keeps_take.andThen h.expr).andThen (keeps_expect _)).andThen
      h.expr) hinput))
    (fun _ => outcomes_keep hleft hinput)

theorem ternary (h : like.Levels below) : like.Keeps below.ternary :=
  keeps_settle.andThen ((h.binary 1).into h.choice)

theorem keeps_member : like.Keeps Level.member := by
  intro input input' h
  unfold Level.member
  rw [← h.kind_eq]
  split
  · exact outcomes_takeAs h (.name ‹_›)
  · exact keeps_absent _ h

theorem link (h : like.Levels below) : like.KeepsFrom below.link := by
  intro left left' hleft input input' hinput
  unfold Level.link
  rw [← hinput.kind_eq]
  split
  · exact .wrap _ hleft (keeps_take.andThen keeps_member hinput)
  · exact .wrap _ hleft ((keeps_take.andThen h.expr).andThen (keeps_expect _) hinput)
  · exact .wrap _ hleft (keeps_arguments h.expr hinput)

theorem links_above {below : Option Level} (h : ∀ level ∈ below, like.Levels level) :
    like.KeepsFrom (Level.above below).links := by
  intro left left' hleft input input' hinput
  rw [Level.links_above, Level.links_above, ← hinput.kind_eq]
  split
  · cases below with
    | none => exact keepsFrom_tooDeep hleft hinput
    | some level =>
        have hlink := (h level rfl).link hleft hinput
        exact hlink.into ((h level rfl).links hlink.trees hlink.rest)
  · exact outcomes_keep hleft hinput

theorem operators_above {below : Option Level} (h : ∀ level ∈ below, like.Levels level)
    (least : Nat) : like.KeepsFrom ((Level.above below).operators least) := by
  intro left left' hleft input input' hinput
  rw [Level.operators_above, Level.operators_above, ← hinput.kind_eq]
  split
  · exact outcomes_keep hleft hinput
  · rename_i precedence _
    split
    · exact outcomes_keep hleft hinput
    · cases below with
      | none => exact keepsFrom_tooDeep hleft hinput
      | some level =>
          have hwrap := Outcomes.wrap .binaryExpr hleft
            (keeps_take.andThen ((h level rfl).binary (precedence + 1)) hinput)
          exact hwrap.into ((h level rfl).operators _ hwrap.trees hwrap.rest)

theorem above {below : Option Level} (h : ∀ level ∈ below, like.Levels level) :
    like.Levels (Level.above below) := by
  have hexpr : like.Keeps (Level.above below).expr := by
    cases below with
    | none => exact keeps_tooDeep
    | some level => exact (h level rfl).ternary
  refine ⟨hexpr, fun _ _ hinput => ?_, links_above h, operators_above h⟩
  rw [Level.unary_above, Level.unary_above, ← hinput.kind_eq]
  split
  · cases below with
    | none => exact keeps_tooDeep hinput
    | some level => exact (keeps_take.andThen (h level rfl).unary).node _ hinput
  · exact keeps_settle.andThen ((keeps_primary hexpr).into (links_above h)) hinput

end Levels

theorem levels_level (budget : Nat) : like.Levels (level budget) :=
  level_induction (fun _ hbelow _ => Levels.above hbelow) budget

/-! The rules of documents -/

theorem keeps_expr : like.Keeps expr := (levels_level maxDepth).expr

theorem keeps_decorator : like.Keeps decorator :=
  ((keeps_take.andThen (keeps_ifAt (levels_level maxDepth).chain (keeps_absent _))).node _).andThen
    ((keeps_skipTo _ _).unlessAt _)

theorem steps_decoratorStep (h : like.Inputs input input') :
    like.Steps input input' (decoratorStep input) (decoratorStep input') := by
  unfold decoratorStep
  rw [← h.kind_eq]
  split
  · exact .again (keeps_decorator.andThen keeps_takeNewlines h)
  · exact .last (keeps_done h)

theorem keeps_name : like.Keeps name := keeps_ifAt (keeps_take.node _) (keeps_absent _)

theorem keeps_typeName : like.Keeps typeName := keeps_ifAt (keeps_take.node _) (keeps_absent _)

theorem keeps_quoted (kind : Kind) (expected : Expected) : like.Keeps (quoted kind expected) :=
  keeps_ifAt ((keeps_string keeps_expr).node _) (keeps_absent _)

theorem keeps_existing : like.Keeps existing := by
  intro input input' h
  unfold existing
  rw [← h.isWordAt_eq]
  split
  · exact outcomes_takeAs_keyword h rfl (kind_eq_of_isWordAt ‹_›)
  · exact keeps_done h

theorem keeps_header (kind : Kind) : like.Keeps (header kind) := by
  refine header_induction (motive := like.Keeps) (fun hpart => ?_) .andThen
  cases hpart with
  | name => exact keeps_name
  | typeName => exact keeps_typeName
  | resourceType | modulePath => exact keeps_quoted _ _
  | existing => exact keeps_existing
  | equals => exact keeps_expect _
  | value => exact keeps_expr
  | default => exact keeps_ifAt (keeps_take.andThen keeps_expr) keeps_done
  | done => exact keeps_done

theorem keeps_endDeclaration : like.Keeps endDeclaration := by
  intro input input' h
  unfold endDeclaration
  rw [← h.startsDeclaration_eq]
  split
  · exact keeps_done h
  · exact (keeps_skipTo _ _).unlessAt _ h

/-- Decorators are read where there is an at sign, and only there. -/
theorem isEmpty_trees_decorators (input : List Lexeme) :
    (loop decoratorStep input).trees.isEmpty = decide (kind input ≠ .atSign) := by
  change (loopFor decoratorStep (input.length + 1) input).trees.isEmpty = _
  by_cases hat : kind input = .atSign
  · simp only [loopFor, decoratorStep, if_pos hat, andThen_apply]
    simp [decorator, node, wrap, andThen_apply, hat]
  · simp [loopFor, decoratorStep, hat, done]

theorem outcomes_undecorated {left left' : List Tree} (hleft : like.trees left left')
    (hempty : left.isEmpty = left'.isEmpty) (h : like.Inputs input input') :
    like.Outcomes (undecorated left input) (undecorated left' input') := by
  unfold undecorated
  rw [← h.declarationWord_eq, ← h.kind_eq, ← hempty]
  split
  · rename_i node keyword hword
    obtain ⟨hident, hkeyword, -⟩ := declarationWord_eq_some hword
    have htake := outcomes_takeAs_keyword h hkeyword hident
    have hwrap := (htake.andThen (keeps_header node htake.rest)).wrap node hleft
    exact hwrap.andThen (keeps_endDeclaration hwrap.rest)
  · split
    · exact outcomes_keep hleft h
    · have hkeep := outcomes_keep hleft h
      exact hkeep.andThen (keeps_skipTo _ _ hkeep.rest)

theorem keeps_declaration : like.Keeps declaration := by
  intro input input' h
  have hsettled := (keeps_settle h).rest
  have hdecorators := keeps_loop steps_decoratorStep hsettled
  refine (keeps_settle h).andThen (hdecorators.into (outcomes_undecorated hdecorators.trees ?_
    hdecorators.rest))
  rw [isEmpty_trees_decorators, isEmpty_trees_decorators, hsettled.kind_eq]

theorem steps_documentStep (h : like.Inputs input input') :
    like.Steps input input' (documentStep input) (documentStep input') := by
  unfold documentStep
  rw [← h.kind_eq]
  split
  · exact .last (keeps_settle h)
  · exact .again (keeps_take h)
  · exact .again (keeps_declaration h)

/-- Documents with alike lexemes have alike trees and alike errors. -/
theorem keeps_document : like.Keeps document := fun _ _ h =>
  (keeps_loop steps_documentStep h).wrap _ like.nil

end Likeness

end Rule

end Caret
