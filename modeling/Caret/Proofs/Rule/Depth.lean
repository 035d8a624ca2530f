import Caret.Proofs.Rule.Spelling
import Mathlib.Tactic.Ring

/-!
# How deep the trees of a rule can be

Each level of expressions lets a chain of links and a chain of operators wrap what was read before
them once more for every level that they take, and gives the levels back when the chain ends. A
tree is therefore bounded by the square of the number of levels and not by the number itself.
-/

namespace Caret

namespace Tree

mutual

/-- The number of nodes on a longest path from the root. -/
def depth : Tree → Nat
  | leaf _ _ => 0
  | node _ children => depthAll children + 1

def depthAll : List Tree → Nat
  | [] => 0
  | tree :: trees => max tree.depth (depthAll trees)

end

theorem depthAll_append (left right : List Tree) :
    depthAll (left ++ right) = max (depthAll left) (depthAll right) := by
  induction left with
  | nil => simp [depthAll]
  | cons tree trees ih => simp [depthAll, ih, Nat.max_assoc]

theorem depthAll_map_ofToken (tokens : List Token) : depthAll (tokens.map ofToken) = 0 := by
  induction tokens with
  | nil => rfl
  | cons token tokens ih => simp [depthAll, depth, ofToken, ih]

end Tree

namespace Rule

/-- A rule whose trees never have more than so many nodes on a path. -/
def DepthLe (rule : Rule) (bound : Nat) : Prop :=
  ∀ input, Tree.depthAll (rule input).trees ≤ bound

variable {first second body inner : Rule} {bound limit : Nat}

theorem DepthLe.mono (h : inner.DepthLe bound) (hle : bound ≤ limit) : inner.DepthLe limit :=
  fun input => (h input).trans hle

theorem depthLe_keep {trees : List Tree} (h : Tree.depthAll trees ≤ bound) :
    (keep trees).DepthLe bound := fun _ => h

theorem depthLe_done : done.DepthLe bound := fun _ => Nat.zero_le _

theorem depthLe_report (cause : SyntaxError.Cause) : (report cause).DepthLe bound :=
  fun _ => Nat.zero_le _

theorem DepthLe.andThen (hfirst : first.DepthLe bound) (hsecond : second.DepthLe bound) :
    (first ++ second).DepthLe bound := by
  intro input
  rw [andThen_apply, Tree.depthAll_append]
  exact Nat.max_le.2 ⟨hfirst input, hsecond _⟩

theorem DepthLe.into {next : List Tree → Rule} (hfirst : first.DepthLe bound)
    (hnext : ∀ trees, Tree.depthAll trees ≤ bound → (next trees).DepthLe limit) :
    (first.into next).DepthLe limit :=
  fun input => hnext _ (hfirst input) _

theorem DepthLe.wrap {left : List Tree} (hbody : body.DepthLe bound)
    (hleft : Tree.depthAll left ≤ bound) (kind : Kind) :
    (wrap kind left body).DepthLe (bound + 1) := by
  intro input
  have hinner := hbody input
  simp only [Rule.wrap, Tree.depthAll, Tree.depth, Tree.depthAll_append]
  omega

theorem depthLe_settle : settle.DepthLe bound := by
  intro input
  cases input with
  | nil => exact Nat.zero_le _
  | cons lexeme rest => exact (Tree.depthAll_map_ofToken _).le.trans (Nat.zero_le _)

theorem DepthLe.node (hbody : body.DepthLe bound) (kind : Kind) :
    (node kind body).DepthLe (bound + 1) :=
  depthLe_settle.andThen (hbody.wrap (Nat.zero_le _) kind)

theorem depthLe_takeAs (kind : Kind) : (takeAs kind).DepthLe bound := by
  intro input
  cases input with
  | nil => exact Nat.zero_le _
  | cons lexeme rest =>
      rw [takeAs]
      split
      · exact depthLe_settle _
      · simp [Tree.depthAll_append, Tree.depthAll_map_ofToken, Tree.depthAll, Tree.depth]

theorem depthLe_take : take.DepthLe bound := fun input => depthLe_takeAs _ input

theorem DepthLe.ifAt {kind : Kind} {yes no : Rule} (hyes : yes.DepthLe bound)
    (hno : no.DepthLe bound) : (ifAt kind yes no).DepthLe bound := by
  intro input
  unfold Rule.ifAt
  split
  · exact hyes input
  · exact hno input

theorem DepthLe.unlessAt (h : inner.DepthLe bound) (kinds : List Kind) :
    (unlessAt kinds inner).DepthLe bound := by
  intro input
  unfold Rule.unlessAt
  split
  · exact depthLe_done input
  · exact h input

/-- A placeholder is a node. -/
theorem depthLe_absent (expected : Expected) (h : 1 ≤ bound) : (absent expected).DepthLe bound :=
  fun input => (depthLe_report _).andThen
    ((depthLe_done.node .missing : DepthLe _ (0 + 1)).mono h) input

theorem depthLe_expect (wanted : Kind) (h : 1 ≤ bound) : (expect wanted).DepthLe bound :=
  depthLe_take.ifAt (depthLe_absent _ h)

/-- Tokens add no node. -/
theorem IsFlat.depthLe {rule : Rule} (h : rule.IsFlat) : rule.DepthLe bound := by
  intro input
  obtain ⟨tokens, htrees⟩ := h input
  rw [htrees, Tree.depthAll_map_ofToken]
  exact Nat.zero_le _

theorem depthLe_takeNewlines : takeNewlines.DepthLe bound := isFlat_takeNewlines.depthLe

theorem depthLe_takeNewlinesBefore (wanted : Kind) : (takeNewlinesBefore wanted).DepthLe bound :=
  (isFlat_takeNewlinesBefore wanted).depthLe

theorem depthLe_takeUntil (stop : List Kind) : (takeUntil stop).DepthLe bound :=
  (isFlat_takeUntil stop).depthLe

theorem depthLe_takeStray (depth : Nat) : (takeStray depth).DepthLe bound :=
  (isFlat_takeStray depth).depthLe

theorem depthLe_skipTo (stop : List Kind) (cause : SyntaxError.Cause) (h : 1 ≤ bound) :
    (skipTo stop cause).DepthLe bound :=
  (depthLe_report cause).andThen
    ((((depthLe_takeUntil stop).node .error : DepthLe _ (0 + 1)).mono h).unlessAt _)

theorem depthLe_loop {choose : List Lexeme → Step}
    (h : ∀ input, Tree.depthAll ((choose input).rule input).trees ≤ bound) :
    (loop choose).DepthLe bound := by
  refine loop_of_rounds (p := fun _ outcome => Tree.depthAll outcome.trees ≤ bound) depthLe_done ?_ h
  intro first second input hfirst hsecond
  rw [andThen_apply, Tree.depthAll_append]
  exact Nat.max_le.2 ⟨hfirst, hsecond⟩

/-! The rules that read expressions, from a bound for the expressions in them -/

section Expr

variable {expr : Rule} {depth : Nat}

theorem depthLe_interpolation (hexpr : expr.DepthLe depth) (hdepth : 1 ≤ depth) :
    (interpolation expr).DepthLe (depth + 1) := by
  have hstray : (report .strayInHole ++ Rule.node .error (takeStray 0)).DepthLe depth :=
    (depthLe_report _).andThen
      (((depthLe_takeStray 0).node .error : DepthLe _ (0 + 1)).mono hdepth)
  exact DepthLe.node (((((depthLe_take.andThen depthLe_takeNewlines).andThen hexpr).andThen
    depthLe_takeNewlines).andThen (hstray.unlessAt _)).andThen (depthLe_expect _ hdepth)) _

theorem depthLe_string (hexpr : expr.DepthLe depth) (hdepth : 1 ≤ depth) :
    (string expr).DepthLe (depth + 2) := by
  refine DepthLe.node (depthLe_take.andThen (depthLe_loop (fun input => ?_))) _
  generalize hstep : stringStep expr input = step
  cases stringRound_of_eq hstep with
  | text | close => exact depthLe_take input
  | hole => exact depthLe_interpolation hexpr hdepth input
  | unclosed => exact depthLe_report _ input

theorem depthLe_propertyKey (hexpr : expr.DepthLe depth) (hdepth : 1 ≤ depth) :
    (propertyKey expr).DepthLe (depth + 3) :=
  DepthLe.node ((depthLe_string hexpr hdepth).ifAt (depthLe_takeAs _)) _

theorem depthLe_propertyValue (hexpr : expr.DepthLe depth) (hdepth : 1 ≤ depth) :
    (propertyValue expr).DepthLe depth :=
  (depthLe_take.andThen hexpr).ifAt ((depthLe_absent _ hdepth).andThen (hexpr.unlessAt _))

theorem depthLe_property (hexpr : expr.DepthLe depth) (hdepth : 1 ≤ depth) :
    (property expr).DepthLe (depth + 4) :=
  DepthLe.node (((depthLe_propertyKey hexpr hdepth).andThen
    ((depthLe_propertyValue hexpr hdepth).mono (by omega))).andThen
    ((depthLe_skipTo _ _ (by omega)).unlessAt _)) _

theorem depthLe_list {item : Rule} (hitem : item.DepthLe depth) (hdepth : 1 ≤ depth)
    (kind close : Kind) (startsItem : Kind → Bool) (cause : SyntaxError.Cause) :
    (list kind close startsItem item cause).DepthLe (depth + 1) := by
  refine DepthLe.node (depthLe_take.andThen (depthLe_loop (fun input => ?_))) _
  generalize hstep : listStep close startsItem item cause input = step
  cases listRound_of_eq hstep with
  | newline | comma | close => exact depthLe_take input
  | unclosed => exact depthLe_absent _ hdepth input
  | item => exact hitem input
  | stray => exact depthLe_skipTo _ _ hdepth input

theorem depthLe_forExpr (hexpr : expr.DepthLe depth) (hdepth : 1 ≤ depth) :
    (forExpr expr).DepthLe (depth + 1) := by
  have hvariable : loopVariable.DepthLe depth := by
    intro input
    unfold loopVariable
    split
    · exact ((depthLe_take.node .name : DepthLe _ (0 + 1)).mono hdepth) input
    · exact depthLe_absent _ hdepth input
  have hin : inKeyword.DepthLe depth := by
    intro input
    unfold inKeyword
    split
    · exact depthLe_takeAs _ input
    · exact depthLe_absent _ hdepth input
  exact DepthLe.node ((((((((((depthLe_take.andThen (depthLe_takeAs _)).andThen hvariable).andThen
    hin).andThen hexpr).andThen (depthLe_expect _ hdepth)).andThen depthLe_takeNewlines).andThen
    hexpr).andThen ((depthLe_skipTo _ _ hdepth).unlessAt _)).andThen
    (depthLe_takeNewlinesBefore _)).andThen (depthLe_expect _ hdepth)) _

theorem depthLe_paren (hexpr : expr.DepthLe depth) (hdepth : 1 ≤ depth) :
    (paren expr).DepthLe (depth + 1) :=
  DepthLe.node ((((depthLe_take.andThen depthLe_takeNewlines).andThen hexpr).andThen
    (depthLe_takeNewlinesBefore _)).andThen (depthLe_expect _ hdepth)) _

/-- The key of a property puts an expression five nodes deep, deeper than any other operand. -/
theorem depthLe_primary (hexpr : expr.DepthLe depth) (hdepth : 1 ≤ depth) :
    (primary expr).DepthLe (depth + 5) := by
  intro input
  obtain ⟨rule, hrule, heq⟩ := exists_primary expr input
  rw [heq]
  cases hrule with
  | literal => exact (depthLe_take.node .literal : DepthLe _ (0 + 1)).mono (by omega) input
  | string => exact (depthLe_string hexpr hdepth).mono (by omega) input
  | object => exact depthLe_list (depthLe_property hexpr hdepth) (by omega) _ _ _ _ input
  | loop => exact (depthLe_forExpr hexpr hdepth).mono (by omega) input
  | array =>
      exact (depthLe_list (hexpr.node .arrayItem) (by omega) _ _ _ _).mono (by omega) input
  | paren => exact (depthLe_paren hexpr hdepth).mono (by omega) input
  | word =>
      exact ((depthLe_takeAs .ident).node .variableAccess : DepthLe _ (0 + 1)).mono (by omega) input
  | absent => exact depthLe_absent _ (by omega) input

end Expr

theorem depthLe_tooDeep (h : 1 ≤ bound) : tooDeep.DepthLe bound :=
  (depthLe_skipTo _ _ h).andThen ((depthLe_done.node .missing : DepthLe _ (0 + 1)).mono h)

/-- How deep an expression can be that may open so many levels. -/
def exprDepth (budget : Nat) : Nat := budget * budget + 5 * budget + 1

theorem exprDepth_succ (budget : Nat) :
    exprDepth (budget + 1) = exprDepth budget + 2 * budget + 6 := by
  unfold exprDepth
  ring

theorem one_le_exprDepth (budget : Nat) : 1 ≤ exprDepth budget := Nat.le_add_left _ _

theorem exprDepth_pred_le (budget : Nat) : exprDepth (budget - 1) ≤ exprDepth budget := by
  cases budget with
  | zero => exact le_rfl
  | succ budget =>
      rw [Nat.add_sub_cancel, exprDepth_succ]
      omega

/-- How deep the expressions and operands of a level can be, and how much its chains add to what
they start from. -/
structure Level.DepthLe (level : Level) (budget : Nat) : Prop where
  expr : level.expr.DepthLe (exprDepth budget)
  unary : level.unary.DepthLe (exprDepth budget + budget + 5)
  links : ∀ {bound receiver}, exprDepth (budget - 1) + 1 ≤ bound →
    Tree.depthAll receiver ≤ bound → (level.links receiver).DepthLe (bound + budget)
  operators : ∀ {bound left} least, exprDepth budget + budget + 5 ≤ bound →
    Tree.depthAll left ≤ bound → (level.operators least left).DepthLe (bound + budget)

namespace Level

variable {level : Level} {budget : Nat}

theorem DepthLe.binary (h : level.DepthLe budget) (least : Nat) :
    (level.binary least).DepthLe (exprDepth budget + budget + 5 + budget) :=
  depthLe_settle.andThen (h.unary.into fun _ hleft => h.operators least le_rfl hleft)

theorem DepthLe.ternary (h : level.DepthLe budget) :
    level.ternary.DepthLe (exprDepth (budget + 1)) := by
  rw [ternary_eq, exprDepth_succ]
  refine depthLe_settle.andThen ((h.binary 1).into fun test htest => ?_)
  have hpart : level.expr.DepthLe (exprDepth budget + budget + 5 + budget) :=
    h.expr.mono (by omega)
  refine Rule.DepthLe.ifAt ?_ (depthLe_keep (htest.trans (by omega)))
  refine (Rule.DepthLe.wrap ?_ htest _).mono (by omega)
  exact ((depthLe_take.andThen hpart).andThen (depthLe_expect _ (by omega))).andThen hpart

/-- A link adds one node to its receiver, as long as that is no shallower than an argument list. -/
theorem DepthLe.link (h : level.DepthLe budget) {bound : Nat} {receiver : List Tree}
    (hbound : exprDepth budget + 1 ≤ bound) (hreceiver : Tree.depthAll receiver ≤ bound) :
    (level.link receiver).DepthLe (bound + 1) := by
  intro input
  have hpart : level.expr.DepthLe bound := h.expr.mono (by omega)
  have hmember : member.DepthLe bound := by
    intro input
    unfold member
    split
    · exact depthLe_takeAs _ input
    · exact depthLe_absent _ (by omega) input
  unfold Level.link
  split
  · exact Rule.DepthLe.wrap (depthLe_take.andThen hmember) hreceiver _ input
  · exact Rule.DepthLe.wrap ((depthLe_take.andThen hpart).andThen (depthLe_expect _ (by omega)))
      hreceiver _ input
  · exact Rule.DepthLe.wrap ((depthLe_list h.expr (one_le_exprDepth _) _ _ _ _).mono hbound)
      hreceiver _ input

theorem depthLe_chain {budget : Nat} (hexpr : level.expr.DepthLe (exprDepth budget))
    (hlinks : ∀ {bound receiver}, exprDepth (budget - 1) + 1 ≤ bound →
      Tree.depthAll receiver ≤ bound → (level.links receiver).DepthLe (bound + budget)) :
    level.chain.DepthLe (exprDepth budget + budget + 5) := by
  refine depthLe_settle.andThen ((depthLe_primary hexpr (one_le_exprDepth _)).into ?_)
  intro receiver hreceiver
  have hpred := exprDepth_pred_le budget
  exact (hlinks (by omega) hreceiver).mono (by omega)

theorem depthLe_above_none : (above none).DepthLe 0 := by
  have hlinks : ∀ {bound receiver}, exprDepth (0 - 1) + 1 ≤ bound →
      Tree.depthAll receiver ≤ bound → ((above none).links receiver).DepthLe (bound + 0) := by
    intro bound receiver hbound hreceiver input
    rw [links_above]
    split
    · exact (depthLe_keep hreceiver).andThen (depthLe_tooDeep (by omega)) input
    · exact depthLe_keep hreceiver input
  refine ⟨depthLe_tooDeep le_rfl, fun input => ?_, hlinks, fun {bound left} least hbound hleft input => ?_⟩
  · rw [unary_above]
    split
    · exact depthLe_tooDeep (by omega) input
    · exact depthLe_chain (depthLe_tooDeep le_rfl) hlinks input
  · rw [operators_above]
    split
    · exact depthLe_keep hleft input
    · split
      · exact depthLe_keep hleft input
      · exact (depthLe_keep hleft).andThen (depthLe_tooDeep (by omega)) input

/-- One level more lets a chain of links and a chain of operators be one longer each. -/
theorem DepthLe.above_some (h : level.DepthLe budget) :
    (above (some level)).DepthLe (budget + 1) := by
  have hsucc := exprDepth_succ budget
  have hlinks : ∀ {bound receiver}, exprDepth (budget + 1 - 1) + 1 ≤ bound →
      Tree.depthAll receiver ≤ bound →
      ((above (some level)).links receiver).DepthLe (bound + (budget + 1)) := by
    intro bound receiver hbound hreceiver input
    rw [Nat.add_sub_cancel] at hbound
    have hpred := exprDepth_pred_le budget
    rw [links_above]
    split
    · refine ((h.link hbound hreceiver).into fun trees htrees => ?_) input
      exact (h.links (by omega) htrees).mono (by omega)
    · exact (depthLe_keep hreceiver).mono (by omega) input
  refine ⟨h.ternary, fun input => ?_, hlinks, fun {bound left} least hbound hleft input => ?_⟩
  · rw [unary_above]
    split
    · exact ((depthLe_take.andThen h.unary).node .unaryExpr).mono (by omega) input
    · exact depthLe_chain h.ternary hlinks input
  · rw [operators_above]
    split
    · exact (depthLe_keep hleft).mono (by omega) input
    · split
      · exact (depthLe_keep hleft).mono (by omega) input
      · rename_i precedence _ _
        have hright : (take ++ level.binary (precedence + 1)).DepthLe bound :=
          depthLe_take.andThen ((h.binary _).mono (by omega))
        refine ((hright.wrap hleft .binaryExpr).into fun trees htrees => ?_) input
        exact (h.operators least (by omega) htrees).mono (by omega)

end Level

theorem depthLe_level (budget : Nat) : (level budget).DepthLe budget := by
  induction budget with
  | zero => exact Level.depthLe_above_none
  | succ budget ih => exact ih.above_some

/-! The rules of documents -/

/-- No tree of an expression has more nodes on a path. -/
def maxExprDepth : Nat := exprDepth maxDepth

theorem depthLe_expr : expr.DepthLe maxExprDepth := (depthLe_level maxDepth).expr

/-- The name of a decorator is one node, so its calls do not reach as deep as those of an operand. -/
theorem depthAll_chain_le {input : List Lexeme} (h : kind input = .ident) :
    Tree.depthAll (outermost.chain input).trees ≤ maxExprDepth := by
  have hname : Tree.depthAll (primary outermost.expr (settle input).rest).trees ≤ 1 := by
    have hkind : kind (settle input).rest = .ident := by rw [kind_settle, h]
    have heq : primary outermost.expr (settle input).rest =
        Rule.node .variableAccess (takeAs .ident) (settle input).rest :=
      (Primary.word (by rw [hkind]; rfl) (by rw [hkind]; decide)).eq
    rw [heq]
    exact ((depthLe_takeAs .ident).node .variableAccess : DepthLe _ (0 + 1)) _
  have hlinks := (depthLe_level maxDepth).links le_rfl (hname.trans (Nat.le_add_left _ _))
    (primary outermost.expr (settle input).rest).rest
  change Tree.depthAll (_ ++ _) ≤ _
  rw [Tree.depthAll_append]
  exact Nat.max_le.2 ⟨depthLe_settle _, hlinks.trans (by decide)⟩

theorem depthLe_decorator : decorator.DepthLe (maxExprDepth + 1) := by
  refine DepthLe.andThen (DepthLe.node (depthLe_take.andThen fun input => ?_) _)
    ((depthLe_skipTo _ _ (by decide)).unlessAt _)
  unfold ifAt
  split
  · exact depthAll_chain_le ‹_›
  · exact depthLe_absent _ (by decide) input

theorem depthLe_name : name.DepthLe 1 :=
  (depthLe_take.node .name : DepthLe _ (0 + 1)).ifAt (depthLe_absent _ le_rfl)

theorem depthLe_typeName : typeName.DepthLe 1 :=
  (depthLe_take.node .typeName : DepthLe _ (0 + 1)).ifAt (depthLe_absent _ le_rfl)

theorem depthLe_quoted (kind : Kind) (expected : Expected) :
    (quoted kind expected).DepthLe (maxExprDepth + 3) :=
  ((depthLe_string depthLe_expr (by decide)).node kind).ifAt (depthLe_absent _ (by decide))

theorem depthLe_existing : existing.DepthLe bound := by
  intro input
  unfold existing
  split
  · exact depthLe_takeAs _ input
  · exact depthLe_done input

/-- The string of a resource type or of a module path puts an expression three nodes deep. -/
theorem depthLe_header (kind : Kind) : (header kind).DepthLe (maxExprDepth + 3) := by
  have hexpr : expr.DepthLe (maxExprDepth + 3) := depthLe_expr.mono (by omega)
  refine header_induction (motive := fun rule => rule.DepthLe (maxExprDepth + 3))
    (fun hpart => ?_) .andThen
  cases hpart with
  | name => exact depthLe_name.mono (by decide)
  | typeName => exact depthLe_typeName.mono (by decide)
  | resourceType | modulePath => exact depthLe_quoted _ _
  | existing => exact depthLe_existing
  | equals => exact depthLe_expect _ (by decide)
  | value => exact hexpr
  | default => exact (depthLe_take.andThen hexpr).ifAt depthLe_done
  | done => exact depthLe_done

theorem depthLe_undecorated {decorators : List Tree}
    (h : Tree.depthAll decorators ≤ maxExprDepth + 3) :
    (undecorated decorators).DepthLe (maxExprDepth + 4) := by
  have hkeep : (keep decorators).DepthLe (maxExprDepth + 4) := depthLe_keep (h.trans (by omega))
  have hskip : ∀ cause, (skipTo [.newline] cause).DepthLe (maxExprDepth + 4) := fun cause =>
    depthLe_skipTo _ cause (by decide)
  have hend : endDeclaration.DepthLe (maxExprDepth + 4) := by
    intro input
    unfold endDeclaration
    split
    · exact depthLe_done input
    · exact (hskip _).unlessAt _ input
  intro input
  obtain ⟨rule, hrule, heq⟩ := exists_undecorated decorators input
  rw [heq]
  cases hrule with
  | @declaration kind keyword =>
      exact ((((depthLe_takeAs keyword).andThen (depthLe_header kind)).wrap h kind).andThen hend)
        input
  | alone => exact hkeep input
  | stray => exact hkeep.andThen (hskip _) input

theorem depthLe_declaration : declaration.DepthLe (maxExprDepth + 4) := by
  have hdecorators : (loop decoratorStep).DepthLe (maxExprDepth + 3) := by
    refine depthLe_loop fun input => ?_
    generalize hstep : decoratorStep input = step
    cases decoratorRound_of_eq hstep with
    | decorator => exact (depthLe_decorator.mono (by omega)).andThen depthLe_takeNewlines input
    | done => exact depthLe_done input
  exact depthLe_settle.andThen (hdecorators.into fun _ => depthLe_undecorated)

theorem depthLe_document : document.DepthLe (maxExprDepth + 5) := by
  refine DepthLe.wrap (depthLe_loop fun input => ?_) (Nat.zero_le _) _
  generalize hstep : documentStep input = step
  cases documentRound_of_eq hstep with
  | fileEnd => exact depthLe_settle input
  | newline => exact depthLe_take input
  | declaration => exact depthLe_declaration input

end Rule

end Caret
