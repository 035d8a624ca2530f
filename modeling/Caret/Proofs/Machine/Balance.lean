import Caret.Proofs.Machine.Grammar

/-!
# The grammar keeps its balance

Every function of the grammar returns, wherever it is started: no step is a fault, the nodes that
were open are open again, and the depth is the one before. A whole text ends in one tree, which is
that of the rules.
-/

namespace Caret

/-! ### Declarations

A declaration is read at the outermost level. It keeps its balance at the others just as well, and
so its rules are stated for any level here.
-/

namespace Rule.Level

variable (level : Level)

def decorator : Rule :=
  node .decorator (take ++ ifAt .ident level.chain (absent .decoratorName)) ++
    unlessAt [.newline, .eof] (skipTo [.newline] .afterDecorator)

def decoratorStep (input : List Lexeme) : Step :=
  if kind input = .atSign then .again (level.decorator ++ takeNewlines) else .last done

def quoted (kind : Kind) (expected : Expected) : Rule :=
  ifAt .stringStart (node kind (string level.expr)) (absent expected)

def header : Kind → Rule
  | .targetScopeDecl => expect .eq ++ level.expr
  | .paramDecl => name ++ typeName ++ ifAt .eq (take ++ level.expr) done
  | .varDecl => name ++ expect .eq ++ level.expr
  | .outputDecl => name ++ typeName ++ expect .eq ++ level.expr
  | .resourceDecl =>
    name ++ level.quoted .resourceType .resourceType ++ existing ++ expect .eq ++ level.expr
  | .moduleDecl => name ++ level.quoted .modulePath .modulePath ++ expect .eq ++ level.expr
  | _ => done

def undecorated (decorators : List Tree) : Rule := fun input =>
  match declarationWord input with
  | some (kind, keyword) =>
    (wrap kind decorators (takeAs keyword ++ level.header kind) ++ endDeclaration) input
  | none =>
    if !decorators.isEmpty && kind input = .eof then keep decorators input
    else (keep decorators ++ skipTo [.newline] .notADeclaration) input

def declaration : Rule := settle ++ (loop level.decoratorStep).into level.undecorated

theorem declaration_outermost : outermost.declaration = Rule.declaration := rfl

variable {level : Level} {input : List Lexeme}

theorem progresses_decoratorStep (h : level.Spells) : Rule.Progresses level.decoratorStep := by
  intro input inner hchoose
  unfold decoratorStep at hchoose
  split at hchoose
  · rename_i hkind
    cases hchoose
    refine length_andThen_lt (length_andThen_lt (length_node_lt (length_andThen_lt
      (length_take_lt (by rw [kind_settle, hkind]; decide)) ?_))
      (spells_unlessAt _ (spells_skipTo _ _ _))) (spells_takeNewlines _)
    exact spells_ifAt (fun _ => h.chain _) (fun _ => spells_absent _ _)
  · cases hchoose

/-- There are trees of decorators where there is a first decorator. -/
theorem isEmpty_loop_decoratorStep (h : level.Spells) (input : List Lexeme) :
    (loop level.decoratorStep input).trees.isEmpty = !decide (kind input = .atSign) := by
  by_cases hkind : kind input = .atSign
  · rw [loop_of_again (progresses_decoratorStep h) (if_pos hkind), decorator, node]
    simp [andThen_apply, wrap, hkind]
  · rw [loop_of_last (progresses_decoratorStep h) (if_neg hkind)]
    simp [done, hkind]

end Rule.Level

namespace Machine.Action

variable {levels : Nat}

theorem runs_decorator (h : levels ≤ Rule.maxDepth) (input : List Lexeme) :
    Runs levels decorator (Rule.level levels).decorator input :=
  (runs_node _ (fun _ => (runs_read _ _).append
    (runs_ifAt ((Routines.follows_grammar h).chain _) (runs_missing _ _))) input).append
    (runs_unlessAt _ (runs_skipTo _ _ _))

theorem stepRuns_decorator (h : levels ≤ Rule.maxDepth) (input : List Lexeme) :
    StepRuns levels input (decoratorStep input) ((Rule.level levels).decoratorStep input) := by
  unfold decoratorStep Rule.Level.decoratorStep
  split
  · exact .again ((runs_decorator h _).append (runs_read _ _))
  · exact .last (runs_skip _)

theorem runs_name (input : List Lexeme) : Runs levels name Rule.name input :=
  runs_ifAt (runs_node _ (runs_read _) _) (runs_missing _ _)

theorem runs_typeName (input : List Lexeme) : Runs levels typeName Rule.typeName input :=
  runs_ifAt (runs_node _ (runs_read _) _) (runs_missing _ _)

theorem runs_existing (input : List Lexeme) : Runs levels existing Rule.existing input := by
  apply Runs.look
  unfold Runs Rule.existing
  split
  · exact runs_read _ input
  · exact runs_skip input

theorem runs_quoted (h : levels ≤ Rule.maxDepth) (kind : Kind) (expected : Expected)
    (input : List Lexeme) :
    Runs levels (quoted kind expected) ((Rule.level levels).quoted kind expected) input :=
  runs_ifAt (runs_node _ (runs_string (Routines.follows_grammar h).reads) _) (runs_missing _ _)

theorem runs_header (h : levels ≤ Rule.maxDepth) (kind : Kind) (input : List Lexeme) :
    Runs levels (header kind) ((Rule.level levels).header kind) input := by
  have hvalue : ∀ input, Runs levels grammar.expr (Rule.level levels).expr input :=
    (Routines.follows_grammar h).expr
  fun_cases Rule.Level.header (Rule.level levels) kind
  case case1 => exact (runs_expect _ _).append (hvalue _)
  case case2 =>
    exact ((runs_name _).append (runs_typeName _)).append
      (runs_ifAt ((runs_read _ _).append (hvalue _)) (runs_skip _))
  case case3 => exact ((runs_name _).append (runs_expect _ _)).append (hvalue _)
  case case4 =>
    exact (((runs_name _).append (runs_typeName _)).append (runs_expect _ _)).append (hvalue _)
  case case5 =>
    exact ((((runs_name _).append (runs_quoted h _ _ _)).append (runs_existing _)).append
      (runs_expect _ _)).append (hvalue _)
  case case6 =>
    exact (((runs_name _).append (runs_quoted h _ _ _)).append (runs_expect _ _)).append
      (hvalue _)
  case case7 =>
    simp only [header]
    exact runs_skip _

theorem runs_endDeclaration (input : List Lexeme) :
    Runs levels endDeclaration Rule.endDeclaration input := by
  apply Runs.look
  unfold Runs Rule.endDeclaration
  split
  · exact runs_skip input
  · exact runs_unlessAt _ (runs_skipTo _ _ _)

/-- A declaration goes on behind its decorators; it is decorated when they have left trees. -/
theorem undecorated_after (h : levels ≤ Rule.maxDepth) (p : Machine) (left : Outcome)
    (hdepth : p.depth + levels = Rule.maxDepth) :
    undecorated p.trees.length (!left.trees.isEmpty) (p.after left) =
      .ok (p.after (left.into (Rule.level levels).undecorated)) := by
  have hword : ∀ node keyword, Continues levels
      (fun mark => startAt mark node ++ (takeAs keyword ++ header node) ++ finish ++ endDeclaration)
      (fun decorators => Rule.wrap node decorators
        (Rule.takeAs keyword ++ (Rule.level levels).header node) ++ Rule.endDeclaration) :=
    fun node keyword => (continues_wrap node fun _ => (runs_read _ _).append
      (runs_header h node _)).append runs_endDeclaration
  have hskip : Continues levels (fun _ => skip ++ skipTo [.newline] .notADeclaration)
      (fun decorators => Rule.keep decorators ++ Rule.skipTo [.newline] .notADeclaration) :=
    continues_keep.append (runs_skipTo _ _)
  unfold undecorated look Outcome.into
  rw [input_after]
  fun_cases Rule.Level.undecorated (Rule.level levels) left.trees left.rest
  case case1 node keyword hdeclaration =>
    simp only [hdeclaration]
    exact hword node keyword p left hdepth
  case case2 hdeclaration hend =>
    simp only [hdeclaration]
    rw [if_pos hend]
    exact continues_keep p left hdepth
  case case3 hdeclaration hend =>
    simp only [hdeclaration]
    rw [if_neg hend]
    exact hskip p left hdepth

theorem runs_declaration (h : levels ≤ Rule.maxDepth) (input : List Lexeme) :
    Runs levels declaration (Rule.level levels).declaration input := by
  rintro p rfl hdepth
  have hspells := Rule.spells_level levels
  have hloop := runs_loop (stepRuns_decorator h) (Rule.Level.progresses_decoratorStep hspells)
    (Rule.settle p.input).rest (p.after (Rule.settle p.input)) rfl hdepth
  have hdecorated := Rule.Level.isEmpty_loop_decoratorStep hspells (Rule.settle p.input).rest
  calc declaration p =
      undecorated (p.after (Rule.settle p.input)).trees.length
        (Rule.kind (Rule.settle p.input).rest = .atSign)
        ((p.after (Rule.settle p.input)).after
          (Rule.loop (Rule.level levels).decoratorStep (Rule.settle p.input).rest)) :=
        append_of_ok hloop
    _ = .ok ((p.after (Rule.settle p.input)).after
          ((Rule.loop (Rule.level levels).decoratorStep (Rule.settle p.input).rest).into
            (Rule.level levels).undecorated)) := by
        rw [← Bool.not_not (decide _), ← hdecorated]
        exact undecorated_after h _ _ hdepth
    _ = .ok (p.after ((Rule.level levels).declaration p.input)) := by
        rw [after_after]
        rfl

theorem stepRuns_document (input : List Lexeme) :
    StepRuns Rule.maxDepth input (documentStep input) (Rule.documentStep input) := by
  fun_cases Rule.documentStep input
  case case1 hkind =>
    simp only [documentStep, hkind]
    exact .last (runs_read _ _)
  case case2 hkind =>
    simp only [documentStep, hkind]
    exact .again (runs_read _ _)
  case case3 =>
    simp only [documentStep]
    rw [← Rule.Level.declaration_outermost]
    exact .again (runs_declaration (Nat.le_refl _) _)

theorem runs_document (input : List Lexeme) :
    Runs Rule.maxDepth document Rule.document input :=
  runs_startHere .root (runs_loop stepRuns_document Rule.progresses_documentStep) input

/-! ### Balance -/

/-- The functions of the grammar. -/
inductive IsFunction : Action → Prop where
  | declaration : IsFunction declaration
  | decorator : IsFunction decorator
  | expr : IsFunction grammar.expr
  | binary (least : Nat) : IsFunction (grammar.binary least)
  | unary : IsFunction grammar.unary
  | chain : IsFunction grammar.chain
  | primary : IsFunction (primary grammar.expr)
  | string : IsFunction (string grammar.expr)
  | interpolation : IsFunction (interpolation grammar.expr)
  | object : IsFunction (object grammar.expr)
  | property : IsFunction (property grammar.expr)
  | array : IsFunction (array grammar.expr)
  | forExpr : IsFunction (forExpr grammar.expr)
  | arguments : IsFunction (arguments grammar.expr)

/-- The action returns, wherever it is started. The nodes that were open are those that are open
again, the trees that were there still are, and the depth is the one before. -/
def IsBalanced (action : Action) : Prop :=
  ∀ p : Machine, ∃ q, action p = .ok q ∧ q.opened = p.opened ∧ q.depth = p.depth ∧
    p.trees <+: q.trees

theorem isBalanced_of_runs {action : Action} {rules : Nat → Rule}
    (h : ∀ levels ≤ Rule.maxDepth, ∀ input, Runs levels action (rules levels) input) :
    action.IsBalanced := by
  intro p
  have hdepth : p.depth + (Rule.maxDepth - p.depth) = Rule.maxDepth :=
    Nat.add_sub_of_le p.depth_le
  exact ⟨_, h _ (Nat.sub_le _ _) p.input p rfl hdepth, rfl, rfl, List.prefix_append _ _⟩

/-- What a function of the grammar does is what a rule says, at each depth. -/
theorem IsFunction.exists_runs {action : Action} (h : IsFunction action) :
    ∃ rules : Nat → Rule, ∀ levels ≤ Rule.maxDepth, ∀ input,
      Runs levels action (rules levels) input := by
  have hgrammar : ∀ levels ≤ Rule.maxDepth, grammar.Follows levels (Rule.level levels) :=
    fun _ => Routines.follows_grammar
  cases h with
  | declaration => exact ⟨_, fun _ hle => runs_declaration hle⟩
  | decorator => exact ⟨_, fun _ hle => runs_decorator hle⟩
  | expr => exact ⟨_, fun _ hle => (hgrammar _ hle).expr⟩
  | binary least => exact ⟨_, fun _ hle => (hgrammar _ hle).binary least⟩
  | unary => exact ⟨_, fun _ hle => (hgrammar _ hle).unary⟩
  | chain => exact ⟨_, fun _ hle => (hgrammar _ hle).chain⟩
  | primary => exact ⟨_, fun _ hle => runs_primary (hgrammar _ hle).reads⟩
  | string => exact ⟨_, fun _ hle => runs_string (hgrammar _ hle).reads⟩
  | interpolation => exact ⟨_, fun _ hle => runs_interpolation (hgrammar _ hle).reads⟩
  | object => exact ⟨_, fun _ hle => runs_object (hgrammar _ hle).reads⟩
  | property => exact ⟨_, fun _ hle => runs_property (hgrammar _ hle).reads⟩
  | array => exact ⟨_, fun _ hle => runs_array (hgrammar _ hle).reads⟩
  | forExpr => exact ⟨_, fun _ hle => runs_forExpr (hgrammar _ hle).reads⟩
  | arguments => exact ⟨_, fun _ hle => runs_arguments (hgrammar _ hle).reads⟩

end Action

/-- Every function of the grammar is balanced, and a text ends with one tree, the one that the rules
give. -/
theorem balanced_and_parsed :
    (∀ action, Action.IsFunction action → action.IsBalanced) ∧
      ∀ text, ∃ p children,
        Action.document (initial (Lexeme.group (tokenize text))) = .ok p ∧ p.opened = [] ∧
          p.depth = 0 ∧ p.trees = [.node .root children] ∧
          Document.parse text = ⟨.node .root children, p.errors⟩ := by
  constructor
  · intro action hfunction
    obtain ⟨rules, hruns⟩ := hfunction.exists_runs
    exact Action.isBalanced_of_runs hruns
  · intro text
    have hdocument := Action.runs_document (Lexeme.group (tokenize text))
      (initial (Lexeme.group (tokenize text))) rfl rfl
    exact ⟨_, _, hdocument, rfl, rfl, rfl, rfl⟩

end Machine

end Caret
