import Caret.Proofs.Machine.Runs

/-!
# The functions of expressions run as their rules

The literals run as their rules over any expression that does. Operators and links go on from a mark,
with the levels that the chain has entered, and the rest is an induction on how deep the calls may
nest: a function enters a level before it calls one of those below.
-/

namespace Caret

namespace Machine

namespace Action

variable {levels : Nat} {input : List Lexeme}

/-! ### Literals -/

/-- The expressions that a function reads: they run as those of a rule, and take a token where one
can start. -/
structure Follows (levels : Nat) (expr : Action) (rule : Rule) : Prop where
  runs : ∀ input, Runs levels expr rule input
  spells : ∀ input, (rule input).Spells [] input
  progresses : ∀ input, Rule.startsExpr (Rule.kind input) = true →
    (rule input).rest.length < input.length

section Literals

variable {expr : Action} {rule : Rule} (h : Follows levels expr rule)

include h

theorem runs_interpolation (input : List Lexeme) :
    Runs levels (interpolation expr) (Rule.interpolation rule) input := by
  apply runs_node
  intro input
  have hstray : ∀ input, Runs levels
      (unlessAt [.interpEnd, .eof]
        (report .strayInHole ++ (start .error ++ read (Rule.takeStray 0) ++ finish)))
      (Rule.unlessAt [.interpEnd, .eof]
        (Rule.report .strayInHole ++ Rule.node .error (Rule.takeStray 0))) input :=
    fun input => runs_unlessAt _ ((runs_read _ _).append (runs_node _ (runs_read _) _))
  exact (((((runs_read _ _).append (runs_read _ _)).append (h.runs _)).append
    (runs_read _ _)).append (hstray _)).append (runs_expect _ _)

theorem stepRuns_string (input : List Lexeme) :
    StepRuns levels input (stringStep expr input) (Rule.stringStep rule input) := by
  fun_cases Rule.stringStep rule input
  case case1 hkind =>
    simp only [stringStep, hkind]
    exact .again (runs_read _ _)
  case case2 hkind =>
    simp only [stringStep, hkind]
    exact .again (runs_interpolation h input)
  case case3 hkind =>
    simp only [stringStep, hkind]
    exact .last (runs_read _ _)
  case case4 =>
    simp only [stringStep]
    exact .last (runs_read _ _)

theorem runs_string (input : List Lexeme) :
    Runs levels (string expr) (Rule.string rule) input :=
  runs_node _ (fun _ => (runs_read _ _).append
    (runs_loop (stepRuns_string h) (Rule.progresses_stringStep h.spells) _)) input

theorem runs_propertyKey (input : List Lexeme) :
    Runs levels (propertyKey expr) (Rule.propertyKey rule) input :=
  runs_node _ (fun _ => runs_ifAt (runs_string h _) (runs_read _ _)) input

theorem runs_propertyValue (input : List Lexeme) :
    Runs levels (propertyValue expr) (Rule.propertyValue rule) input :=
  runs_ifAt ((runs_read _ _).append (h.runs _))
    ((runs_missing _ _).append (runs_unlessAt _ (h.runs _)))

theorem runs_property (input : List Lexeme) :
    Runs levels (property expr) (Rule.property rule) input :=
  runs_node _ (fun _ => ((runs_propertyKey h _).append (runs_propertyValue h _)).append
    (runs_unlessAt _ (runs_skipTo _ _ _))) input

omit h in
theorem runs_list {item : Action} {itemRule : Rule} {close : Kind} {startsItem : Kind → Bool}
    {cause : SyntaxError.Cause} (node : Kind)
    (hitem : ∀ input, Runs levels item itemRule input)
    (hprogress : Rule.Progresses (Rule.listStep close startsItem itemRule cause))
    (input : List Lexeme) :
    Runs levels (list node close startsItem item cause)
      (Rule.list node close startsItem itemRule cause) input := by
  have hstep : ∀ input, StepRuns levels input (listStep close startsItem item cause input)
      (Rule.listStep close startsItem itemRule cause input) := by
    intro input
    unfold listStep Rule.listStep
    dsimp only
    split
    · exact .again (runs_read _ _)
    · split
      · exact .last (runs_read _ _)
      · split
        · exact .last (runs_missing _ _)
        · split
          · exact .again (hitem _)
          · exact .again (runs_skipTo _ _ _)
  exact runs_node _ (fun _ => (runs_read _ _).append (runs_loop hstep hprogress _)) input

theorem runs_object (input : List Lexeme) :
    Runs levels (object expr) (Rule.object rule) input :=
  runs_list _ (runs_property h) (Rule.progresses_property h.spells) input

theorem runs_array (input : List Lexeme) :
    Runs levels (array expr) (Rule.array rule) input :=
  runs_list _ (runs_node _ h.runs) (Rule.progresses_arrayItem h.progresses) input

theorem runs_arguments (input : List Lexeme) :
    Runs levels (arguments expr) (Rule.arguments rule) input :=
  runs_list _ h.runs (Rule.progresses_arguments h.progresses) input

omit h in
theorem runs_loopVariable (input : List Lexeme) :
    Runs levels loopVariable Rule.loopVariable input := by
  apply Runs.look
  unfold Runs Rule.loopVariable
  split
  · exact runs_node _ (runs_read _) input
  · exact runs_missing _ input

omit h in
theorem runs_inKeyword (input : List Lexeme) :
    Runs levels inKeyword Rule.inKeyword input := by
  apply Runs.look
  unfold Runs Rule.inKeyword
  split
  · exact runs_read _ input
  · exact runs_missing _ input

theorem runs_forExpr (input : List Lexeme) :
    Runs levels (forExpr expr) (Rule.forExpr rule) input := by
  apply runs_node
  intro input
  have hheader : ∀ input, Runs levels
      (take ++ takeAs .forKw ++ loopVariable ++ inKeyword ++ expr)
      (Rule.take ++ Rule.takeAs .forKw ++ Rule.loopVariable ++ Rule.inKeyword ++ rule) input :=
    fun _ => ((((runs_read _ _).append (runs_read _ _)).append (runs_loopVariable _)).append
      (runs_inKeyword _)).append (h.runs _)
  exact ((((((hheader _).append (runs_expect _ _)).append (runs_read _ _)).append
    (h.runs _)).append (runs_unlessAt _ (runs_skipTo _ _ _))).append (runs_read _ _)).append
    (runs_expect _ _)

theorem runs_paren (input : List Lexeme) :
    Runs levels (paren expr) (Rule.paren rule) input :=
  runs_node _ (fun _ => ((((runs_read _ _).append (runs_read _ _)).append (h.runs _)).append
    (runs_read _ _)).append (runs_expect _ _)) input

theorem runs_primary (input : List Lexeme) :
    Runs levels (primary expr) (Rule.primary rule) input := by
  apply Runs.look
  unfold Runs
  fun_cases Rule.primary rule input
  case case1 hkind | case2 hkind | case3 hkind | case4 hkind =>
    simp only [hkind]
    exact runs_node _ (runs_read _) input
  case case5 hkind =>
    simp only [hkind]
    exact runs_string h input
  case case6 hkind =>
    simp only [hkind]
    exact runs_object h input
  case case7 hkind hfor =>
    simp only [hkind, hfor]
    exact runs_forExpr h input
  case case8 hkind hfor =>
    simp only [hkind, hfor]
    exact runs_array h input
  case case9 hkind =>
    simp only [hkind]
    exact runs_paren h input
  case case10 hword =>
    simp only [hword]
    exact runs_node _ (runs_read _) input
  case case11 hword =>
    simp only [hword]
    exact runs_missing _ input

end Literals

/-! ### Operators and links -/

end Action

open Action

/-- The functions run as the rules of a level. -/
structure Routines.Follows (levels : Nat) (routines : Routines) (level : Rule.Level) : Prop where
  expr : ∀ input, Runs levels routines.expr level.expr input
  unary : ∀ input, Runs levels routines.unary level.unary input
  links : GoesOn levels routines.links level.links
  operators : ∀ least, GoesOn levels (routines.operators least) (level.operators least)

namespace Routines

variable {levels : Nat} {below : Routines} {level : Rule.Level}

theorem follows_of_runs {expr : Action}
    (h : ∀ input, Runs levels expr (Rule.level levels).expr input) :
    Action.Follows levels expr (Rule.level levels).expr :=
  ⟨h, (Rule.spells_level levels).expr, (Rule.progresses_level levels).expr⟩

theorem runs_chain {routines : Routines}
    (hexpr : ∀ input, Runs levels routines.expr (Rule.level levels).expr input)
    (hlinks : GoesOn levels routines.links (Rule.level levels).links) (input : List Lexeme) :
    Runs levels routines.chain (Rule.level levels).chain input :=
  runs_mark (runs_primary (follows_of_runs hexpr)) hlinks.continues input

theorem Follows.reads (h : below.Follows levels (Rule.level levels)) :
    Action.Follows levels below.expr (Rule.level levels).expr :=
  follows_of_runs h.expr

theorem Follows.binary (h : below.Follows levels level) (least : Nat) (input : List Lexeme) :
    Runs levels (below.binary least) (level.binary least) input :=
  runs_mark h.unary (h.operators least).continues input

theorem Follows.chain (h : below.Follows levels (Rule.level levels)) (input : List Lexeme) :
    Runs levels below.chain (Rule.level levels).chain input :=
  runs_chain h.expr h.links input

theorem Follows.choice (h : below.Follows levels level) :
    Continues levels below.choice level.choice :=
  continues_ifAt
    (continues_wrap .ternaryExpr fun _ => (((runs_read _ _).append (h.expr _)).append
      (runs_expect _ _)).append (h.expr _))
    continues_keep

theorem Follows.ternary (h : below.Follows levels level) (input : List Lexeme) :
    Runs levels below.ternary level.ternary input :=
  runs_mark (h.binary 1) h.choice input

theorem runs_member (input : List Lexeme) : Runs levels member Rule.Level.member input := by
  apply Runs.look
  unfold Runs Rule.Level.member
  split
  · exact runs_read _ input
  · exact runs_missing _ input

theorem Follows.link (h : below.Follows levels (Rule.level levels)) :
    Continues levels below.link (Rule.level levels).link := by
  intro p left hdepth
  have hdot := continues_wrap .propertyAccess
    (fun input => (runs_read Rule.take input).append (runs_member _)) p left hdepth
  have hindex := continues_wrap .arrayAccess (fun input =>
    ((runs_read Rule.take input).append (h.expr _)).append (runs_expect .rBrack _)) p left hdepth
  have hcall := continues_wrap .callExpr (runs_arguments h.reads) p left hdepth
  unfold Outcome.into at *
  unfold Routines.link look
  rw [input_after]
  fun_cases Rule.Level.link (Rule.level levels) left.trees left.rest
  case case1 hkind =>
    simp only [hkind]
    exact hdot
  case case2 hkind =>
    simp only [hkind]
    exact hindex
  case case3 =>
    simp only
    exact hcall

/-! The functions that call those below -/

theorem links_calling (below : Routines) (mark wraps : Nat) :
    below.calling.links mark wraps = look fun input =>
      if Rule.Level.startsLink (Rule.kind input) then
        enter (below.link mark ++ below.links mark (wraps + 1)) (leave wraps)
      else leave wraps := rfl

theorem operators_calling (below : Routines) (least mark wraps : Nat) :
    below.calling.operators least mark wraps = look fun input =>
      match (Rule.kind input).precedence with
      | none => leave wraps
      | some precedence =>
        if precedence < least then leave wraps
        else
          enter
            (startAt mark .binaryExpr ++ (take ++ below.binary (precedence + 1)) ++ finish ++
              below.operators least mark (wraps + 1))
            (leave wraps) := rfl

theorem unary_calling (below : Routines) :
    below.calling.unary = look fun input =>
      if Rule.kind input = .bang || Rule.kind input = .minus then
        enter (start .unaryExpr ++ (take ++ below.unary) ++ finish ++ leave 1) skip
      else below.calling.chain := rfl

section Calling

variable
    (hbelow : ∀ fewer, levels = fewer + 1 → below.Follows fewer (Rule.level fewer))

include hbelow

theorem runs_expr_calling (input : List Lexeme) :
    Runs levels below.calling.expr (Rule.level levels).expr input := by
  cases levels with
  | zero => exact runs_enter_of_full _ input
  | succ fewer => exact ((hbelow fewer rfl).ternary input).enter

theorem goesOn_links_calling :
    GoesOn levels below.calling.links (Rule.level levels).links := by
  intro p wraps h left hdepth
  by_cases hlink : Rule.Level.startsLink (Rule.kind left.rest) = true
  · have hlook : below.calling.links p.trees.length wraps ((p.after left).deeper wraps h) =
        enter (below.link p.trees.length ++ below.links p.trees.length (wraps + 1)) (leave wraps)
          ((p.after left).deeper wraps h) := by
      rw [links_calling]
      exact look_of (if_pos hlink)
    rw [hlook]
    cases levels with
    | zero =>
        have hrule : left.into (Rule.level 0).links =
            left.into fun trees => Rule.keep trees ++ Rule.tooDeep := by
          apply Outcome.into_congr
          rw [Rule.level, Rule.Level.links_above, if_pos hlink]
        rw [hrule]
        exact enter_wraps_of_full _ p h left hdepth
    | succ fewer =>
        have hrule : left.into (Rule.level (fewer + 1)).links =
            left.into fun trees =>
              ((Rule.level fewer).link trees).into (Rule.level fewer).links := by
          apply Outcome.into_congr
          rw [Rule.level, Rule.Level.links_above, if_pos hlink]
        rw [hrule]
        exact enter_wraps_of_room (hbelow fewer rfl).link (hbelow fewer rfl).links p h left hdepth
  · have hlook : below.calling.links p.trees.length wraps ((p.after left).deeper wraps h) =
        leave wraps ((p.after left).deeper wraps h) := by
      rw [links_calling]
      exact look_of (if_neg hlink)
    rw [hlook]
    apply leave_wraps
    obtain ⟨rest, hrest⟩ := Rule.exists_level_eq_above levels
    rw [hrest, Rule.Level.links_above, if_neg hlink]

theorem goesOn_operators_calling (least : Nat) :
    GoesOn levels (below.calling.operators least) ((Rule.level levels).operators least) := by
  intro p wraps h left hdepth
  have hkind : Rule.kind ((p.after left).deeper wraps h).input = Rule.kind left.rest := rfl
  rw [operators_calling, look, hkind]
  cases hprecedence : (Rule.kind left.rest).precedence with
  | none =>
    apply leave_wraps
    obtain ⟨rest, hrest⟩ := Rule.exists_level_eq_above levels
    rw [hrest, Rule.Level.operators_above, hprecedence]
  | some precedence =>
    by_cases hless : precedence < least
    · simp only [hless, if_true]
      apply leave_wraps
      obtain ⟨rest, hrest⟩ := Rule.exists_level_eq_above levels
      rw [hrest, Rule.Level.operators_above, hprecedence]
      exact if_pos hless
    · simp only [hless, if_false]
      cases levels with
      | zero =>
          have hrule : left.into ((Rule.level 0).operators least) =
              left.into fun trees => Rule.keep trees ++ Rule.tooDeep := by
            apply Outcome.into_congr
            rw [Rule.level, Rule.Level.operators_above, hprecedence]
            exact if_neg hless
          rw [hrule]
          exact enter_wraps_of_full _ p h left hdepth
      | succ fewer =>
          have hrule : left.into ((Rule.level (fewer + 1)).operators least) =
              left.into fun trees => (Rule.wrap .binaryExpr trees
                (Rule.take ++ (Rule.level fewer).binary (precedence + 1))).into
                  ((Rule.level fewer).operators least) := by
            apply Outcome.into_congr
            rw [Rule.level, Rule.Level.operators_above, hprecedence]
            exact if_neg hless
          rw [hrule]
          exact enter_wraps_of_room
            (continues_wrap .binaryExpr fun _ =>
              (runs_read _ _).append ((hbelow fewer rfl).binary _ _))
            ((hbelow fewer rfl).operators least) p h left hdepth

theorem runs_chain_calling (input : List Lexeme) :
    Runs levels below.calling.chain (Rule.level levels).chain input :=
  runs_chain (runs_expr_calling hbelow) (goesOn_links_calling hbelow) input

theorem runs_unary_calling (input : List Lexeme) :
    Runs levels below.calling.unary (Rule.level levels).unary input := by
  rw [unary_calling]
  apply Runs.look
  by_cases hprefix : Rule.kind input = .bang ∨ Rule.kind input = .minus
  · rw [if_pos (by simpa using hprefix)]
    cases levels with
    | zero =>
        have hrule : (Rule.level 0).unary input = Rule.tooDeep input := by
          rw [Rule.level, Rule.Level.unary_above, if_pos hprefix]
        exact Runs.of_eq hrule (runs_enter_of_full _ input)
    | succ fewer =>
        have hrule : (Rule.level (fewer + 1)).unary input =
            Rule.node .unaryExpr (Rule.take ++ (Rule.level fewer).unary) input := by
          rw [Rule.level, Rule.Level.unary_above, if_pos hprefix]
        have hnode := runs_node .unaryExpr (fun input =>
          (runs_read Rule.take input).append ((hbelow fewer rfl).unary _)) input
        exact Runs.of_eq hrule hnode.enter
  · have hrule : (Rule.level levels).unary input = (Rule.level levels).chain input := by
      obtain ⟨rest, hrest⟩ := Rule.exists_level_eq_above levels
      rw [hrest, Rule.Level.unary_above, if_neg hprefix]
    rw [if_neg (by simpa using hprefix)]
    exact Runs.of_eq hrule (runs_chain_calling hbelow input)

end Calling

/-- Functions whose calls may nest deeper than there are levels left run as the rules. -/
theorem follows_routines (calls : Nat) :
    ∀ levels, levels < calls → (routines calls).Follows levels (Rule.level levels) := by
  induction calls with
  | zero => intro levels hlevels; omega
  | succ calls ih =>
      intro levels hlevels
      have hbelow : ∀ fewer, levels = fewer + 1 →
          (routines calls).Follows fewer (Rule.level fewer) := by
        intro fewer hfewer
        exact ih fewer (by omega)
      exact ⟨runs_expr_calling hbelow, runs_unary_calling hbelow, goesOn_links_calling hbelow,
        goesOn_operators_calling hbelow⟩

theorem follows_grammar {levels : Nat} (h : levels ≤ Rule.maxDepth) :
    grammar.Follows levels (Rule.level levels) :=
  follows_routines _ _ (Nat.lt_succ_of_le h)

end Routines

end Machine

end Caret
