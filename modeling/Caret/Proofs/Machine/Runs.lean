import Caret.Machine.Grammar
import Caret.Proofs.Rule.Progress

/-!
# What the machine does is what the rules say

An action runs as a rule when it returns without a fault, with the nodes that were open and at the
depth before, and puts into the open node what the rule leaves behind. Depths matter: a rule belongs
to a number of levels that are left, and the machine counts the levels that are taken.
-/

namespace Caret

/-- What a rule makes of the trees of an outcome and of what is left. -/
def Outcome.into (left : Outcome) (next : List Tree → Rule) : Outcome :=
  let more := next left.trees left.rest
  ⟨more.trees, left.errors ++ more.errors, more.rest⟩

theorem Outcome.into_congr {left : Outcome} {first second : List Tree → Rule}
    (h : first left.trees left.rest = second left.trees left.rest) :
    left.into first = left.into second := by
  rw [into, h, into]

theorem Outcome.into_keep (left : Outcome) : left.into Rule.keep = left := by
  simp [into, Rule.keep]

theorem Outcome.into_into (left : Outcome) (first second : List Tree → Rule) :
    (left.into first).into second = left.into fun trees => (first trees).into second := by
  simp [into, Rule.into_apply]

namespace Machine

theorem after_nothing (p : Machine) : p.after ⟨[], [], p.input⟩ = p := by
  ext <;> simp [after]

theorem after_after (p : Machine) (first second : Outcome) :
    (p.after first).after second =
      p.after ⟨first.trees ++ second.trees, first.errors ++ second.errors, second.rest⟩ := by
  ext <;> simp [after]

theorem input_after (p : Machine) (o : Outcome) : (p.after o).input = o.rest := rfl

theorem depth_deeper (p : Machine) (count : Nat) (h : p.depth + count ≤ Rule.maxDepth) :
    (p.deeper count h).depth = p.depth + count := rfl

namespace Action

variable {levels : Nat} {first second body : Action} {rule more : Rule} {input : List Lexeme}

/-- With so many levels left, an action does on an input what a rule says. -/
def Runs (levels : Nat) (action : Action) (rule : Rule) (input : List Lexeme) : Prop :=
  ∀ p : Machine, p.input = input → p.depth + levels = Rule.maxDepth →
    action p = .ok (p.after (rule input))

/-- An action that goes on at a mark does what a rule says that takes over the trees behind it. -/
def Continues (levels : Nat) (next : Nat → Action) (rule : List Tree → Rule) : Prop :=
  ∀ (p : Machine) (left : Outcome), p.depth + levels = Rule.maxDepth →
    next p.trees.length (p.after left) = .ok (p.after (left.into rule))

theorem append_of_ok {p q : Machine} (h : first p = .ok q) : (first ++ second) p = second q := by
  change (first p >>= second) = _
  rw [h]
  rfl

theorem runs_read (rule : Rule) (input : List Lexeme) : Runs levels (read rule) rule input := by
  rintro p rfl -
  rfl

theorem runs_skip (input : List Lexeme) : Runs levels skip Rule.done input := by
  rintro p rfl -
  exact congrArg Except.ok p.after_nothing.symm

theorem Runs.append (hfirst : Runs levels first rule input)
    (hsecond : Runs levels second more (rule input).rest) :
    Runs levels (first ++ second) (rule ++ more) input := by
  intro p hinput hdepth
  rw [append_of_ok (hfirst p hinput hdepth), hsecond (p.after (rule input)) rfl hdepth, after_after]
  rfl

theorem Runs.look {choose : List Lexeme → Action} (h : Runs levels (choose input) rule input) :
    Runs levels (look choose) rule input := by
  rintro p rfl hdepth
  exact h p rfl hdepth

theorem Runs.of_eq (heq : more input = rule input) (h : Runs levels first rule input) :
    Runs levels first more input := by
  unfold Runs
  rw [heq]
  exact h

theorem look_of {choose : List Lexeme → Action} {action : Action} {p : Machine}
    (h : choose p.input = action) : look choose p = action p := by
  rw [← h]
  rfl

theorem runs_ifAt {kind : Kind} (hyes : Runs levels first rule input)
    (hno : Runs levels second more input) :
    Runs levels (ifAt kind first second) (Rule.ifAt kind rule more) input := by
  apply Runs.look
  unfold Runs Rule.ifAt
  split
  · exact hyes
  · exact hno

theorem runs_unlessAt (kinds : List Kind) (h : Runs levels first rule input) :
    Runs levels (unlessAt kinds first) (Rule.unlessAt kinds rule) input := by
  apply Runs.look
  unfold Runs Rule.unlessAt
  split
  · exact runs_skip input
  · exact h

/-! ### Nodes -/

theorem finish_wrapped (p : Machine) (left inner : Outcome) (kind : Kind)
    (hfirst : (p.after left).firstChild ≤ p.trees.length)
    (hmark : p.trees.length ≤ (p.after left).trees.length) :
    finish (((p.after left).opening p.trees.length kind hfirst hmark).after inner) =
      .ok (p.after ⟨[.node kind (left.trees ++ inner.trees)], left.errors ++ inner.errors,
        inner.rest⟩) := by
  apply congrArg Except.ok
  ext <;> simp [after, opening]

theorem continues_wrap (kind : Kind) (h : ∀ input, Runs levels body rule input) :
    Continues levels (fun mark => startAt mark kind ++ body ++ finish)
      (fun left => Rule.wrap kind left rule) := by
  intro p left hdepth
  have hfirst : (p.after left).firstChild ≤ p.trees.length := p.firstChild_le
  have hmark : p.trees.length ≤ (p.after left).trees.length := by simp [after]
  have hstart : startAt p.trees.length kind (p.after left) =
      .ok ((p.after left).opening p.trees.length kind hfirst hmark) := dif_pos ⟨hfirst, hmark⟩
  have hbody := h left.rest ((p.after left).opening p.trees.length kind hfirst hmark) rfl hdepth
  calc (startAt p.trees.length kind ++ body ++ finish) (p.after left) =
      finish (((p.after left).opening p.trees.length kind hfirst hmark).after (rule left.rest)) :=
        append_of_ok ((append_of_ok hstart).trans hbody)
    _ = .ok (p.after (left.into fun left => Rule.wrap kind left rule)) :=
        finish_wrapped p left (rule left.rest) kind hfirst hmark

theorem append_assoc (first second third : Action) :
    first ++ second ++ third = first ++ (second ++ third) := by
  funext p
  exact bind_assoc (first p) second third

/-- A node behind the trees that are there wraps none of them. -/
theorem runs_startHere (kind : Kind) (h : ∀ input, Runs levels body rule input)
    (input : List Lexeme) :
    Runs levels (startHere kind ++ body ++ finish) (Rule.wrap kind [] rule) input := by
  rintro p rfl hdepth
  have hstart : startHere kind p = startAt p.trees.length kind p := by
    rw [startAt, dif_pos ⟨p.firstChild_le, Nat.le_refl _⟩]
    rfl
  have hwrap := continues_wrap kind h p ⟨[], [], p.input⟩ hdepth
  rw [after_nothing] at hwrap
  calc (startHere kind p >>= body) >>= finish =
      (startAt p.trees.length kind p >>= body) >>= finish := by rw [hstart]
    _ = .ok (p.after (Rule.wrap kind [] rule p.input)) := hwrap

theorem runs_node (kind : Kind) (h : ∀ input, Runs levels body rule input)
    (input : List Lexeme) :
    Runs levels (start kind ++ body ++ finish) (Rule.node kind rule) input := by
  rw [start, append_assoc (read Rule.settle), append_assoc (read Rule.settle)]
  exact (runs_read Rule.settle input).append (runs_startHere kind h _)

theorem continues_keep : Continues levels (fun _ => skip) Rule.keep := by
  intro p left _
  rw [Outcome.into_keep]
  rfl

theorem Continues.append {next : Nat → Action} {rest : List Tree → Rule}
    (h : Continues levels next rest) (hsecond : ∀ input, Runs levels second more input) :
    Continues levels (fun mark => next mark ++ second) (fun left => rest left ++ more) := by
  intro p left hdepth
  calc (next p.trees.length ++ second) (p.after left) = second (p.after (left.into rest)) :=
        append_of_ok (h p left hdepth)
    _ = .ok ((p.after (left.into rest)).after (more (left.into rest).rest)) :=
        hsecond _ _ rfl hdepth
    _ = .ok (p.after (left.into fun left => rest left ++ more)) := by
        rw [after_after, Outcome.into, Outcome.into, Rule.andThen_apply, List.append_assoc]

theorem continues_ifAt {kind : Kind} {yes no : Nat → Action} {yesRule noRule : List Tree → Rule}
    (hyes : Continues levels yes yesRule) (hno : Continues levels no noRule) :
    Continues levels (fun mark => ifAt kind (yes mark) (no mark))
      (fun left => Rule.ifAt kind (yesRule left) (noRule left)) := by
  intro p left hdepth
  by_cases hkind : Rule.kind left.rest = kind
  · have hrule : Rule.ifAt kind (yesRule left.trees) (noRule left.trees) left.rest =
        yesRule left.trees left.rest := if_pos hkind
    rw [Outcome.into_congr hrule, ← hyes p left hdepth]
    exact look_of (if_pos hkind)
  · have hrule : Rule.ifAt kind (yesRule left.trees) (noRule left.trees) left.rest =
        noRule left.trees left.rest := if_neg hkind
    rw [Outcome.into_congr hrule, ← hno p left hdepth]
    exact look_of (if_neg hkind)

theorem append_skip (action : Action) : action ++ skip = action := by
  funext p
  change (action p >>= Except.ok) = action p
  cases action p <;> rfl

theorem runs_placeholder (input : List Lexeme) :
    Runs levels placeholder (Rule.node .missing Rule.done) input := by
  rw [placeholder, ← append_skip (start .missing)]
  exact runs_node .missing runs_skip input

theorem runs_missing (expected : Expected) (input : List Lexeme) :
    Runs levels (missing expected) (Rule.absent expected) input :=
  (Runs.look (runs_read _ input)).append (runs_placeholder _)

theorem runs_expect (wanted : Kind) (input : List Lexeme) :
    Runs levels (expect wanted) (Rule.expect wanted) input :=
  runs_ifAt (runs_read _ input) (runs_missing _ input)

theorem runs_skipTo (stop : List Kind) (cause : SyntaxError.Cause) (input : List Lexeme) :
    Runs levels (skipTo stop cause) (Rule.skipTo stop cause) input :=
  (runs_read _ input).append
    (runs_unlessAt _ (runs_node .error (runs_read _) _))

theorem runs_mark {next : Nat → Action} {rest : List Tree → Rule}
    (hfirst : ∀ input, Runs levels first rule input) (hnext : Continues levels next rest)
    (input : List Lexeme) :
    Runs levels (mark fun mark => first ++ next mark) (Rule.settle ++ rule.into rest) input := by
  rintro p rfl hdepth
  have hdone := hfirst (Rule.settle p.input).rest (p.after (Rule.settle p.input)) rfl hdepth
  calc (mark fun mark => first ++ next mark) p =
      next (p.after (Rule.settle p.input)).trees.length
        ((p.after (Rule.settle p.input)).after (rule (Rule.settle p.input).rest)) :=
        append_of_ok hdone
    _ = .ok ((p.after (Rule.settle p.input)).after _) := hnext _ _ hdepth
    _ = .ok (p.after ((Rule.settle ++ rule.into rest) p.input)) := by rw [after_after]; rfl

/-! ### Loops -/

/-- A round of a loop runs as the round that a rule has. -/
inductive StepRuns (levels : Nat) (input : List Lexeme) : Step → Rule.Step → Prop where
  | again {action : Action} {rule : Rule} :
      Runs levels action rule input → StepRuns levels input (.again action) (.again rule)
  | last {action : Action} {rule : Rule} :
      Runs levels action rule input → StepRuns levels input (.last action) (.last rule)

theorem runs_loop {choose : List Lexeme → Step} {rules : List Lexeme → Rule.Step}
    (hsteps : ∀ input, StepRuns levels input (choose input) (rules input))
    (hprogress : Rule.Progresses rules) (input : List Lexeme) :
    Runs levels (loop choose) (Rule.loop rules) input := by
  have hfor : ∀ fuel input, input.length < fuel →
      Runs levels (loopFor choose fuel) (Rule.loop rules) input := by
    intro fuel
    induction fuel with
    | zero => intro input hfuel; omega
    | succ fuel ih =>
        intro input hfuel
        apply Runs.look
        have hstep := hsteps input
        generalize hround : rules input = round at hstep
        generalize choose input = step at hstep ⊢
        cases hstep with
        | again h =>
            have hless := hprogress input _ hround
            exact Runs.of_eq (Rule.loop_of_again hprogress hround) (h.append (ih _ (by omega)))
        | last h => exact Runs.of_eq (Rule.loop_of_last hprogress hround) h
  rintro p rfl
  exact hfor (p.input.length + 1) p.input (Nat.lt_succ_self _) p rfl

/-! ### Levels -/

theorem leave_deeper (p : Machine) (count : Nat) (h : p.depth + count ≤ Rule.maxDepth) :
    leave count (p.deeper count h) = .ok p := by
  have hle : count ≤ (p.deeper count h).depth := Nat.le_add_left count p.depth
  rw [leave, if_pos hle]
  apply congrArg Except.ok
  ext <;> simp [deeper]

theorem runs_tooDeep (input : List Lexeme) : Runs levels tooDeep Rule.tooDeep input :=
  (runs_skipTo _ _ input).append (runs_placeholder _)

theorem enter_of_full {next stop : Action} {p : Machine} (h : p.depth + 0 = Rule.maxDepth) :
    enter next stop p = (tooDeep ++ stop) p :=
  dif_neg (by omega)

theorem enter_of_room {next stop : Action} {p : Machine}
    (h : p.depth + (levels + 1) = Rule.maxDepth) :
    enter next stop p = next (p.deeper 1 (by omega)) :=
  dif_pos (by omega)

theorem runs_enter_of_full (next : Action) (input : List Lexeme) :
    Runs 0 (enter next skip) Rule.tooDeep input := by
  intro p hinput hdepth
  rw [enter_of_full hdepth, append_skip]
  exact runs_tooDeep input p hinput hdepth

/-- A construct that takes a level leaves it again. -/
theorem Runs.enter (h : Runs levels body rule input) :
    Runs (levels + 1) (enter (body ++ leave 1) skip) rule input := by
  rintro p rfl hdepth
  have hroom : p.depth + 1 ≤ Rule.maxDepth := by omega
  have hbody : body (p.deeper 1 hroom) = .ok ((p.deeper 1 hroom).after (rule p.input)) :=
    h _ rfl (by rw [depth_deeper]; omega)
  rw [enter_of_room hdepth, append_of_ok hbody]
  exact leave_deeper (p.after (rule p.input)) 1 hroom

/-- A chain that goes on at a mark, with some levels entered, leaves them all when it ends. -/
def GoesOn (levels : Nat) (next : Nat → Nat → Action) (rule : List Tree → Rule) : Prop :=
  ∀ (p : Machine) (wraps : Nat) (h : p.depth + wraps ≤ Rule.maxDepth) (left : Outcome),
    p.depth + wraps + levels = Rule.maxDepth →
      next p.trees.length wraps ((p.after left).deeper wraps h) = .ok (p.after (left.into rule))

theorem GoesOn.continues {next : Nat → Nat → Action} {rest : List Tree → Rule}
    (h : GoesOn levels next rest) : Continues levels (fun mark => next mark 0) rest := by
  intro p left hdepth
  exact h p 0 p.depth_le left hdepth

/-- The end of a chain: every level that was entered is left. -/
theorem leave_wraps (p : Machine) {wraps : Nat} (h : p.depth + wraps ≤ Rule.maxDepth)
    {left : Outcome} {rest : List Tree → Rule}
    (hrest : rest left.trees left.rest = Rule.keep left.trees left.rest) :
    leave wraps ((p.after left).deeper wraps h) = .ok (p.after (left.into rest)) := by
  rw [Outcome.into_congr hrest, Outcome.into_keep]
  exact leave_deeper _ _ _

theorem enter_wraps_of_full (next : Action) (p : Machine) {wraps : Nat}
    (h : p.depth + wraps ≤ Rule.maxDepth) (left : Outcome)
    (hfull : p.depth + wraps + 0 = Rule.maxDepth) :
    enter next (leave wraps) ((p.after left).deeper wraps h) =
      .ok (p.after (left.into fun trees => Rule.keep trees ++ Rule.tooDeep)) := by
  have hread := runs_tooDeep left.rest ((p.after left).deeper wraps h) rfl hfull
  rw [enter_of_full hfull, append_of_ok hread]
  calc leave wraps (((p.after left).deeper wraps h).after (Rule.tooDeep left.rest)) =
      .ok ((p.after left).after (Rule.tooDeep left.rest)) :=
        leave_deeper ((p.after left).after (Rule.tooDeep left.rest)) wraps h
    _ = .ok (p.after (left.into fun trees => Rule.keep trees ++ Rule.tooDeep)) := by
        rw [after_after]
        rfl

/-- A round of a chain: what is on the left is wrapped, and the chain goes on one level deeper. -/
theorem enter_wraps_of_room {wrapped : Nat → Action} {next : Nat → Nat → Action}
    {rule rest : List Tree → Rule} (hwrapped : Continues levels wrapped rule)
    (hnext : GoesOn levels next rest) (p : Machine) {wraps : Nat}
    (h : p.depth + wraps ≤ Rule.maxDepth) (left : Outcome)
    (hroom : p.depth + wraps + (levels + 1) = Rule.maxDepth) :
    enter (wrapped p.trees.length ++ next p.trees.length (wraps + 1)) (leave wraps)
        ((p.after left).deeper wraps h) =
      .ok (p.after (left.into fun trees => (rule trees).into rest)) := by
  have hdeeper : p.depth + (wraps + 1) ≤ Rule.maxDepth := by omega
  have hround : wrapped p.trees.length ((p.deeper (wraps + 1) hdeeper).after left) =
      .ok ((p.deeper (wraps + 1) hdeeper).after (left.into rule)) :=
    hwrapped (p.deeper (wraps + 1) hdeeper) left (by rw [depth_deeper]; omega)
  rw [enter_of_room hroom]
  calc (wrapped p.trees.length ++ next p.trees.length (wraps + 1))
        ((p.deeper (wraps + 1) hdeeper).after left) =
      next p.trees.length (wraps + 1)
        ((p.after (left.into rule)).deeper (wraps + 1) hdeeper) := append_of_ok hround
    _ = .ok (p.after ((left.into rule).into rest)) := hnext p _ _ _ (by omega)
    _ = .ok (p.after (left.into fun trees => (rule trees).into rest)) := by
        rw [Outcome.into_into]

end Action

end Machine

end Caret
