import Caret.Proofs.Lexer.Leaves
import Caret.Proofs.Rule.Depth
import Caret.Proofs.Rule.Progress
import Mathlib.Order.Bounds.Basic

/-!
# The deepest tree of a text

The limit on nesting bounds the tree of a text by a number far above the limit, and the bound is
reached: an expression that opens a level with a string in the key of an object, wraps it in as many
links and operators as there are levels left, and ends in a choice, is as deep as the next level
allows, and such expressions can be put into each other until no level is left.
-/

namespace Caret

namespace Rule

/-- The kinds and texts of the tokens that are left. -/
def words (input : List Lexeme) : List (Kind × String) :=
  input.map fun lexeme => lexeme.token.leaf

/-- A rule that reads from the words before it to the words after it, and builds trees that are
exactly so deep. -/
def Builds (rule : Rule) (before after : List (Kind × String)) (depth : Nat) : Prop :=
  ∀ input, words input = before →
    words (rule input).rest = after ∧ Tree.depthAll (rule input).trees = depth

variable {first second body inner : Rule} {before between after : List (Kind × String)}
  {depth depth' : Nat} {word : Kind × String}

theorem kind_eq_of_words {input : List Lexeme} (h : words input = word :: after) :
    kind input = word.1 := by
  obtain ⟨lexeme, rest, rfl, rfl, -⟩ := List.map_eq_cons_iff.1 h
  rfl

theorem words_settle (input : List Lexeme) : words (settle input).rest = words input := by
  cases input <;> rfl

theorem Builds.congr {other : Rule} (h : other.Builds before after depth)
    (heq : ∀ input, words input = before → inner input = other input) :
    inner.Builds before after depth := by
  intro input hinput
  rw [heq input hinput]
  exact h input hinput

theorem builds_done : done.Builds before before 0 := fun _ hinput => ⟨hinput, rfl⟩

theorem builds_keep {trees : List Tree} (h : Tree.depthAll trees = depth) :
    (keep trees).Builds before before depth := fun _ hinput => ⟨hinput, h⟩

theorem builds_report (cause : SyntaxError.Cause) : (report cause).Builds before before 0 :=
  fun _ hinput => ⟨hinput, rfl⟩

theorem Builds.andThen (hfirst : first.Builds before between depth)
    (hsecond : second.Builds between after depth') :
    (first ++ second).Builds before after (max depth depth') := by
  intro input hinput
  obtain ⟨hbetween, htrees⟩ := hfirst input hinput
  obtain ⟨hafter, htrees'⟩ := hsecond _ hbetween
  rw [andThen_apply, Tree.depthAll_append, htrees, htrees']
  exact ⟨hafter, rfl⟩

theorem Builds.zero_andThen (hfirst : first.Builds before between 0)
    (hsecond : second.Builds between after depth) :
    (first ++ second).Builds before after depth := by
  have h := hfirst.andThen hsecond
  rwa [Nat.zero_max] at h

theorem Builds.andThen_zero (hfirst : first.Builds before between depth)
    (hsecond : second.Builds between after 0) : (first ++ second).Builds before after depth := by
  have h := hfirst.andThen hsecond
  rwa [Nat.max_zero] at h

theorem Builds.into {next : List Tree → Rule} (hfirst : first.Builds before between depth)
    (hnext : ∀ trees, Tree.depthAll trees = depth → (next trees).Builds between after depth') :
    (first.into next).Builds before after depth' := by
  intro input hinput
  obtain ⟨hbetween, htrees⟩ := hfirst input hinput
  exact hnext _ htrees _ hbetween

theorem Builds.wrap {left : List Tree} (hbody : body.Builds before after depth)
    (hleft : Tree.depthAll left = depth') (kind : Kind) :
    (wrap kind left body).Builds before after (max depth' depth + 1) := by
  intro input hinput
  obtain ⟨hafter, htrees⟩ := hbody input hinput
  refine ⟨hafter, ?_⟩
  simp [Rule.wrap, Tree.depthAll, Tree.depth, Tree.depthAll_append, htrees, hleft]

theorem builds_settle : settle.Builds before before 0 := by
  intro input hinput
  refine ⟨(words_settle input).trans hinput, ?_⟩
  cases input with
  | nil => rfl
  | cons lexeme rest => exact Tree.depthAll_map_ofToken _

theorem Builds.settled (h : body.Builds before after depth) :
    (settle ++ body).Builds before after depth :=
  builds_settle.zero_andThen h

theorem Builds.node (hbody : body.Builds before after depth) (kind : Kind) :
    (node kind body).Builds before after (depth + 1) := by
  have hwrap := hbody.wrap (show Tree.depthAll [] = 0 from rfl) kind
  rw [Nat.zero_max] at hwrap
  exact hwrap.settled

theorem builds_takeAs (tag : Kind) (h : word.1 ≠ .eof) :
    (takeAs tag).Builds (word :: after) after 0 := by
  intro input hinput
  obtain ⟨lexeme, rest, rfl, rfl, hrest⟩ := List.map_eq_cons_iff.1 hinput
  have hkind : lexeme.kind ≠ .eof := h
  simp [takeAs, hkind, Tree.depthAll_append, Tree.depthAll_map_ofToken, Tree.depthAll, Tree.depth]
  exact hrest

theorem builds_take (word : Kind × String) (h : word.1 ≠ .eof) :
    take.Builds (word :: after) after 0 :=
  fun input => builds_takeAs _ h input

theorem builds_absent (expected : Expected) : (absent expected).Builds before before 1 := by
  intro input hinput
  have hmissing : (report (.absent expected (kind input)) ++ Rule.node .missing done).Builds
      before before 1 := Builds.zero_andThen (builds_report _) (Builds.node builds_done _)
  exact hmissing input hinput

theorem Builds.ifAt_pos {yes no : Rule} (hyes : yes.Builds (word :: between) after depth)
    {wanted : Kind} (h : word.1 = wanted) :
    (ifAt wanted yes no).Builds (word :: between) after depth :=
  hyes.congr fun _ hinput => if_pos ((kind_eq_of_words hinput).trans h)

theorem Builds.ifAt_neg {yes no : Rule} (hno : no.Builds (word :: between) after depth)
    {wanted : Kind} (h : word.1 ≠ wanted) :
    (ifAt wanted yes no).Builds (word :: between) after depth :=
  hno.congr fun input hinput => if_neg (by rw [kind_eq_of_words hinput]; exact h)

theorem builds_unlessAt {kinds : List Kind} (h : kinds.contains word.1 = true) :
    (unlessAt kinds inner).Builds (word :: after) (word :: after) 0 :=
  builds_done.congr fun input hinput => if_pos (by rw [kind_eq_of_words hinput]; exact h)

theorem builds_expect {wanted : Kind} (h : word.1 = wanted) (heof : word.1 ≠ .eof) :
    (expect wanted).Builds (word :: after) after 0 :=
  (builds_take word heof).ifAt_pos h

theorem builds_expect_absent (wanted : Kind) (h : word.1 ≠ wanted) :
    (expect wanted).Builds (word :: after) (word :: after) 1 :=
  (builds_absent _).ifAt_neg h

theorem builds_takeNewlines (h : word.1 ≠ .newline) :
    takeNewlines.Builds (word :: after) (word :: after) 0 :=
  builds_done.congr fun input hinput => takeNewlines_of_ne (by rw [kind_eq_of_words hinput]; exact h)

theorem builds_takeNewlines_one {newline : Kind × String} (hnewline : newline.1 = .newline)
    (h : word.1 ≠ .newline) :
    takeNewlines.Builds (newline :: word :: after) (word :: after) 0 := by
  intro input hinput
  obtain ⟨lexeme, rest, rfl, rfl, hrest⟩ := List.map_eq_cons_iff.1 hinput
  have hkind : lexeme.kind = .newline := hnewline
  rw [takeNewlines, if_pos hkind, takeNewlines_of_ne (by rw [kind_eq_of_words hrest]; exact h)]
  refine ⟨hrest, ?_⟩
  change Tree.depthAll (lexeme.tokens.map Tree.ofToken ++ []) = 0
  rw [List.append_nil, Tree.depthAll_map_ofToken]

theorem Builds.loop_again {choose : List Lexeme → Step} (hprogress : Progresses choose)
    (hchoose : ∀ input, words input = before → choose input = .again inner)
    (hinner : inner.Builds before between depth)
    (hloop : (loop choose).Builds between after depth') :
    (loop choose).Builds before after (max depth depth') :=
  (hinner.andThen hloop).congr fun input hinput => loop_of_again hprogress (hchoose input hinput)

theorem Builds.loop_last {choose : List Lexeme → Step} (hprogress : Progresses choose)
    (hchoose : ∀ input, words input = before → choose input = .last inner)
    (hinner : inner.Builds before after depth) : (loop choose).Builds before after depth :=
  hinner.congr fun input hinput => loop_of_last hprogress (hchoose input hinput)

/-! Operands -/

def lineEnd : Kind × String := (.newline, "\n")

/-- A tower of expressions that opens all levels: it stands in the key of an object that all links
and operators and a choice, each without what should follow it, are put around. -/
def tower : Nat → List (Kind × String)
  | 0 => [(.dot, ".")]
  | budget + 1 =>
    [(.lBrace, "\x7b"), (.stringStart, "\x27"), (.interpStart, "$\x7b")] ++ tower budget ++
      [lineEnd, (.interpEnd, "\x7d"), (.stringEnd, "\x27"), (.rBrace, "\x7d")] ++
      List.replicate budget (.dot, ".") ++ List.replicate budget (.plus, "+") ++
      [(.question, "?")]

/-- A string that holds a tower and nothing else. -/
def quotedTower (budget : Nat) (after : List (Kind × String)) : List (Kind × String) :=
  (.stringStart, "\x27") :: (.interpStart, "$\x7b") ::
    (tower budget ++ lineEnd :: (.interpEnd, "\x7d") :: (.stringEnd, "\x27") :: after)

theorem exists_tower_eq (budget : Nat) :
    ∃ first words, tower budget = first :: words ∧ first.1 ≠ .newline := by
  cases budget with
  | zero => exact ⟨_, _, rfl, by decide⟩
  | succ budget => exact ⟨_, _, rfl, by decide⟩

section Expr

variable {expr : Rule} (hspells : ∀ input, (expr input).Spells [] input) {budget : Nat}
  (hexpr : ∀ after, expr.Builds (tower budget ++ lineEnd :: after) (lineEnd :: after) depth)

include hexpr

theorem builds_interpolation_tower (after : List (Kind × String)) :
    (interpolation expr).Builds
      ((.interpStart, "$\x7b") :: (tower budget ++ lineEnd :: (.interpEnd, "\x7d") :: after))
      after (depth + 1) := by
  have hnewlines : takeNewlines.Builds
      (tower budget ++ lineEnd :: (.interpEnd, "\x7d") :: after)
      (tower budget ++ lineEnd :: (.interpEnd, "\x7d") :: after) 0 := by
    obtain ⟨first, words, htower, hfirst⟩ := exists_tower_eq budget
    rw [htower]
    exact builds_takeNewlines hfirst
  exact Builds.node (Builds.andThen_zero (Builds.andThen_zero (Builds.andThen_zero
    (Builds.zero_andThen (Builds.zero_andThen (builds_take _ (by decide)) hnewlines) (hexpr _))
    (builds_takeNewlines_one rfl (by decide))) (builds_unlessAt (by decide)))
    (builds_expect rfl (by decide))) _

include hspells

theorem builds_string_tower (after : List (Kind × String)) :
    (string expr).Builds (quotedTower budget after) after (depth + 2) := by
  have hlast : (loop (stringStep expr)).Builds ((.stringEnd, "\x27") :: after) after 0 :=
    Builds.loop_last (progresses_stringStep hspells)
      (fun input hinput => by simp [stringStep, kind_eq_of_words hinput]) (builds_take _ (by decide))
  refine Builds.node (Builds.zero_andThen (builds_take _ (by decide)) ?_) _
  have hloop := Builds.loop_again (progresses_stringStep hspells)
    (fun input hinput => by simp [stringStep, kind_eq_of_words hinput])
    (builds_interpolation_tower hexpr _) hlast
  rwa [Nat.max_zero] at hloop

theorem builds_property_tower (after : List (Kind × String)) :
    (property expr).Builds (quotedTower budget ((.rBrace, "\x7d") :: after))
      ((.rBrace, "\x7d") :: after) (depth + 4) := by
  have hkey : (propertyKey expr).Builds (quotedTower budget ((.rBrace, "\x7d") :: after))
      ((.rBrace, "\x7d") :: after) (depth + 3) :=
    Builds.node (Builds.ifAt_pos (builds_string_tower hspells hexpr _) rfl) _
  have hvalue : (propertyValue expr).Builds ((.rBrace, "\x7d") :: after)
      ((.rBrace, "\x7d") :: after) 1 :=
    Builds.ifAt_neg (Builds.andThen_zero (builds_absent _) (builds_unlessAt (by decide)))
      (by decide)
  refine Builds.node (Builds.andThen_zero ?_ (builds_unlessAt (by decide))) _
  have hmember := hkey.andThen hvalue
  rwa [Nat.max_eq_left (by omega)] at hmember

theorem builds_object_tower (after : List (Kind × String)) :
    (object expr).Builds
      ((.lBrace, "\x7b") :: quotedTower budget ((.rBrace, "\x7d") :: after)) after
      (depth + 5) := by
  have hprogress := progresses_property hspells
  have hlast : (loop (listStep .rBrace startsProperty (property expr) .notAProperty)).Builds
      ((.rBrace, "\x7d") :: after) after 0 :=
    Builds.loop_last hprogress
      (fun input hinput => by simp [listStep, kind_eq_of_words hinput]) (builds_take _ (by decide))
  refine Builds.node (Builds.zero_andThen (builds_take _ (by decide)) ?_) _
  have hloop := Builds.loop_again hprogress (fun input hinput => by
    have hkind := kind_eq_of_words hinput
    simp [listStep, hkind, closers, startsDeclaration, isWordAt, declarationWord, startsProperty])
    (builds_property_tower hspells hexpr after) hlast
  rwa [Nat.max_zero] at hloop

end Expr

/-! Links, operators and choices with nothing after them -/

namespace Level

variable {below : Option Level} {left : List Tree}

theorem builds_links_keep (hlink : startsLink word.1 = false) (hleft : Tree.depthAll left = depth) :
    ((above below).links left).Builds (word :: after) (word :: after) depth :=
  (builds_keep hleft).congr fun input hinput => by
    rw [links_above, kind_eq_of_words hinput, hlink]
    rfl

theorem builds_operators_keep {least : Nat} (hleast : ∀ n ∈ word.1.precedence, n < least)
    (hleft : Tree.depthAll left = depth) :
    ((above below).operators least left).Builds (word :: after) (word :: after) depth :=
  (builds_keep hleft).congr fun input hinput => by
    rw [operators_above, kind_eq_of_words hinput]
    split
    · rfl
    · rename_i precedence hprecedence
      rw [if_pos (hleast precedence (by rw [hprecedence]; rfl))]

/-- Where no expression starts, an operand is a placeholder. -/
theorem builds_unary_absent (hstart : startsExpr word.1 = false)
    (hlink : startsLink word.1 = false) :
    (above below).unary.Builds (word :: after) (word :: after) 1 := by
  have hprimary : (primary (above below).expr).Builds (word :: after) (word :: after) 1 :=
    (builds_absent .expression).congr fun input hinput =>
      primary_of_not_startsExpr (by rw [kind_eq_of_words hinput, hstart])
  have hchain : (above below).chain.Builds (word :: after) (word :: after) 1 :=
    (hprimary.into fun receiver hreceiver => builds_links_keep hlink hreceiver).settled
  refine hchain.congr fun input hinput => ?_
  rw [unary_above, kind_eq_of_words hinput, if_neg]
  rintro (hkind | hkind) <;> simp [hkind, startsExpr] at hstart

theorem builds_binary_absent {least : Nat} (hstart : startsExpr word.1 = false)
    (hlink : startsLink word.1 = false) (hleast : ∀ n ∈ word.1.precedence, n < least) :
    ((above below).binary least).Builds (word :: after) (word :: after) 1 :=
  ((builds_unary_absent hstart hlink).into fun _ hleft =>
    builds_operators_keep hleast hleft).settled

theorem builds_ternary_absent (hstart : startsExpr word.1 = false)
    (hlink : startsLink word.1 = false) (hoperator : word.1.precedence = none)
    (hquestion : word.1 ≠ .question) :
    (above below).ternary.Builds (word :: after) (word :: after) 1 := by
  rw [ternary_eq]
  refine Builds.settled (Builds.into
    (builds_binary_absent hstart hlink (by simp [hoperator])) fun test htest => ?_)
  exact Builds.ifAt_neg (builds_keep htest) hquestion

end Level

theorem builds_skipTo_lineEnd (cause : SyntaxError.Cause) :
    (skipTo [.newline] cause).Builds (lineEnd :: after) (lineEnd :: after) 0 :=
  Builds.zero_andThen (builds_report _) (builds_unlessAt (by decide))

theorem builds_expr_lineEnd (after : List (Kind × String)) (budget : Nat) :
    (level budget).expr.Builds (lineEnd :: after) (lineEnd :: after) 1 := by
  cases budget with
  | zero =>
      exact Builds.zero_andThen (builds_skipTo_lineEnd _) (Builds.node builds_done _)
  | succ budget =>
      obtain ⟨below, hbelow⟩ := exists_level_eq_above budget
      change (level budget).ternary.Builds _ _ 1
      rw [hbelow]
      exact Level.builds_ternary_absent (by decide) (by decide) (by decide) (by decide)

/-- A dot that no name follows wraps its receiver all the same. -/
theorem builds_links_dots (budget : Nat) {left : List Tree} (hword : word.1.isWord = false)
    (hlink : Level.startsLink word.1 = false) (hdepth : 1 ≤ depth)
    (hleft : Tree.depthAll left = depth) :
    ((level budget).links left).Builds (List.replicate budget (.dot, ".") ++ word :: after)
      (word :: after) (depth + budget) := by
  induction budget generalizing depth left with
  | zero => exact Level.builds_links_keep hlink hleft
  | succ budget ih =>
      have hmember : Level.member.Builds (List.replicate budget (.dot, ".") ++ word :: after)
          (List.replicate budget (.dot, ".") ++ word :: after) 1 := by
        refine (builds_absent .propertyName).congr fun input hinput => ?_
        have hkind : (kind input).isWord = false := by
          cases budget with
          | zero => rw [kind_eq_of_words hinput, hword]
          | succ budget => rw [kind_eq_of_words hinput]; rfl
        rw [Level.member, hkind]
        rfl
      have hwrap : ((level budget).link left).Builds
          ((.dot, ".") :: (List.replicate budget (.dot, ".") ++ word :: after))
          (List.replicate budget (.dot, ".") ++ word :: after) (depth + 1) := by
        have hbody := Builds.wrap (Builds.zero_andThen (builds_take (.dot, ".") (by decide)) hmember) hleft
          .propertyAccess
        rw [Nat.max_eq_left hdepth] at hbody
        exact hbody.congr fun input hinput => by rw [Level.link, kind_eq_of_words hinput]
      have hrest := hwrap.into fun trees htrees => ih (by omega) htrees
      rw [Nat.add_right_comm, Nat.add_assoc] at hrest
      refine hrest.congr fun input hinput => ?_
      change (Level.above (some (level budget))).links left input = _
      rw [Level.links_above, kind_eq_of_words hinput]
      rfl

/-- An operator that no operand follows wraps its left side all the same. -/
theorem builds_operators_pluses (budget : Nat) {left : List Tree} (hdepth : 1 ≤ depth)
    (hleft : Tree.depthAll left = depth) :
    ((level budget).operators 1 left).Builds
      (List.replicate budget (.plus, "+") ++ (.question, "?") :: after)
      ((.question, "?") :: after) (depth + budget) := by
  induction budget generalizing depth left with
  | zero => exact Level.builds_operators_keep (by decide) hleft
  | succ budget ih =>
      have hright : ((level budget).binary 7).Builds
          (List.replicate budget (.plus, "+") ++ (.question, "?") :: after)
          (List.replicate budget (.plus, "+") ++ (.question, "?") :: after) 1 := by
        obtain ⟨below, hbelow⟩ := exists_level_eq_above budget
        rw [hbelow]
        cases budget with
        | zero => exact Level.builds_binary_absent (by decide) (by decide) (by decide)
        | succ budget => exact Level.builds_binary_absent (by decide) (by decide) (by decide)
      have hwrap := Builds.wrap (Builds.zero_andThen
        (builds_take (.plus, "+") (by decide)) hright) hleft .binaryExpr
      rw [Nat.max_eq_left hdepth] at hwrap
      have hrest := hwrap.into fun trees htrees => ih (by omega) htrees
      rw [Nat.add_right_comm, Nat.add_assoc] at hrest
      refine hrest.congr fun input hinput => ?_
      change (Level.above (some (level budget))).operators 1 left input = _
      rw [Level.operators_above, kind_eq_of_words hinput]
      rfl

theorem builds_choice_question (budget : Nat) {test : List Tree} (hdepth : 1 ≤ depth)
    (htest : Tree.depthAll test = depth) :
    ((level budget).choice test).Builds ((.question, "?") :: lineEnd :: after)
      (lineEnd :: after) (depth + 1) := by
  have hpart := builds_expr_lineEnd after budget
  have hbody := ((Builds.zero_andThen (builds_take (.question, "?") (by decide))
    hpart).andThen (builds_expect_absent .colon (by decide))).andThen hpart
  have hwrap := hbody.wrap htest .ternaryExpr
  rw [Nat.max_eq_left (by omega)] at hwrap
  exact hwrap.ifAt_pos rfl

/-- With no level left, what stands on the line goes into an error node. -/
theorem builds_tooDeep_one (hword : word.1 ≠ .eof ∧ word.1 ≠ .newline) :
    tooDeep.Builds (word :: lineEnd :: after) (lineEnd :: after) 1 := by
  have huntil : (takeUntil [.newline]).Builds (word :: lineEnd :: after) (lineEnd :: after) 0 := by
    intro input hinput
    obtain ⟨lexeme, rest, rfl, hlexeme, hrest⟩ := List.map_eq_cons_iff.1 hinput
    obtain ⟨last, rest, rfl, hlast, -⟩ := List.map_eq_cons_iff.1 hrest
    have hkind : lexeme.kind = word.1 := congrArg Prod.fst hlexeme
    have hline : last.kind = .newline := congrArg Prod.fst hlast
    simp only [takeUntil, hkind, hline, hword, decide_false, List.contains_cons, List.contains_nil,
      beq_eq_false_iff_ne.2 hword.2, Bool.or_false]
    refine ⟨hrest, ?_⟩
    change Tree.depthAll (lexeme.tokens.map Tree.ofToken ++ []) = 0
    rw [List.append_nil, Tree.depthAll_map_ofToken]
  have herror : (unlessAt [.eof, .newline] (node .error (takeUntil [.newline]))).Builds
      (word :: lineEnd :: after) (lineEnd :: after) 1 :=
    (huntil.node .error).congr fun input hinput => if_neg (by
      rw [kind_eq_of_words hinput]
      simp [hword])
  exact Builds.andThen (Builds.zero_andThen (builds_report _) herror) (Builds.node builds_done _)

/-- With so many levels left, a tower is read to its end and is as deep as an expression can be. -/
theorem builds_expr_tower (budget : Nat) (after : List (Kind × String)) :
    (level budget).expr.Builds (tower budget ++ lineEnd :: after) (lineEnd :: after)
      (exprDepth budget) := by
  induction budget generalizing after with
  | zero => exact builds_tooDeep_one (by decide)
  | succ budget ih =>
      obtain ⟨word, rest, hwords, hword, hlink⟩ : ∃ word rest,
          List.replicate budget (.plus, "+") ++ (.question, "?") :: lineEnd :: after =
            word :: rest ∧ word.1.isWord = false ∧ Level.startsLink word.1 = false := by
        cases budget <;> exact ⟨_, _, rfl, rfl, rfl⟩
      have hprimary : (primary (level budget).expr).Builds
          ((.lBrace, "\x7b") :: quotedTower budget ((.rBrace, "\x7d") ::
            (List.replicate budget (.dot, ".") ++ word :: rest)))
          (List.replicate budget (.dot, ".") ++ word :: rest) (exprDepth budget + 5) :=
        (builds_object_tower (spells_level budget).expr ih _).congr fun input hinput => by
          exact (Primary.object (kind_eq_of_words hinput)).eq
      have hunary : (level budget).unary.Builds
          ((.lBrace, "\x7b") :: quotedTower budget ((.rBrace, "\x7d") ::
            (List.replicate budget (.dot, ".") ++ word :: rest)))
          (word :: rest) (exprDepth budget + 5 + budget) := by
        obtain ⟨below, hbelow⟩ := exists_level_eq_above budget
        have hchain : (level budget).chain.Builds _ (word :: rest) (exprDepth budget + 5 + budget) :=
          (hprimary.into fun receiver hreceiver =>
            builds_links_dots budget hword hlink (Nat.le_add_left _ _) hreceiver).settled
        rw [hbelow] at hchain ⊢
        refine hchain.congr fun input hinput => ?_
        rw [Level.unary_above, kind_eq_of_words hinput, if_neg (by decide)]
      have hbinary : ((level budget).binary 1).Builds
          ((.lBrace, "\x7b") :: quotedTower budget ((.rBrace, "\x7d") ::
            (List.replicate budget (.dot, ".") ++ word :: rest)))
          ((.question, "?") :: lineEnd :: after) (exprDepth budget + 5 + budget + budget) := by
        refine (hunary.into fun left hleft => ?_).settled
        rw [← hwords]
        exact builds_operators_pluses budget (by omega) hleft
      have hexpr := (hbinary.into fun test htest =>
        builds_choice_question budget (by omega) htest).settled
      have htower : tower (budget + 1) ++ lineEnd :: after =
          (.lBrace, "\x7b") :: quotedTower budget ((.rBrace, "\x7d") ::
            (List.replicate budget (.dot, ".") ++ word :: rest)) := by
        simp [tower, quotedTower, ← hwords]
      have hdepth : exprDepth (budget + 1) = exprDepth budget + 5 + budget + budget + 1 := by
        rw [exprDepth_succ]
        omega
      rw [htower, hdepth]
      exact hexpr

/-! A whole text -/

/-- The words of a resource whose type is a string that holds a tower, and nothing more. -/
def towerWords (budget : Nat) : List (Kind × String) :=
  (.ident, "resource") :: quotedTower budget [(.eof, "")]

theorem builds_header_tower :
    (header .resourceDecl).Builds (quotedTower maxDepth [(.eof, "")]) [(.eof, "")]
      (maxExprDepth + 3) := by
  have hquoted : (quoted .resourceType .resourceType).Builds (quotedTower maxDepth [(.eof, "")])
      [(.eof, "")] (maxExprDepth + 3) :=
    Builds.ifAt_pos (Builds.node (builds_string_tower spells_expr
      (builds_expr_tower maxDepth) _) _) rfl
  have hexisting : existing.Builds [(.eof, "")] [(.eof, "")] 0 :=
    builds_done.congr fun input hinput => if_neg (by
      simp [isWordAt, kind_eq_of_words hinput])
  have hexpr : expr.Builds [(.eof, "")] [(.eof, "")] 1 :=
    Level.builds_ternary_absent (by decide) (by decide) (by decide) (by decide)
  have hname : name.Builds (quotedTower maxDepth [(.eof, "")]) (quotedTower maxDepth [(.eof, "")])
      1 := Builds.ifAt_neg (builds_absent _) (by decide)
  exact (((hname.andThen hquoted).andThen_zero hexisting).andThen
    (builds_expect_absent .eq (by decide))).andThen hexpr

theorem builds_document_tower : document.Builds (towerWords maxDepth) [(.eof, "")] (maxExprDepth + 5) := by
  have hdecorators : (loop decoratorStep).Builds (towerWords maxDepth) (towerWords maxDepth) 0 :=
    Builds.loop_last progresses_decoratorStep (fun input hinput => by
      rw [decoratorStep, if_neg]
      rw [kind_eq_of_words hinput]
      decide) builds_done
  have hend : endDeclaration.Builds [(.eof, "")] [(.eof, "")] 0 :=
    builds_done.congr fun input hinput => by
      have hkind := kind_eq_of_words hinput
      simp [endDeclaration, startsDeclaration, isWordAt, declarationWord, hkind, unlessAt]
  have hundecorated : ∀ decorators, Tree.depthAll decorators = 0 →
      (undecorated decorators).Builds (towerWords maxDepth) [(.eof, "")] (maxExprDepth + 4) := by
    intro decorators hdepth
    have hbody : (wrap .resourceDecl decorators
        (takeAs .resourceKw ++ header .resourceDecl)).Builds
        (towerWords maxDepth) [(.eof, "")] (max 0 (maxExprDepth + 3) + 1) :=
      Builds.wrap (Builds.zero_andThen (builds_takeAs _ (by decide)) builds_header_tower) hdepth _
    refine (hbody.andThen_zero hend).congr fun input hinput => ?_
    have hword : declarationWord input = some (.resourceDecl, .resourceKw) := by
      obtain ⟨lexeme, rest, rfl, hlexeme, -⟩ := List.map_eq_cons_iff.1 hinput
      have hkind : lexeme.token.kind = .ident := congrArg Prod.fst hlexeme
      have htext : lexeme.token.text = "resource" := congrArg Prod.snd hlexeme
      simp only [declarationWord, kind, current, hkind, htext, if_true]
      decide
    rw [undecorated, hword]
  have hdeclaration : declaration.Builds (towerWords maxDepth) [(.eof, "")] (maxExprDepth + 4) :=
    (hdecorators.into hundecorated).settled
  have hlast : (loop documentStep).Builds [(.eof, "")] [(.eof, "")] 0 :=
    Builds.loop_last progresses_documentStep (fun input hinput => by
      rw [documentStep, kind_eq_of_words hinput]) builds_settle
  have hloop := Builds.loop_again progresses_documentStep (fun input hinput => by
    rw [documentStep, kind_eq_of_words hinput]) hdeclaration hlast
  exact Builds.wrap hloop rfl .root

end Rule

/-! Its tokens -/

namespace Lexer

variable {depth : Nat} {modes : List Mode} {cs : List Char}

theorem cutLeaves_dots (count : Nat) :
    cutLeaves (.hole depth :: modes) (List.replicate count '.' ++ cs) =
      List.replicate count (.dot, ".") ++ cutLeaves (.hole depth :: modes) cs := by
  induction count with
  | zero => rfl
  | succ count ih =>
      rw [List.replicate_succ, List.cons_append, cutLeaves_cons]
      exact congrArg (List.cons _) ih

theorem cutLeaves_pluses (count : Nat) :
    cutLeaves (.hole depth :: modes) (List.replicate count '+' ++ cs) =
      List.replicate count (.plus, "+") ++ cutLeaves (.hole depth :: modes) cs := by
  induction count with
  | zero => rfl
  | succ count ih =>
      rw [List.replicate_succ, List.cons_append, cutLeaves_cons]
      exact congrArg (List.cons _) ih

/-- The characters of a tower. -/
def towerChars : Nat → List Char
  | 0 => ['.']
  | budget + 1 =>
    ['\x7b', '\x27', '$', '\x7b'] ++ towerChars budget ++ ['\n', '\x7d', '\x27', '\x7d'] ++
      List.replicate budget '.' ++ List.replicate budget '+' ++ ['?']

theorem cutLeaves_lineEnd :
    cutLeaves (.hole depth :: modes) ('\n' :: cs) =
      Rule.lineEnd :: cutLeaves (.hole depth :: modes) cs := by
  rw [cutLeaves_cons]
  rfl

/-- A string that holds a tower, cut where code stands. -/
theorem cutLeaves_quotedTower {budget : Nat} (cs : List Char)
    (htower : ∀ modes cs, cutLeaves (.hole 0 :: modes) (towerChars budget ++ '\n' :: cs) =
      Rule.tower budget ++ Rule.lineEnd :: cutLeaves (.hole 0 :: modes) cs)
    (hcode : ∀ mode ∈ modes.head?, mode.isBody = false) :
    cutLeaves modes ('\x27' :: '$' :: '\x7b' ::
        (towerChars budget ++ '\n' :: '\x7d' :: '\x27' :: cs)) =
      Rule.quotedTower budget (cutLeaves modes cs) := by
  have hcut : ∀ cs, cut modes '\x27' ('$' :: cs) =
      { kind := .stringStart, extra := 0, modes := .body false :: modes } := by
    intro cs
    rcases modes with _ | ⟨_ | _, _⟩
    · rfl
    · simp [Mode.isBody] at hcode
    · rfl
  have hend : ∀ cs, cutLeaves (.hole 0 :: .body false :: modes) ('\x7d' :: '\x27' :: cs) =
      (.interpEnd, "\x7d") :: (.stringEnd, "\x27") :: cutLeaves modes cs := by
    intro cs
    rw [cutLeaves_cons]
    refine congrArg (List.cons _) ?_
    change cutLeaves (.body false :: modes) ('\x27' :: cs) = _
    rw [cutLeaves_cons]
    rfl
  rw [cutLeaves_cons, hcut]
  refine congrArg (List.cons _) ?_
  change cutLeaves (.body false :: modes) ('$' :: '\x7b' :: _) = _
  rw [cutLeaves_cons]
  refine congrArg (List.cons _) ?_
  change cutLeaves (.hole 0 :: .body false :: modes) (towerChars budget ++ _) = _
  rw [htower, hend]

/-- A tower is cut into its words in every hole. -/
theorem cutLeaves_tower (budget depth : Nat) (modes : List Mode) (cs : List Char) :
    cutLeaves (.hole depth :: modes) (towerChars budget ++ '\n' :: cs) =
      Rule.tower budget ++ Rule.lineEnd :: cutLeaves (.hole depth :: modes) cs := by
  induction budget generalizing depth modes cs with
  | zero =>
      rw [towerChars, List.singleton_append, cutLeaves_cons]
      exact congrArg (List.cons _) cutLeaves_lineEnd
  | succ budget ih =>
      have hquestion : cutLeaves (.hole depth :: modes) ('?' :: '\n' :: cs) =
          (.question, "?") :: Rule.lineEnd :: cutLeaves (.hole depth :: modes) cs := by
        rw [cutLeaves_cons]
        exact congrArg (List.cons _) cutLeaves_lineEnd
      have hclose : ∀ cs, cutLeaves (.hole (depth + 1) :: modes) ('\x7d' :: cs) =
          (.rBrace, "\x7d") :: cutLeaves (.hole depth :: modes) cs := by
        intro cs
        rw [cutLeaves_cons]
        rfl
      have hchars : towerChars (budget + 1) ++ '\n' :: cs =
          '\x7b' :: '\x27' :: '$' :: '\x7b' :: (towerChars budget ++ '\n' :: '\x7d' :: '\x27' ::
            '\x7d' :: (List.replicate budget '.' ++ (List.replicate budget '+' ++
              '?' :: '\n' :: cs))) := by
        simp [towerChars]
      rw [hchars, cutLeaves_cons]
      change (.lBrace, "\x7b") :: cutLeaves (.hole (depth + 1) :: modes) ('\x27' :: _) = _
      rw [cutLeaves_quotedTower _ (fun modes cs => ih 0 modes cs) (by simp [Mode.isBody]), hclose,
        cutLeaves_dots, cutLeaves_pluses, hquestion]
      simp [Rule.tower, Rule.quotedTower]

end Lexer

/-- The grammar sees the leaves that are not trivia. -/
theorem words_group_tokenize (text : String) :
    Rule.words (Lexeme.group (tokenize text)) =
      (Lexer.cutLeaves [] text.toList ++ [(Kind.eof, "")]).filter fun word => !word.1.isTrivia := by
  have h := congrArg (List.map Token.leaf) (Lexeme.map_token_group (tokenize text))
  rw [List.map_map] at h
  rw [← map_leaf_tokenize, List.filter_map]
  exact h

theorem Rule.isTrivia_of_mem_tower {budget : Nat} {word : Kind × String}
    (h : word ∈ tower budget) : word.1.isTrivia = false := by
  induction budget with
  | zero =>
      obtain rfl := List.mem_singleton.1 h
      rfl
  | succ budget ih =>
      simp only [tower, List.mem_append, List.mem_cons, List.not_mem_nil, or_false,
        List.mem_replicate] at h
      rcases h with ((((h | h) | h) | ⟨-, rfl⟩) | ⟨-, rfl⟩) | rfl
      · rcases h with rfl | rfl | rfl <;> rfl
      · exact ih h
      · rcases h with rfl | rfl | rfl | rfl <;> rfl
      · rfl
      · rfl
      · rfl

namespace Document

/-- A resource whose type is a string that holds a tower, and nothing more. -/
def towerText (budget : Nat) : String :=
  String.ofList ('r' :: (['e', 's', 'o', 'u', 'r', 'c', 'e'] ++ '\x27' :: '$' :: '\x7b' ::
    (Lexer.towerChars budget ++ '\n' :: ['\x7d', '\x27'])))

theorem cutLeaves_towerText (budget : Nat) :
    Lexer.cutLeaves [] (towerText budget).toList =
      (.ident, "resource") :: Rule.quotedTower budget [] := by
  have hcut : ∀ cs, Lexer.cut [] 'r' (['e', 's', 'o', 'u', 'r', 'c', 'e'] ++ '\x27' :: cs) =
      { kind := .ident, extra := 7, modes := [] } := by
    intro cs
    have hcount : Lexer.countWhile Identifier.continuesWith
        (['e', 's', 'o', 'u', 'r', 'c', 'e'] ++ '\x27' :: cs) = 7 :=
      Lexer.countWhile_append (List.all_eq_true.1 rfl) fun c hc => by
        obtain rfl := Option.some.inj hc
        decide
    have hstart : Identifier.startsWith 'r' = true := by decide
    have hword := Lexer.cutCode_of_startsWith []
      (['e', 's', 'o', 'u', 'r', 'c', 'e'] ++ '\x27' :: cs) hstart
    rw [hcount] at hword
    exact hword
  rw [towerText, String.toList_ofList, Lexer.cutLeaves_cons, hcut]
  refine congrArg (List.cons _) ?_
  have hcode : ∀ mode ∈ ([] : List Lexer.Mode).head?, mode.isBody = false := by simp
  have hquoted := Lexer.cutLeaves_quotedTower [] (fun modes cs =>
    Lexer.cutLeaves_tower budget 0 modes cs) hcode
  rw [Lexer.cutLeaves_nil] at hquoted
  exact hquoted

theorem words_towerText (budget : Nat) :
    Rule.words (Lexeme.group (tokenize (towerText budget))) = Rule.towerWords budget := by
  have htrivia : ∀ word ∈ Rule.towerWords budget, word.1.isTrivia = false := by
    intro word hword
    simp only [Rule.towerWords, Rule.quotedTower, List.mem_cons, List.mem_append,
      List.not_mem_nil, or_false] at hword
    rcases hword with rfl | rfl | rfl | h | rfl | rfl | rfl | rfl
    all_goals first
      | rfl
      | exact Rule.isTrivia_of_mem_tower h
  have hwords : Lexer.cutLeaves [] (towerText budget).toList ++ [(Kind.eof, "")] =
      Rule.towerWords budget := by
    rw [cutLeaves_towerText]
    simp [Rule.towerWords, Rule.quotedTower, Rule.lineEnd]
  rw [words_group_tokenize, hwords]
  exact List.filter_eq_self.2 fun word hword => by simp [htrivia word hword]

theorem depthAll_trees_document (text : String) :
    Tree.depthAll (Rule.document (Lexeme.group (tokenize text))).trees =
      (parse text).tree.depth :=
  Nat.max_zero _

/-- No tree of a text has more nodes on a path than the tower has that opens all levels. The limit
on nesting is 128: the chains that a level wraps give their levels back, and the nodes stay. -/
theorem isGreatest_depth_parse :
    IsGreatest (Set.range fun text => (parse text).tree.depth) 17030 := by
  constructor
  · refine ⟨towerText Rule.maxDepth, ?_⟩
    have htower := (Rule.builds_document_tower _ (words_towerText Rule.maxDepth)).2
    rw [depthAll_trees_document] at htower
    exact htower
  · rintro depth ⟨text, rfl⟩
    have hle := Rule.depthLe_document (Lexeme.group (tokenize text))
    rw [depthAll_trees_document] at hle
    exact hle

/-- A bound on the nodes of a path holds for all texts from one node above the tower on. -/
theorem forall_depth_parse_lt_iff (bound : Nat) :
    (∀ text, (parse text).tree.depth < bound) ↔ 17030 < bound := by
  obtain ⟨⟨tower, htower⟩, hbound⟩ := isGreatest_depth_parse
  constructor
  · intro h
    exact htower ▸ h tower
  · intro h text
    exact Nat.lt_of_le_of_lt (hbound ⟨text, rfl⟩) h

end Document

end Caret
