import Caret.Proofs.Rule.Progress

/-!
# Readings that end on their lines

A rule that finds no fault in some complete lines has not looked behind them: what it does there is
the same whatever follows. The lines are read once with the end of the file behind them, and that
reading is compared with all others. Newlines may be taken up to the end of the file, and what is
wanted behind them is then missing, which is a fault.
-/

namespace Caret

namespace Rule

/-- Lexemes up to the end of a line. -/
inductive Whole : List Lexeme → Prop where
  | newline (lexeme : Lexeme) : lexeme.kind = .newline → Whole [lexeme]
  | cons (lexeme : Lexeme) {rest : List Lexeme} :
      lexeme.kind ≠ .eof → Whole rest → Whole (lexeme :: rest)

section

variable {pre post input : List Lexeme}

theorem Whole.current_append (h : Whole pre) (right : List Lexeme) :
    current (pre ++ right) = current pre := by
  cases h <;> rfl

theorem Whole.kind_append (h : Whole pre) (right : List Lexeme) : kind (pre ++ right) = kind pre :=
  congrArg Token.kind (h.current_append right)

theorem Whole.isWordAt_append (h : Whole pre) (right : List Lexeme) (word : String) :
    isWordAt (pre ++ right) word = isWordAt pre word := by
  rw [isWordAt, isWordAt, h.kind_append, h.current_append]

theorem Whole.kind_ne_eof (h : Whole pre) : kind pre ≠ .eof := by
  cases h with
  | newline lexeme hkind => simp [kind_cons, hkind]
  | cons lexeme heof hrest => exact heof

/-- On a line that goes on, there is something behind the first token. -/
theorem Whole.tail (h : Whole pre) (hkind : kind pre ≠ .newline) : Whole pre.tail := by
  cases h with
  | newline lexeme hnewline => exact absurd hnewline hkind
  | cons lexeme heof hrest => exact hrest

theorem Whole.tail_append (h : Whole pre) (right : List Lexeme) :
    (pre ++ right).tail = pre.tail ++ right := by
  cases h <;> rfl

theorem Whole.nextKind_append (h : Whole pre) (hkind : kind pre ≠ .newline)
    (right : List Lexeme) : nextKind (pre ++ right) = nextKind pre := by
  rw [nextKind, nextKind, h.tail_append, (h.tail hkind).kind_append]

theorem Whole.declarationWord_append (h : Whole pre) (right : List Lexeme) :
    declarationWord (pre ++ right) = declarationWord pre := by
  rw [declarationWord, declarationWord, h.kind_append, h.current_append]

theorem Whole.startsDeclaration_append (h : Whole pre) (right : List Lexeme) :
    startsDeclaration (pre ++ right) = startsDeclaration pre := by
  unfold startsDeclaration
  rw [h.isWordAt_append, h.declarationWord_append]
  by_cases hkind : kind pre = .newline
  · simp [isWordAt, declarationWord, hkind]
  · rw [h.nextKind_append hkind]

/-- The end of the file, where nothing is left to take. -/
def IsEnd (fin : List Lexeme) : Prop := ∃ eof : Token, eof.kind = .eof ∧ fin = [⟨[], eof⟩]

theorem IsEnd.kind_eq {fin : List Lexeme} (h : IsEnd fin) : kind fin = .eof := by
  obtain ⟨eof, heof, rfl⟩ := h
  exact heof

theorem Reads.of_end {leaves : List (Kind × String)} {rest : List Lexeme} {eof : Token}
    (h : Reads input leaves rest) (heof : eof.kind = .eof) (hinput : input = [⟨[], eof⟩]) :
    rest = [⟨[], eof⟩] ∧ leaves = [] := by
  induction h with
  | done input => exact ⟨hinput, rfl⟩
  | settle lead token rest =>
      obtain ⟨⟨rfl, rfl⟩, rfl⟩ : (lead = [] ∧ token = eof) ∧ rest = [] := by simpa using hinput
      exact ⟨rfl, rfl⟩
  | @take lead token kind rest hkind _ =>
      obtain ⟨⟨-, rfl⟩, -⟩ : (lead = [] ∧ token = eof) ∧ rest = [] := by simpa using hinput
      exact absurd heof hkind
  | trans _ _ ihfirst ihsecond =>
      obtain ⟨hmiddle, rfl⟩ := ihfirst hinput
      obtain ⟨hrest, rfl⟩ := ihsecond hmiddle
      exact ⟨hrest, rfl⟩

end

/-- Without a fault, a rule stops on the lines and does so whatever is behind them, or it has taken
them all, which is left open here only if `ends` holds. -/
def Stops (ends : Prop) (fin : List Lexeme) (rule : Rule) (pre : List Lexeme) : Prop :=
  (rule (pre ++ fin)).errors = [] →
    (∃ post, Whole post ∧
      ∀ right, rule (pre ++ right) = ⟨(rule (pre ++ fin)).trees, [], post ++ right⟩) ∨
    ends ∧ (rule (pre ++ fin)).rest = fin

/-- A rule that stops on all lines. -/
def Seals (fin : List Lexeme) (rule : Rule) : Prop := ∀ pre, Whole pre → Stops False fin rule pre

section

variable {ends ends' : Prop} {fin pre : List Lexeme} {first second body inner rule other : Rule}

theorem Stops.mono (h : Stops ends fin rule pre) (hends : ends → ends') :
    Stops ends' fin rule pre := fun herrors => (h herrors).imp_right fun h => ⟨hends h.1, h.2⟩

theorem Stops.congr (heq : ∀ right, rule (pre ++ right) = other (pre ++ right))
    (h : Stops ends fin other pre) : Stops ends fin rule pre := by
  intro herrors
  rw [heq] at herrors ⊢
  simpa only [heq] using h herrors

/-- A rule that always finds a fault has nothing to show. -/
theorem stops_of_errors (h : (rule (pre ++ fin)).errors ≠ []) : Stops ends fin rule pre :=
  fun herrors => absurd herrors h

theorem stops_of_eq {trees : List Tree} {post : List Lexeme} (hpost : Whole post)
    (h : ∀ right, rule (pre ++ right) = ⟨trees, [], post ++ right⟩) : Stops ends fin rule pre :=
  fun _ => .inl ⟨post, hpost, fun right => by rw [h, h]⟩

/-- The second rule reads on where the first one stops. Where that may be the end of the file, it
finds a fault there or stays. -/
theorem Stops.andThen (hfirst : Stops ends fin first pre)
    (hsecond : ∀ post, Whole post → (first (pre ++ fin)).rest = post ++ fin →
      Stops ends' fin second post)
    (hfin : ends → (second fin).errors = [] → ends' ∧ (second fin).rest = fin) :
    Stops ends' fin (first ++ second) pre := by
  intro herrors
  rw [andThen_apply] at herrors
  obtain ⟨herrors, herrors'⟩ := List.append_eq_nil_iff.1 herrors
  rcases hfirst herrors with ⟨post, hpost, hstop⟩ | ⟨hends, hrest⟩
  · have hrest : (first (pre ++ fin)).rest = post ++ fin := by rw [hstop]
    rw [hrest] at herrors'
    rcases hsecond post hpost hrest herrors' with ⟨post', hpost', hstop'⟩ | ⟨hends, hrest'⟩
    · refine .inl ⟨post', hpost', fun right => ?_⟩
      simp only [andThen_apply, hstop right, hstop' right, hrest]
      simp
    · exact .inr ⟨hends, by rw [andThen_apply, hrest, hrest']⟩
  · rw [hrest] at herrors'
    obtain ⟨hends', hstay⟩ := hfin hends herrors'
    exact .inr ⟨hends', by rw [andThen_apply, hrest, hstay]⟩

/-- A rule whose reading stops on the lines, and another one behind it. -/
theorem Stops.andThen_seals (hfirst : Stops False fin first pre) (hsecond : Seals fin second) :
    Stops False fin (first ++ second) pre :=
  hfirst.andThen (fun post hpost _ => hsecond post hpost) False.elim

/-- What is wanted behind the lines is missing at the end of the file. -/
theorem Stops.andThen_wants (hfirst : Stops ends fin first pre) (hsecond : Seals fin second)
    (hfin : (second fin).errors ≠ []) : Stops ends' fin (first ++ second) pre :=
  hfirst.andThen (fun post hpost _ => (hsecond post hpost).mono False.elim)
    fun _ herrors => absurd herrors hfin

theorem Seals.andThen (hfirst : Seals fin first) (hsecond : Seals fin second) :
    Seals fin (first ++ second) := fun pre hpre => (hfirst pre hpre).andThen_seals hsecond

theorem Stops.into {next : List Tree → Rule} (hfirst : Stops ends fin first pre)
    (hnext : ∀ post, Whole post → (first (pre ++ fin)).rest = post ++ fin →
      Stops ends' fin (next (first (pre ++ fin)).trees) post)
    (hfin : ends → (first (pre ++ fin)).rest = fin →
      (next (first (pre ++ fin)).trees fin).errors = [] →
        ends' ∧ (next (first (pre ++ fin)).trees fin).rest = fin) :
    Stops ends' fin (first.into next) pre := by
  intro herrors
  obtain ⟨herrors, herrors'⟩ := List.append_eq_nil_iff.1 herrors
  rcases hfirst herrors with ⟨post, hpost, hstop⟩ | ⟨hends, hrest⟩
  · have hrest : (first (pre ++ fin)).rest = post ++ fin := by rw [hstop]
    rw [hrest] at herrors'
    rcases hnext post hpost hrest herrors' with ⟨post', hpost', hstop'⟩ | ⟨hends, hrest'⟩
    · refine .inl ⟨post', hpost', fun right => ?_⟩
      simp only [Rule.into, hstop right, hstop' right, hrest]
      simp
    · refine .inr ⟨hends, ?_⟩
      simp only [Rule.into, hrest, hrest']
  · rw [hrest] at herrors'
    obtain ⟨hends', hstay⟩ := hfin hends hrest herrors'
    refine .inr ⟨hends', ?_⟩
    simp only [Rule.into, hrest, hstay]

/-- A rule that goes on from the trees on its left. -/
def SealsFrom (fin : List Lexeme) (next : List Tree → Rule) : Prop := ∀ left, Seals fin (next left)

theorem Seals.into {next : List Tree → Rule} (hfirst : Seals fin first)
    (hnext : SealsFrom fin next) : Seals fin (first.into next) :=
  fun pre hpre => (hfirst pre hpre).into (fun post hpost _ => hnext _ post hpost) False.elim

theorem Stops.wrap (kind : Kind) (left : List Tree) (h : Stops ends fin body pre) :
    Stops ends fin (wrap kind left body) pre := by
  intro herrors
  refine (h herrors).imp_left fun ⟨post, hpost, hstop⟩ => ⟨post, hpost, fun right => ?_⟩
  simp only [Rule.wrap, hstop right]

theorem settle_append (hpre : Whole pre) : ∃ post trees, Whole post ∧ kind post = kind pre ∧
    post.tail = pre.tail ∧ ∀ right, settle (pre ++ right) = ⟨trees, [], post ++ right⟩ := by
  cases hpre with
  | newline lexeme hkind =>
      exact ⟨[⟨[], lexeme.token⟩], _, .newline _ hkind, rfl, rfl, fun _ => rfl⟩
  | cons lexeme heof hrest =>
      exact ⟨⟨[], lexeme.token⟩ :: _, _, .cons _ heof hrest, rfl, rfl, fun _ => rfl⟩

/-- Trivia in front of the first token makes no difference. -/
theorem stops_settle_andThen (hpre : Whole pre)
    (h : ∀ post, Whole post → kind post = kind pre → post.tail = pre.tail →
      Stops False fin rule post) : Stops False fin (settle ++ rule) pre := by
  obtain ⟨post, trees, hpost, hkind, htail, hsettle⟩ := settle_append hpre
  have hstops : Stops False fin settle pre := stops_of_eq hpost hsettle
  refine hstops.andThen (fun post' _ hrest => ?_) False.elim
  obtain rfl : post = post' := by
    rw [hsettle fin] at hrest
    exact List.append_cancel_right hrest
  exact h post hpost hkind htail

theorem seals_settle_andThen (h : Seals fin rule) : Seals fin (settle ++ rule) :=
  fun _ hpre => stops_settle_andThen hpre fun post hpost _ _ => h post hpost

theorem stops_node (kind : Kind) (hpre : Whole pre)
    (h : ∀ post, Whole post → Rule.kind post = Rule.kind pre → post.tail = pre.tail →
      Stops False fin body post) : Stops False fin (node kind body) pre :=
  stops_settle_andThen hpre fun post hpost hkind htail => (h post hpost hkind htail).wrap kind []

theorem Seals.node (kind : Kind) (h : Seals fin body) : Seals fin (node kind body) :=
  fun _ hpre => stops_node kind hpre fun post hpost _ _ => h post hpost

/-! Steps of reading -/

theorem seals_done : Seals fin done := fun _ hpre => stops_of_eq hpre fun _ => rfl

theorem seals_keep (trees : List Tree) : Seals fin (keep trees) :=
  fun _ hpre => stops_of_eq hpre fun _ => rfl

theorem seals_report (cause : SyntaxError.Cause) : Seals fin (report cause) :=
  fun _ _ => stops_of_errors (by simp [report])

theorem errors_absent (expected : Expected) (input : List Lexeme) :
    (absent expected input).errors ≠ [] := by
  simp [absent, andThen_apply, report]

theorem errors_skipTo (stop : List Kind) (cause : SyntaxError.Cause) (input : List Lexeme) :
    (skipTo stop cause input).errors ≠ [] := by
  simp [skipTo, andThen_apply, report]

theorem seals_absent (expected : Expected) : Seals fin (absent expected) :=
  fun _ _ => stops_of_errors (errors_absent _ _)

theorem seals_skipTo (stop : List Kind) (cause : SyntaxError.Cause) :
    Seals fin (skipTo stop cause) := fun _ _ => stops_of_errors (errors_skipTo _ _ _)

theorem takeAs_append (hpre : Whole pre) (tag : Kind) : ∃ trees, ∀ right,
    takeAs tag (pre ++ right) = ⟨trees, [], pre.tail ++ right⟩ := by
  cases hpre with
  | newline lexeme hkind =>
      exact ⟨_, fun right => by rw [List.singleton_append, takeAs, if_neg (by simp [hkind])]; rfl⟩
  | cons lexeme heof hrest =>
      exact ⟨_, fun right => by rw [List.cons_append, takeAs, if_neg heof]; rfl⟩

theorem stops_takeAs (tag : Kind) (hpre : Whole pre) (hkind : kind pre ≠ .newline) :
    Stops False fin (takeAs tag) pre := by
  obtain ⟨trees, htake⟩ := takeAs_append hpre tag
  exact stops_of_eq (hpre.tail hkind) htake

theorem stops_take (hpre : Whole pre) (hkind : kind pre ≠ .newline) : Stops False fin take pre :=
  (stops_takeAs (kind pre) hpre hkind).congr fun right => by rw [take, hpre.kind_append]

/-- A newline may be the last token there is. -/
theorem stops_take_newline (hpre : Whole pre) : Stops True fin take pre := by
  by_cases hkind : kind pre = .newline
  · cases hpre with
    | newline lexeme hnewline =>
        refine fun _ => .inr ⟨trivial, ?_⟩
        rw [List.singleton_append, take, takeAs, kind_cons, hnewline, if_neg (by decide)]
    | cons lexeme heof hrest =>
        obtain ⟨trees, htake⟩ := takeAs_append (.cons lexeme heof hrest) .newline
        refine stops_of_eq hrest fun right => (Eq.trans ?_ (htake right))
        rw [take, List.cons_append, kind_cons, show lexeme.kind = .newline from hkind]
  · exact (stops_take hpre hkind).mono False.elim

theorem stops_ifAt {kind : Kind} {yes no : Rule} (hpre : Whole pre)
    (hyes : Rule.kind pre = kind → Stops ends fin yes pre)
    (hno : Rule.kind pre ≠ kind → Stops ends fin no pre) :
    Stops ends fin (ifAt kind yes no) pre := by
  by_cases hkind : Rule.kind pre = kind
  · exact (hyes hkind).congr fun right => by rw [ifAt, hpre.kind_append, if_pos hkind]
  · exact (hno hkind).congr fun right => by rw [ifAt, hpre.kind_append, if_neg hkind]

theorem Seals.unlessAt (kinds : List Kind) (h : Seals fin inner) :
    Seals fin (unlessAt kinds inner) := by
  intro pre hpre
  by_cases hkind : kinds.contains (kind pre) = true
  · exact (seals_done pre hpre).congr fun right => by
      rw [Rule.unlessAt, hpre.kind_append, if_pos hkind]
  · exact (h pre hpre).congr fun right => by rw [Rule.unlessAt, hpre.kind_append, if_neg hkind]

theorem seals_expect {wanted : Kind} (hwanted : wanted ≠ .newline) : Seals fin (expect wanted) :=
  fun pre hpre => stops_ifAt hpre (fun hkind => stops_take hpre (hkind ▸ hwanted))
    fun _ => seals_absent _ pre hpre

theorem errors_expect {wanted : Kind} {input : List Lexeme} (hkind : kind input ≠ wanted) :
    (expect wanted input).errors ≠ [] := by
  rw [expect, ifAt, if_neg hkind]
  exact errors_absent _ _

theorem stops_takeNewlines (hfin : IsEnd fin) (hpre : Whole pre) :
    Stops True fin takeNewlines pre := by
  have hnewline : ∀ {lexeme : Lexeme} (rest : List Lexeme), lexeme.kind = .newline →
      takeNewlines (lexeme :: rest) = ⟨lexeme.tokens.map Tree.ofToken ++ (takeNewlines rest).trees,
        (takeNewlines rest).errors, (takeNewlines rest).rest⟩ := by
    intro lexeme rest hkind
    rw [takeNewlines, if_pos hkind]
  induction hpre with
  | newline lexeme hkind =>
      refine fun _ => .inr ⟨trivial, ?_⟩
      rw [List.singleton_append, hnewline _ hkind,
        takeNewlines_of_ne (by rw [hfin.kind_eq]; decide)]
      rfl
  | @cons lexeme rest heof hrest ih =>
      by_cases hkind : lexeme.kind = .newline
      · intro herrors
        rw [List.cons_append, hnewline _ hkind] at herrors
        refine (ih herrors).imp ?_ ?_
        · rintro ⟨post, hpost, hstop⟩
          refine ⟨post, hpost, fun right => ?_⟩
          rw [List.cons_append, List.cons_append, hnewline _ hkind, hnewline _ hkind, hstop right]
        · rintro ⟨-, hrest'⟩
          exact ⟨trivial, by rw [List.cons_append, hnewline _ hkind, hrest']⟩
      · have hdone : ∀ right, takeNewlines (lexeme :: rest ++ right) =
            ⟨[], [], lexeme :: rest ++ right⟩ := fun right => by
          rw [List.cons_append, takeNewlines_of_ne (by rwa [kind_cons])]
          rfl
        exact stops_of_eq (.cons lexeme heof hrest) hdone

theorem kindAfterNewlines_of_ne {input : List Lexeme} (h : kind input ≠ .newline) :
    kindAfterNewlines input = kind input := by
  cases input with
  | nil => rfl
  | cons lexeme rest =>
      rw [kind_cons] at h
      rw [kindAfterNewlines, if_neg h, kind_cons]

/-- A token that is taken behind newlines stands behind them. -/
theorem kindAfterNewlines_of_errors {wanted : Kind} {input : List Lexeme}
    (hwanted : wanted ≠ .newline)
    (h : ((takeNewlinesBefore wanted ++ expect wanted) input).errors = []) :
    kindAfterNewlines input = wanted := by
  by_contra hne
  have hexpect : (expect wanted input).errors = [] := by
    rw [andThen_apply, takeNewlinesBefore, if_neg hne] at h
    exact h
  have hkind : kind input = wanted := by
    by_contra hkind
    exact errors_expect hkind hexpect
  exact hne (by rw [kindAfterNewlines_of_ne (hkind ▸ hwanted), hkind])

/-- Newlines in front of a token that is wanted are taken with it. -/
theorem seals_takeNewlinesBefore {wanted : Kind} (hfin : IsEnd fin) (hwanted : wanted ≠ .newline)
    (heof : wanted ≠ .eof) : Seals fin (takeNewlinesBefore wanted ++ expect wanted) := by
  have hcons : ∀ {lexeme : Lexeme} {rest : List Lexeme}, lexeme.kind = .newline →
      kindAfterNewlines rest = wanted →
        (takeNewlinesBefore wanted ++ expect wanted) (lexeme :: rest) =
          ⟨lexeme.tokens.map Tree.ofToken ++ ((takeNewlinesBefore wanted ++ expect wanted) rest).trees,
            ((takeNewlinesBefore wanted ++ expect wanted) rest).errors,
            ((takeNewlinesBefore wanted ++ expect wanted) rest).rest⟩ := by
    intro lexeme rest hkind hafter
    have hafter' : kindAfterNewlines (lexeme :: rest) = wanted := by
      rw [kindAfterNewlines, if_pos hkind, hafter]
    simp only [andThen_apply, takeNewlinesBefore, hafter, hafter', if_true, takeNewlines, if_pos hkind]
    simp
  intro pre hpre
  induction hpre with
  | newline lexeme hkind =>
      intro herrors
      have hafter := kindAfterNewlines_of_errors hwanted herrors
      rw [List.singleton_append, kindAfterNewlines, if_pos hkind,
        kindAfterNewlines_of_ne (by rw [hfin.kind_eq]; decide), hfin.kind_eq] at hafter
      exact absurd hafter.symm heof
  | @cons lexeme rest hne hrest ih =>
      by_cases hkind : lexeme.kind = .newline
      · intro herrors
        have hafter := kindAfterNewlines_of_errors hwanted herrors
        rw [List.cons_append, kindAfterNewlines, if_pos hkind] at hafter
        rw [List.cons_append, hcons hkind hafter] at herrors
        refine .inl ?_
        obtain ⟨post, hpost, hstop⟩ := (ih herrors).resolve_right (·.1)
        refine ⟨post, hpost, fun right => ?_⟩
        have hright : kindAfterNewlines (rest ++ right) = wanted :=
          kindAfterNewlines_of_errors hwanted (by rw [hstop right])
        rw [List.cons_append, List.cons_append, hcons hkind hafter, hcons hkind hright, hstop right]
      · refine (seals_expect hwanted _ (.cons lexeme hne hrest)).congr fun right => ?_
        have hdone : takeNewlinesBefore wanted (lexeme :: rest ++ right) =
            done (lexeme :: rest ++ right) := by
          rw [takeNewlinesBefore, List.cons_append, takeNewlines_of_ne (by rwa [kind_cons]), ite_self]
        rw [andThen_apply, hdone]
        rfl

/-- A loop whose rounds stop on the lines. Where one has taken them all, the loop finds a fault or
stays at the end of the file. -/
theorem stops_loop {choose : List Lexeme → Step} (hprogress : Progresses choose)
    (hchoose : ∀ pre, Whole pre → ∀ right, choose (pre ++ right) = choose pre)
    (hlast : ∀ pre inner, Whole pre → choose pre = .last inner → Stops False fin inner pre)
    (hagain : ∀ pre inner, Whole pre → choose pre = .again inner → Stops True fin inner pre)
    (hfin : (loop choose fin).errors = [] → ends ∧ (loop choose fin).rest = fin)
    (hpre : Whole pre) : Stops ends fin (loop choose) pre := by
  induction hlength : pre.length using Nat.strongRecOn generalizing pre with
  | ind length ih =>
      cases hstep : choose pre with
      | last inner =>
          refine ((hlast pre inner hpre hstep).mono False.elim).congr fun right => ?_
          rw [loop_of_last hprogress ((hchoose pre hpre right).trans hstep)]
      | again inner =>
          have hloop : ∀ right, loop choose (pre ++ right) = (inner ++ loop choose) (pre ++ right) :=
            fun right => loop_of_again hprogress ((hchoose pre hpre right).trans hstep)
          refine Stops.congr hloop ((hagain pre inner hpre hstep).andThen ?_ fun _ => hfin)
          intro post hpost hrest
          have hless := hprogress _ inner ((hchoose pre hpre fin).trans hstep)
          rw [hrest, List.length_append, List.length_append] at hless
          exact ih post.length (by omega) hpost rfl

/-! The rules of expressions -/

/-- What the rules around an expression need of it: it takes a token where one can start, finds a
fault at the end of the file, and stops on its lines otherwise. -/
structure SealsExpr (fin : List Lexeme) (expr : Rule) : Prop where
  spells : ∀ input, (expr input).Spells [] input
  less : ∀ input, startsExpr (kind input) = true → (expr input).rest.length < input.length
  ends : (expr fin).errors ≠ []
  seals : Seals fin expr

section Expr

variable {expr : Rule} (hfin : IsEnd fin) (hexpr : SealsExpr fin expr)

include hfin hexpr

/-- An expression may stand behind newlines. -/
theorem seals_takeNewlines_expr : Seals fin (takeNewlines ++ expr) := fun _ hpre =>
  (stops_takeNewlines hfin hpre).andThen_wants hexpr.seals hexpr.ends

theorem stops_interpolation (hpre : Whole pre) (hkind : kind pre = .interpStart) :
    Stops False fin (interpolation expr) pre := by
  have hstray : Seals fin (unlessAt [.interpEnd, .eof]
      (report .strayInHole ++ node .error (takeStray 0)) ++ expect .interpEnd) :=
    .andThen (.unlessAt _ fun _ _ => stops_of_errors (by simp [andThen_apply, report]))
      (seals_expect (by decide))
  have hclose : ((unlessAt [.interpEnd, .eof] (report .strayInHole ++ node .error (takeStray 0)) ++
      expect .interpEnd) fin).errors ≠ [] := by
    have hstay : unlessAt [.interpEnd, .eof] (report .strayInHole ++ node .error (takeStray 0)) fin =
        done fin := by rw [unlessAt, hfin.kind_eq]; rfl
    rw [andThen_apply, hstay]
    exact errors_expect (by rw [done, hfin.kind_eq]; decide)
  have hlines : Seals fin (takeNewlines ++ (unlessAt [.interpEnd, .eof]
      (report .strayInHole ++ node .error (takeStray 0)) ++ expect .interpEnd)) := fun _ hpre =>
    (stops_takeNewlines hfin hpre).andThen_wants hstray hclose
  unfold interpolation
  simp only [andThen_assoc]
  refine stops_node _ hpre fun post hpost hkind' _ => ?_
  refine (stops_take hpost (by rw [hkind', hkind]; decide)).andThen_seals ?_
  rw [← andThen_assoc]
  exact (seals_takeNewlines_expr hfin hexpr).andThen hlines

theorem seals_stringBody : Seals fin (loop (stringStep expr)) := by
  intro pre hpre
  refine stops_loop (progresses_stringStep hexpr.spells)
    (fun pre hpre right => stringStep_congr (hpre.kind_append right))
    (fun pre inner hpre hchoose => ?_) (fun pre inner hpre hchoose => ?_) (fun herrors => ?_) hpre
  · cases stringRound_of_eq hchoose with
    | close hkind => exact stops_take hpre (by rw [hkind]; decide)
    | unclosed => exact seals_report _ pre hpre
  · cases stringRound_of_eq hchoose with
    | text hkind => exact (stops_take hpre (by rw [hkind]; decide)).mono False.elim
    | hole hkind => exact (stops_interpolation hfin hexpr hpre hkind).mono False.elim
  · rw [loop_of_last (progresses_stringStep hexpr.spells)
      (by rw [stringStep, hfin.kind_eq] : _ = Step.last (report .unterminatedString))] at herrors
    cases herrors

theorem stops_string (hpre : Whole pre) (hkind : kind pre = .stringStart) :
    Stops False fin (string expr) pre :=
  stops_node _ hpre fun _ hpost hkind' _ =>
    (stops_take hpost (by rw [hkind', hkind]; decide)).andThen_seals (seals_stringBody hfin hexpr)

theorem stops_propertyKey (hpre : Whole pre) (hword : startsProperty (kind pre) = true) :
    Stops False fin (propertyKey expr) pre := by
  refine stops_node _ hpre fun post hpost hkind _ => ?_
  rw [← hkind] at hword
  refine stops_ifAt hpost (stops_string hfin hexpr hpost) fun _ => stops_takeAs _ hpost ?_
  rintro hnewline
  rw [hnewline] at hword
  cases hword

omit hfin in
theorem seals_propertyValue : Seals fin (propertyValue expr) := fun _ hpre =>
  stops_ifAt hpre
    (fun hkind => (stops_take hpre (by rw [hkind]; decide)).andThen_seals hexpr.seals)
    fun _ => stops_of_errors (by simp [andThen_apply, errors_absent])

theorem stops_property (hpre : Whole pre) (hword : startsProperty (kind pre) = true) :
    Stops False fin (property expr) pre := by
  refine stops_node _ hpre fun post hpost hkind _ => ?_
  exact ((stops_propertyKey hfin hexpr hpost (hkind ▸ hword)).andThen_seals
    (seals_propertyValue hexpr)).andThen_seals (.unlessAt _ (seals_skipTo _ _))

omit hexpr in
theorem stops_list {node close : Kind} {startsItem : Kind → Bool} {item : Rule}
    {cause : SyntaxError.Cause} (hclose : close ≠ .newline ∧ close ≠ .eof)
    (hprogress : Progresses (listStep close startsItem item cause))
    (hitem : ∀ pre, Whole pre → startsItem (kind pre) = true → Stops False fin item pre)
    (hpre : Whole pre) (hkind : kind pre ≠ .newline) :
    Stops False fin (list node close startsItem item cause) pre := by
  refine stops_node _ hpre fun post hpost hkind' _ =>
    (stops_take hpost (hkind' ▸ hkind)).andThen_seals fun pre hpre => ?_
  refine stops_loop hprogress
    (fun pre hpre right =>
      listStep_congr (hpre.kind_append right) (hpre.startsDeclaration_append right))
    (fun pre inner hpre hchoose => ?_) (fun pre inner hpre hchoose => ?_) (fun herrors => ?_) hpre
  · cases listRound_of_eq hchoose with
    | close hinside => exact stops_take hpre hinside.1
    | unclosed => exact seals_absent _ pre hpre
  · cases listRound_of_eq hchoose with
    | newline | comma => exact stops_take_newline hpre
    | item _ hstart => exact (hitem pre hpre hstart).mono False.elim
    | stray => exact (seals_skipTo _ _ pre hpre).mono False.elim
  · have hstep : listStep close startsItem item cause fin = .last (absent (.token close)) := by
      simp [listStep, hfin.kind_eq, hclose.2.symm, closers]
    rw [loop_of_last hprogress hstep] at herrors
    exact absurd herrors (errors_absent _ _)

theorem stops_object (hpre : Whole pre) (hkind : kind pre ≠ .newline) :
    Stops False fin (object expr) pre :=
  stops_list hfin (by decide) (progresses_property hexpr.spells)
    (fun _ hpre hword => stops_property hfin hexpr hpre hword) hpre hkind

theorem stops_array (hpre : Whole pre) (hkind : kind pre ≠ .newline) :
    Stops False fin (array expr) pre :=
  stops_list hfin (by decide) (progresses_arrayItem hexpr.less)
    (fun pre hpre _ => hexpr.seals.node _ pre hpre) hpre hkind

theorem stops_arguments (hpre : Whole pre) (hkind : kind pre ≠ .newline) :
    Stops False fin (arguments expr) pre :=
  stops_list hfin (by decide) (progresses_arguments hexpr.less)
    (fun pre hpre _ => hexpr.seals pre hpre) hpre hkind

omit hfin hexpr in
theorem seals_loopVariable : Seals fin loopVariable := by
  intro pre hpre
  by_cases hname : (kind pre = .ident && !isWordAt pre "in") = true
  · have hkind : kind pre ≠ .newline := by
      rintro hkind
      rw [hkind] at hname
      cases hname
    have htake : Stops False fin (node .name take) pre :=
      stops_node _ hpre fun post hpost hkind' _ => stops_take hpost (hkind' ▸ hkind)
    refine htake.congr fun right => ?_
    rw [loopVariable, hpre.kind_append, hpre.isWordAt_append, if_pos hname]
  · refine (seals_absent .loopVariable pre hpre).congr fun right => ?_
    rw [loopVariable, hpre.kind_append, hpre.isWordAt_append, if_neg hname]

omit hfin hexpr in
/-- A word that is known by its place is no newline. -/
theorem stops_takeAs_word (tag : Kind) {word : String} (hpre : Whole pre)
    (hword : isWordAt pre word = true) : Stops False fin (takeAs tag) pre :=
  stops_takeAs tag hpre (by rw [kind_eq_of_isWordAt hword]; decide)

omit hfin hexpr in
theorem seals_inKeyword : Seals fin inKeyword := by
  intro pre hpre
  by_cases hword : isWordAt pre "in" = true
  · exact (stops_takeAs_word _ hpre hword).congr fun right => by
      rw [inKeyword, hpre.isWordAt_append, if_pos hword]
  · exact (seals_absent _ pre hpre).congr fun right => by
      rw [inKeyword, hpre.isWordAt_append, if_neg hword]

theorem stops_forExpr (hpre : Whole pre) (hbracket : kind pre = .lBrack)
    (hfor : isWordAt pre.tail "for" = true) : Stops False fin (forExpr expr) pre := by
  unfold forExpr
  rw [andThen_assoc _ (takeNewlinesBefore .rBrack) (expect .rBrack),
    andThen_assoc _ takeNewlines expr]
  refine stops_node _ hpre fun post hpost hkind htail => ?_
  have hnewline : kind post ≠ .newline := by rw [hkind, hbracket]; decide
  have hkeyword : Stops False fin (take ++ takeAs .forKw) post := by
    refine (stops_take hpost hnewline).andThen (fun post' hpost' hrest => ?_) False.elim
    obtain rfl : post.tail = post' := by
      obtain ⟨trees, htake⟩ := takeAs_append hpost (kind post)
      rw [take, hpost.kind_append, htake] at hrest
      exact List.append_cancel_right hrest
    exact stops_takeAs_word _ hpost' (htail ▸ hfor)
  exact ((((((hkeyword.andThen_seals seals_loopVariable).andThen_seals seals_inKeyword).andThen_seals
    hexpr.seals).andThen_seals (seals_expect (by decide))).andThen_seals
    (seals_takeNewlines_expr hfin hexpr)).andThen_seals
    (.unlessAt _ (seals_skipTo _ _))).andThen_seals
    (seals_takeNewlinesBefore hfin (by decide) (by decide))

theorem stops_paren (hpre : Whole pre) (hkind : kind pre ≠ .newline) :
    Stops False fin (paren expr) pre := by
  unfold paren
  rw [andThen_assoc _ (takeNewlinesBefore .rParen) (expect .rParen),
    andThen_assoc _ takeNewlines expr]
  exact stops_node _ hpre fun post hpost hkind' _ =>
    ((stops_take hpost (hkind' ▸ hkind)).andThen_seals
      (seals_takeNewlines_expr hfin hexpr)).andThen_seals
      (seals_takeNewlinesBefore hfin (by decide) (by decide))

theorem seals_primary : Seals fin (primary expr) := by
  intro pre hpre
  have hnode : ∀ kind rule, Rule.kind pre ≠ .newline → (∀ post, Whole post →
      Rule.kind post ≠ .newline → Stops False fin rule post) →
      Stops False fin (node kind rule) pre := fun kind rule hline h =>
    stops_node kind hpre fun post hpost hkind _ => h post hpost (hkind ▸ hline)
  have hliteral : ∀ kind ∈ literalKinds, kind ≠ .newline := by decide
  obtain ⟨rule, hrule, -⟩ := exists_primary expr pre
  have hat : Stops False fin rule pre := by
    cases hrule with
    | literal hkind => exact hnode _ _ (hliteral _ hkind) fun _ => stops_take
    | string hkind => exact stops_string hfin hexpr hpre hkind
    | object hkind => exact stops_object hfin hexpr hpre (by rw [hkind]; decide)
    | loop hkind hfor => exact stops_forExpr hfin hexpr hpre hkind hfor
    | array hkind => exact stops_array hfin hexpr hpre (by rw [hkind]; decide)
    | paren hkind => exact stops_paren hfin hexpr hpre (by rw [hkind]; decide)
    | word hword =>
        refine hnode _ _ (fun hline => ?_) fun _ => stops_takeAs _
        rw [hline] at hword
        cases hword
    | absent => exact seals_absent _ pre hpre
  refine hat.congr fun right => hrule.eq_of_kind_eq (hpre.kind_append right) fun hbracket => ?_
  rw [hpre.tail_append, (hpre.tail (by rw [hbracket]; decide)).isWordAt_append]

end Expr

theorem errors_tooDeep (input : List Lexeme) : (tooDeep input).errors ≠ [] := by
  rw [tooDeep, andThen_apply]
  simp [errors_skipTo]

theorem seals_tooDeep : Seals fin tooDeep := fun _ _ => stops_of_errors (errors_tooDeep _)

theorem errors_settle_andThen (hfin : IsEnd fin) (h : (rule fin).errors ≠ []) :
    ((settle ++ rule) fin).errors ≠ [] := by
  obtain ⟨eof, -, rfl⟩ := hfin
  exact h

theorem errors_into {next : List Tree → Rule} {input : List Lexeme}
    (h : (first input).errors ≠ []) : (first.into next input).errors ≠ [] :=
  fun herrors => h (List.append_eq_nil_iff.1 herrors).1

/-- The rules of a level stop on the lines, and an operand is missing at the end of the file. -/
structure Level.Seals (fin : List Lexeme) (level : Level) : Prop where
  expr : Rule.Seals fin level.expr
  unary : Rule.Seals fin level.unary
  links : SealsFrom fin level.links
  operators (least : Nat) : SealsFrom fin (level.operators least)
  ends : (level.expr fin).errors ≠ [] ∧ (level.unary fin).errors ≠ []

namespace Level

variable {below : Level}

theorem Seals.binary (h : below.Seals fin) (least : Nat) : Rule.Seals fin (below.binary least) :=
  seals_settle_andThen (h.unary.into (h.operators least))

theorem Seals.chain (hfin : IsEnd fin) (hexpr : SealsExpr fin below.expr) (h : below.Seals fin) :
    Rule.Seals fin below.chain :=
  seals_settle_andThen ((seals_primary hfin hexpr).into h.links)

theorem Seals.choice (h : below.Seals fin) : SealsFrom fin below.choice := fun left _ hpre =>
  stops_ifAt hpre
    (fun hkind => ((((stops_take hpre (by rw [hkind]; decide)).andThen_seals h.expr).andThen_seals
      (seals_expect (by decide))).andThen_seals h.expr).wrap _ left)
    fun _ => seals_keep left _ hpre

theorem Seals.ternary (h : below.Seals fin) : Rule.Seals fin below.ternary :=
  seals_settle_andThen ((h.binary 1).into h.choice)

theorem seals_member : Rule.Seals fin member := by
  intro pre hpre
  by_cases hword : (kind pre).isWord = true
  · have htake : Stops False fin (takeAs .ident) pre := stops_takeAs _ hpre fun hkind => by
      rw [hkind] at hword
      cases hword
    exact htake.congr fun right => by rw [member, hpre.kind_append, if_pos hword]
  · exact (seals_absent .propertyName pre hpre).congr fun right => by
      rw [member, hpre.kind_append, if_neg hword]

theorem stops_link (hfin : IsEnd fin) (hexpr : SealsExpr fin below.expr) (receiver : List Tree)
    (hpre : Whole pre) (hstart : startsLink (kind pre) = true) :
    Stops False fin (below.link receiver) pre := by
  have hnewline : kind pre ≠ .newline := fun hkind => by
    rw [hkind] at hstart
    cases hstart
  have htake : Stops False fin take pre := stops_take hpre hnewline
  by_cases hdot : kind pre = .dot
  · exact ((htake.andThen_seals seals_member).wrap _ receiver).congr fun right => by
      rw [link, hpre.kind_append, hdot]
  · by_cases hbracket : kind pre = .lBrack
    · exact (((htake.andThen_seals hexpr.seals).andThen_seals
        (seals_expect (by decide : Kind.rBrack ≠ .newline))).wrap _ receiver).congr fun right => by
          rw [link, hpre.kind_append, hbracket]
    · refine ((stops_arguments hfin hexpr hpre hnewline).wrap .callExpr receiver).congr
        fun right => ?_
      unfold link
      rw [hpre.kind_append]
      split <;> first | rfl | contradiction

theorem seals_links_above {below : Option Level} (hfin : IsEnd fin)
    (hexpr : ∀ level ∈ below, SealsExpr fin level.expr) (h : ∀ level ∈ below, level.Seals fin) :
    SealsFrom fin (above below).links := by
  intro left pre hpre
  by_cases hstart : startsLink (kind pre) = true
  · cases below with
    | none =>
        refine stops_of_errors ?_
        rw [links_above, hpre.kind_append, if_pos hstart, andThen_apply]
        exact fun herrors => errors_tooDeep _ (List.append_eq_nil_iff.1 herrors).2
    | some level =>
        have hlink := stops_link hfin (hexpr level rfl) left hpre hstart
        exact (hlink.into (fun post hpost _ => (h level rfl).links _ post hpost) False.elim).congr
          fun right => by rw [links_above, hpre.kind_append, if_pos hstart]
  · exact (seals_keep left pre hpre).congr fun right => by
      rw [links_above, hpre.kind_append, if_neg hstart]

theorem seals_operators_above {below : Option Level} (h : ∀ level ∈ below, level.Seals fin)
    (least : Nat) : SealsFrom fin ((above below).operators least) := by
  intro left pre hpre
  have hnewline : kind pre = .newline → (kind pre).precedence = none := fun hkind => by
    rw [hkind]
    rfl
  cases hprecedence : (kind pre).precedence with
  | none =>
      refine (seals_keep left pre hpre).congr fun right => ?_
      rw [operators_above, hpre.kind_append, hprecedence]
  | some precedence =>
      by_cases hless : precedence < least
      · exact (seals_keep left pre hpre).congr fun right => by
          rw [operators_above, hpre.kind_append, hprecedence]
          exact if_pos hless
      · cases below with
        | none =>
            refine stops_of_errors ?_
            rw [operators_above, hpre.kind_append, hprecedence]
            simp only [if_neg hless, andThen_apply]
            exact fun herrors => errors_tooDeep _ (List.append_eq_nil_iff.1 herrors).2
        | some level =>
            have hkind : kind pre ≠ .newline := fun hkind => by
              rw [hnewline hkind] at hprecedence
              cases hprecedence
            have hwrap := ((stops_take hpre hkind).andThen_seals
              ((h level rfl).binary (precedence + 1))).wrap .binaryExpr left
            exact (hwrap.into (fun post hpost _ => (h level rfl).operators least _ post hpost)
              False.elim).congr fun right => by
                rw [operators_above, hpre.kind_append, hprecedence]
                exact if_neg hless

theorem errors_ternary (hfin : IsEnd fin) (h : below.Seals fin) :
    (below.ternary fin).errors ≠ [] := by
  have hbinary : (below.binary 1 fin).errors ≠ [] :=
    errors_settle_andThen hfin (errors_into h.ends.2)
  exact errors_settle_andThen hfin (errors_into hbinary)

theorem errors_primary {expr : Rule} (hfin : IsEnd fin) : (primary expr fin).errors ≠ [] := by
  rw [primary_of_not_startsExpr (by rw [hfin.kind_eq]; rfl)]
  exact errors_absent _ _

theorem operand_above {below : Option Level} (hfin : IsEnd fin)
    (hspells : ∀ level ∈ below, level.Spells) (hprogress : ∀ level ∈ below, level.Progresses)
    (h : ∀ level ∈ below, level.Seals fin) : SealsExpr fin (above below).expr := by
  refine ⟨(spells_above hspells).expr, (progresses_above hspells hprogress).expr, ?_, ?_⟩
  · cases below with
    | none => exact errors_tooDeep _
    | some level => exact errors_ternary hfin (h level rfl)
  · cases below with
    | none => exact seals_tooDeep
    | some level => exact (h level rfl).ternary

theorem seals_above {below : Option Level} (hfin : IsEnd fin)
    (hspells : ∀ level ∈ below, level.Spells) (hprogress : ∀ level ∈ below, level.Progresses)
    (hoperand : ∀ level ∈ below, SealsExpr fin level.expr) (h : ∀ level ∈ below, level.Seals fin) :
    (above below).Seals fin := by
  have hexpr := operand_above hfin hspells hprogress h
  have hlinks := seals_links_above hfin hoperand h
  refine ⟨hexpr.seals, fun pre hpre => ?_, hlinks, seals_operators_above h, hexpr.ends, ?_⟩
  · by_cases hprefix : kind pre = .bang ∨ kind pre = .minus
    · have hnewline : kind pre ≠ .newline := by
        rcases hprefix with hkind | hkind <;> rw [hkind] <;> decide
      cases below with
      | none => exact stops_of_errors (by
          rw [unary_above, hpre.kind_append, if_pos hprefix]
          exact errors_tooDeep _)
      | some level =>
          refine (stops_node .unaryExpr hpre fun post hpost hkind _ =>
            (stops_take hpost (hkind ▸ hnewline)).andThen_seals (h level rfl).unary).congr
            fun right => ?_
          rw [unary_above, hpre.kind_append, if_pos hprefix]
    · have hchain : Rule.Seals fin (above below).chain :=
        seals_settle_andThen ((seals_primary hfin hexpr).into hlinks)
      exact (hchain pre hpre).congr fun right => by
        rw [unary_above, hpre.kind_append, if_neg hprefix]
  · rw [unary_above, hfin.kind_eq, if_neg (by decide)]
    exact errors_settle_andThen hfin (errors_into (errors_primary hfin))

end Level

theorem seals_level (hfin : IsEnd fin) (budget : Nat) :
    (level budget).Seals fin ∧ SealsExpr fin (level budget).expr := by
  refine level_induction (motive := fun level => level.Seals fin ∧ SealsExpr fin level.expr)
    (fun below hbelow known => ?_) budget
  have hspells : ∀ level ∈ below, level.Spells := known spells_level
  have hprogress : ∀ level ∈ below, level.Progresses := known progresses_level
  have hseals : ∀ level ∈ below, level.Seals fin := fun level hlevel => (hbelow level hlevel).1
  have hexpr : ∀ level ∈ below, SealsExpr fin level.expr := fun level hlevel =>
    (hbelow level hlevel).2
  exact ⟨Level.seals_above hfin hspells hprogress hexpr hseals,
    Level.operand_above hfin hspells hprogress hseals⟩

/-! The rules of documents -/

theorem operand_expr (hfin : IsEnd fin) : SealsExpr fin Rule.expr := (seals_level hfin maxDepth).2

theorem stops_decorator (hfin : IsEnd fin) (hpre : Whole pre) (hkind : kind pre = .atSign) :
    Stops False fin decorator pre := by
  have hchain : Seals fin outermost.chain := (seals_level hfin maxDepth).1.chain hfin (operand_expr hfin)
  refine Stops.andThen_seals (stops_node _ hpre fun post hpost hkind' _ => ?_)
    (.unlessAt _ (seals_skipTo _ _))
  exact (stops_take hpost (by rw [hkind', hkind]; decide)).andThen_seals fun pre hpre =>
    stops_ifAt hpre (fun _ => hchain pre hpre) fun _ => seals_absent _ pre hpre

theorem stops_decorators (hfin : IsEnd fin) (hpre : Whole pre) :
    Stops True fin (loop decoratorStep) pre := by
  have hend : loop decoratorStep fin = done fin :=
    loop_of_last progresses_decoratorStep (by rw [decoratorStep, hfin.kind_eq]; rfl)
  refine stops_loop progresses_decoratorStep
    (fun pre hpre right => by rw [decoratorStep, hpre.kind_append, decoratorStep])
    (fun pre inner hpre hchoose => ?_) (fun pre inner hpre hchoose => ?_)
    (fun _ => ⟨trivial, by rw [hend]; rfl⟩) hpre
  · cases decoratorRound_of_eq hchoose with
    | done => exact seals_done pre hpre
  · cases decoratorRound_of_eq hchoose with
    | decorator hkind =>
        exact (stops_decorator hfin hpre hkind).andThen
          (fun post hpost _ => stops_takeNewlines hfin hpost) False.elim

theorem seals_name : Seals fin name := fun _ hpre => stops_ifAt hpre
  (fun hkind => stops_node _ hpre fun _ hpost hkind' _ =>
    stops_take hpost (by rw [hkind', hkind]; decide))
  fun _ => seals_absent _ _ hpre

theorem seals_typeName : Seals fin typeName := fun _ hpre => stops_ifAt hpre
  (fun hkind => stops_node _ hpre fun _ hpost hkind' _ =>
    stops_take hpost (by rw [hkind', hkind]; decide))
  fun _ => seals_absent _ _ hpre

theorem seals_quoted (hfin : IsEnd fin) (kind : Kind) (expected : Expected) :
    Seals fin (quoted kind expected) := fun _ hpre => stops_ifAt hpre
  (fun hkind => stops_node _ hpre fun _ hpost hkind' _ =>
    stops_string hfin (operand_expr hfin) hpost (by rw [hkind', hkind]))
  fun _ => seals_absent _ _ hpre

theorem seals_existing : Seals fin existing := by
  intro pre hpre
  by_cases hword : isWordAt pre "existing" = true
  · exact (stops_takeAs_word _ hpre hword).congr fun right => by
      rw [existing, hpre.isWordAt_append, if_pos hword]
  · exact (seals_done pre hpre).congr fun right => by
      rw [existing, hpre.isWordAt_append, if_neg hword]

theorem seals_header (hfin : IsEnd fin) (kind : Kind) : Seals fin (header kind) := by
  have hexpr := (operand_expr hfin).seals
  refine header_induction (motive := Seals fin) (fun hpart => ?_) .andThen
  cases hpart with
  | name => exact seals_name
  | typeName => exact seals_typeName
  | resourceType | modulePath => exact seals_quoted hfin _ _
  | existing => exact seals_existing
  | equals => exact seals_expect (by decide)
  | value => exact hexpr
  | default =>
      exact fun pre hpre => stops_ifAt hpre
        (fun hkind => (stops_take hpre (by rw [hkind]; decide)).andThen_seals hexpr)
        fun _ => seals_done pre hpre
  | done => exact seals_done

theorem seals_endDeclaration : Seals fin endDeclaration := by
  intro pre hpre
  by_cases hstarts : startsDeclaration pre = true
  · exact (seals_done pre hpre).congr fun right => by
      rw [endDeclaration, hpre.startsDeclaration_append, if_pos hstarts]
  · exact (Seals.unlessAt [.newline, .eof, .atSign] (seals_skipTo _ _) pre hpre).congr fun right => by
      rw [endDeclaration, hpre.startsDeclaration_append, if_neg hstarts]

theorem seals_undecorated (hfin : IsEnd fin) : SealsFrom fin undecorated := by
  intro decorators pre hpre
  cases hword : declarationWord pre with
  | none =>
      refine stops_of_errors ?_
      have heof : (!decorators.isEmpty && decide (kind pre = .eof)) = false := by
        simp [hpre.kind_ne_eof]
      rw [undecorated, hpre.declarationWord_append, hword, hpre.kind_append]
      simp only [heof, andThen_apply]
      exact fun herrors => errors_skipTo _ _ _ (List.append_eq_nil_iff.1 herrors).2
  | some word =>
      obtain ⟨node, keyword⟩ := word
      obtain ⟨hident, -⟩ := declarationWord_eq_some hword
      have hkeyword : Stops False fin (takeAs keyword) pre :=
        stops_takeAs keyword hpre (by rw [hident]; decide)
      refine (((hkeyword.andThen_seals (seals_header hfin node)).wrap node decorators).andThen_seals
        seals_endDeclaration).congr fun right => ?_
      rw [undecorated, hpre.declarationWord_append, hword]

/-- Where an at sign stands, a decorator is read. -/
theorem exists_decorator {input : List Lexeme} (hkind : kind input = .atSign) :
    ∃ tree ∈ (loop decoratorStep input).trees, tree.kind = .decorator := by
  have hstep : decoratorStep input = .again (decorator ++ takeNewlines) := by
    rw [decoratorStep, if_pos hkind]
  rw [loop_of_again progresses_decoratorStep hstep]
  refine ⟨.node .decorator ((take ++ ifAt .ident outermost.chain (absent .decoratorName))
    (settle input).rest).trees, ?_, rfl⟩
  simp [andThen_apply, decorator, node, wrap]

/-- A declaration stops on its lines, unless there are only decorators. -/
theorem stops_declaration (hfin : IsEnd fin) (hpre : Whole pre) :
    Stops (∃ tree ∈ (declaration (pre ++ fin)).trees, tree.kind = .decorator) fin
      declaration pre := by
  obtain ⟨post, trees, hpost, hkind, -, hsettle⟩ := settle_append hpre
  have hstops : Stops False fin settle pre := stops_of_eq hpost hsettle
  refine hstops.andThen (fun post' _ hrest => ?_) False.elim
  obtain rfl : post = post' := by
    rw [hsettle fin] at hrest
    exact List.append_cancel_right hrest
  refine (stops_decorators hfin hpost).into
    (fun post' hpost' _ => (seals_undecorated hfin _ post' hpost').mono False.elim)
    fun _ hrest herrors => ?_
  have hnone : declarationWord fin = none := by rw [declarationWord, hfin.kind_eq]; rfl
  rw [undecorated, hnone] at herrors ⊢
  dsimp only at herrors ⊢
  split at herrors
  · rename_i hkeep
    rw [if_pos hkeep]
    simp only [Bool.and_eq_true, Bool.not_eq_true', List.isEmpty_eq_false_iff] at hkeep
    have hat : kind (post ++ fin) = .atSign := by
      by_contra hne
      have hstep : decoratorStep (post ++ fin) = .last done := by rw [decoratorStep, if_neg hne]
      rw [loop_of_last progresses_decoratorStep hstep] at hkeep
      exact hkeep.1 rfl
    obtain ⟨tree, hmem, hdecorator⟩ := exists_decorator hat
    refine ⟨⟨tree, ?_, hdecorator⟩, rfl⟩
    rw [declaration, andThen_apply, hsettle fin]
    refine List.mem_append_right _ ?_
    simpa [Rule.into, hrest, undecorated, hnone, hkeep.1, hfin.kind_eq, keep] using hmem
  · exact absurd (List.append_eq_nil_iff.1 herrors).2 (errors_skipTo _ _ _)

theorem loop_documentStep_fin (hfin : IsEnd fin) :
    loop documentStep fin = ⟨[], [], fin⟩ := by
  have hstep : documentStep fin = .last settle := by rw [documentStep, hfin.kind_eq]
  obtain ⟨eof, heof, rfl⟩ := hfin
  rw [loop_of_last progresses_documentStep hstep]
  rfl

/-- Lines without a fault and without a decorator that stands alone are read on their own, and what
is behind them as if they were not there. -/
theorem loop_documentStep_append (hfin : IsEnd fin) (hpre : Whole pre)
    (herrors : (loop documentStep (pre ++ fin)).errors = [])
    (hdecorator : ∀ tree ∈ (loop documentStep (pre ++ fin)).trees, tree.kind ≠ .decorator)
    (right : List Lexeme) :
    loop documentStep (pre ++ right) =
      ⟨(loop documentStep (pre ++ fin)).trees ++ (loop documentStep right).trees,
        (loop documentStep right).errors, (loop documentStep right).rest⟩ := by
  induction hlength : pre.length using Nat.strongRecOn generalizing pre with
  | ind length ih =>
      by_cases hnewline : kind pre = .newline
      · have hloop : ∀ right, loop documentStep (pre ++ right) =
            (take ++ loop documentStep) (pre ++ right) := fun right =>
          loop_of_again progresses_documentStep (by rw [documentStep, hpre.kind_append, hnewline])
        obtain ⟨trees, htake⟩ := takeAs_append hpre .newline
        have htake : ∀ right, take (pre ++ right) = ⟨trees, [], pre.tail ++ right⟩ := fun right => by
          rw [take, hpre.kind_append, hnewline, htake]
        rw [hloop, andThen_apply, htake] at herrors hdecorator ⊢
        rw [hloop, andThen_apply, htake]
        dsimp only at herrors hdecorator ⊢
        cases hpre with
        | newline lexeme hkind =>
            simp [loop_documentStep_fin hfin]
        | cons lexeme heof hrest =>
            rw [List.tail_cons] at herrors hdecorator ⊢
            rw [ih _ (by rw [← hlength, List.length_cons]; omega) hrest
              (by simpa using herrors) (fun tree hmem => hdecorator tree (by simp [hmem])) rfl]
            simp
      · have hstep : ∀ right, documentStep (pre ++ right) = .again declaration := fun right => by
          unfold documentStep
          rw [hpre.kind_append]
          split <;> simp_all [hpre.kind_ne_eof]
        have hloop := fun right => loop_of_again progresses_documentStep (hstep right)
        rw [hloop, andThen_apply] at herrors hdecorator
        obtain ⟨herrors, herrors'⟩ := List.append_eq_nil_iff.1 herrors
        rcases stops_declaration hfin hpre herrors with ⟨post, hpost, hstop⟩ | ⟨⟨tree, hmem, hkind⟩, -⟩
        · have hless := progresses_documentStep _ _ (hstep fin)
          rw [hstop, List.length_append, List.length_append] at hless
          rw [hstop] at herrors' hdecorator
          rw [hloop, hloop, andThen_apply, andThen_apply, hstop right, hstop fin]
          dsimp only at herrors' hdecorator ⊢
          rw [ih _ (by omega) hpost herrors' (fun tree hmem => hdecorator tree (by simp [hmem])) rfl]
          simp
        · exact absurd hkind (hdecorator tree (List.mem_append_left _ hmem))

end

end Rule

end Caret
