import Caret.Proofs.Rule.Answers

/-!
# Two inputs that part ways

Two inputs are the same up to a token, in one of them followed by a name. A rule that is read on
both does the same as long as it is in front of that token. Where it takes the token of the first
input as one that an expression comes after, it takes that of the second one so, too.
-/

namespace Caret

/-- The kinds of two tokens of which one takes the place of the other: the same kind, or that of
an operator and of its first character, where that is an operator as well. -/
inductive Kind.Twins : Kind → Kind → Prop where
  | same (kind : Kind) : Twins kind kind
  | lt : Twins ltEq lt
  | gt : Twins gtEq gt
  | question : Twins questionQuestion question

/-- What does not tell an operator from its first character does not tell twins apart. -/
theorem Kind.Twins.congr {α : Type} {kind other : Kind} (h : kind.Twins other) (f : Kind → α)
    (hlt : f ltEq = f Kind.lt) (hgt : f gtEq = f Kind.gt)
    (hquestion : f questionQuestion = f Kind.question) : f kind = f other := by
  cases h with
  | same => rfl
  | lt => exact hlt
  | gt => exact hgt
  | question => exact hquestion

theorem Kind.Twins.ne_eof {kind other : Kind} (h : kind.Twins other) (heof : kind ≠ eof) :
    other ≠ eof := by
  cases h with
  | same => exact heof
  | lt => decide
  | gt => decide
  | question => decide

/-- Apart from binary operators, an expression comes after both of two twins or after none. -/
theorem Kind.Twins.awaits {kind other home : Kind} (h : kind.Twins other)
    (hbinary : home ≠ binaryExpr) (hawaits : kind.awaits home = true) :
    other.awaits home = true := by
  cases h with
  | same => exact hawaits
  | lt => cases home <;> first | exact absurd rfl hbinary | cases hawaits
  | gt => cases home <;> first | exact absurd rfl hbinary | cases hawaits
  | question => cases home <;> first | exact absurd rfl hbinary | cases hawaits

/-- The kinds that can be told from their twins. -/
def Kind.hasTwin : Kind → Bool
  | ltEq | lt | gtEq | gt | questionQuestion | question => true
  | _ => false

theorem Kind.Twins.eq_or {kind other : Kind} (h : kind.Twins other) :
    kind = other ∨ kind = ltEq ∧ other = Kind.lt ∨ kind = gtEq ∧ other = Kind.gt ∨
      kind = questionQuestion ∧ other = Kind.question := by
  cases h <;> simp

/-- Whether a place after the leaf is taken for one where an expression can be written: in front of
a loop that loses its keyword, too. -/
def Leaf.invites (leaf : Leaf) : Bool :=
  leaf.kind.awaits leaf.home || (leaf.kind = .lBrack && leaf.home = .forExpr)

namespace Rule

/-- The first of two inputs has a token where the second one has a twin of it and then a name; so
many tokens before that are the same. -/
inductive Agree (name : String) : Nat → List Lexeme → List Lexeme → Prop where
  | here {first other next : Lexeme} {rest rest' : List Lexeme} :
      first.kind.Twins other.kind → first.kind ≠ .eof →
      (first.kind = .ident → first.token.text = "in" ∧ other.token.text = "in") →
      next.kind = .ident → next.token.text = name →
      Agree name 0 (first :: rest) (other :: next :: rest')
  | there {count : Nat} {lexeme other : Lexeme} {rest rest' : List Lexeme} :
      lexeme.kind = other.kind → lexeme.token.text = other.token.text → lexeme.kind ≠ .eof →
      Agree name count rest rest' → Agree name (count + 1) (lexeme :: rest) (other :: rest')

structure Along (name : String) (count : Nat) (input input' : List Lexeme) : Prop where
  agree : Agree name count input input'
  led : Led input
  led' : Led input'
  fresh : name ∉ contextualWords

/-- Of two lists of marks the first has one at the given place, and if that invites an expression,
one after which an expression is expected stands there in the second list. -/
def Passes (place : Nat) (marks marks' : List Leaf) : Prop :=
  ∃ leaf, marks[place]? = some leaf ∧
    (leaf.invites = true → ∃ other, marks'[place]? = some other ∧
      other.kind.awaits other.home = true)

/-- Two outcomes for inputs that part ways at the given place: both are still in front of it and the
same so far, or the first one is past it. -/
def InStep (name : String) (home : Kind) (place : Nat) (outcome outcome' : Outcome) : Prop :=
  (∃ count, place = (Tree.marks home outcome.trees).length + count ∧
    Tree.marks home outcome'.trees = Tree.marks home outcome.trees ∧
    Along name count outcome.rest outcome'.rest) ∨
  Passes place (Tree.marks home outcome.trees) (Tree.marks home outcome'.trees)

/-- A rule that does the same on inputs that part ways, up to there. -/
def Locks (name : String) (home : Kind) (rule : Rule) : Prop :=
  ∀ count input input', Along name count input input' →
    InStep name home count (rule input) (rule input')

variable {name : String} {home inner : Kind} {count place : Nat} {input input' : List Lexeme}
  {first second body rule : Rule} {outcome outcome' : Outcome}

theorem Along.congr {α : Type} (h : Along name count input input') (f : Kind → α)
    (hlt : f .ltEq = f .lt) (hgt : f .gtEq = f .gt)
    (hquestion : f .questionQuestion = f .question) : f (kind input) = f (kind input') := by
  cases h.agree with
  | here htwins => exact htwins.congr f hlt hgt hquestion
  | there hkind => exact congrArg f hkind

theorem Along.kind_eq_or (h : Along name count input input') :
    kind input = kind input' ∨ kind input = .ltEq ∧ kind input' = .lt ∨
      kind input = .gtEq ∧ kind input' = .gt ∨
      kind input = .questionQuestion ∧ kind input' = .question ∧ count = 0 := by
  cases h.agree with
  | here htwins =>
      rw [kind_cons, kind_cons]
      rcases htwins.eq_or with heq | hlt | hgt | ⟨hone, hother⟩
      · exact .inl heq
      · exact .inr (.inl hlt)
      · exact .inr (.inr (.inl hgt))
      · exact .inr (.inr (.inr ⟨hone, hother, rfl⟩))
  | there hkind => exact .inl hkind

theorem Along.kind_cases (h : Along name count input input') :
    kind input = kind input' ∨
      (kind input).hasTwin = true ∧ (kind input').hasTwin = true := by
  rcases h.kind_eq_or with heq | ⟨hone, hother⟩ | ⟨hone, hother⟩ | ⟨hone, hother, -⟩
  · exact .inl heq
  · exact .inr (by rw [hone, hother]; exact ⟨rfl, rfl⟩)
  · exact .inr (by rw [hone, hother]; exact ⟨rfl, rfl⟩)
  · exact .inr (by rw [hone, hother]; exact ⟨rfl, rfl⟩)

theorem Along.kind_eq_iff (h : Along name count input input') (wanted : Kind)
    (hwanted : wanted.hasTwin = false) :
    kind input = wanted ↔ kind input' = wanted := by
  have hne : ∀ special : Kind, special.hasTwin = true → special ≠ wanted := by
    rintro special hspecial rfl
    rw [hwanted] at hspecial
    cases hspecial
  refine iff_of_eq (h.congr (fun kind => kind = wanted) ?_ ?_ ?_) <;>
    exact propext ⟨fun h => absurd h (hne _ rfl), fun h => absurd h (hne _ rfl)⟩

theorem Along.contains_eq (h : Along name count input input') (kinds : List Kind)
    (hkinds : ∀ kind ∈ kinds, kind.hasTwin = false) :
    kinds.contains (kind input) = kinds.contains (kind input') := by
  have hnone : ∀ special : Kind, special.hasTwin = true → kinds.contains special = false := by
    intro special hspecial
    rw [← Bool.not_eq_true, List.contains_iff_mem]
    intro hmem
    rw [hkinds special hmem] at hspecial
    cases hspecial
  refine h.congr (fun kind => kinds.contains kind) ?_ ?_ ?_ <;>
    rw [hnone _ rfl, hnone _ rfl]

theorem Along.text_eq (h : Along name count input input') (hident : kind input = .ident) :
    (current input).text = (current input').text := by
  obtain ⟨hagree, -⟩ := h
  cases hagree with
  | here _ _ hin => exact (hin hident).1.trans (hin hident).2.symm
  | there _ htext => exact htext

theorem Along.isWordAt_eq (h : Along name count input input') (word : String) :
    isWordAt input word = isWordAt input' word := by
  have hiff := h.kind_eq_iff .ident rfl
  unfold isWordAt
  by_cases hident : kind input = .ident
  · rw [h.text_eq hident, hident, hiff.1 hident]
  · have hident' : kind input' ≠ .ident := fun h => hident (hiff.2 h)
    simp [hident, hident']

theorem Along.declarationWord_eq (h : Along name count input input') :
    declarationWord input = declarationWord input' := by
  have hiff := h.kind_eq_iff .ident rfl
  unfold declarationWord
  by_cases hident : kind input = .ident
  · rw [h.text_eq hident, if_pos hident, if_pos (hiff.1 hident)]
  · rw [if_neg hident, if_neg fun h => hident (hiff.2 h)]

theorem Along.startsDeclaration_eq (h : Along name count input input') :
    startsDeclaration input = startsDeclaration input' := by
  unfold startsDeclaration
  rw [← h.isWordAt_eq, ← h.declarationWord_eq]
  obtain ⟨hagree, hled, hled', hfresh⟩ := h
  cases hagree with
  | @here first other next rest rest' _ _ hin _ _ =>
      have hword : isWordAt (first :: rest) "targetScope" = false := by
        rw [← Bool.not_eq_true]
        intro h
        simp only [isWordAt, Bool.and_eq_true, decide_eq_true_eq] at h
        have hcontra := (hin h.1).1.symm.trans h.2
        revert hcontra
        decide
      have hnone : declarationWord (first :: rest) = none := by
        unfold declarationWord
        split
        · rename_i hident
          change declarationWords.lookup first.token.text = none
          rw [(hin hident).1]
          rfl
        · rfl
      simp [hword, hnone]
  | @there count lexeme other rest rest' _ _ _ hrest =>
      have htail : Along name count rest rest' := ⟨hrest, hled.tail, hled'.tail, hfresh⟩
      have heq : nextKind (lexeme :: rest) = .eq ↔ nextKind (other :: rest') = .eq :=
        htail.kind_eq_iff .eq rfl
      have hident : nextKind (lexeme :: rest) = .ident ↔ nextKind (other :: rest') = .ident :=
        htail.kind_eq_iff .ident rfl
      simp only [heq, hident]

theorem Passes.append {marks marks' : List Leaf} (h : Passes place marks marks')
    (more more' : List Leaf) : Passes place (marks ++ more) (marks' ++ more') := by
  obtain ⟨leaf, hleaf, hother⟩ := h
  have hlt := (List.getElem?_eq_some_iff.1 hleaf).1
  refine ⟨leaf, by rw [List.getElem?_append_left hlt, hleaf], fun hinvites => ?_⟩
  obtain ⟨other, hmark, hawaits⟩ := hother hinvites
  have hlt' := (List.getElem?_eq_some_iff.1 hmark).1
  exact ⟨other, by rw [List.getElem?_append_left hlt', hmark], hawaits⟩

theorem Passes.prepend {marks marks' : List Leaf} (h : Passes place marks marks')
    {left left' : List Leaf} (hleft : left'.length = left.length) :
    Passes (left.length + place) (left ++ marks) (left' ++ marks') := by
  obtain ⟨leaf, hleaf, hother⟩ := h
  have hshift : ∀ left marks : List Leaf, (left ++ marks)[left.length + place]? = marks[place]? := by
    intro left marks
    rw [List.getElem?_append_right (Nat.le_add_right _ _), Nat.add_sub_cancel_left]
  refine ⟨leaf, by rw [hshift, hleaf], fun hinvites => ?_⟩
  obtain ⟨other, hmark, hawaits⟩ := hother hinvites
  exact ⟨other, by rw [← hleft, hshift, hmark], hawaits⟩

theorem InStep.andThen {first' : Rule}
    (hfirst : InStep name home place (first input) (first' input'))
    (hsecond : ∀ count, Along name count (first input).rest (first' input').rest →
      InStep name home count (second (first input).rest) (second (first' input').rest)) :
    InStep name home place ((first ++ second) input) ((first' ++ second) input') := by
  rw [andThen_apply, andThen_apply]
  rcases hfirst with ⟨count, hplace, hmarks, halong⟩ | hpasses
  · rcases hsecond count halong with ⟨count', hcount, hmarks', halong'⟩ | hpasses
    · refine .inl ⟨count', ?_, ?_, halong'⟩
      · simp only [Tree.marks_append, List.length_append]
        omega
      · simp [hmarks, hmarks']
    · refine .inr ?_
      simp only [Tree.marks_append, hplace]
      exact hpasses.prepend (by rw [hmarks])
  · refine .inr ?_
    simp only [Tree.marks_append]
    exact hpasses.append _ _

theorem Locks.andThen (hfirst : first.Locks name home) (hsecond : second.Locks name home) :
    (first ++ second).Locks name home :=
  fun count input input' halong => (hfirst count input input' halong).andThen
    fun count => hsecond count _ _

/-- A rule that takes nothing. -/
theorem inStep_of_nil (halong : Along name count input input')
    (htrees : Tree.marks home outcome.trees = []) (htrees' : Tree.marks home outcome'.trees = [])
    (hrest : outcome.rest = input) (hrest' : outcome'.rest = input') :
    InStep name home count outcome outcome' :=
  .inl ⟨count, by simp [htrees], by rw [htrees, htrees'], by rw [hrest, hrest']; exact halong⟩

theorem locks_done : done.Locks name home :=
  fun _ _ _ halong => inStep_of_nil halong rfl rfl rfl rfl

theorem locks_report (cause : SyntaxError.Cause) : (report cause).Locks name home :=
  fun _ _ _ halong => inStep_of_nil halong rfl rfl rfl rfl

theorem Along.settle (h : Along name count input input') :
    Along name count (settle input).rest (Rule.settle input').rest := by
  refine ⟨?_, (spells_settle input).led h.led, (spells_settle input').led h.led', h.fresh⟩
  cases h.agree with
  | here htwins heof hin hident htext => exact .here htwins heof hin hident htext
  | there hkind htext heof hrest => exact .there hkind htext heof hrest

theorem marks_settle (h : Led input) : Tree.marks home (settle input).trees = [] := by
  cases input with
  | nil => rfl
  | cons lexeme rest => exact Tree.marks_lead home (h lexeme List.mem_cons_self).1

theorem locks_settle : settle.Locks name home := fun count _ _ halong =>
  .inl ⟨count, by rw [marks_settle halong.led]; simp,
    by rw [marks_settle halong.led, marks_settle halong.led'], halong.settle⟩

theorem marks_takeAs (home : Kind) {lexeme : Lexeme} {rest : List Lexeme} {tag : Kind}
    (hled : Led (lexeme :: rest)) (htag : tag.isTrivia = false) (heof : lexeme.kind ≠ .eof) :
    Tree.marks home (takeAs tag (lexeme :: rest)).trees = [⟨home, tag, lexeme.token.text⟩] ∧
      (takeAs tag (lexeme :: rest)).rest = rest := by
  rw [takeAs, if_neg heof]
  refine ⟨?_, rfl⟩
  rw [Tree.marks_append, Tree.marks_lead home (hled lexeme List.mem_cons_self).1,
    Tree.marks_leaf home _ htag]
  rfl

theorem Along.tail {lexeme other : Lexeme} {rest rest' : List Lexeme}
    (h : Along name (count + 1) (lexeme :: rest) (other :: rest')) : Along name count rest rest' := by
  obtain ⟨hagree, hled, hled', hfresh⟩ := h
  cases hagree with
  | there hkind htext heof hrest => exact ⟨hrest, hled.tail, hled'.tail, hfresh⟩

/-- A token in front of the place where the inputs part ways is taken alike. -/
theorem inStep_takeAs_there {tag : Kind} (halong : Along name (count + 1) input input')
    (htag : tag.isTrivia = false) :
    InStep name home (count + 1) (takeAs tag input) (takeAs tag input') := by
  obtain ⟨hagree, hled, hled', hfresh⟩ := halong
  cases hagree with
  | @there _ lexeme other rest rest' hkind htext heof hrest =>
      have heof' : other.kind ≠ .eof := hkind ▸ heof
      obtain ⟨hmarks, hafter⟩ := marks_takeAs home hled htag heof
      obtain ⟨hmarks', hafter'⟩ := marks_takeAs home hled' htag heof'
      refine .inl ⟨count, ?_, ?_, ?_⟩
      · rw [hmarks, List.length_singleton, Nat.add_comm]
      · rw [hmarks, hmarks', htext]
      · rw [hafter, hafter']
        exact ⟨hrest, hled.tail, hled'.tail, hfresh⟩

theorem inStep_takeAs_here {tag tag' : Kind} (halong : Along name 0 input input')
    (htag : tag.isTrivia = false) (htag' : tag'.isTrivia = false)
    (hinvites : Leaf.invites ⟨home, tag, ""⟩ = true → tag'.awaits home = true) :
    InStep name home 0 (takeAs tag input) (takeAs tag' input') := by
  obtain ⟨hagree, hled, hled', hfresh⟩ := halong
  cases hagree with
  | @here first other next rest rest' htwins heof hin hident htext =>
      have heof' := htwins.ne_eof heof
      obtain ⟨hmarks, -⟩ := marks_takeAs home hled htag heof
      obtain ⟨hmarks', -⟩ := marks_takeAs home hled' htag' heof'
      refine .inr ⟨⟨home, tag, first.token.text⟩, by rw [hmarks]; rfl, fun hleaf => ?_⟩
      exact ⟨⟨home, tag', other.token.text⟩, by rw [hmarks']; rfl, hinvites hleaf⟩

/-- A token is tagged alike where the tag does not invite a loop. -/
theorem locks_takeAs {tag : Kind} (htag : tag.isTrivia = false)
    (hinvites : Leaf.invites ⟨home, tag, ""⟩ = true → tag.awaits home = true) :
    (takeAs tag).Locks name home := by
  intro count input input' halong
  cases count with
  | zero => exact inStep_takeAs_here halong htag htag hinvites
  | succ count => exact inStep_takeAs_there halong htag

theorem isTrivia_kind (hled : Led input) : (kind input).isTrivia = false := by
  cases input with
  | nil => rfl
  | cons lexeme rest => exact (hled lexeme List.mem_cons_self).2

theorem inStep_take_there (halong : Along name (count + 1) input input') :
    InStep name home (count + 1) (take input) (take input') := by
  have hkind : kind input = kind input' := by
    obtain ⟨hagree, -⟩ := halong
    cases hagree with
    | there hkind => exact hkind
  unfold take
  rw [← hkind]
  exact inStep_takeAs_there halong (isTrivia_kind halong.led)

theorem locks_take (hbinary : home ≠ .binaryExpr) (hfor : home ≠ .forExpr) :
    take.Locks name home := by
  intro count input input' halong
  cases count with
  | succ count => exact inStep_take_there halong
  | zero =>
      refine inStep_takeAs_here halong (isTrivia_kind halong.led) (isTrivia_kind halong.led') ?_
      intro hinvites
      obtain ⟨hagree, -⟩ := halong
      cases hagree with
      | here htwins =>
          simp only [Leaf.invites, Bool.or_eq_true, Bool.and_eq_true, decide_eq_true_eq] at hinvites
          exact htwins.awaits hbinary (hinvites.resolve_right fun h => hfor h.2)

theorem locks_ifAt {wanted : Kind} {yes no : Rule}
    (hwanted : wanted.hasTwin = false)
    (hyes : yes.Locks name home) (hno : no.Locks name home) :
    (ifAt wanted yes no).Locks name home := by
  intro count input input' halong
  have hiff := halong.kind_eq_iff wanted hwanted
  unfold ifAt
  by_cases hkind : kind input = wanted
  · rw [if_pos hkind, if_pos (hiff.1 hkind)]
    exact hyes count input input' halong
  · rw [if_neg hkind, if_neg (fun h => hkind (hiff.2 h))]
    exact hno count input input' halong

theorem Locks.unlessAt (h : rule.Locks name home) (kinds : List Kind)
    (hkinds : ∀ kind ∈ kinds, kind.hasTwin = false) :
    (unlessAt kinds rule).Locks name home := by
  intro count input input' halong
  unfold Rule.unlessAt
  rw [halong.contains_eq kinds hkinds]
  split
  · exact locks_done count input input' halong
  · exact h count input input' halong

theorem InStep.wrap {kind : Kind} {left left' : List Tree}
    (h : InStep name kind place (body input) (body input'))
    (hleft : Tree.marks kind left' = Tree.marks kind left) :
    InStep name home ((Tree.marks kind left).length + place) (wrap kind left body input)
      (wrap kind left' body input') := by
  have hmarks : ∀ left input, Tree.marks home (Rule.wrap kind left body input).trees =
      Tree.marks kind left ++ Tree.marks kind (body input).trees := by
    intro left input
    change Tree.marks home [.node kind (left ++ (body input).trees)] = _
    rw [Tree.marks_node, Tree.marks_append]
  unfold InStep
  rw [hmarks, hmarks, hleft]
  rcases h with ⟨count, hplace, hbody, halong⟩ | hpasses
  · exact .inl ⟨count, by rw [List.length_append]; omega, by rw [hbody], halong⟩
  · exact .inr (hpasses.prepend rfl)

theorem InStep.node {kind : Kind} (halong : Along name count input input')
    (h : InStep name kind count (body (settle input).rest) (body (settle input').rest)) :
    InStep name home count (node kind body input) (node kind body input') := by
  have hmarks : ∀ input, Led input → Tree.marks home (Rule.node kind body input).trees =
      Tree.marks home (Rule.wrap kind [] body (settle input).rest).trees := by
    intro input hled
    change Tree.marks home ((settle input).trees ++ _) = _
    rw [Tree.marks_append, marks_settle hled, List.nil_append]
  have hwrap : InStep name home ((Tree.marks kind []).length + count)
      (Rule.wrap kind [] body (settle input).rest) (Rule.wrap kind [] body (settle input').rest) :=
    h.wrap rfl
  rw [Tree.marks_nil, List.length_nil, Nat.zero_add] at hwrap
  unfold InStep
  rw [hmarks input halong.led, hmarks input' halong.led']
  exact hwrap

theorem Locks.node {kind : Kind} (h : body.Locks name kind) : (node kind body).Locks name home :=
  fun count _ _ halong => InStep.node halong (h count _ _ halong.settle)

theorem locks_missing : (node .missing done).Locks name home := locks_done.node

/-- Placeholders are no marks, so it does not matter what they stand for. -/
theorem inStep_absent (halong : Along name count input input') (expected expected' : Expected) :
    InStep name home count (absent expected input) (absent expected' input') :=
  locks_missing count input input' halong

theorem locks_absent (expected : Expected) : (absent expected).Locks name home :=
  fun _ _ _ halong => inStep_absent halong expected expected

theorem locks_takeAt {wanted : Kind} {no : Rule} (hwanted : wanted.hasTwin = false)
    (htrivia : wanted.isTrivia = false)
    (hinvites : Leaf.invites ⟨home, wanted, ""⟩ = true → wanted.awaits home = true)
    (hno : no.Locks name home) : (ifAt wanted take no).Locks name home := by
  intro count input input' halong
  have hiff := halong.kind_eq_iff wanted hwanted
  unfold ifAt
  by_cases hkind : kind input = wanted
  · rw [if_pos hkind, if_pos (hiff.1 hkind)]
    unfold take
    rw [hkind, hiff.1 hkind]
    exact locks_takeAs htrivia hinvites _ _ _ halong
  · rw [if_neg hkind, if_neg fun h => hkind (hiff.2 h)]
    exact hno _ _ _ halong

theorem locks_expect {wanted : Kind} (hwanted : wanted.hasTwin = false)
    (htrivia : wanted.isTrivia = false)
    (hinvites : Leaf.invites ⟨home, wanted, ""⟩ = true → wanted.awaits home = true) :
    (expect wanted).Locks name home :=
  locks_takeAt hwanted htrivia hinvites (locks_absent _)

/-- A token in front of the place where the inputs part ways, taken whole. -/
theorem InStep.cons {lexeme other : Lexeme} {rest rest' : List Lexeme}
    (halong : Along name (count + 1) (lexeme :: rest) (other :: rest'))
    (h : InStep name home count outcome outcome') :
    InStep name home (count + 1)
      { outcome with trees := lexeme.tokens.map Tree.ofToken ++ outcome.trees }
      { outcome' with trees := other.tokens.map Tree.ofToken ++ outcome'.trees } := by
  obtain ⟨hagree, hled, hled', hfresh⟩ := halong
  have hfirst := hled lexeme List.mem_cons_self
  have hfirst' := hled' other List.mem_cons_self
  have hmarks := Tree.marks_tokens home hfirst.1 hfirst.2
  have hmarks' := Tree.marks_tokens home hfirst'.1 hfirst'.2
  cases hagree with
  | there hkind htext heof hrest =>
      unfold InStep
      dsimp only
      rw [Tree.marks_append, Tree.marks_append, hmarks, hmarks', hkind, htext]
      rcases h with ⟨left, hplace, hsame, hnext⟩ | hpasses
      · exact .inl ⟨left, by simp; omega, by rw [hsame], hnext⟩
      · refine .inr ?_
        rw [Nat.add_comm]
        exact hpasses.prepend (List.length_singleton.trans List.length_singleton.symm)

/-- The token of the first input is taken whole, in a node where it invites nothing. -/
theorem inStep_cons_here {lexeme : Lexeme} {rest : List Lexeme}
    (halong : Along name 0 (lexeme :: rest) input')
    (hquiet : Leaf.invites ⟨home, lexeme.kind, ""⟩ = false) (outcome' : Outcome) :
    InStep name home 0 { outcome with trees := lexeme.tokens.map Tree.ofToken ++ outcome.trees }
      outcome' := by
  have hfirst := halong.led lexeme List.mem_cons_self
  refine .inr ⟨⟨home, lexeme.kind, lexeme.token.text⟩, ?_, fun hinvites => ?_⟩
  · dsimp only
    rw [Tree.marks_append, Tree.marks_tokens home hfirst.1 hfirst.2]
    rfl
  · rw [show Leaf.invites ⟨home, lexeme.kind, lexeme.token.text⟩ = false from hquiet] at hinvites
    cases hinvites

theorem takeNewlines_cons {lexeme : Lexeme} {rest : List Lexeme} (h : lexeme.kind = .newline) :
    takeNewlines (lexeme :: rest) = { takeNewlines rest with
      trees := lexeme.tokens.map Tree.ofToken ++ (takeNewlines rest).trees } := by
  rw [takeNewlines, if_pos h]

/-- What is taken one after the other is the same up to where the inputs part ways, if twins are
taken alike and what is taken invites nothing. -/
theorem locks_sweep {σ : Type} {next : σ → Kind → Option σ}
    (htwins : ∀ state kind other, kind.Twins other → next state kind = next state other)
    (hquiet : ∀ state kind, next state kind ≠ none → Leaf.invites ⟨home, kind, ""⟩ = false)
    (state : σ) : (sweep next state).Locks name home := by
  intro count input input' halong
  have hagree := halong.agree
  induction hagree generalizing state with
  | @here first other _ _ _ htwin _ _ _ _ =>
      cases hnext : next state first.kind with
      | none =>
          rw [sweep_of_none hnext, sweep_of_none (htwins state _ _ htwin ▸ hnext)]
          exact locks_done _ _ _ halong
      | some after =>
          rw [sweep_of_some hnext]
          exact inStep_cons_here halong (hquiet state _ (by simp [hnext])) _
  | @there _ lexeme other _ _ hkind _ _ _ ih =>
      cases hnext : next state lexeme.kind with
      | none =>
          rw [sweep_of_none hnext, sweep_of_none (hkind ▸ hnext)]
          exact locks_done _ _ _ halong
      | some after =>
          rw [sweep_of_some hnext, sweep_of_some (hkind ▸ hnext)]
          exact InStep.cons halong (ih after halong.tail)

theorem locks_takeNewlines (hquiet : Leaf.invites ⟨home, .newline, ""⟩ = false) :
    takeNewlines.Locks name home := by
  rw [takeNewlines_eq_sweep]
  refine locks_sweep (fun _ kind other htwin => htwin.congr (overNewlines ()) rfl rfl rfl)
    (fun _ kind hnext => ?_) ()
  obtain rfl := Decidable.not_not.1 (mt overNewlines_eq_none_iff.2 hnext)
  exact hquiet

/-- Where something is wanted behind newlines that the name takes the place of, the newlines are
taken in the first input. -/
theorem Along.kindAfterNewlines (halong : Along name count input input') (home : Kind) {wanted : Kind}
    (hwanted : wanted.hasTwin = false) (hident : wanted ≠ .ident) :
    (kindAfterNewlines input' = wanted → kindAfterNewlines input = wanted) ∧
      (kindAfterNewlines input = wanted → kindAfterNewlines input' = wanted ∨
        ∃ leaf, (Tree.marks home (takeNewlines input).trees)[count]? = some leaf ∧
          leaf.home = home ∧ leaf.kind = .newline) := by
  induction count generalizing input input' with
  | zero =>
      have hlines := halong.kind_eq_iff .newline rfl
      have hiff := halong.kind_eq_iff wanted hwanted
      obtain ⟨hagree, hled, -⟩ := halong
      cases hagree with
      | @here first other next rest rest' _ _ _ hnext _ =>
          rw [kind_cons, kind_cons] at hlines hiff
          by_cases hline : first.kind = .newline
          · have hline' := hlines.1 hline
            have hafter : Rule.kindAfterNewlines (other :: next :: rest') = .ident := by
              simp [Rule.kindAfterNewlines, hline', hnext]
            refine ⟨fun h => absurd (hafter.symm.trans h).symm hident, fun _ => .inr ?_⟩
            have hfirst := hled first List.mem_cons_self
            refine ⟨⟨home, first.kind, first.token.text⟩, ?_, rfl, hline⟩
            rw [takeNewlines_cons hline]
            dsimp only
            rw [Tree.marks_append, Tree.marks_tokens home hfirst.1 hfirst.2]
            rfl
          · have hline' : other.kind ≠ .newline := fun h => hline (hlines.2 h)
            simp only [Rule.kindAfterNewlines, hline, hline', if_false]
            exact ⟨hiff.2, fun h => .inl (hiff.1 h)⟩
  | succ count ih =>
      obtain ⟨hagree, hled, hled', hfresh⟩ := id halong
      cases hagree with
      | @there _ lexeme other rest rest' hkind _ _ hrest =>
          by_cases hline : lexeme.kind = .newline
          · have hline' : other.kind = .newline := hkind ▸ hline
            simp only [Rule.kindAfterNewlines, hline, hline', if_true]
            obtain ⟨hback, hforth⟩ := ih halong.tail
            refine ⟨hback, fun h => (hforth h).imp id ?_⟩
            rintro ⟨leaf, hleaf, hhome⟩
            refine ⟨leaf, ?_, hhome⟩
            have hfirst := hled lexeme List.mem_cons_self
            rw [takeNewlines_cons hline]
            dsimp only
            rw [Tree.marks_append, Tree.marks_tokens home hfirst.1 hfirst.2]
            exact hleaf
          · have hline' : other.kind ≠ .newline := hkind ▸ hline
            simp only [Rule.kindAfterNewlines, hline', if_false, hkind]
            exact ⟨id, .inl⟩

theorem locks_takeNewlinesBefore {wanted : Kind} (hwanted : wanted.hasTwin = false)
    (hident : wanted ≠ .ident) (hquiet : Leaf.invites ⟨home, .newline, ""⟩ = false) :
    (takeNewlinesBefore wanted).Locks name home := by
  intro count input input' halong
  obtain ⟨hback, hforth⟩ := halong.kindAfterNewlines home hwanted hident
  unfold takeNewlinesBefore
  by_cases hkind : kindAfterNewlines input = wanted
  · rw [if_pos hkind]
    rcases hforth hkind with hkind' | ⟨leaf, hleaf, hhome, hline⟩
    · rw [if_pos hkind']
      exact locks_takeNewlines hquiet count input input' halong
    · refine .inr ⟨leaf, hleaf, fun hinvites => ?_⟩
      rw [show leaf.invites = Leaf.invites ⟨home, .newline, ""⟩ by
        simp [Leaf.invites, hhome, hline], hquiet] at hinvites
      cases hinvites
  · rw [if_neg hkind, if_neg fun h => hkind (hback h)]
    exact locks_done count input input' halong

theorem invites_error (tag : Kind) (text : String) : Leaf.invites ⟨.error, tag, text⟩ = false := by
  cases tag <;> rfl

theorem locks_takeUntil {stop : List Kind} (hstop : ∀ kind ∈ stop, kind.hasTwin = false) :
    (takeUntil stop).Locks name .error := by
  have htaken : ∀ special : Kind, special.hasTwin = true → upTo stop () special = some () := by
    refine fun special hspecial => if_neg fun hmem => ?_
    rcases List.mem_cons.1 hmem with rfl | hmem
    · cases hspecial
    · rw [hstop special hmem] at hspecial
      cases hspecial
  rw [takeUntil_eq_sweep]
  refine locks_sweep (fun _ kind other htwin => ?_) (fun _ _ _ => invites_error _ _) ()
  refine htwin.congr (upTo stop ()) ?_ ?_ ?_ <;> rw [htaken _ rfl, htaken _ rfl]

theorem locks_takeStray (depth : Nat) : (takeStray depth).Locks name .error := by
  rw [takeStray_eq_sweep]
  exact locks_sweep (fun depth _ _ htwin => htwin.congr (overHoles depth) rfl rfl rfl)
    (fun _ _ _ => invites_error _ _) depth

theorem locks_skipTo {stop : List Kind} (cause : SyntaxError.Cause)
    (hstop : ∀ kind ∈ stop, kind.hasTwin = false) : (skipTo stop cause).Locks name home := by
  refine (locks_report cause).andThen ((locks_takeUntil hstop).node.unlessAt _ ?_)
  intro kind hmem
  rcases List.mem_cons.1 hmem with rfl | hmem
  · rfl
  · exact hstop kind hmem

theorem locks_tooDeep : tooDeep.Locks name home :=
  (locks_skipTo _ (by simp [Kind.hasTwin])).andThen locks_missing

/-- The rounds of a loop on inputs that part ways: both go on alike or both end alike. -/
inductive Abreast (name : String) (home : Kind) (place : Nat) (input input' : List Lexeme) :
    Step → Step → Prop where
  | again {rule : Rule} : InStep name home place (rule input) (rule input') →
      Abreast name home place input input' (.again rule) (.again rule)
  | last {rule : Rule} : InStep name home place (rule input) (rule input') →
      Abreast name home place input input' (.last rule) (.last rule)

theorem locks_loop {choose : List Lexeme → Step} (hprogress : Progresses choose)
    (h : ∀ count input input', Along name count input input' →
      Abreast name home count input input' (choose input) (choose input')) :
    (loop choose).Locks name home := by
  have hloop : ∀ input count input', Along name count input input' →
      InStep name home count (loop choose input) (loop choose input') := by
    intro input
    induction input using loop_induction hprogress with
    | last input rule hchoose =>
        intro count input' halong
        have hstep := h count input input' halong
        rw [loop_eq hprogress, loop_eq hprogress]
        rw [hchoose] at hstep ⊢
        generalize choose input' = step at hstep ⊢
        cases hstep with
        | last hstep => exact hstep
    | again input rule hchoose ih =>
        intro count input' halong
        have hstep := h count input input' halong
        rw [loop_eq hprogress, loop_eq hprogress]
        rw [hchoose] at hstep ⊢
        generalize choose input' = step at hstep ⊢
        cases hstep with
        | again hstep => exact hstep.andThen fun count => ih count _
  exact fun count input input' => hloop input count input'

section Expr

variable {expr : Rule} (hexpr : ∀ home, expr.Locks name home)

include hexpr

theorem locks_interpolation : (interpolation expr).Locks name home :=
  Locks.node ((((((locks_take (by decide) (by decide)).andThen (locks_takeNewlines rfl)).andThen
    (hexpr _)).andThen (locks_takeNewlines rfl)).andThen
    (((locks_report _).andThen (locks_takeStray 0).node).unlessAt _ (by decide))).andThen
    (locks_expect rfl rfl (by decide)))

theorem locks_string (hspells : ∀ input, (expr input).Spells [] input) :
    (string expr).Locks name home := by
  refine Locks.node ((locks_take (by decide) (by decide)).andThen
    (locks_loop (progresses_stringStep hspells) fun count input input' halong => ?_))
  have htake : take.Locks name .string := locks_take (by decide) (by decide)
  have hstep : ∀ wanted : Kind, wanted.hasTwin = false → (kind input = wanted ↔ kind input' = wanted) :=
    halong.kind_eq_iff
  unfold stringStep
  split
  · rename_i hkind
    rw [(hstep _ rfl).1 hkind]
    exact .again (htake _ _ _ halong)
  · rename_i hkind
    rw [(hstep _ rfl).1 hkind]
    exact .again (locks_interpolation hexpr _ _ _ halong)
  · rename_i hkind
    rw [(hstep _ rfl).1 hkind]
    exact .last (htake _ _ _ halong)
  · rename_i htext hstart hend
    split
    · exact absurd ((hstep _ rfl).2 ‹_›) htext
    · exact absurd ((hstep _ rfl).2 ‹_›) hstart
    · exact absurd ((hstep _ rfl).2 ‹_›) hend
    · exact .last (locks_report _ _ _ _ halong)

theorem locks_property (hspells : ∀ input, (expr input).Spells [] input) :
    (property expr).Locks name home := by
  have hkey : (propertyKey expr).Locks name .objectProperty :=
    (locks_ifAt rfl (locks_string hexpr hspells) (locks_takeAs rfl (by decide))).node
  have hvalue : (propertyValue expr).Locks name .objectProperty :=
    locks_ifAt rfl ((locks_take (by decide) (by decide)).andThen (hexpr _))
      ((locks_absent _).andThen ((hexpr _).unlessAt _ (by decide)))
  exact ((hkey.andThen hvalue).andThen ((locks_skipTo _ (by decide)).unlessAt _ (by decide))).node

omit hexpr in
theorem locks_list {node close : Kind} {startsItem : Kind → Bool} {item : Rule}
    {cause : SyntaxError.Cause}
    (hprogress : Progresses (listStep close startsItem item cause))
    (hitem : item.Locks name node)
    (hstarts : ∀ kind, kind.hasTwin = true → startsItem kind = false)
    (hclose : close.hasTwin = false) (hbinary : node ≠ .binaryExpr) (hfor : node ≠ .forExpr) :
    (list node close startsItem item cause).Locks name home := by
  have htake : take.Locks name node := locks_take hbinary hfor
  refine Locks.node (htake.andThen (locks_loop hprogress fun count input input' halong => ?_))
  unfold listStep
  dsimp only
  rw [halong.startsDeclaration_eq, halong.contains_eq closers (by decide)]
  have hline := halong.kind_eq_iff .newline rfl
  have hcomma := halong.kind_eq_iff .comma rfl
  have hend := halong.kind_eq_iff close hclose
  have hitems : startsItem (kind input) = startsItem (kind input') := by
    refine halong.congr startsItem ?_ ?_ ?_ <;> rw [hstarts _ rfl, hstarts _ rfl]
  rw [hitems]
  simp only [hline, hcomma, hend]
  split
  · exact .again (htake _ _ _ halong)
  · split
    · exact .last (htake _ _ _ halong)
    · split
      · exact .last (locks_absent _ _ _ _ halong)
      · split
        · exact .again (hitem _ _ _ halong)
        · refine .again (locks_skipTo _ (fun kind hmem => ?_) _ _ _ halong)
          simp only [List.mem_cons, List.not_mem_nil, or_false] at hmem
          rcases hmem with rfl | rfl | rfl
          · rfl
          · rfl
          · exact hclose

theorem locks_object (hspells : ∀ input, (expr input).Spells [] input) :
    (object expr).Locks name home :=
  locks_list (progresses_property hspells) (locks_property hexpr hspells)
    (fun kind => by cases kind <;> decide) rfl (by decide) (by decide)

theorem locks_array
    (hless : ∀ input, startsExpr (kind input) = true → (expr input).rest.length < input.length) :
    (array expr).Locks name home :=
  locks_list (progresses_arrayItem hless) (hexpr _).node (fun kind => by cases kind <;> decide) rfl
    (by decide) (by decide)

theorem locks_arguments
    (hless : ∀ input, startsExpr (kind input) = true → (expr input).rest.length < input.length) :
    (arguments expr).Locks name home :=
  locks_list (progresses_arguments hless) (hexpr _) (fun kind => by cases kind <;> decide) rfl
    (by decide) (by decide)

omit hexpr in
theorem locks_loopVariable : loopVariable.Locks name home := by
  intro count input input' halong
  have hiff := halong.kind_eq_iff .ident rfl
  have htake : take.Locks name .name := locks_take (by decide) (by decide)
  unfold loopVariable
  simp only [hiff, halong.isWordAt_eq]
  split
  · exact htake.node _ _ _ halong
  · exact locks_absent _ _ _ _ halong

omit hexpr in
theorem locks_inKeyword : inKeyword.Locks name .forExpr := by
  intro count input input' halong
  unfold inKeyword
  rw [halong.isWordAt_eq]
  split
  · exact locks_takeAs rfl (by decide) _ _ _ halong
  · exact locks_absent _ _ _ _ halong

omit hexpr in
/-- What follows the bracket of a loop. -/
def afterBracket (expr : Rule) : Rule :=
  takeAs .forKw ++ (loopVariable ++ (inKeyword ++ (expr ++ (expect .colon ++ (takeNewlines ++
    (expr ++ (unlessAt (.newline :: closers) (skipTo [.newline, .rBrack] .afterLoop) ++
    (takeNewlinesBefore .rBrack ++ expect .rBrack))))))))

omit hexpr in
theorem forExpr_eq (expr : Rule) : forExpr expr = node .forExpr (take ++ afterBracket expr) := by
  simp only [forExpr, afterBracket, andThen_assoc]

theorem locks_afterBracket : (afterBracket expr).Locks name .forExpr := by
  have hend : (unlessAt (.newline :: closers) (skipTo [.newline, .rBrack] .afterLoop) ++
      (takeNewlinesBefore .rBrack ++ expect .rBrack)).Locks name .forExpr :=
    ((locks_skipTo _ (by decide)).unlessAt _ (by decide)).andThen
      ((locks_takeNewlinesBefore rfl (by decide) rfl).andThen (locks_expect rfl rfl (by decide)))
  have hbody : (expect .colon ++ (takeNewlines ++ (expr ++ (unlessAt (.newline :: closers)
      (skipTo [.newline, .rBrack] .afterLoop) ++
      (takeNewlinesBefore .rBrack ++ expect .rBrack))))).Locks name .forExpr :=
    (locks_expect rfl rfl (by decide)).andThen
      ((locks_takeNewlines rfl).andThen ((hexpr _).andThen hend))
  exact (locks_takeAs rfl (by decide)).andThen (locks_loopVariable.andThen
    (locks_inKeyword.andThen ((hexpr _).andThen hbody)))

/-- A loop is read alike behind its bracket. -/
theorem inStep_forExpr (halong : Along name (count + 1) input input') :
    InStep name home (count + 1) (forExpr expr input) (forExpr expr input') := by
  rw [forExpr_eq]
  exact InStep.node halong ((inStep_take_there halong.settle).andThen
    fun left => locks_afterBracket hexpr left _ _)

theorem locks_paren : (paren expr).Locks name home :=
  Locks.node (((((locks_take (by decide) (by decide)).andThen (locks_takeNewlines rfl)).andThen
    (hexpr _)).andThen (locks_takeNewlinesBefore rfl (by decide) rfl)).andThen
    (locks_expect rfl rfl (by decide)))

omit hexpr in
theorem marks_take_andThen {kind : Kind} (hled : Led input) (heof : Rule.kind input ≠ .eof)
    (rule : Rule) : ∃ more, Tree.marks kind ((take ++ rule) input).trees =
      ⟨kind, Rule.kind input, (current input).text⟩ :: more := by
  cases input with
  | nil => exact absurd rfl heof
  | cons lexeme rest =>
      obtain ⟨htake, -⟩ := marks_takeAs kind hled (isTrivia_kind hled) heof
      refine ⟨Tree.marks kind (rule (take (lexeme :: rest)).rest).trees, ?_⟩
      rw [andThen_apply, Tree.marks_append]
      exact congrArg (· ++ _) htake

omit hexpr in
theorem marks_node_take {kind : Kind} (hled : Led input) (heof : Rule.kind input ≠ .eof)
    (rule : Rule) : ∃ more, Tree.marks home (node kind (take ++ rule) input).trees =
      ⟨kind, Rule.kind input, (current input).text⟩ :: more := by
  obtain ⟨more, hmore⟩ := marks_take_andThen ((spells_settle input).led hled)
    (by rwa [kind_settle]) rule
  refine ⟨more, ?_⟩
  change Tree.marks home ((settle input).trees ++
    [.node kind ([] ++ ((take ++ rule) (settle input).rest).trees)]) = _
  rw [Tree.marks_append, marks_settle hled, Tree.marks_node, List.nil_append, List.nil_append,
    hmore, kind_settle, current_settle]

/-- Behind a bracket, a loop is read as long as its keyword is in front of where the inputs part
ways; with the name in place of the keyword there is an array, which an expression can start. -/
theorem inStep_bracket
    (hless : ∀ input, startsExpr (kind input) = true → (expr input).rest.length < input.length)
    (halong : Along name count input input') (hkind : kind input = .lBrack) :
    InStep name home count
      (if isWordAt input.tail "for" then forExpr expr input else array expr input)
      (if isWordAt input'.tail "for" then forExpr expr input' else array expr input') := by
  cases count with
  | succ count =>
      have htail : isWordAt input.tail "for" = isWordAt input'.tail "for" := by
        obtain ⟨hagree, hled, hled', hfresh⟩ := id halong
        cases hagree with
        | there _ _ _ hrest => exact halong.tail.isWordAt_eq "for"
      rw [htail]
      split
      · exact inStep_forExpr hexpr halong
      · exact locks_array hexpr hless _ _ _ halong
  | zero =>
      have hname : isWordAt input'.tail "for" = false := by
        obtain ⟨hagree, -, -, hfresh⟩ := halong
        cases hagree with
        | @here _ _ next _ _ _ _ _ hident htext =>
            rw [← Bool.not_eq_true]
            intro hword
            simp only [isWordAt, Bool.and_eq_true, decide_eq_true_eq] at hword
            have hfor : next.token.text = "for" := hword.2
            rw [htext] at hfor
            exact hfresh (by simp [hfor, contextualWords])
      rw [hname]
      split
      · obtain ⟨more, hmore⟩ : ∃ more, Tree.marks home (forExpr expr input).trees =
            ⟨.forExpr, kind input, (current input).text⟩ :: more := by
          rw [forExpr_eq]
          exact marks_node_take halong.led (by rw [hkind]; decide) _
        obtain ⟨more', hmore'⟩ : ∃ more, Tree.marks home (array expr input').trees =
            ⟨.array, kind input', (current input').text⟩ :: more :=
          marks_node_take halong.led' (by rw [(halong.kind_eq_iff .lBrack rfl).1 hkind]; decide) _
        refine .inr ⟨_, by rw [hmore]; rfl, fun _ => ⟨_, by
          simp only [Bool.false_eq_true, if_false]
          rw [hmore']
          rfl, ?_⟩⟩
        rw [(halong.kind_eq_iff .lBrack rfl).1 hkind]
        rfl
      · exact locks_array hexpr hless _ _ _ halong

theorem locks_primary (hspells : ∀ input, (expr input).Spells [] input)
    (hless : ∀ input, startsExpr (kind input) = true → (expr input).rest.length < input.length) :
    (primary expr).Locks name home := by
  intro count input input' halong
  rcases halong.kind_cases with hsame | ⟨htwin, htwin'⟩
  · by_cases hbracket : kind input = .lBrack
    · rw [primary_of_lBrack hbracket, primary_of_lBrack (hsame ▸ hbracket)]
      exact inStep_bracket hexpr hless halong hbracket
    · obtain ⟨rule, hrule, heq⟩ := exists_primary expr input
      rw [heq, hrule.eq_of_kind_eq hsame.symm fun h => absurd h hbracket]
      cases hrule with
      | literal => exact (locks_take (by decide) (by decide)).node _ _ _ halong
      | string => exact locks_string hexpr hspells _ _ _ halong
      | object => exact locks_object hexpr hspells _ _ _ halong
      | loop hkind | array hkind => exact absurd hkind hbracket
      | paren => exact locks_paren hexpr _ _ _ halong
      | word => exact (locks_takeAs rfl (by decide)).node _ _ _ halong
      | absent => exact locks_absent _ _ _ _ halong
  · have hstarts : ∀ kind : Kind, kind.hasTwin = true → startsExpr kind = false := by
      intro kind
      cases kind <;> decide
    rw [primary_of_not_startsExpr (hstarts _ htwin), primary_of_not_startsExpr (hstarts _ htwin')]
    exact locks_absent _ _ _ _ halong

end Expr

/-! Rules that go on from trees -/

/-- The marks that such a rule goes on from stay in front of what it adds. -/
def Keeps (home : Kind) (next : List Tree → Rule) : Prop :=
  ∀ left input, (∀ tree ∈ left, tree.IsCovered) → Led input →
    ∃ more, Tree.marks home (next left input).trees = Tree.marks home left ++ more

def LocksFrom (name : String) (home : Kind) (next : List Tree → Rule) : Prop :=
  ∀ count left left' input input', (∀ tree ∈ left, tree.IsCovered) →
    (∀ tree ∈ left', tree.IsCovered) → Tree.marks home left' = Tree.marks home left →
    Along name count input input' →
    InStep name home ((Tree.marks home left).length + count) (next left input) (next left' input')

/-- The first of two outcomes has read on where the inputs part ways, as a chain of operators, and
the second one has stopped in front of a question mark there. -/
def Stalls (home : Kind) (place : Nat) (outcome outcome' : Outcome) : Prop :=
  place < (Tree.marks home outcome.trees).length ∧
    Tree.marks home outcome'.trees = (Tree.marks home outcome.trees).take place ∧
    kind outcome'.rest = .question ∧ Led outcome'.rest

/-- What may be said of a chain of operators: where it is `late`, it stops for no operator that binds
as loosely as can be, but for the question mark that is left of one. -/
def Lags (late : Prop) (name : String) (home : Kind) (place : Nat) (outcome outcome' : Outcome) :
    Prop :=
  (∃ count, place = (Tree.marks home outcome.trees).length + count ∧
    Tree.marks home outcome'.trees = Tree.marks home outcome.trees ∧
    Along name count outcome.rest outcome'.rest ∧
    (late → kind outcome.rest ≠ .questionQuestion)) ∨
  Passes place (Tree.marks home outcome.trees) (Tree.marks home outcome'.trees) ∨
  late ∧ Stalls home place outcome outcome'

def LagsFrom (late : Prop) (name : String) (home : Kind) (next : List Tree → Rule) : Prop :=
  ∀ count left left' input input', (∀ tree ∈ left, tree.IsCovered) →
    (∀ tree ∈ left', tree.IsCovered) → Tree.marks home left' = Tree.marks home left →
    Along name count input input' →
    Lags late name home ((Tree.marks home left).length + count) (next left input)
      (next left' input')

variable {late : Prop} {next : List Tree → Rule}

theorem Lags.inStep (h : Lags late name home place outcome outcome') (hlate : ¬late) :
    InStep name home place outcome outcome' := by
  rcases h with ⟨count, hplace, hmarks, halong, -⟩ | hpasses | ⟨hstalls, -⟩
  · exact .inl ⟨count, hplace, hmarks, halong⟩
  · exact .inr hpasses
  · exact absurd hstalls hlate

theorem InStep.lags (h : InStep name home place outcome outcome')
    (hkind : kind outcome.rest ≠ .questionQuestion) :
    Lags late name home place outcome outcome' := by
  rcases h with ⟨count, hplace, hmarks, halong⟩ | hpasses
  · exact .inl ⟨count, hplace, hmarks, halong, fun _ => hkind⟩
  · exact .inr (.inl hpasses)

theorem locksFrom_keep : LocksFrom name home keep :=
  fun count _ _ _ _ _ _ hmarks halong => .inl ⟨count, rfl, hmarks, halong⟩

/-- The trees of rules on inputs that part ways, handed over to what comes next. -/
theorem InStep.into (h : InStep name home place (first input) (second input'))
    (hcovered : ∀ tree ∈ (first input).trees, tree.IsCovered)
    (hcovered' : ∀ tree ∈ (second input').trees, tree.IsCovered)
    (hled : Led (first input).rest) (hled' : Led (second input').rest)
    (hnext : LocksFrom name home next) (hkeeps : Keeps home next) :
    InStep name home place (first.into next input) (second.into next input') := by
  rcases h with ⟨count, hplace, hmarks, halong⟩ | hpasses
  · rw [hplace]
    exact hnext count _ _ _ _ hcovered hcovered' hmarks halong
  · obtain ⟨more, hmore⟩ := hkeeps _ _ hcovered hled
    obtain ⟨more', hmore'⟩ := hkeeps _ _ hcovered' hled'
    refine .inr ?_
    change Passes place (Tree.marks home (next _ _).trees) (Tree.marks home (next _ _).trees)
    rw [hmore, hmore']
    exact hpasses.append _ _

theorem InStep.into_lags (h : InStep name home place (first input) (second input'))
    (hcovered : ∀ tree ∈ (first input).trees, tree.IsCovered)
    (hcovered' : ∀ tree ∈ (second input').trees, tree.IsCovered)
    (hled : Led (first input).rest) (hled' : Led (second input').rest)
    (hnext : LagsFrom late name home next) (hkeeps : Keeps home next) :
    Lags late name home place (first.into next input) (second.into next input') := by
  rcases h with ⟨count, hplace, hmarks, halong⟩ | hpasses
  · rw [hplace]
    exact hnext count _ _ _ _ hcovered hcovered' hmarks halong
  · obtain ⟨more, hmore⟩ := hkeeps _ _ hcovered hled
    obtain ⟨more', hmore'⟩ := hkeeps _ _ hcovered' hled'
    refine .inr (.inl ?_)
    change Passes place (Tree.marks home (next _ _).trees) (Tree.marks home (next _ _).trees)
    rw [hmore, hmore']
    exact hpasses.append _ _

theorem marks_tooDeep (hled : Led input) (heof : kind input ≠ .eof) (hline : kind input ≠ .newline) :
    ∃ more, Tree.marks home (tooDeep input).trees =
      ⟨.error, kind input, (current input).text⟩ :: more := by
  cases input with
  | nil => exact absurd rfl heof
  | cons lexeme rest =>
      have hfirst := hled lexeme List.mem_cons_self
      have hskip : ∃ more, Tree.marks home (skipTo [.newline] .nestingTooDeep (lexeme :: rest)).trees =
          ⟨.error, lexeme.kind, lexeme.token.text⟩ :: more := by
        refine ⟨Tree.marks .error (takeUntil [.newline] rest).trees, ?_⟩
        have hlexeme : takeUntil [.newline] (⟨[], lexeme.token⟩ :: rest) =
            { takeUntil [.newline] rest with
              trees := [.leaf lexeme.kind lexeme.token.text] ++
                (takeUntil [.newline] rest).trees } := by
          rw [takeUntil, if_neg]
          · rfl
          · rw [kind_cons] at heof hline
            simp only [Lexeme.kind] at heof hline ⊢
            simp [heof, hline]
        have htrees : (skipTo [.newline] .nestingTooDeep (lexeme :: rest)).trees =
            lexeme.lead.map Tree.ofToken ++
              [.node .error ([] ++ (takeUntil [.newline] (⟨[], lexeme.token⟩ :: rest)).trees)] := by
          change [] ++ (unlessAt [.eof, .newline] (node .error (takeUntil [.newline]))
            (lexeme :: rest)).trees = _
          unfold unlessAt
          rw [if_neg (by simp [heof, hline]), List.nil_append]
          rfl
        rw [htrees, hlexeme, Tree.marks_append, Tree.marks_lead home hfirst.1, Tree.marks_node]
        simp only [List.nil_append, Tree.marks_append]
        rw [Tree.marks_leaf _ _ (show lexeme.kind.isTrivia = false from hfirst.2)]
        rfl
      obtain ⟨more, hmore⟩ := hskip
      have hmissing := Tree.marks_append home (skipTo [.newline] .nestingTooDeep (lexeme :: rest)).trees
        (node .missing done (skipTo [.newline] .nestingTooDeep (lexeme :: rest)).rest).trees
      rw [hmore] at hmissing
      exact ⟨_, hmissing⟩

namespace Level

variable {level : Level}

/-- Chains keep the marks that they go on from. -/
structure Keeps (level : Level) : Prop where
  links : ∀ home, Rule.Keeps home level.links
  operators : ∀ home least, Rule.Keeps home (level.operators least)

theorem marks_wrap {kind : Kind} {left : List Tree} (h : ∀ tree ∈ left, tree.IsCovered)
    (body : Rule) (input : List Lexeme) : ∃ more, Tree.marks home (wrap kind left body input).trees =
      Tree.marks home left ++ more := by
  refine ⟨Tree.marks kind (body input).trees, ?_⟩
  change Tree.marks home [.node kind (left ++ (body input).trees)] = _
  rw [Tree.marks_node, Tree.marks_append, Tree.marks_of_isCovered h kind home]

theorem keeps_choice (level : Level) (home : Kind) : Rule.Keeps home level.choice := by
  intro test input hcovered _
  unfold choice ifAt
  split
  · exact marks_wrap hcovered _ input
  · exact ⟨[], (List.append_nil _).symm⟩

theorem marks_link {receiver : List Tree} (h : ∀ tree ∈ receiver, tree.IsCovered) :
    ∃ more, Tree.marks home (level.link receiver input).trees =
      Tree.marks home receiver ++ more := by
  obtain ⟨kind, body, -, heq⟩ := link_eq_wrap level receiver input
  rw [heq]
  exact marks_wrap h body input

theorem marks_keep_tooDeep (left : List Tree) (input : List Lexeme) :
    ∃ more, Tree.marks home ((keep left ++ tooDeep) input).trees = Tree.marks home left ++ more :=
  ⟨_, Tree.marks_append home left _⟩

theorem keeps_above {below : Option Level} (hspells : ∀ level ∈ below, level.Spells)
    (h : ∀ level ∈ below, level.Keeps) : (above below).Keeps := by
  constructor
  · intro home receiver input hcovered hled
    rw [links_above]
    split
    · cases below with
      | none => exact marks_keep_tooDeep receiver input
      | some level =>
          obtain ⟨more, hmore⟩ : ∃ more, Tree.marks home (level.link receiver input).trees =
              Tree.marks home receiver ++ more := marks_link hcovered
          obtain ⟨more', hmore'⟩ := (h level rfl).links home _ _
            (covered_link level receiver input hled)
            (((hspells level rfl).link receiver input).led hled)
          refine ⟨more ++ more', ?_⟩
          rw [← List.append_assoc, ← hmore]
          exact hmore'
    · exact ⟨[], (List.append_nil _).symm⟩
  · intro home least left input hcovered hled
    rw [operators_above]
    split
    · exact ⟨[], (List.append_nil _).symm⟩
    · split
      · exact ⟨[], (List.append_nil _).symm⟩
      · rename_i precedence _ _
        cases below with
        | none => exact marks_keep_tooDeep left input
        | some level =>
            have hwrap : (wrap .binaryExpr left (take ++ level.binary (precedence + 1))).Covered :=
              covered_wrap left _ rfl
            obtain ⟨more, hmore⟩ : ∃ more, Tree.marks home (wrap .binaryExpr left
                (take ++ level.binary (precedence + 1)) input).trees =
                Tree.marks home left ++ more := marks_wrap hcovered _ input
            have hspelled := spells_wrap .binaryExpr left (spells_andThen (spells_take input)
              ((hspells level rfl).binary (precedence + 1) _))
            obtain ⟨more', hmore'⟩ := (h level rfl).operators home least _ _
              (hwrap input hled) (hspelled.led hled)
            refine ⟨more ++ more', ?_⟩
            rw [← List.append_assoc, ← hmore]
            exact hmore'

end Level

theorem keeps_level (budget : Nat) : (level budget).Keeps :=
  level_induction (fun _ hbelow known => Level.keeps_above (known spells_level) hbelow) budget

/-- The rules of a level on inputs that part ways. -/
structure Level.Locks (name : String) (level : Level) : Prop where
  expr : ∀ home, level.expr.Locks name home
  unary : ∀ home, level.unary.Locks name home
  links : ∀ home, LocksFrom name home level.links
  operators : ∀ home least, LagsFrom (least ≤ 1) name home (level.operators least)

namespace Level

variable {level : Level}

theorem Locks.binary_lags (h : level.Locks name) (hspells : level.Spells)
    (hcovered : level.Covered) (hkeeps : level.Keeps) (least : Nat)
    (halong : Along name count input input') :
    Lags (least ≤ 1) name home count (level.binary least input) (level.binary least input') := by
  have hrest := halong.settle
  have hinto : Lags (least ≤ 1) name home count
      (level.unary.into (level.operators least) (settle input).rest)
      (level.unary.into (level.operators least) (settle input').rest) :=
    InStep.into_lags (h.unary home _ _ _ hrest) (hcovered.unary _ hrest.led)
      (hcovered.unary _ hrest.led') ((hspells.unary _).led hrest.led)
      ((hspells.unary _).led hrest.led') (h.operators home least) (hkeeps.operators home least)
  have hmarks : ∀ input, Led input → Tree.marks home (level.binary least input).trees =
      Tree.marks home (level.unary.into (level.operators least) (settle input).rest).trees := by
    intro input hled
    change Tree.marks home ((settle input).trees ++ _) = _
    rw [Tree.marks_append, marks_settle hled, List.nil_append]
  unfold Lags Stalls at hinto ⊢
  rw [hmarks input halong.led, hmarks input' halong.led']
  exact hinto

theorem Locks.binary (h : level.Locks name) (hspells : level.Spells) (hcovered : level.Covered)
    (hkeeps : level.Keeps) {least : Nat} (hleast : ¬least ≤ 1) :
    (level.binary least).Locks name home :=
  fun _ _ _ halong => (h.binary_lags hspells hcovered hkeeps least halong).inStep hleast

/-- A chain that is not left in front of a question mark in one input only goes on alike. -/
theorem inStep_choice {test test' : List Tree} (h : level.Locks name)
    (hcovered : ∀ tree ∈ test, tree.IsCovered) (hcovered' : ∀ tree ∈ test', tree.IsCovered)
    (hmarks : Tree.marks home test' = Tree.marks home test) (halong : Along name count input input')
    (hkind : kind input ≠ .questionQuestion) :
    InStep name home ((Tree.marks home test).length + count) (level.choice test input)
      (level.choice test' input') := by
  have hbranch : (take ++ level.expr ++ expect .colon ++ level.expr).Locks name .ternaryExpr :=
    (((locks_take (by decide) (by decide)).andThen (h.expr _)).andThen
      (locks_expect rfl rfl (by decide))).andThen (h.expr _)
  have hquestion : kind input = .question ↔ kind input' = .question := by
    rcases halong.kind_eq_or with heq | ⟨hone, hother⟩ | ⟨hone, hother⟩ | ⟨hone, -⟩
    · rw [heq]
    · simp [hone, hother]
    · simp [hone, hother]
    · exact absurd hone hkind
  unfold choice ifAt
  by_cases hat : kind input = .question
  · rw [if_pos hat, if_pos (hquestion.1 hat)]
    have hsame : Tree.marks .ternaryExpr test' = Tree.marks .ternaryExpr test := by
      rw [Tree.marks_of_isCovered hcovered' .ternaryExpr home, hmarks,
        Tree.marks_of_isCovered hcovered home .ternaryExpr]
    rw [Tree.marks_of_isCovered hcovered home .ternaryExpr]
    exact (hbranch _ _ _ halong).wrap hsame
  · rw [if_neg hat, if_neg fun h => hat (hquestion.2 h)]
    exact locksFrom_keep _ _ _ _ _ hcovered hcovered' hmarks halong

theorem marks_choice_question {test : List Tree} (hcovered : ∀ tree ∈ test, tree.IsCovered)
    (hled : Led input) (hkind : kind input = .question) :
    ∃ more, Tree.marks home (level.choice test input).trees =
      Tree.marks home test ++ ⟨.ternaryExpr, .question, (current input).text⟩ :: more := by
  have hall : ∃ more, Tree.marks .ternaryExpr
      ((take ++ (level.expr ++ (expect .colon ++ level.expr))) input).trees =
      ⟨.ternaryExpr, kind input, (current input).text⟩ :: more :=
    marks_take_andThen hled (by rw [hkind]; decide) _
  obtain ⟨more, hmore⟩ := hall
  refine ⟨more, ?_⟩
  unfold choice ifAt
  rw [if_pos hkind]
  change Tree.marks home [.node .ternaryExpr (test ++ _)] = _
  rw [Tree.marks_node, Tree.marks_append, Tree.marks_of_isCovered hcovered .ternaryExpr home,
    andThen_assoc, andThen_assoc, hmore, hkind]

theorem Locks.ternary (h : level.Locks name) (hspells : level.Spells) (hcovered : level.Covered)
    (hkeeps : level.Keeps) : level.ternary.Locks name home := by
  rw [ternary_eq]
  refine locks_settle.andThen fun count input input' halong => ?_
  have htest := hcovered.binary hspells 1 input halong.led
  have htest' := hcovered.binary hspells 1 input' halong.led'
  have hled := (hspells.binary 1 input).led halong.led
  have hled' := (hspells.binary 1 input').led halong.led'
  obtain ⟨more, hmore⟩ : ∃ more, Tree.marks home ((level.binary 1).into level.choice input).trees =
      Tree.marks home (level.binary 1 input).trees ++ more := keeps_choice level home _ _ htest hled
  have hlags : Lags (1 ≤ 1) name home count (level.binary 1 input) (level.binary 1 input') :=
    h.binary_lags hspells hcovered hkeeps 1 halong
  rcases hlags with ⟨left, hplace, hmarks, hnext, hkind⟩ | hpasses | ⟨-, hlt, htake, hkind, -⟩
  · rw [hplace]
    exact inStep_choice h htest htest' hmarks hnext (hkind (Nat.le_refl 1))
  · obtain ⟨more', hmore'⟩ :
        ∃ more, Tree.marks home ((level.binary 1).into level.choice input').trees =
          Tree.marks home (level.binary 1 input').trees ++ more :=
      keeps_choice level home _ _ htest' hled'
    refine .inr ?_
    rw [hmore, hmore']
    exact hpasses.append _ _
  · obtain ⟨more', hmore'⟩ :
        ∃ more, Tree.marks home ((level.binary 1).into level.choice input').trees =
          Tree.marks home (level.binary 1 input').trees ++
            ⟨.ternaryExpr, .question, (current (level.binary 1 input').rest).text⟩ :: more :=
      marks_choice_question htest' hled' hkind
    refine .inr ⟨(Tree.marks home (level.binary 1 input).trees)[count], ?_, fun _ =>
      ⟨⟨.ternaryExpr, .question, (current (level.binary 1 input').rest).text⟩, ?_, rfl⟩⟩
    · rw [hmore, List.getElem?_append_left hlt, List.getElem?_eq_getElem hlt]
    · have hlength : (Tree.marks home (level.binary 1 input').trees).length = count := by
        rw [htake, List.length_take]
        omega
      rw [hmore', List.getElem?_append_right (Nat.le_of_eq hlength), hlength, Nat.sub_self]
      rfl

theorem locks_member : member.Locks name .propertyAccess := by
  intro count input input' halong
  have hword : (kind input).isWord = (kind input').isWord := halong.congr Kind.isWord rfl rfl rfl
  unfold member
  rw [hword]
  split
  · exact locks_takeAs rfl (by decide) _ _ _ halong
  · exact locks_absent _ _ _ _ halong

theorem Locks.link (h : level.Locks name) (hprogress : level.Progresses) :
    LocksFrom name home level.link := by
  intro count receiver receiver' input input' hcovered hcovered' hmarks halong
  have hleft : ∀ kind, Tree.marks kind receiver' = Tree.marks kind receiver := by
    intro kind
    rw [Tree.marks_of_isCovered hcovered' kind home, hmarks,
      Tree.marks_of_isCovered hcovered home kind]
  have hwrap : ∀ {kind : Kind} {body : Rule}, body.Locks name kind →
      InStep name home ((Tree.marks home receiver).length + count)
        (wrap kind receiver body input) (wrap kind receiver' body input') := by
    intro kind body hbody
    rw [Tree.marks_of_isCovered hcovered home kind]
    exact (hbody _ _ _ halong).wrap (hleft kind)
  have htake : ∀ {kind : Kind}, kind ≠ .binaryExpr → kind ≠ .forExpr → take.Locks name kind :=
    locks_take
  have hindex : (take ++ level.expr ++ expect .rBrack).Locks name .arrayAccess :=
    ((htake (by decide) (by decide)).andThen (h.expr _)).andThen (locks_expect rfl rfl (by decide))
  have hcall : (arguments level.expr).Locks name .callExpr :=
    locks_arguments h.expr hprogress.expr
  unfold Level.link
  rcases halong.kind_cases with heq | ⟨htwin, htwin'⟩
  · rw [← heq]
    split
    · exact hwrap ((htake (by decide) (by decide)).andThen locks_member)
    · exact hwrap hindex
    · exact hwrap hcall
  · have hne : ∀ input, (kind input).hasTwin = true →
        kind input ≠ .dot ∧ kind input ≠ .lBrack := by
      intro input htwin
      constructor <;> rintro hkind <;> rw [hkind] at htwin <;> cases htwin
    split
    · exact absurd ‹_› (hne input htwin).1
    · exact absurd ‹_› (hne input htwin).2
    · split
      · exact absurd ‹_› (hne input' htwin').1
      · exact absurd ‹_› (hne input' htwin').2
      · exact hwrap hcall

/-- An operator is taken as one where both inputs have one. -/
theorem inStep_operator (halong : Along name count input input')
    (hsome : (kind input').precedence.isSome = true) :
    InStep name .binaryExpr count (take input) (take input') := by
  cases count with
  | succ count => exact inStep_take_there halong
  | zero =>
      refine inStep_takeAs_here halong (isTrivia_kind halong.led) (isTrivia_kind halong.led') ?_
      intro _
      revert hsome
      cases kind input' <;> decide

theorem precedence_pos {kind : Kind} {precedence : Nat} (h : kind.precedence = some precedence) :
    1 ≤ precedence := by
  cases kind <;> simp [Kind.precedence] at h <;> omega

section Operators

variable {below : Option Level} {least : Nat} {left left' : List Tree}

theorem inStep_wrap_operator {level : Level} (h : level.Locks name) (hspells : level.Spells)
    (hcovered : level.Covered) (hkeeps : level.Keeps) {precedence : Nat}
    (hleft : ∀ tree ∈ left, tree.IsCovered) (hleft' : ∀ tree ∈ left', tree.IsCovered)
    (hmarks : Tree.marks home left' = Tree.marks home left) (halong : Along name count input input')
    (hkind : (kind input').precedence = some precedence) :
    InStep name home ((Tree.marks home left).length + count)
      (wrap .binaryExpr left (take ++ level.binary (precedence + 1)) input)
      (wrap .binaryExpr left' (take ++ level.binary (precedence + 1)) input') := by
  have hpos := precedence_pos hkind
  have hright : (level.binary (precedence + 1)).Locks name .binaryExpr :=
    h.binary hspells hcovered hkeeps (by omega)
  have hbody : InStep name .binaryExpr count ((take ++ level.binary (precedence + 1)) input)
      ((take ++ level.binary (precedence + 1)) input') :=
    (inStep_operator halong (by rw [hkind]; rfl)).andThen fun count => hright count _ _
  have hsame : Tree.marks .binaryExpr left' = Tree.marks .binaryExpr left := by
    rw [Tree.marks_of_isCovered hleft' .binaryExpr home, hmarks,
      Tree.marks_of_isCovered hleft home .binaryExpr]
  rw [Tree.marks_of_isCovered hleft home .binaryExpr]
  exact hbody.wrap hsame

theorem inStep_keep_tooDeep (hleft : ∀ tree ∈ left, tree.IsCovered)
    (hleft' : ∀ tree ∈ left', tree.IsCovered)
    (hmarks : Tree.marks home left' = Tree.marks home left)
    (halong : Along name count input input') :
    InStep name home ((Tree.marks home left).length + count) ((keep left ++ tooDeep) input)
      ((keep left' ++ tooDeep) input') := by
  have hkeep : InStep name home ((Tree.marks home left).length + count) (keep left input)
      (keep left' input') := locksFrom_keep _ _ _ _ _ hleft hleft' hmarks halong
  exact hkeep.andThen fun count => locks_tooDeep count _ _

/-- Operators of the same precedence are read alike. -/
theorem lags_operators (hspells : ∀ level ∈ below, level.Spells)
    (hcovered : ∀ level ∈ below, level.Covered) (hkeeps : ∀ level ∈ below, level.Keeps)
    (h : ∀ level ∈ below, level.Locks name)
    (hleft : ∀ tree ∈ left, tree.IsCovered) (hleft' : ∀ tree ∈ left', tree.IsCovered)
    (hmarks : Tree.marks home left' = Tree.marks home left) (halong : Along name count input input')
    (hsame : (kind input').precedence = (kind input).precedence) :
    Lags (least ≤ 1) name home ((Tree.marks home left).length + count)
      ((above below).operators least left input) ((above below).operators least left' input') := by
  rw [operators_above, operators_above, hsame]
  split
  · rename_i hkind
    refine .inl ⟨count, rfl, hmarks, halong, fun _ hquestion => ?_⟩
    change kind input = .questionQuestion at hquestion
    rw [hquestion] at hkind
    cases hkind
  · rename_i precedence hkind
    have hpos := precedence_pos hkind
    split
    · exact .inl ⟨count, rfl, hmarks, halong, fun hlate => by omega⟩
    · cases below with
      | none =>
          refine (inStep_keep_tooDeep hleft hleft' hmarks halong).lags ?_
          rcases kind_tooDeep input with hrest | hrest
          · exact fun h => by cases hrest.symm.trans h
          · exact fun h => by cases hrest.symm.trans h
      | some level =>
          have hwrapped : ∀ left, (wrap .binaryExpr left
              (take ++ level.binary (precedence + 1))).Covered := fun left =>
            covered_wrap left _ rfl
          have hspelled : ∀ left input, Led input → Led (wrap .binaryExpr left
              (take ++ level.binary (precedence + 1)) input).rest := fun left input =>
            (spells_wrap .binaryExpr left (spells_andThen (spells_take input)
              ((hspells level rfl).binary (precedence + 1) _))).led
          exact InStep.into_lags (inStep_wrap_operator (h level rfl) (hspells level rfl)
              (hcovered level rfl) (hkeeps level rfl) hleft hleft' hmarks halong
              (hsame.trans hkind)) (hwrapped _ _ halong.led) (hwrapped _ _ halong.led')
            (hspelled _ _ halong.led) (hspelled _ _ halong.led')
            ((h level rfl).operators home least) ((hkeeps level rfl).operators home least)

/-- An operator that the chain takes has its mark behind those of what is on its left. -/
theorem exists_marks_operators (home : Kind) {level : Level} (hspells : level.Spells) (hkeeps : level.Keeps)
    (hleft : ∀ tree ∈ left, tree.IsCovered) (hled : Led input)
    (hkind : kind input = .questionQuestion) (hleast : ¬1 < least) :
    ∃ more, Tree.marks home ((above (some level)).operators least left input).trees =
      Tree.marks home left ++ ⟨.binaryExpr, kind input, (current input).text⟩ :: more := by
  obtain ⟨more, hmore⟩ : ∃ more, Tree.marks .binaryExpr ((take ++ level.binary 2) input).trees =
      ⟨.binaryExpr, kind input, (current input).text⟩ :: more :=
    marks_take_andThen hled (by rw [hkind]; decide) _
  have hspelled : Led (wrap .binaryExpr left (take ++ level.binary 2) input).rest :=
    (spells_wrap .binaryExpr left (spells_andThen (spells_take input) (hspells.binary 2 _))).led hled
  have hcovered : (wrap .binaryExpr left (take ++ level.binary 2)).Covered := covered_wrap left _ rfl
  obtain ⟨rest, hrest⟩ := hkeeps.operators home least _ _ (hcovered input hled) hspelled
  have hwrap : Tree.marks home (wrap .binaryExpr left (take ++ level.binary 2) input).trees =
      Tree.marks home left ++ ⟨.binaryExpr, kind input, (current input).text⟩ :: more := by
    change Tree.marks home [.node .binaryExpr (left ++ _)] = _
    rw [Tree.marks_node, Tree.marks_append, hmore, Tree.marks_of_isCovered hleft .binaryExpr home]
  have hstep : (above (some level)).operators least left input =
      ((wrap .binaryExpr left (take ++ level.binary 2)).into (level.operators least)) input := by
    rw [operators_above, hkind]
    exact if_neg hleast
  rw [hwrap, List.append_assoc] at hrest
  rw [hstep]
  exact ⟨more ++ rest, hrest⟩

/-- Where expressions nest too deeply, an error has its mark behind those of what is on the left. -/
theorem exists_marks_operators_tooDeep (home : Kind) (left : List Tree) (hled : Led input)
    (hkind : kind input = .questionQuestion) (hleast : ¬1 < least) :
    ∃ more, Tree.marks home ((above none).operators least left input).trees =
      Tree.marks home left ++ ⟨.error, kind input, (current input).text⟩ :: more := by
  obtain ⟨more, hmore⟩ : ∃ more, Tree.marks home (tooDeep input).trees =
      ⟨.error, kind input, (current input).text⟩ :: more :=
    marks_tooDeep hled (by rw [hkind]; decide) (by rw [hkind]; decide)
  have hstep : (above none).operators least left input = (keep left ++ tooDeep) input := by
    rw [operators_above, hkind]
    exact if_neg hleast
  refine ⟨more, ?_⟩
  rw [hstep, ← hmore]
  exact Tree.marks_append home left _

/-- Where only a question mark is left of the operator, the chain ends in front of it. -/
theorem lags_operators_question (hspells : ∀ level ∈ below, level.Spells)
    (hkeeps : ∀ level ∈ below, level.Keeps) (hleft : ∀ tree ∈ left, tree.IsCovered)
    (hmarks : Tree.marks home left' = Tree.marks home left) (halong : Along name 0 input input')
    (hkind : kind input = .questionQuestion) (hkind' : kind input' = .question) :
    Lags (least ≤ 1) name home ((Tree.marks home left).length + 0)
      ((above below).operators least left input) ((above below).operators least left' input') := by
  have hstop : (above below).operators least left' input' = keep left' input' := by
    rw [operators_above, hkind']
    rfl
  rw [hstop]
  by_cases hleast : 1 < least
  · have hkeep : (above below).operators least left input = keep left input := by
      rw [operators_above, hkind]
      exact if_pos hleast
    rw [hkeep]
    exact .inl ⟨0, rfl, hmarks, halong, fun hlate => by omega⟩
  · cases below with
    | none =>
        obtain ⟨more, hall⟩ := exists_marks_operators_tooDeep home left halong.led hkind hleast
        refine .inr (.inl ⟨⟨.error, kind input, (current input).text⟩, ?_, fun hinvites => ?_⟩)
        · rw [hall, List.getElem?_append_right (Nat.le_add_right _ _), Nat.add_sub_cancel_left]
          rfl
        · rw [invites_error] at hinvites
          cases hinvites
    | some level =>
        obtain ⟨more, hall⟩ := exists_marks_operators home (hspells level rfl) (hkeeps level rfl)
          hleft halong.led hkind hleast
        refine .inr (.inr ⟨by omega, ?_, ?_, hkind', halong.led'⟩)
        · rw [hall]
          simp
        · rw [hall, Nat.add_zero, List.take_left]
          exact hmarks

end Operators

theorem locks_operators {below : Option Level} (hspells : ∀ level ∈ below, level.Spells)
    (hcovered : ∀ level ∈ below, level.Covered) (hkeeps : ∀ level ∈ below, level.Keeps)
    (h : ∀ level ∈ below, level.Locks name) (home : Kind) (least : Nat) :
    LagsFrom (least ≤ 1) name home ((above below).operators least) := by
  intro count left left' input input' hleft hleft' hmarks halong
  rcases halong.kind_eq_or with heq | ⟨hone, hother⟩ | ⟨hone, hother⟩ | ⟨hone, hother, rfl⟩
  · exact lags_operators hspells hcovered hkeeps h hleft hleft' hmarks halong (by rw [heq])
  · exact lags_operators hspells hcovered hkeeps h hleft hleft' hmarks halong
      (by rw [hone, hother]; rfl)
  · exact lags_operators hspells hcovered hkeeps h hleft hleft' hmarks halong
      (by rw [hone, hother]; rfl)
  · exact lags_operators_question hspells hkeeps hleft hmarks halong hone hother

theorem locks_links {below : Option Level} (hspells : ∀ level ∈ below, level.Spells)
    (hkeeps : ∀ level ∈ below, level.Keeps) (hprogress : ∀ level ∈ below, level.Progresses)
    (h : ∀ level ∈ below, level.Locks name) (home : Kind) :
    LocksFrom name home (above below).links := by
  intro count left left' input input' hleft hleft' hmarks halong
  have hstarts : startsLink (kind input) = startsLink (kind input') :=
    halong.congr startsLink rfl rfl rfl
  rw [links_above, links_above, ← hstarts]
  split
  · cases below with
    | none => exact inStep_keep_tooDeep hleft hleft' hmarks halong
    | some level =>
        exact InStep.into
          ((h level rfl).link (hprogress level rfl) count left left' input input' hleft hleft'
            hmarks halong)
          (covered_link level left input halong.led) (covered_link level left' input' halong.led')
          (((hspells level rfl).link left input).led halong.led)
          (((hspells level rfl).link left' input').led halong.led')
          ((h level rfl).links home) ((hkeeps level rfl).links home)
  · exact locksFrom_keep count left left' input input' hleft hleft' hmarks halong

theorem locks_chain (hexpr : ∀ home, level.expr.Locks name home)
    (hspells : ∀ input, (level.expr input).Spells [] input)
    (hless : ∀ input, startsExpr (kind input) = true →
      (level.expr input).rest.length < input.length)
    (hlinks : LocksFrom name home level.links) (hkeeps : Rule.Keeps home level.links) :
    level.chain.Locks name home :=
  locks_settle.andThen fun _ input input' halong =>
    InStep.into (locks_primary hexpr hspells hless _ _ _ halong)
      (covered_primary _ input halong.led) (covered_primary _ input' halong.led')
      ((spells_primary hspells input).led halong.led)
      ((spells_primary hspells input').led halong.led') hlinks hkeeps

theorem locks_above {below : Option Level} (hspells : ∀ level ∈ below, level.Spells)
    (hcovered : ∀ level ∈ below, level.Covered) (hkeeps : ∀ level ∈ below, level.Keeps)
    (hprogress : ∀ level ∈ below, level.Progresses)
    (h : ∀ level ∈ below, level.Locks name) : (above below).Locks name := by
  have hall := spells_above hspells
  have hlinks := locks_links hspells hkeeps hprogress h
  have hexpr : ∀ home, (above below).expr.Locks name home := by
    intro home
    cases below with
    | none => exact locks_tooDeep
    | some level => exact (h level rfl).ternary (hspells level rfl) (hcovered level rfl) (hkeeps level rfl)
  have hchain : ∀ home, (above below).chain.Locks name home := fun home =>
    locks_chain hexpr hall.expr (progresses_above hspells hprogress).expr (hlinks home)
      ((keeps_above hspells hkeeps).links home)
  refine ⟨hexpr, fun home count input input' halong => ?_, hlinks,
    locks_operators hspells hcovered hkeeps h⟩
  simp only [unary_above, halong.kind_eq_iff .bang rfl, halong.kind_eq_iff .minus rfl]
  split
  · cases below with
    | none => exact locks_tooDeep count input input' halong
    | some level =>
        have hbody : (take ++ level.unary).Locks name .unaryExpr :=
          (locks_take (by decide) (by decide)).andThen ((h level rfl).unary _)
        exact hbody.node count input input' halong
  · exact hchain home count input input' halong

end Level

theorem locks_level (budget : Nat) : (level budget).Locks name :=
  level_induction (fun _ hbelow known => Level.locks_above (known spells_level)
    (known covered_level) (known keeps_level) (known progresses_level) hbelow) budget

/-! The rules of documents -/

theorem locks_expr : expr.Locks name home := (locks_level maxDepth).expr home

theorem locks_outermost_chain : outermost.chain.Locks name home :=
  Level.locks_chain (fun home => (locks_level maxDepth).expr home) (spells_level maxDepth).expr
    (progresses_level maxDepth).expr ((locks_level maxDepth).links home)
    ((keeps_level maxDepth).links home)

theorem locks_decorator : decorator.Locks name home := by
  have hbody : (take ++ ifAt .ident outermost.chain (absent .decoratorName)).Locks name .decorator :=
    (locks_take (by decide) (by decide)).andThen
      (locks_ifAt rfl locks_outermost_chain (locks_absent _))
  exact hbody.node.andThen ((locks_skipTo _ (by decide)).unlessAt _ (by decide))

theorem locks_decorators (hquiet : Leaf.invites ⟨home, .newline, ""⟩ = false) :
    (loop decoratorStep).Locks name home := by
  refine locks_loop progresses_decoratorStep fun count input input' halong => ?_
  have hsign := halong.kind_eq_iff .atSign rfl
  unfold decoratorStep
  by_cases hkind : kind input = .atSign
  · rw [if_pos hkind, if_pos (hsign.1 hkind)]
    exact .again (locks_decorator.andThen (locks_takeNewlines hquiet) _ _ _ halong)
  · rw [if_neg hkind, if_neg fun h => hkind (hsign.2 h)]
    exact .last (locks_done _ _ _ halong)

theorem locks_name : Rule.name.Locks name home :=
  locks_ifAt rfl (locks_take (by decide) (by decide)).node (locks_absent _)

theorem locks_typeName : typeName.Locks name home :=
  locks_ifAt rfl (locks_take (by decide) (by decide)).node (locks_absent _)

theorem locks_quoted (kind : Kind) (expected : Expected) :
    (quoted kind expected).Locks name home :=
  locks_ifAt rfl (locks_string (fun _ => locks_expr) spells_expr).node (locks_absent _)

theorem locks_existing : existing.Locks name .resourceDecl := by
  intro count input input' halong
  unfold existing
  rw [halong.isWordAt_eq]
  split
  · exact locks_takeAs rfl (by decide) _ _ _ halong
  · exact locks_done _ _ _ halong

theorem invites_of_isDeclaration (tag : Kind) (text : String) (hhome : home.isDeclaration = true) :
    Leaf.invites ⟨home, tag, text⟩ = tag.awaits home := by
  have hfor : home ≠ .forExpr := by
    rintro rfl
    cases hhome
  simp [Leaf.invites, hfor]

theorem locks_header (hhome : home.isDeclaration = true) : (header home).Locks name home := by
  have hequals : (expect .eq).Locks name home :=
    locks_expect rfl rfl fun h => (invites_of_isDeclaration _ _ hhome).symm.trans h
  have htake : take.Locks name home := by
    refine locks_take ?_ ?_ <;> rintro rfl <;> cases hhome
  refine header_induction (motive := fun rule => rule.Locks name home) (fun hpart => ?_) .andThen
  cases hpart with
  | name => exact locks_name
  | typeName => exact locks_typeName
  | resourceType | modulePath => exact locks_quoted _ _
  | existing hkind => exact hkind ▸ locks_existing
  | equals => exact hequals
  | value => exact locks_expr
  | default => exact locks_ifAt rfl (htake.andThen locks_expr) locks_done
  | done => exact locks_done

theorem locks_endDeclaration : endDeclaration.Locks name home := by
  intro count input input' halong
  unfold endDeclaration
  rw [halong.startsDeclaration_eq]
  split
  · exact locks_done _ _ _ halong
  · exact (locks_skipTo _ (by decide)).unlessAt _ (by decide) _ _ _ halong

/-- The kind of the node that decorators end up in when they are followed by some input. -/
def owner (input : List Lexeme) : Kind :=
  match declarationWord input with
  | some (kind, _) => kind
  | none => .root

theorem owner_of_some {kind keyword : Kind} (h : declarationWord input = some (kind, keyword)) :
    owner input = kind := by
  unfold owner
  rw [h]

theorem owner_of_none (h : declarationWord input = none) : owner input = .root := by
  unfold owner
  rw [h]

theorem undecorated_of_some {kind keyword : Kind}
    (h : declarationWord input = some (kind, keyword)) (decorators : List Tree) :
    undecorated decorators input =
      (wrap kind decorators (takeAs keyword ++ header kind) ++ endDeclaration) input := by
  unfold undecorated
  rw [h]

theorem undecorated_of_none (h : declarationWord input = none) (decorators : List Tree) :
    undecorated decorators input =
      if !decorators.isEmpty && kind input = .eof then keep decorators input
      else (keep decorators ++ skipTo [.newline] .notADeclaration) input := by
  unfold undecorated
  rw [h]

theorem awaits_newline_owner (input : List Lexeme) : Kind.newline.awaits (owner input) = false := by
  cases hword : declarationWord input with
  | none => rw [owner_of_none hword]; rfl
  | some found =>
      obtain ⟨kind, keyword⟩ := found
      rw [owner_of_some hword]
      have hnode : kind.isDeclaration = true := (declarationWord_eq_some hword).2.2
      cases kind <;> first | rfl | cases hnode

theorem invites_newline_owner (input : List Lexeme) :
    Leaf.invites ⟨owner input, .newline, ""⟩ = false := by
  simp [Leaf.invites, awaits_newline_owner]

theorem marks_undecorated (decorators : List Tree) (input : List Lexeme) :
    ∃ more, Tree.marks .root (undecorated decorators input).trees =
      Tree.marks (owner input) decorators ++ more := by
  cases hword : declarationWord input with
  | none =>
      rw [undecorated_of_none hword, owner_of_none hword]
      split
      · exact ⟨[], (List.append_nil _).symm⟩
      · exact ⟨_, Tree.marks_append .root decorators _⟩
  | some found =>
      obtain ⟨kind, keyword⟩ := found
      refine ⟨Tree.marks kind ((takeAs keyword ++ header kind) input).trees ++ Tree.marks .root
        (endDeclaration ((takeAs keyword ++ header kind) input).rest).trees, ?_⟩
      have hwrap : Tree.marks .root (wrap kind decorators (takeAs keyword ++ header kind) input).trees =
          Tree.marks kind decorators ++
            Tree.marks kind ((takeAs keyword ++ header kind) input).trees := by
        change Tree.marks .root [.node kind (decorators ++ _)] = _
        rw [Tree.marks_node, Tree.marks_append]
      rw [undecorated_of_some hword, owner_of_some hword, andThen_apply, Tree.marks_append, hwrap,
        List.append_assoc]
      rfl

theorem Along.ne_eof (halong : Along name count input input') : kind input ≠ .eof := by
  cases halong.agree with
  | here _ heof => exact heof
  | there _ _ heof => exact heof

theorem inStep_undecorated {decorators decorators' : List Tree}
    (halong : Along name count input input')
    (hmarks : Tree.marks (owner input) decorators' = Tree.marks (owner input) decorators) :
    InStep name .root ((Tree.marks (owner input) decorators).length + count)
      (undecorated decorators input) (undecorated decorators' input') := by
  have heof := halong.ne_eof
  have heof' : kind input' ≠ .eof := fun h => heof ((halong.kind_eq_iff .eof rfl).2 h)
  cases hword : declarationWord input with
  | some found =>
      obtain ⟨kind, keyword⟩ := found
      rw [undecorated_of_some hword, undecorated_of_some (halong.declarationWord_eq ▸ hword)]
      rw [owner_of_some hword] at hmarks ⊢
      obtain ⟨-, hkeyword, hnode⟩ := declarationWord_eq_some hword
      have htrivia : keyword.isTrivia = false := by
        cases keyword <;> first | rfl | cases hkeyword
      have hbody : (takeAs keyword ++ header kind).Locks name kind :=
        (locks_takeAs htrivia fun h => (invites_of_isDeclaration _ _ hnode).symm.trans h).andThen
          (locks_header hnode)
      exact ((hbody _ _ _ halong).wrap hmarks).andThen fun count =>
        locks_endDeclaration count _ _
  | none =>
      rw [undecorated_of_none hword, undecorated_of_none (halong.declarationWord_eq ▸ hword)]
      rw [owner_of_none hword] at hmarks ⊢
      simp only [heof, heof', decide_false, Bool.and_false, Bool.false_eq_true, if_false]
      have hkeep : InStep name .root ((Tree.marks .root decorators).length + count)
          (keep decorators input) (keep decorators' input') := .inl ⟨count, rfl, hmarks, halong⟩
      have hskip : (skipTo [.newline] .notADeclaration).Locks name .root :=
        locks_skipTo _ (by decide)
      exact hkeep.andThen fun count => hskip count _ _

theorem covered_decorator : decorator.Covered :=
  (covered_node _ rfl).andThen ((covered_skipTo _ _).unlessAt _) fun _ =>
    (spells_node _ (spells_andThen (spells_take _) (spells_ifAt
      (fun _ => (spells_level maxDepth).chain _) (fun _ => spells_absent _ _)))).led

theorem isCovered_or_of_mem_takeNewlines {input : List Lexeme} (hled : Led input) :
    ∀ tree ∈ (takeNewlines input).trees, tree.IsCovered ∨ ∃ text, tree = .leaf .newline text := by
  obtain ⟨tokens, htrees, htokens⟩ := exists_tokens_takeNewlines hled
  rw [htrees]
  refine List.forall_mem_map.2 fun token hmem => (htokens token hmem).imp id fun hline => ?_
  exact ⟨token.text, congrArg (Tree.leaf · token.text) hline⟩

/-- Decorators have newlines between them, and those are their only tokens. -/
theorem isCovered_or_of_mem_decorators {input : List Lexeme} (hled : Led input) :
    ∀ tree ∈ (loop decoratorStep input).trees, tree.IsCovered ∨ ∃ text, tree = .leaf .newline text := by
  induction input using loop_induction progresses_decoratorStep with
  | last input rule hchoose =>
      rw [loop_of_last progresses_decoratorStep hchoose]
      cases decoratorRound_of_eq hchoose with
      | done => simp [done]
  | again input rule hchoose ih =>
      rw [loop_of_again progresses_decoratorStep hchoose]
      have hspells := spells_decoratorStep input
      rw [hchoose] at hspells
      have hled' : Led (rule input).rest := hspells.led hled
      intro tree hmem
      cases decoratorRound_of_eq hchoose with
      | decorator hkind =>
          rcases List.mem_append.1 hmem with hmem | hmem
          · rcases List.mem_append.1 hmem with hmem | hmem
            · exact .inl (covered_decorator input hled tree hmem)
            · exact isCovered_or_of_mem_takeNewlines ((spells_decorator input).led hled) tree hmem
          · exact ih hled' tree hmem

/-- Where newlines invite nothing, decorators invite the same wherever they are put. -/
theorem marks_getElem_of_awaits {trees : List Tree} {other : Leaf}
    (htrees : ∀ tree ∈ trees, tree.IsCovered ∨ ∃ text, tree = .leaf .newline text)
    (hhome : Kind.newline.awaits home = false) (hother : other.kind.awaits other.home = true)
    (hmark : (Tree.marks home trees)[place]? = some other) (inner : Kind) :
    (Tree.marks inner trees)[place]? = some other := by
  induction trees generalizing place with
  | nil => simp at hmark
  | cons tree trees ih =>
      have hrest : ∀ place, (Tree.marks home trees)[place]? = some other →
          (Tree.marks inner trees)[place]? = some other := fun place hmark =>
        ih (fun tree hmem => htrees tree (List.mem_cons_of_mem _ hmem)) hmark
      rw [← List.singleton_append, Tree.marks_append] at hmark ⊢
      rcases htrees tree List.mem_cons_self with hcovered | ⟨text, rfl⟩
      · rw [Tree.marks_of_isCovered (by simpa using hcovered) inner home]
        rcases Nat.lt_or_ge place (Tree.marks home [tree]).length with hlt | hge
        · rw [List.getElem?_append_left hlt] at hmark ⊢
          exact hmark
        · rw [List.getElem?_append_right hge] at hmark ⊢
          exact hrest _ hmark
      · rw [Tree.marks_leaf _ _ rfl] at hmark ⊢
        cases place with
        | zero =>
            cases hmark
            rw [hhome] at hother
            cases hother
        | succ place => exact hrest place hmark

theorem locks_declaration : declaration.Locks name .root := by
  refine locks_settle.andThen fun count input input' halong => ?_
  let decorators := loop decoratorStep input
  let decorators' := loop decoratorStep input'
  have hstep : InStep name (owner decorators.rest) count decorators decorators' :=
    locks_decorators (invites_newline_owner _) _ _ _ halong
  change InStep name .root count (undecorated decorators.trees decorators.rest)
    (undecorated decorators'.trees decorators'.rest)
  rcases hstep with ⟨left, hplace, hmarks, hnext⟩ | ⟨leaf, hleaf, hinvites⟩
  · rw [hplace]
    exact inStep_undecorated hnext hmarks
  · obtain ⟨more, hmore⟩ := marks_undecorated decorators.trees decorators.rest
    obtain ⟨more', hmore'⟩ := marks_undecorated decorators'.trees decorators'.rest
    have hsame : Passes count (Tree.marks (owner decorators.rest) decorators.trees)
        (Tree.marks (owner decorators'.rest) decorators'.trees) := by
      refine ⟨leaf, hleaf, fun hleaf => ?_⟩
      obtain ⟨other, hmark, hawaits⟩ := hinvites hleaf
      exact ⟨other, marks_getElem_of_awaits (isCovered_or_of_mem_decorators halong.led')
        (awaits_newline_owner _) hawaits hmark _, hawaits⟩
    refine .inr ?_
    rw [hmore, hmore']
    exact hsame.append _ _

/-- Two documents that part ways are the same up to there, and where an expression can be written
after the first one's token, it can after the second one's. -/
theorem inStep_document (halong : Along name count input input') :
    InStep name home count (document input) (document input') := by
  have hstep : (loop documentStep).Locks name .root := by
    refine locks_loop progresses_documentStep fun count input input' halong => ?_
    have hline := halong.kind_eq_iff .newline rfl
    have heof := halong.kind_eq_iff .eof rfl
    generalize hstep : documentStep input = step
    generalize hstep' : documentStep input' = step'
    cases documentRound_of_eq hstep with
    | fileEnd hkind => exact absurd hkind halong.ne_eof
    | newline hkind =>
        cases documentRound_of_eq hstep' with
        | newline => exact .again (locks_take (by decide) (by decide) _ _ _ halong)
        | fileEnd hkind' => exact absurd (heof.2 hkind') halong.ne_eof
        | declaration _ hkind' => exact absurd (hline.1 hkind) hkind'
    | declaration _ hkind =>
        cases documentRound_of_eq hstep' with
        | declaration => exact .again (locks_declaration _ _ _ halong)
        | fileEnd hkind' => exact absurd (heof.2 hkind') halong.ne_eof
        | newline hkind' => exact absurd (hline.2 hkind') hkind
  have hwrap : InStep name home ((Tree.marks .root []).length + count) (document input)
      (document input') := (hstep _ _ _ halong).wrap rfl
  rwa [Tree.marks_nil, List.length_nil, Nat.zero_add] at hwrap

end Rule

end Caret
