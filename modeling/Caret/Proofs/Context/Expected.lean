import Caret.Proofs.Document.Marks
import Mathlib.Data.Option.Basic

/-!
# Where expressions are offered

An expression is offered, and so is the value of a property, behind a token after which the grammar
expects one, with nothing but trivia up to the bytes that the completion replaces.
-/

namespace Caret

/-- The kinds of contexts in which an expression is written. -/
def ContextKind.isExpr : ContextKind → Bool
  | .propertyValue | .expression _ => true
  | _ => false

namespace Vicinity

variable {place : Vicinity} {finding : Context.Finding}

theorem kind_found (place : Vicinity) (kind : ContextKind) (node : Locus) :
    (place.found kind node).kind = kind := by
  unfold found
  split <;> rfl

theorem replacement_found (place : Vicinity) (kind : ContextKind) (node : Locus) :
    (place.found kind node).replacement =
      (place.word.map Locus.span).getD (.empty place.offset) := by
  unfold found
  split <;> simp_all

theorem kind_insideTypeString (h : place.insideTypeString = some finding) :
    finding.kind = .resourceType := by
  simp only [insideTypeString, bind, Option.bind_eq_some_iff, Option.some.injEq] at h
  obtain ⟨_, -, _, -, _, -, _, -, _, -, _, -, rfl⟩ := h
  rfl

/-- The rules that find no expressions replace the word at the cursor, save inside of the type of a
resource, and one of them finds the members. -/
theorem exists_found_of_rules (h : place.resourceType = some finding ∨
    place.decoratorName = some finding ∨ place.resourceHeader = some finding ∨
    place.typeName = some finding ∨ place.propertyKey = some finding ∨
    place.memberAccess = some finding ∨ place.resourceBody = some finding ∨
    place.declarations = some finding) :
    place.insideTypeString = some finding ∨ ∃ kind node, place.found kind node = finding ∧
      kind.isExpr = false ∧ (kind = .memberAccess → place.memberAccess = some finding) := by
  rcases h with h | h | h | h | h | h | h | h
  · rcases Option.or_eq_some_iff.1 h with h | ⟨-, h⟩
    · exact .inl h
    · simp only [missingType, bind, Option.bind_eq_some_iff, Option.some.injEq] at h
      obtain ⟨_, -, _, -, _, -, _, -, hfound⟩ := h
      exact .inr ⟨_, _, hfound, rfl, nofun⟩
  · simp only [decoratorName, bind, Option.bind_eq_some_iff, Option.some.injEq] at h
    obtain ⟨_, -, hfound⟩ := h
    exact .inr ⟨_, _, hfound, rfl, nofun⟩
  · simp only [resourceHeader, bind, Option.bind_eq_some_iff, Option.some.injEq] at h
    obtain ⟨_, -, _, -, _, -, _, -, _, -, _, -, _, -, _, -, _, -, hfound⟩ := h
    exact .inr ⟨_, _, hfound, rfl, nofun⟩
  · simp only [typeName, bind, Option.bind_eq_some_iff, Option.some.injEq] at h
    obtain ⟨_, -, _, -, _, -, _, -, hfound⟩ := h
    exact .inr ⟨_, _, hfound, rfl, nofun⟩
  · simp only [propertyKey, bind, Option.bind_eq_some_iff, Option.some.injEq] at h
    obtain ⟨_, -, _, -, _, -, _, -, hfound⟩ := h
    exact .inr ⟨_, _, hfound, rfl, nofun⟩
  · have hmember := h
    simp only [memberAccess, bind, Option.bind_eq_some_iff, Option.some.injEq] at h
    obtain ⟨_, -, hfound⟩ := h
    exact .inr ⟨_, _, hfound, rfl, fun _ => hmember⟩
  · simp only [resourceBody, bind, Option.bind_eq_some_iff, Option.some.injEq] at h
    obtain ⟨_, -, hfound⟩ := h
    exact .inr ⟨_, _, hfound, rfl, nofun⟩
  · unfold declarations at h
    split at h
    · exact .inr ⟨_, _, Option.some.inj h, rfl, nofun⟩
    · cases h

/-- The rules that come before the one for values of properties find other things. -/
theorem isExpr_of_rules (h : place.resourceType = some finding ∨ place.decoratorName = some finding ∨
    place.resourceHeader = some finding ∨ place.typeName = some finding ∨
    place.propertyKey = some finding ∨ place.memberAccess = some finding ∨
    place.resourceBody = some finding ∨ place.declarations = some finding) :
    finding.kind.isExpr = false := by
  rcases exists_found_of_rules h with hstring | ⟨kind, node, rfl, hkind, -⟩
  · rw [kind_insideTypeString hstring]
    rfl
  · rwa [kind_found]

/-- Where an expression is offered, one of two rules has found it. -/
theorem finding_of_isExpr (h : place.finding = some finding) (hkind : finding.kind.isExpr = true) :
    place.resourceType = none ∧ (place.propertyKey = none ∧ place.propertyValue = some finding ∨
      place.expression = some finding) := by
  have hother : ¬(place.resourceType = some finding ∨ place.decoratorName = some finding ∨
      place.resourceHeader = some finding ∨ place.typeName = some finding ∨
      place.propertyKey = some finding ∨ place.memberAccess = some finding ∨
      place.resourceBody = some finding ∨ place.declarations = some finding) := fun hrule => by
    rw [isExpr_of_rules hrule] at hkind
    cases hkind
  simp only [not_or] at hother
  obtain ⟨htype, hdecorator, hheader, htypeName, hkey, hmember, hbody, hdeclarations⟩ := hother
  simp only [Vicinity.finding, rules, List.findSome?_cons, List.findSome?_nil] at h
  split at h
  · exact absurd (‹place.resourceType = _›.trans h) htype
  · refine ⟨‹_›, ?_⟩
    split at h
    · exact absurd (‹place.decoratorName = _›.trans h) hdecorator
    · split at h
      · exact absurd (‹place.resourceHeader = _›.trans h) hheader
      · split at h
        · exact absurd (‹place.typeName = _›.trans h) htypeName
        · split at h
          · exact absurd (‹place.propertyKey = _›.trans h) hkey
          · split at h
            · exact .inl ⟨‹_›, ‹place.propertyValue = _›.trans h⟩
            · split at h
              · exact absurd (‹place.memberAccess = _›.trans h) hmember
              · split at h
                · exact absurd (‹place.resourceBody = _›.trans h) hbody
                · split at h
                  · exact absurd (‹place.declarations = _›.trans h) hdeclarations
                  · split at h
                    · exact .inr (‹place.expression = _›.trans h)
                    · cases h

theorem beforeIn_eq_some {token : Kind} {nodes : List Kind} {parent : Locus}
    (h : place.beforeIn token nodes = some parent) :
    ∃ before, place.before = some before ∧ before.kind = token ∧ before.parent = some parent ∧
      parent.kind ∈ nodes := by
  simp only [beforeIn, bind, Option.bind_eq_some_iff] at h
  obtain ⟨before, hbefore, _, hkind, parent', hparent, _, hnodes, hfound⟩ := h
  obtain rfl := Option.some.inj hfound
  rw [Option.guard_eq_some'] at hkind hnodes
  exact ⟨before, hbefore, hkind, hparent, List.contains_iff_mem.1 hnodes⟩

theorem awaits_binaryExpr (token : Kind) : token.awaits .binaryExpr = token.precedence.isSome := by
  cases token <;> rfl

/-- What the rule for expressions takes for the token in front of one does invite it. -/
theorem invites_of_expressionAfter {token node : Kind} {arrayStart : Bool}
    (h : place.expressionAfter token node = some arrayStart) (text : String) :
    Leaf.invites ⟨node, token, text⟩ = true := by
  unfold expressionAfter at h
  split at h
  case h_19 =>
    split at h
    · simp [Leaf.invites, awaits_binaryExpr, ‹(Kind.precedence _).isSome = true›]
    · cases h
  all_goals first
    | rfl
    | cases h

end Vicinity

namespace Document

variable {text : String} {offset : Nat} {last other : Locus}

/-- A leaf after which an expression is expected, and the bytes that a completion replaces behind
it: those of the word at the cursor, or none. -/
structure Awaits (text : String) (offset : Nat) (replacement : Span) (last : Locus) : Prop where
  mem : last ∈ (locus text).leaves
  trivia : last.kind.isTrivia = false
  invites : last.leaf.invites = true
  before : last.span.start < replacement.start
  front : ∃ front ∈ (locus text).leaves,
    front.span.start < replacement.start ∧ replacement.start ≤ front.span.stop
  between : ∀ other ∈ (locus text).leaves, last.span.stop ≤ other.span.start →
    other.span.start < replacement.start → other.kind.isTrivia = true
  word : replacement = .empty offset ∧ (∀ other ∈ (locus text).leaves,
      other.kind.isWord = true → other.span.start < offset → offset ≤ other.span.stop → False) ∨
    ∃ word ∈ (locus text).leaves, word.kind.isWord = true ∧ word.span = replacement ∧
      word.span.start < offset ∧ offset ≤ word.span.stop
  comment : (locus text).isCommentAt offset = false
  hole : last.kind = .interpStart → last.span.stop ≤ replacement.start

/-- A newline that comes next after the colon of a property or a newline of an object. -/
theorem home_of_newline {name : String} (hname : Identifier.isValid name = true)
    (hfresh : name ∉ contextualWords) {left gap right : List Locus} {leaf next : Locus}
    (hleaves : (locus text).leaves = left ++ leaf :: (gap ++ next :: right))
    (hleaf : leaf.kind = .colon ∧ leaf.leaf.home = .objectProperty ∨
      leaf.kind = .newline ∧ leaf.leaf.home = .object)
    (hgap : ∀ other ∈ gap, other.kind.isTrivia = true) (hnext : next.kind = .newline) :
    next.leaf.home = .object := by
  have htrivia : leaf.kind.isTrivia = false := by
    rcases hleaf with ⟨hkind, -⟩ | ⟨hkind, -⟩ <;> rw [hkind] <;> rfl
  obtain ⟨-, hplaced, hanswers⟩ := follows_of_leaves hname hfresh (fun _ _ _ => trivial) hleaves hgap
    htrivia (by rw [hnext]; rfl)
  rcases hanswers .object (.line hleaf hnext) with hhome | ⟨hhome, -⟩
  · exact hhome
  · cases hhome

/-- Newlines between the colon of a property and the cursor belong to the object. -/
theorem home_of_newlines {name : String} (hname : Identifier.isValid name = true)
    (hfresh : name ∉ contextualWords) {left gap lines right : List Locus} {leaf : Locus}
    (hleaves : (locus text).leaves = left ++ leaf :: (gap ++ (lines ++ last :: right)))
    (hleaf : leaf.kind = .colon ∧ leaf.leaf.home = .objectProperty ∨
      leaf.kind = .newline ∧ leaf.leaf.home = .object)
    (hgap : ∀ other ∈ gap, other.kind.isTrivia = true)
    (hlines : ∀ other ∈ lines, other.kind.isTrivia = true ∨ other.kind = .newline)
    (hlast : last.kind = .newline) : last.leaf.home = .object := by
  induction lines generalizing left leaf gap with
  | nil => exact home_of_newline hname hfresh hleaves hleaf hgap hlast
  | cons line lines ih =>
      have hrest : ∀ other ∈ lines, other.kind.isTrivia = true ∨ other.kind = .newline :=
        fun other hmem => hlines other (List.mem_cons_of_mem _ hmem)
      rcases hlines line List.mem_cons_self with hline | hline
      · have hsplit : (locus text).leaves =
            left ++ leaf :: ((gap ++ [line]) ++ (lines ++ last :: right)) := by
          simp [hleaves]
        refine ih hsplit hleaf (fun other hmem => ?_) hrest
        rcases List.mem_append.1 hmem with hmem | hmem
        · exact hgap other hmem
        · obtain rfl := List.mem_singleton.1 hmem
          exact hline
      · have hhome := home_of_newline hname hfresh hleaves hleaf hgap hline
        have hsplit : (locus text).leaves =
            (left ++ leaf :: gap) ++ line :: ([] ++ (lines ++ last :: right)) := by
          simp [hleaves]
        exact ih hsplit (.inr ⟨hline, hhome⟩) (by simp) hrest

/-- Two leaves in their order, with those between them. -/
theorem exists_between (hlast : last ∈ (locus text).leaves) (hother : other ∈ (locus text).leaves)
    (hlt : last.span.stop ≤ other.span.start) :
    ∃ left between right, (locus text).leaves = left ++ last :: (between ++ other :: right) ∧
      ∀ leaf ∈ between, leaf ∈ (locus text).leaves ∧ last.span.stop ≤ leaf.span.start ∧
        leaf.span.stop ≤ other.span.start := by
  obtain ⟨left, right, hsplit⟩ := List.append_of_mem hlast
  have hpairwise := pairwise_leaves text
  have hne := start_lt_stop hother
  have hne' := start_lt_stop hlast
  rw [hsplit] at hpairwise
  rw [hsplit] at hother
  have hright : other ∈ right := by
    rcases List.mem_append.1 hother with hmem | hmem
    · have hbefore := (List.pairwise_append.1 hpairwise).2.2 other hmem last List.mem_cons_self
      omega
    · rcases List.mem_cons.1 hmem with rfl | hmem
      · omega
      · exact hmem
  obtain ⟨between, right, rfl⟩ := List.append_of_mem hright
  refine ⟨left, between, right, hsplit, fun leaf hmem => ⟨?_, ?_, ?_⟩⟩
  · simp [hsplit, hmem]
  · have hafter := (List.pairwise_cons.1 (List.pairwise_append.1 hpairwise).2.1).1
    exact hafter leaf (List.mem_append_left _ hmem)
  · have hafter := (List.pairwise_cons.1 (List.pairwise_append.1 hpairwise).2.1).2
    exact (List.pairwise_append.1 hafter).2.2 leaf hmem other List.mem_cons_self

/-- The bytes that are replaced at an offset: those of the word there, if there is one. -/
def replaced (text : String) (offset : Nat) : Span :=
  (((locus text).vicinity offset).word.map Locus.span).getD (.empty offset)

theorem replaced_cases (text : String) (offset : Nat) :
    replaced text offset = .empty offset ∧ (∀ other ∈ (locus text).leaves,
        other.kind.isWord = true → other.span.start < offset → offset ≤ other.span.stop → False) ∨
      ∃ word ∈ (locus text).leaves, word.kind.isWord = true ∧ word.span = replaced text offset ∧
        word.span.start < offset ∧ offset ≤ word.span.stop := by
  unfold replaced
  change ((Option.map _ (((locus text).tokensAt offset).find? _)).getD _ = _ ∧ _) ∨ _
  cases hword : ((locus text).tokensAt offset).find? (fun token =>
      token.kind.isWord && token.span.start < offset) with
  | none =>
      refine .inl ⟨rfl, fun other hother hkind hstart hstop => ?_⟩
      rw [List.find?_eq_none] at hword
      refine hword other (mem_tokensAt_iff.2 ⟨hother, Nat.le_of_lt hstart, hstop⟩) ?_
      simp [hkind, hstart]
  | some word =>
      obtain ⟨hleaf, -, hstop⟩ := mem_tokensAt_iff.1 (List.mem_of_find?_eq_some hword)
      have htest := List.find?_some hword
      rw [Bool.and_eq_true, decide_eq_true_eq] at htest
      refine .inr ⟨word, hleaf, htest.1, ?_, htest.2, hstop⟩
      change _ = (Option.map _ (((locus text).tokensAt offset).find? _)).getD _
      rw [hword]
      rfl

theorem beforeOnLine_vicinity (text : String) (offset : Nat) :
    ((locus text).vicinity offset).beforeOnLine =
      ((locus text).tokenBefore (replaced text offset).start).bind
        (Locus.skipBack Kind.isTrivia) := by
  unfold replaced
  unfold Locus.vicinity
  dsimp only
  cases ((locus text).tokensAt offset).find? _ <;> rfl

/-- The nearest token in front of what is replaced that is no trivia. -/
theorem of_beforeOnLine (h : ((locus text).vicinity offset).beforeOnLine = some last) :
    last ∈ (locus text).leaves ∧ last.kind.isTrivia = false ∧
      last.span.start < (replaced text offset).start ∧
      (∃ front ∈ (locus text).leaves, front.span.start < (replaced text offset).start ∧
        (replaced text offset).start ≤ front.span.stop) ∧
      ∀ other ∈ (locus text).leaves, last.span.stop ≤ other.span.start →
        other.span.start < (replaced text offset).start → other.kind.isTrivia = true := by
  rw [beforeOnLine_vicinity] at h
  obtain ⟨token, htoken, hskip⟩ := Option.bind_eq_some_iff.1 h
  obtain ⟨hleaf, hstart, hstop⟩ := tokenBefore_eq_some_iff.1 htoken
  obtain ⟨hlast, htrivia, hle, hbetween⟩ := skipBack_eq_some hleaf hskip
  refine ⟨hlast, htrivia, by omega, ⟨token, hleaf, hstart, hstop⟩,
    fun other hother hafter hbefore => ?_⟩
  refine hbetween other hother hafter ?_
  rcases eq_or_apart hother hleaf with rfl | hlt | hlt
  · exact Nat.le_refl _
  · have := start_lt_stop hother
    omega
  · omega

theorem exists_parent_of_home {kind : Kind} (h : last.leaf.home = kind) (hkind : kind ≠ .root) :
    ∃ parent, last.parent = some parent ∧ parent.kind = kind := by
  cases hparent : last.parent with
  | none =>
      simp [Locus.leaf, hparent] at h
      exact absurd h.symm hkind
  | some parent =>
      simp [Locus.leaf, hparent] at h
      exact ⟨parent, rfl, h⟩

theorem home_of_parent {parent : Locus} (h : last.parent = some parent) :
    last.leaf.home = parent.kind := by
  simp [Locus.leaf, h]

/-- Where something can be completed, there is no string and no comment. -/
theorem region_of_context {context : Context}
    (h : Context.at? (locus text) text offset = some context) :
    ((locus text).resolve offset).isInStringBody = false ∧
      ((locus text).resolve offset).isInComment = false := by
  unfold Context.at? Context.classify at h
  split at h
  · cases h
  · rename_i hregion
    simpa using hregion

theorem isCommentAt_of_context {context : Context}
    (h : Context.at? (locus text) text offset = some context) :
    (locus text).isCommentAt offset = false := by
  rw [← Bool.not_eq_true]
  intro hcomment
  have hin : ((locus text).resolve offset).isInComment = true := by
    change decide ((locus text).regionAt offset = some .comment) = true
    simp [Locus.regionAt, hcomment]
  rw [(region_of_context h).2] at hin
  cases hin

/-- Where there is no comment, a token is no comment but a closed one in front of the place. -/
theorem closed_of_isCommentAt (h : (locus text).isCommentAt offset = false)
    {front : Locus} (hfront : front ∈ (locus text).leaves) (hstart : front.span.start < offset)
    (hstop : offset ≤ front.span.stop) :
    front.kind ≠ .lineComment ∧ (front.kind = .blockComment →
      offset = front.span.stop ∧ Locus.isCutOffComment front.text = false) := by
  unfold Locus.isCommentAt at h
  rw [List.any_eq_false] at h
  have hfront := h front (mem_tokensAt_iff.2 ⟨hfront, Nat.le_of_lt hstart, hstop⟩)
  rw [Bool.and_eq_true, decide_eq_true_eq, not_and] at hfront
  have hclosed := hfront hstart
  refine ⟨fun hline => ?_, fun hblock => ?_⟩
  · rw [hline] at hclosed
    exact hclosed rfl
  · rw [hblock] at hclosed
    simp only [Bool.or_eq_true, decide_eq_true_eq, not_or, Bool.not_eq_true] at hclosed
    exact ⟨by omega, hclosed.2⟩

theorem exists_finding {context : Context}
    (h : Context.at? (locus text) text offset = some context) :
    ∃ finding, ((locus text).vicinity offset).finding = some finding ∧
      finding.kind = context.kind ∧ finding.node = context.node ∧
        finding.replacement = context.replacement := by
  unfold Context.at? Context.classify at h
  split at h
  · cases h
  · obtain ⟨finding, hfinding, hmade⟩ := Option.bind_eq_some_iff.1 h
    cases hmade
    exact ⟨finding, hfinding, rfl, rfl, rfl⟩

/-- Where something can be completed, what is made of its context is the answer. -/
theorem completionsIn_eq_ok (types : Provider) (settings : Settings) {context : Context}
    (hboundary : Bytes.isBoundary offset text = true)
    (hcontext : Context.at? (locus text) text offset = some context) :
    completionsIn text offset types settings = .ok (Completion.suggestions
      ⟨context, ⟨locus text, .ofRoot (locus text), types⟩, settings⟩ text.utf8ByteSize) := by
  rw [completionsIn_eq types settings hboundary, hcontext]
  rfl

theorem home_of_invites_interpStart {home : Kind} {text : String}
    (h : Leaf.invites ⟨home, .interpStart, text⟩ = true) : home = .interpolation := by
  cases home <;> first | rfl | cases h

/-- Inside the token that opens a hole, no expression is offered. -/
theorem stop_le_of_interpStart {context : Context}
    (hcontext : Context.at? (locus text) text offset = some context)
    (htype : ((locus text).vicinity offset).resourceType = none)
    (hlast : last ∈ (locus text).leaves) (hkind : last.kind = .interpStart)
    (hinvites : last.leaf.invites = true) (hstart : last.span.start < (replaced text offset).start) :
    last.span.stop ≤ (replaced text offset).start := by
  by_contra hinside
  rw [Nat.not_le] at hinside
  rcases replaced_cases text offset with ⟨hempty, -⟩ | ⟨word, hword, hisWord, hspan, -⟩
  · rw [hempty] at hstart hinside
    change last.span.start < offset at hstart
    change offset < last.span.stop at hinside
    by_cases hresource : ∃ ancestor ∈ last.properAncestors, ancestor.kind = .resourceType
    · have hsome : ((locus text).vicinity offset).insideTypeString.isSome = true :=
        insideTypeString_of_opening hlast hkind hstart hinside hresource rfl rfl
      rw [Vicinity.resourceType, Option.or_eq_none_iff] at htype
      rw [htype.1] at hsome
      cases hsome
    · have hawaits : Leaf.invites ⟨last.leaf.home, .interpStart, last.text⟩ = true := by
        rw [← hkind]
        exact hinvites
      have hhome := home_of_invites_interpStart hawaits
      obtain ⟨hole, hparent, hinterpolation⟩ := exists_parent_of_home hhome (by decide)
      rcases isInStringBody_of_opening hlast hkind hparent hinterpolation hstart hinside
        (fun ancestor hmem htag => hresource ⟨ancestor, hmem, htag⟩) with hbody | hcomment
      · rw [(region_of_context hcontext).1] at hbody
        cases hbody
      · rw [(region_of_context hcontext).2] at hcomment
        cases hcomment
  · rw [← hspan] at hstart hinside
    rcases eq_or_apart hlast hword with rfl | hlt | hlt
    · omega
    · omega
    · have := start_lt_stop hword
      omega

theorem before_vicinity (text : String) (offset : Nat) :
    ((locus text).vicinity offset).before = ((locus text).vicinity offset).beforeOnLine.bind
      (Locus.skipBack fun kind => kind.isTrivia || kind = .newline) := rfl

theorem exists_beforeOnLine (h : ((locus text).vicinity offset).before = some other) :
    ∃ last, ((locus text).vicinity offset).beforeOnLine = some last := by
  rw [before_vicinity] at h
  obtain ⟨last, honLine, -⟩ := Option.bind_eq_some_iff.1 h
  exact ⟨last, honLine⟩

/-- With no newline in front, the token in front on the line is the one in front. -/
theorem eq_of_beforeOnLine (honLine : ((locus text).vicinity offset).beforeOnLine = some last)
    (hbefore : ((locus text).vicinity offset).before = some other) (hline : last.kind ≠ .newline) :
    other = last := by
  rw [before_vicinity, honLine, Option.bind_some,
    skipBack_of_not (by simp [(of_beforeOnLine honLine).2.1, hline])] at hbefore
  exact (Option.some.inj hbefore).symm

/-- Behind a newline that a property key can follow, no value of a property is offered. -/
theorem not_newline_of_propertyKey {name : String} (hname : Identifier.isValid name = true)
    (hfresh : name ∉ contextualWords) {colon property : Locus}
    (hkey : ((locus text).vicinity offset).propertyKey = none)
    (honLine : ((locus text).vicinity offset).beforeOnLine = some last)
    (hbefore : ((locus text).vicinity offset).before = some colon) (hcolon : colon.kind = .colon)
    (hparent : colon.parent = some property) (hproperty : property.kind = .objectProperty) :
    last.kind ≠ .newline := by
  intro hline
  have hlast := of_beforeOnLine honLine
  have hskip : last.skipBack (fun kind => kind.isTrivia || kind = .newline) = some colon := by
    rwa [before_vicinity, honLine] at hbefore
  obtain ⟨hleaf, -, hle, hbetween⟩ := skipBack_eq_some hlast.1 hskip
  have hstop : colon.span.stop ≤ last.span.start := by
    rcases eq_or_apart hleaf hlast.1 with rfl | hlt | hlt
    · rw [hcolon] at hline
      cases hline
    · exact hlt
    · have := start_lt_stop hlast.1
      omega
  obtain ⟨left, lines, right, hleaves, hlines⟩ := exists_between hleaf hlast.1 hstop
  have hhome : last.leaf.home = .object := by
    have hsplit : (locus text).leaves = left ++ colon :: ([] ++ (lines ++ last :: right)) := hleaves
    refine home_of_newlines hname hfresh hsplit
      (.inl ⟨hcolon, (home_of_parent hparent).trans hproperty⟩) (by simp) (fun other hmem => ?_) hline
    obtain ⟨hother, hafter, hstop⟩ := hlines other hmem
    have := start_lt_stop hother
    have hskipped := hbetween other hother hafter (by omega)
    simpa using hskipped
  obtain ⟨object, hobject, hkind⟩ := exists_parent_of_home hhome (by decide)
  simp [Vicinity.propertyKey, honLine, guard, hline, hobject, hkind] at hkey

/-- The value of a property is awaited behind its colon. -/
theorem invites_of_propertyValue {name : String} {finding : Context.Finding}
    (hname : Identifier.isValid name = true) (hfresh : name ∉ contextualWords)
    (hkey : ((locus text).vicinity offset).propertyKey = none)
    (hvalue : ((locus text).vicinity offset).propertyValue = some finding) :
    ∃ last, ((locus text).vicinity offset).beforeOnLine = some last ∧ last.leaf.invites = true ∧
      finding.replacement = replaced text offset := by
  simp only [Vicinity.propertyValue, bind, Option.bind_eq_some_iff, Option.some.injEq] at hvalue
  obtain ⟨property, hin, rfl⟩ := hvalue
  obtain ⟨colon, hbefore, hcolon, hparent, hproperty⟩ := Vicinity.beforeIn_eq_some hin
  rw [List.mem_singleton] at hproperty
  obtain ⟨last, honLine⟩ := exists_beforeOnLine hbefore
  have hline := not_newline_of_propertyKey hname hfresh hkey honLine hbefore hcolon hparent hproperty
  obtain rfl := eq_of_beforeOnLine honLine hbefore hline
  refine ⟨colon, honLine, ?_, Vicinity.replacement_found _ _ _⟩
  have hleaf : colon.leaf = ⟨.objectProperty, .colon, colon.text⟩ := by
    rw [← hproperty, ← hcolon, ← home_of_parent hparent]
    rfl
  rw [hleaf]
  rfl

/-- An expression is awaited behind the lines of a list and behind the tokens that are read with
one. -/
theorem invites_of_expression {finding : Context.Finding}
    (hexpr : ((locus text).vicinity offset).expression = some finding) :
    ∃ last, ((locus text).vicinity offset).beforeOnLine = some last ∧ last.leaf.invites = true ∧
      finding.replacement = replaced text offset := by
  unfold Vicinity.expression at hexpr
  split at hexpr
  · rename_i newline hfilter
    obtain ⟨honLine, hline⟩ := Option.filter_eq_some_iff.1 hfilter
    simp only [bind, Option.bind_eq_some_iff, Option.some.injEq] at hexpr
    obtain ⟨list, hparent, _, hlist, rfl⟩ := hexpr
    rw [Option.guard_eq_some', Bool.or_eq_true, decide_eq_true_eq, decide_eq_true_eq] at hlist
    refine ⟨newline, honLine, ?_, Vicinity.replacement_found _ _ _⟩
    have hleaf : newline.leaf = ⟨list.kind, .newline, newline.text⟩ := by
      rw [← home_of_parent hparent, ← of_decide_eq_true hline]
      rfl
    rw [hleaf]
    rcases hlist with hlist | hlist <;> rw [hlist] <;> rfl
  · rename_i hfilter
    simp only [bind, Option.bind_eq_some_iff, Option.some.injEq] at hexpr
    obtain ⟨before, hbefore, parent, hparent, arrayStart, hafter, rfl⟩ := hexpr
    obtain ⟨last, honLine⟩ := exists_beforeOnLine hbefore
    have hline : last.kind ≠ .newline := by
      rw [honLine, Option.filter_eq_none_iff] at hfilter
      simpa using hfilter
    obtain rfl := eq_of_beforeOnLine honLine hbefore hline
    refine ⟨before, honLine, ?_, Vicinity.replacement_found _ _ _⟩
    have hleaf : before.leaf = ⟨parent.kind, before.kind, before.text⟩ := by
      rw [← home_of_parent hparent]
      rfl
    rw [hleaf]
    exact Vicinity.invites_of_expressionAfter hafter before.text

/-- Where an expression is offered, the token in front awaits one. -/
theorem exists_awaits {name : String} (hname : Identifier.isValid name = true)
    (hfresh : name ∉ contextualWords) {context : Context}
    (hcontext : Context.at? (locus text) text offset = some context)
    (hkind : context.kind.isExpr = true) :
    ∃ last, Awaits text offset context.replacement last := by
  obtain ⟨finding, hfinding, hkindEq, -, hreplacement⟩ := exists_finding hcontext
  obtain ⟨htype, hrules⟩ := Vicinity.finding_of_isExpr hfinding (by rwa [hkindEq])
  obtain ⟨last, honLine, hinvites, hspan⟩ : ∃ last,
      ((locus text).vicinity offset).beforeOnLine = some last ∧ last.leaf.invites = true ∧
        finding.replacement = replaced text offset := by
    rcases hrules with ⟨hkey, hvalue⟩ | hexpr
    · exact invites_of_propertyValue hname hfresh hkey hvalue
    · exact invites_of_expression hexpr
  obtain ⟨hlast, htrivia, hstart, hfront, hbetween⟩ := of_beforeOnLine honLine
  rw [← hreplacement, hspan]
  exact ⟨last, hlast, htrivia, hinvites, hstart, hfront, hbetween, replaced_cases text offset,
    isCommentAt_of_context hcontext, fun hopen =>
      stop_le_of_interpStart hcontext htype hlast hopen hinvites hstart⟩

end Document

end Caret
