import Caret.Completion
import Caret.Proofs.Context.Edits
import Caret.Proofs.Document.Leaves
import Caret.Proofs.Scope.Carried
import Mathlib.Order.WellFounded

/-!
# Contexts and suggestions carried over to another text

In a tree that is carried over to another text, the same is found around each place that is carried
over with it, and the same is suggested there.
-/

namespace Caret

namespace Relocation

variable (move : Relocation) (node : Locus) (offset : Nat)

/-! Sites -/

@[simp]
theorem missingAt_locus :
    (move.locus node).missingAt (move.place offset) = (node.missingAt offset).map move.locus := by
  have hsearch : (move.locus node).search (fun element => element.span.touches (move.place offset)) =
      (node.search fun element => element.span.touches offset).map move.locus :=
    move.search_locus node fun element => by simp
  simp [Locus.missingAt, hsearch]

@[simp]
theorem isCommentAt_locus :
    (move.locus node).isCommentAt (move.place offset) = node.isCommentAt offset := by
  rw [Locus.isCommentAt, tokensAt_locus]
  refine move.any_map (fun token => ?_) _
  simp only [span_locus, kind_locus, start_span, stop_span, place_lt_place]
  cases hkind : token.kind
  case blockComment =>
    have htext : (move.locus token).text = token.text := move.text_locus (by simp [hkind])
    rw [htext]
  all_goals rfl

@[simp]
theorem isStringAround_locus :
    Locus.isStringAround (move.place offset) (move.locus node) =
      Locus.isStringAround offset node := by
  simp only [Locus.isStringAround, kind_locus, parent_locus, span_locus, stop_span, place_lt_place,
    isTerminated_locus]
  cases node.parent <;> simp

@[simp]
theorem innermostString_locus :
    Locus.innermostString (move.locus node) (move.place offset) =
      (Locus.innermostString node offset).map move.locus := by
  have hsearch : (move.locus node).search (fun element =>
        element.span.start < move.place offset && move.place offset ≤ element.span.stop) =
      (node.search fun element =>
        element.span.start < offset && offset ≤ element.span.stop).map move.locus :=
    move.search_locus node fun element => by simp
  rw [Locus.innermostString, hsearch, move.filter_map fun locus => move.isStringAround_locus locus offset,
    List.getLast?_map]
  rfl

@[simp]
theorem isInHole_locus :
    Locus.isInHole (move.place offset) (move.locus node) = Locus.isInHole offset node := by
  simp only [Locus.isInHole, tokenOf_locus]
  cases node.tokenOf .interpStart with
  | none => rfl
  | some opening => cases node.tokenOf .interpEnd <;> simp

@[simp]
theorem isInDelimiter_locus :
    Locus.isInDelimiter (move.locus node) (move.place offset) =
      Locus.isInDelimiter node offset := by
  simp [Locus.isInDelimiter, List.filter_map, List.flatMap_map, Function.comp_def]

@[simp]
theorem regionInString_locus :
    Locus.regionInString (move.locus node) (move.place offset) =
      Locus.regionInString node offset := by
  simp [Locus.regionInString, Function.comp_def]

@[simp]
theorem regionAt_locus : (move.locus node).regionAt (move.place offset) = node.regionAt offset := by
  simp [Locus.regionAt, Function.comp_def]

@[simp]
theorem pickToken_map (tokens : List Locus) :
    Locus.pickToken (tokens.map move.locus) = (Locus.pickToken tokens).map move.locus := by
  match tokens with
  | [] => rfl
  | [_] => rfl
  | left :: right :: _ =>
      simp only [List.map_cons, Locus.pickToken, kind_locus]
      split <;> rfl

def site (site : Site) : Site :=
  { offset := move.place site.offset
    node := move.locus site.node
    token := site.token.map move.locus
    region := site.region }

theorem resolve_locus :
    (move.locus node).resolve (move.place offset) = move.site (node.resolve offset) := by
  simp only [Locus.resolve, site, tokensAt_locus, pickToken_map, missingAt_locus, regionAt_locus,
    Site.mk.injEq, true_and, and_true]
  cases node.missingAt offset with
  | some missing => rfl
  | none =>
      cases Locus.pickToken (node.tokensAt offset) with
      | none => rfl
      | some token => cases h : token.parent <;> simp [h]

/-! What stands around a place -/

@[simp]
theorem tokenBefore_locus :
    (move.locus node).tokenBefore (move.place offset) =
      (node.tokenBefore offset).map move.locus := by
  rw [Locus.tokenBefore, Locus.tokenBefore, tokensAt_locus]
  match node.tokensAt offset with
  | [] => rfl
  | [token] =>
      simp only [List.map_cons, List.map_nil, span_locus, start_span, place_lt_place,
        previousToken_locus]
      split <;> rfl
  | _ :: _ :: _ => rfl

theorem skipBackFor_locus (skip : Kind → Bool) (fuel : Nat) (token : Locus) :
    Locus.skipBackFor skip fuel (move.locus token) =
      (Locus.skipBackFor skip fuel token).map move.locus := by
  induction fuel generalizing token with
  | zero => rfl
  | succ fuel ih =>
      rw [Locus.skipBackFor, Locus.skipBackFor, kind_locus, previousToken_locus]
      split
      · cases token.previousToken with
        | none => rfl
        | some previous => exact ih previous
      · rfl

end Relocation

namespace Document

variable {text : String} {leaf : Locus} {offset : Nat}

/-- Each leaf that is skipped starts before the one behind it, so there is no need for more fuel. -/
theorem skipBackFor_eq_skipBack (skip : Kind → Bool) (hleaf : leaf ∈ (locus text).leaves)
    {fuel : Nat} (h : leaf.span.start < fuel) :
    Locus.skipBackFor skip fuel leaf = leaf.skipBack skip := by
  have hfuels : ∀ fuel fuel' leaf, leaf ∈ (locus text).leaves → leaf.span.start < fuel →
      leaf.span.start < fuel' →
        Locus.skipBackFor skip fuel leaf = Locus.skipBackFor skip fuel' leaf := by
    intro fuel
    induction fuel with
    | zero => intro fuel' leaf _ h; cases h
    | succ fuel ih =>
        intro fuel' leaf hleaf h h'
        cases fuel' with
        | zero => cases h'
        | succ fuel' =>
            rw [Locus.skipBackFor, Locus.skipBackFor]
            split
            · cases hprevious : leaf.previousToken with
              | none => rfl
              | some previous =>
                  obtain ⟨hmem, hstop⟩ := previousToken_eq_some hleaf hprevious
                  have hne := start_lt_stop hmem
                  exact ih fuel' previous hmem (by omega) (by omega)
            · rfl
  exact hfuels _ _ leaf hleaf h (Nat.lt_succ_self _)

end Document

namespace Relocation

variable (move : Relocation) (text : String) (offset : Nat)

theorem skipBack_locus {leaf : Locus} (skip : Kind → Bool) (hleaf : leaf ∈ (Document.locus text).leaves) :
    (move.locus leaf).skipBack skip = (leaf.skipBack skip).map move.locus := by
  have hle : leaf.span.start ≤ move.place leaf.span.start := move.strictMono.le_apply
  rw [Locus.skipBack, skipBackFor_locus, span_locus, start_span,
    Document.skipBackFor_eq_skipBack skip hleaf (by omega)]

def vicinity (place : Vicinity) : Vicinity :=
  { root := move.locus place.root
    offset := move.place place.offset
    word := place.word.map move.locus
    beforeOnLine := place.beforeOnLine.map move.locus
    before := place.before.map move.locus }

theorem skipBack_tokenBefore (start : Nat) :
    ((move.locus (Document.locus text)).tokenBefore (move.place start)).bind
        (Locus.skipBack Kind.isTrivia) =
      (((Document.locus text).tokenBefore start).bind (Locus.skipBack Kind.isTrivia)).map
        move.locus := by
  rw [tokenBefore_locus]
  cases htoken : (Document.locus text).tokenBefore start with
  | none => rfl
  | some token => exact move.skipBack_locus text _ (Document.tokenBefore_eq_some_iff.1 htoken).1

theorem skipBack_skipBack (start : Nat) (skip : Kind → Bool) :
    ((((Document.locus text).tokenBefore start).bind (Locus.skipBack Kind.isTrivia)).map
        move.locus).bind (Locus.skipBack skip) =
      ((((Document.locus text).tokenBefore start).bind (Locus.skipBack Kind.isTrivia)).bind
        (Locus.skipBack skip)).map move.locus := by
  cases htoken : (Document.locus text).tokenBefore start with
  | none => rfl
  | some token =>
      have hleaf := (Document.tokenBefore_eq_some_iff.1 htoken).1
      rw [Option.bind_some]
      cases hskip : token.skipBack Kind.isTrivia with
      | none => rfl
      | some line => exact move.skipBack_locus text _ (Document.skipBack_eq_some hleaf hskip).1

/-- The tokens around a place are carried over with it. -/
theorem vicinity_locus :
    (move.locus (Document.locus text)).vicinity (move.place offset) =
      move.vicinity ((Document.locus text).vicinity offset) := by
  have hword : ((move.locus (Document.locus text)).tokensAt (move.place offset)).find?
      (fun token => token.kind.isWord && token.span.start < move.place offset) =
        (((Document.locus text).tokensAt offset).find? fun token =>
          token.kind.isWord && token.span.start < offset).map move.locus := by
    simp
  rw [Locus.vicinity, Locus.vicinity, hword]
  generalize ((Document.locus text).tokensAt offset).find? _ = word
  cases word with
  | none => simp only [Option.map_none, skipBack_tokenBefore, skipBack_skipBack, vicinity]
  | some word =>
      simp only [Option.map_some, span_locus, start_span, skipBack_tokenBefore, skipBack_skipBack,
        vicinity]

/-! What is found there -/

open Context (Finding)

def finding (finding : Finding) : Finding :=
  { kind := finding.kind
    node := move.locus finding.node
    replacement := move.span finding.replacement
    typedFrom := move.place finding.typedFrom }

variable (place : Vicinity)

@[simp]
theorem found_vicinity (kind : ContextKind) (node : Locus) :
    (move.vicinity place).found kind (move.locus node) = move.finding (place.found kind node) := by
  rw [Vicinity.found, Vicinity.found, vicinity]
  cases place.word <;> simp [finding]

@[simp]
theorem wordKind_vicinity : (move.vicinity place).wordKind = place.wordKind := by
  simp [Vicinity.wordKind, vicinity, Function.comp_def]

@[simp]
theorem wordParentKind_vicinity :
    (move.vicinity place).wordParentKind = place.wordParentKind := by
  rw [Vicinity.wordParentKind, Vicinity.wordParentKind, vicinity]
  cases place.word with
  | none => rfl
  | some word => cases h : word.parent <;> simp [h]

@[simp]
theorem beforeIn_vicinity (token : Kind) (nodes : List Kind) :
    (move.vicinity place).beforeIn token nodes =
      (place.beforeIn token nodes).map move.locus := by
  rw [Vicinity.beforeIn, Vicinity.beforeIn, vicinity]
  cases place.before with
  | none => rfl
  | some before =>
      simp only [Option.map_some, bind, Option.bind_some, kind_locus, parent_locus]
      by_cases hkind : before.kind = token
      · cases hparent : before.parent with
        | none => simp [hkind]
        | some parent => by_cases hnodes : parent.kind ∈ nodes <;> simp [hkind, hnodes]
      · simp [hkind]

theorem findSome?_map {find : Locus → Option Locus}
    (h : ∀ node, find (move.locus node) = (find node).map move.locus) (loci : List Locus) :
    (loci.map move.locus).findSome? find = (loci.findSome? find).map move.locus := by
  induction loci with
  | nil => rfl
  | cons first rest ih =>
      rw [List.map_cons, List.findSome?_cons, List.findSome?_cons, h, ih]
      cases find first <;> rfl

theorem insideTypeString_vicinity :
    (move.vicinity place).insideTypeString = place.insideTypeString.map move.finding := by
  have htype : (((place.root.tokensAt place.offset).map move.locus).findSome? fun token =>
        token.properAncestors.find? fun ancestor => ancestor.kind = .resourceType) =
      ((place.root.tokensAt place.offset).findSome? fun token =>
        token.properAncestors.find? fun ancestor => ancestor.kind = .resourceType).map
          move.locus :=
    move.findSome?_map (fun token => by simp) _
  simp only [Vicinity.insideTypeString, vicinity, tokensAt_locus, htype]
  generalize (place.root.tokensAt place.offset).findSome? _ = typeNode
  simp [Option.bind_map, Option.map_bind, Function.comp_def, finding]

theorem missingType_vicinity :
    (move.vicinity place).missingType = place.missingType.map move.finding := by
  simp [Vicinity.missingType, Option.bind_map, Option.map_bind]

theorem resourceType_vicinity :
    (move.vicinity place).resourceType = place.resourceType.map move.finding := by
  rw [Vicinity.resourceType, insideTypeString_vicinity, missingType_vicinity, ← Option.map_or]
  rfl

theorem decoratorName_vicinity :
    (move.vicinity place).decoratorName = place.decoratorName.map move.finding := by
  simp [Vicinity.decoratorName, Option.bind_map, Option.map_bind]

theorem resourceHeader_vicinity :
    (move.vicinity place).resourceHeader = place.resourceHeader.map move.finding := by
  have hword : (move.vicinity place).word.isSome = place.word.isSome := Option.isSome_map
  have hbefore : (move.vicinity place).before = place.before.map move.locus := rfl
  have hoffset : (move.vicinity place).offset = move.place place.offset := rfl
  simp [Vicinity.resourceHeader, hword, hbefore, hoffset, Option.bind_map, Option.map_bind]

theorem typeName_vicinity :
    (move.vicinity place).typeName = place.typeName.map move.finding := by
  have hword : (move.vicinity place).word.isNone = place.word.isNone := Option.isNone_map
  simp [Vicinity.typeName, hword, Option.bind_map, Option.map_bind]

theorem propertyKey_vicinity :
    (move.vicinity place).propertyKey = place.propertyKey.map move.finding := by
  have hline : (move.vicinity place).beforeOnLine = place.beforeOnLine.map move.locus := rfl
  simp [Vicinity.propertyKey, hline, Option.bind_map, Option.map_bind]

theorem propertyValue_vicinity :
    (move.vicinity place).propertyValue = place.propertyValue.map move.finding := by
  simp [Vicinity.propertyValue, Option.bind_map, Option.map_bind]

theorem memberAccess_vicinity :
    (move.vicinity place).memberAccess = place.memberAccess.map move.finding := by
  simp [Vicinity.memberAccess, Option.bind_map, Option.map_bind]

theorem resourceBody_vicinity :
    (move.vicinity place).resourceBody = place.resourceBody.map move.finding := by
  simp [Vicinity.resourceBody, Option.bind_map, Option.map_bind]

theorem startsLine_vicinity : (move.vicinity place).startsLine = place.startsLine := by
  rw [Vicinity.startsLine, Vicinity.startsLine, vicinity]
  cases place.beforeOnLine with
  | none => rfl
  | some token => cases h : token.parent <;> simp [h]

theorem declarations_vicinity :
    (move.vicinity place).declarations = place.declarations.map move.finding := by
  rw [Vicinity.declarations, Vicinity.declarations, startsLine_vicinity]
  split
  · exact congrArg some (move.found_vicinity place .declarations place.root)
  · rfl

theorem expressionAfter_vicinity (token node : Kind) :
    (move.vicinity place).expressionAfter token node = place.expressionAfter token node := by
  simp [Vicinity.expressionAfter]

theorem expression_vicinity :
    (move.vicinity place).expression = place.expression.map move.finding := by
  have hline : (move.vicinity place).beforeOnLine.filter (fun token => token.kind = .newline) =
      (place.beforeOnLine.filter fun token => token.kind = .newline).map move.locus := by
    simp [vicinity, Option.filter_map, Function.comp_def]
  have hbefore : (move.vicinity place).before = place.before.map move.locus := rfl
  rw [Vicinity.expression, Vicinity.expression, hline]
  cases place.beforeOnLine.filter fun token => token.kind = .newline with
  | none => simp [hbefore, expressionAfter_vicinity, Option.bind_map, Option.map_bind]
  | some newline => simp [Option.bind_map, Option.map_bind]

theorem finding_vicinity :
    (move.vicinity place).finding = place.finding.map move.finding := by
  have hrules : ∀ rule ∈ Vicinity.rules,
      rule (move.vicinity place) = (rule place).map move.finding := by
    simp only [Vicinity.rules, List.forall_mem_cons]
    exact ⟨move.resourceType_vicinity place, move.decoratorName_vicinity place,
      move.resourceHeader_vicinity place, move.typeName_vicinity place,
      move.propertyKey_vicinity place, move.propertyValue_vicinity place,
      move.memberAccess_vicinity place, move.resourceBody_vicinity place,
      move.declarations_vicinity place, move.expression_vicinity place, by simp⟩
  rw [Vicinity.finding, Vicinity.finding]
  generalize Vicinity.rules = rules at hrules
  induction rules with
  | nil => rfl
  | cons rule rules ih =>
      obtain ⟨hrule, hrest⟩ := List.forall_mem_cons.1 hrules
      rw [List.findSome?_cons, List.findSome?_cons, hrule, ih hrest]
      cases rule place <;> rfl

/-! Contexts and suggestions -/

/-- The same context in a tree that is carried over. The typed text is the same where it matters,
which is in the type of a resource. -/
structure Carries (context context' : Context) : Prop where
  kind : context'.kind = context.kind
  node : context'.node = move.locus context.node
  anchor : context'.anchor = move.locus context.anchor
  replacement : context'.replacement = move.span context.replacement
  typed : context.kind = .resourceType → context'.typed = context.typed

/-- Where something is found, the context is carried over if the typed text is. -/
theorem carries_classify {text text' : String} {root : Locus} {site : Site}
    (hvicinity : (move.locus root).vicinity (move.place site.offset) =
      move.vicinity (root.vicinity site.offset))
    (htyped : ∀ finding, (root.vicinity site.offset).finding = some finding →
      finding.kind = .resourceType → (Context.classify root text site).isSome = true →
        (Bytes.slice text' (move.place (min finding.typedFrom site.offset))
            (move.place site.offset)).getD "" =
          (Bytes.slice text (min finding.typedFrom site.offset) site.offset).getD "") :
    Option.Rel move.Carries (Context.classify root text site)
      (Context.classify (move.locus root) text' (move.site site)) := by
  have hsilent : ((move.site site).isInStringBody || (move.site site).isInComment) =
      (site.isInStringBody || site.isInComment) := rfl
  have hoffset : (move.site site).offset = move.place site.offset := rfl
  rw [Context.classify] at htyped
  rw [Context.classify, Context.classify, hsilent, hoffset, hvicinity]
  split
  · exact .none
  · rename_i hspeaks
    rw [if_neg hspeaks] at htyped
    simp only [finding_vicinity]
    cases hfinding : (root.vicinity site.offset).finding with
    | none => exact .none
    | some finding =>
        refine .some ⟨rfl, rfl, ?_, rfl, fun hkind => ?_⟩
        · rw [vicinity]
          cases (root.vicinity site.offset).word with
          | none => rfl
          | some word => cases h : word.parent <;> simp [h, Relocation.site]
        · have hmin : min (move.finding finding).typedFrom (move.place site.offset) =
              move.place (min finding.typedFrom site.offset) :=
            (move.strictMono.monotone.map_min).symm
          simpa only [hmin] using htyped finding hfinding hkind (by simp [hfinding])

def suggestion (suggestion : Suggestion) : Suggestion :=
  { suggestion with
    replacement := suggestion.replacement.map move.span
    additionalEdits := suggestion.additionalEdits.map fun edit =>
      { edit with span := move.span edit.span } }

theorem suggestion_of_isBare {suggestion : Suggestion} (h : Completion.IsBare suggestion) :
    move.suggestion suggestion = suggestion := by
  obtain ⟨hreplacement, hedits⟩ := h
  rw [Relocation.suggestion, hreplacement, hedits, Option.map_none, List.map_nil, ← hreplacement,
    ← hedits]

variable {context context' : Context} (given : Typing) (settings : Settings)

theorem resourceTypes_of_carries (h : move.Carries context context')
    (hkind : context.kind = .resourceType) :
    Completion.resourceTypes ⟨context', move.typing given, settings⟩ =
      (Completion.resourceTypes ⟨context, given, settings⟩).map move.suggestion := by
  have hmatches : Completion.matchesTyped ⟨context', move.typing given, settings⟩ =
      Completion.matchesTyped ⟨context, given, settings⟩ := by
    funext id
    simp only [Completion.matchesTyped, h.typed hkind]
  simp only [Completion.resourceTypes, hmatches, h.typed hkind, h.replacement, List.map_map]
  rfl

theorem member_dot (dot : Option Locus) (member : Member) :
    Completion.member (dot.map move.locus) member =
      move.suggestion (Completion.member dot member) := by
  simp only [Completion.member]
  split
  · rfl
  · cases dot with
    | none => rfl
    | some dot => exact congrArg (Suggestion.withEdit _ · "") (move.span_locus dot)

theorem members_of_carries (h : move.Carries context context') :
    Completion.members ⟨context', move.typing given, settings⟩ =
      (Completion.members ⟨context, given, settings⟩).map move.suggestion := by
  have hoperand : (context'.node.ofKind .propertyAccess).bind Locus.operand =
      ((context.node.ofKind .propertyAccess).bind Locus.operand).map move.locus := by
    rw [h.node, ofKind_locus]
    cases context.node.ofKind .propertyAccess <;> simp
  have hshape : ((context'.node.ofKind .propertyAccess).bind Locus.operand).bind
      (move.typing given).valueShape =
        ((context.node.ofKind .propertyAccess).bind Locus.operand).bind given.valueShape := by
    rw [hoperand, Option.bind_map]
    exact congrArg (Option.bind _) (funext fun receiver => move.valueShape_locus given receiver)
  unfold Completion.members
  dsimp only
  rw [hshape, h.node, tokenOf_locus]
  cases ((context.node.ofKind .propertyAccess).bind Locus.operand).bind given.valueShape with
  | none => rfl
  | some shape =>
      rw [List.map_map]
      exact List.map_congr_left fun member _ => move.member_dot _ member

theorem presentKeys_locus (object : Locus) (replaced : Span) :
    Completion.presentKeys (move.locus object) (move.span replaced) =
      Completion.presentKeys object replaced := by
  have hkeys : (object.properties.map move.locus).filterMap Locus.keyNode =
      (object.properties.filterMap Locus.keyNode).map move.locus := by
    simp [List.filterMap_map, List.map_filterMap]
  simp only [Completion.presentKeys, properties_locus, hkeys, isEmpty_span]
  rw [move.filter_map fun key => by rw [span_locus, contains_span], List.filterMap_map]
  exact congrFun (congrArg List.filterMap (funext move.keyText_locus)) _

theorem propertyKeys_of_carries (h : move.Carries context context') :
    Completion.propertyKeys ⟨context', move.typing given, settings⟩ =
      Completion.propertyKeys ⟨context, given, settings⟩ := by
  have hshape : (context'.node.ofKind .object).bind (move.typing given).expected =
      (context.node.ofKind .object).bind given.expected := by
    rw [h.node, ofKind_locus]
    cases context.node.ofKind .object with
    | none => rfl
    | some object => exact move.expected_locus object given
  unfold Completion.propertyKeys
  dsimp only
  rw [hshape, h.node, h.replacement, presentKeys_locus]
  rfl

theorem expressions_of_carries (h : move.Carries context context') (arrayStart : Bool) :
    Completion.expressions ⟨context', move.typing given, settings⟩ arrayStart =
      Completion.expressions ⟨context, given, settings⟩ arrayStart := by
  have hvisible : (move.typing given).scopes.visibleFrom context'.anchor =
      (given.scopes.visibleFrom context.anchor).map move.symbol := by
    rw [h.anchor]
    exact move.visibleFrom_locus _ _
  simp only [Completion.expressions, hvisible, List.map_map]
  rfl

theorem propertyValues_of_carries (h : move.Carries context context') :
    Completion.propertyValues ⟨context', move.typing given, settings⟩ =
      Completion.propertyValues ⟨context, given, settings⟩ := by
  simp only [Completion.propertyValues, h.node, propertyShape_locus,
    move.expressions_of_carries given settings h]

theorem resourceBodies_of_carries (h : move.Carries context context') :
    Completion.resourceBodies ⟨context', move.typing given, settings⟩ =
      Completion.resourceBodies ⟨context, given, settings⟩ := by
  simp only [Completion.resourceBodies, h.node, bodyShape_locus]

/-- Away from the types of resources and from members, the suggestions are the same. -/
theorem raw_eq_of_carries (h : move.Carries context context')
    (htype : context.kind ≠ .resourceType) (hmember : context.kind ≠ .memberAccess) :
    Completion.raw ⟨context', move.typing given, settings⟩ =
      Completion.raw ⟨context, given, settings⟩ := by
  rw [Completion.raw, Completion.raw, h.kind]
  cases hkind : context.kind with
  | resourceType => contradiction
  | memberAccess => contradiction
  | decoratorName => rfl
  | resourceHeader => rfl
  | typeName => rfl
  | declarations => rfl
  | propertyKey => exact move.propertyKeys_of_carries given settings h
  | propertyValue => exact move.propertyValues_of_carries given settings h
  | resourceBody => exact move.resourceBodies_of_carries given settings h
  | expression arrayStart => exact move.expressions_of_carries given settings h arrayStart

/-- What is suggested in a context that is carried over is carried over with it. -/
theorem raw_of_carries (h : move.Carries context context') :
    Completion.raw ⟨context', move.typing given, settings⟩ =
      (Completion.raw ⟨context, given, settings⟩).map move.suggestion := by
  by_cases htype : context.kind = .resourceType
  · rw [Completion.raw, Completion.raw, h.kind, htype]
    exact move.resourceTypes_of_carries given settings h htype
  by_cases hmember : context.kind = .memberAccess
  · rw [Completion.raw, Completion.raw, h.kind, hmember]
    exact move.members_of_carries given settings h
  · have hbare : ∀ suggestion ∈ Completion.raw ⟨context, given, settings⟩,
        id suggestion = move.suggestion suggestion := fun suggestion hmem =>
      (move.suggestion_of_isBare (Completion.isBare_of_mem_raw htype hmember hmem)).symm
    rw [move.raw_eq_of_carries given settings h htype hmember, ← List.map_congr_left hbare,
      List.map_id]

theorem normalize_placed (replacement : Span) (suggestion : Suggestion) (size : Nat) :
    (Completion.placed (move.span replacement) (move.suggestion suggestion)).normalize
        (move.place size) =
      move.suggestion ((Completion.placed replacement suggestion).normalize size) := by
  have hnone : (move.suggestion suggestion).replacement.isNone = suggestion.replacement.isNone :=
    Option.isNone_map
  rw [Completion.placed, Completion.placed, hnone, isEmpty_span]
  split
  · simp [Suggestion.normalize, Relocation.suggestion, Suggestion.replacing, clamp_span]
  · simp [Suggestion.normalize, Relocation.suggestion, clamp_span, Function.comp_def]

/-- The suggestions in a context that is carried over, up to the end of the text that it is carried
over to. -/
theorem suggestions_of_carries (h : move.Carries context context') (size : Nat) :
    Completion.suggestions ⟨context', move.typing given, settings⟩ (move.place size) =
      (Completion.suggestions ⟨context, given, settings⟩ size).map move.suggestion := by
  have hwanted (raw : List Suggestion) : (raw.map move.suggestion).filter
        (fun suggestion => settings.snippets || !suggestion.isSnippet) =
      (raw.filter fun suggestion => settings.snippets || !suggestion.isSnippet).map
        move.suggestion := List.filter_map
  have hsorted (raw : List Suggestion) :
      (raw.map move.suggestion).mergeSort (fun a b => !(b.label < a.label)) =
        (raw.mergeSort fun a b => !(b.label < a.label)).map move.suggestion := by
    refine (List.map_mergeSort ?_).symm
    intro first _ second _
    rfl
  simp only [Completion.suggestions, Completion.finish, move.raw_of_carries given settings h,
    hwanted, distinctBy_map, hsorted, h.replacement]
  rw [List.map_map, List.map_map]
  exact List.map_congr_left fun suggestion _ => move.normalize_placed _ suggestion size

end Relocation

end Caret
