import Caret.Proofs.Context.Providers
import Caret.Proofs.Scope.Carried

/-!
# Responses without snippets

Where snippets are not wanted, the same is suggested with other texts to insert. Only the required
properties of a body are lost, as there is no plain text for them.
-/

namespace Caret

namespace Suggestion

/-- What is told of a suggestion besides the text that it inserts. -/
def told (suggestion : Suggestion) : Suggestion := suggestion.withInsert ""

/-- Whether a suggestion is that of the required properties of a body. -/
def isRequired (suggestion : Suggestion) (kind : ContextKind) : Bool :=
  kind = .resourceBody && suggestion.label = "required-properties"

end Suggestion

namespace Completion

variable {context : Context} {typing : Typing} {settings settings' : Settings}
  {suggestion : Suggestion}

theorem told_function (settings : Settings) (builtin : Builtin) :
    (function settings builtin).told = (((Suggestion.ofLabel builtin.name .function).withDetail
      (builtin.name ++ builtin.signature)).withDocumentation (some builtin.description)).told := by
  unfold function
  dsimp only
  split
  · rfl
  · split <;> rfl

theorem told_snippetOr (settings : Settings) (suggestion : Suggestion) (snippet plain : String) :
    (snippetOr settings suggestion snippet plain).told = suggestion.told := by
  unfold snippetOr
  split <;> rfl

theorem told_propertyKey (settings : Settings) (member : Member) :
    (propertyKey settings member).told = (((Suggestion.ofLabel member.name .property).withDetail
      member.detail).withDocumentation member.description).told := by
  unfold propertyKey
  dsimp only
  split
  · rfl
  · split <;> rfl

theorem map_told_valueHints (settings settings' : Settings) (shape : Shape) :
    (valueHints settings shape).map Suggestion.told =
      (valueHints settings' shape).map Suggestion.told := by
  unfold valueHints
  split
  · simp only [List.map_cons, List.map_nil, told_snippetOr]
  · simp only [List.map_cons, List.map_nil, told_snippetOr]
  all_goals rfl

theorem map_told_expressions (arrayStart : Bool) :
    (expressions ⟨context, typing, settings⟩ arrayStart).map Suggestion.told =
      (expressions ⟨context, typing, settings'⟩ arrayStart).map Suggestion.told := by
  unfold expressions
  simp only [List.map_append, List.map_map, Function.comp_def, told_function]

theorem map_told_propertyValues :
    (propertyValues ⟨context, typing, settings⟩).map Suggestion.told =
      (propertyValues ⟨context, typing, settings'⟩).map Suggestion.told := by
  have hexpressions := @map_told_expressions context typing settings settings' false
  unfold propertyValues
  rw [List.map_append, List.map_append, hexpressions]
  dsimp only
  split
  · rfl
  · rw [map_told_valueHints settings settings']

theorem map_told_propertyKeys :
    (propertyKeys ⟨context, typing, settings⟩).map Suggestion.told =
      (propertyKeys ⟨context, typing, settings'⟩).map Suggestion.told := by
  unfold propertyKeys
  dsimp only
  split
  · rfl
  · simp only [List.map_map, Function.comp_def, told_propertyKey]

theorem map_told_resourceBodies :
    (resourceBodies ⟨context, typing, settings⟩).map Suggestion.told =
      (resourceBodies ⟨context, typing, settings'⟩).map Suggestion.told := by
  unfold resourceBodies
  dsimp only
  split
  · simp only [List.map_cons, List.map_nil, told_snippetOr]
  · split
    · simp only [List.map_cons, List.map_nil, told_snippetOr]
    · simp only [List.map_cons, List.map_nil, told_snippetOr]

/-- Settings that differ in the snippets alone lead to the same suggestions, but for what these
insert. -/
theorem map_told_raw (hcase : settings.caseSensitiveTypes = settings'.caseSensitiveTypes)
    (hdecorators : settings.decorators = settings'.decorators) :
    (raw ⟨context, typing, settings⟩).map Suggestion.told =
      (raw ⟨context, typing, settings'⟩).map Suggestion.told := by
  unfold raw
  cases context.kind with
  | resourceType =>
      have hmatches : matchesTyped ⟨context, typing, settings⟩ =
          matchesTyped ⟨context, typing, settings'⟩ := by
        funext id
        simp only [matchesTyped, hcase]
      simp only [resourceTypes, hmatches]
  | decoratorName =>
      simp only [decorators, hdecorators]
      split
      · simp only [List.map_map, Function.comp_def, told_function]
      · rfl
  | propertyKey => exact map_told_propertyKeys
  | propertyValue => exact map_told_propertyValues
  | resourceBody => exact map_told_resourceBodies
  | expression arrayStart => exact map_told_expressions arrayStart
  | _ => rfl

theorem isSnippet_snippetOr (h : settings.snippets = false) (suggestion : Suggestion)
    (snippet plain : String) :
    (snippetOr settings suggestion snippet plain).isSnippet = false := by
  rw [snippetOr, h]
  rfl

theorem isSnippet_function (h : settings.snippets = false) (builtin : Builtin) :
    (function settings builtin).isSnippet = false := by
  unfold function
  dsimp only
  split
  · rfl
  · rw [h]
    rfl

theorem isSnippet_of_mem_valueHints (h : settings.snippets = false) {shape : Shape}
    (hmem : suggestion ∈ valueHints settings shape) : suggestion.isSnippet = false := by
  unfold valueHints at hmem
  split at hmem
  · rw [List.mem_singleton.1 hmem, isSnippet_snippetOr h]
  · rw [List.mem_singleton.1 hmem, isSnippet_snippetOr h]
  · obtain ⟨value, -, rfl⟩ := List.mem_map.1 hmem
    rfl
  · obtain ⟨value, -, rfl⟩ := List.mem_map.1 hmem
    rfl
  · cases hmem

theorem isSnippet_of_mem_expressions (h : settings.snippets = false) {arrayStart : Bool}
    (hmem : suggestion ∈ expressions ⟨context, typing, settings⟩ arrayStart) :
    suggestion.isSnippet = false := by
  unfold expressions at hmem
  rw [List.mem_append, List.mem_append] at hmem
  rcases hmem with (hmem | hmem) | hmem
  · obtain ⟨symbol, -, rfl⟩ := List.mem_map.1 hmem
    rfl
  · obtain ⟨builtin, -, rfl⟩ := List.mem_map.1 hmem
    exact isSnippet_function h builtin
  · split at hmem
    · obtain ⟨keyword, -, rfl⟩ := List.mem_map.1 hmem
      rfl
    · cases hmem

theorem isSnippet_of_mem_decorators (h : settings.snippets = false)
    (hmem : suggestion ∈ decorators ⟨context, typing, settings⟩) : suggestion.isSnippet = false := by
  unfold decorators at hmem
  split at hmem
  · obtain ⟨builtin, -, rfl⟩ := List.mem_map.1 hmem
    exact isSnippet_function h builtin
  · cases hmem

theorem isSnippet_of_mem_propertyKeys (h : settings.snippets = false)
    (hmem : suggestion ∈ propertyKeys ⟨context, typing, settings⟩) :
    suggestion.isSnippet = false := by
  unfold propertyKeys at hmem
  split at hmem
  · cases hmem
  · obtain ⟨entry, -, rfl⟩ := List.mem_map.1 hmem
    simp only [propertyKey, h]
    rfl

theorem isSnippet_of_mem_propertyValues (h : settings.snippets = false)
    (hmem : suggestion ∈ propertyValues ⟨context, typing, settings⟩) :
    suggestion.isSnippet = false := by
  rcases List.mem_append.1 hmem with hmem | hmem
  · split at hmem
    · cases hmem
    · exact isSnippet_of_mem_valueHints h hmem
  · exact isSnippet_of_mem_expressions h hmem

theorem isSnippet_of_mem_members (hmem : suggestion ∈ members ⟨context, typing, settings⟩) :
    suggestion.isSnippet = false := by
  unfold members at hmem
  dsimp only at hmem
  split at hmem
  · cases hmem
  · obtain ⟨entry, -, rfl⟩ := List.mem_map.1 hmem
    exact isSnippet_member _ entry

/-- The empty body is plain text without snippets; the required properties stay one. -/
theorem isSnippet_of_mem_resourceBodies (h : settings.snippets = false)
    (hmem : suggestion ∈ resourceBodies ⟨context, typing, settings⟩) :
    suggestion.isSnippet = decide (suggestion.label = "required-properties") := by
  have hblank : ∀ snippet plain, (snippetOr settings ((Suggestion.ofLabel "\x7b\x7d"
      .snippet).withDetail "Empty body") snippet plain).label = "\x7b\x7d" := fun snippet plain =>
    congrArg Suggestion.label (told_snippetOr settings _ snippet plain)
  unfold resourceBodies at hmem
  dsimp only at hmem
  split at hmem
  · rw [List.mem_singleton.1 hmem, isSnippet_snippetOr h, hblank]
    decide
  · split at hmem
    · rw [List.mem_singleton.1 hmem, isSnippet_snippetOr h, hblank]
      decide
    · rcases List.mem_cons.1 hmem with rfl | hmem
      · rw [isSnippet_snippetOr h, hblank]
        decide
      · rw [List.mem_singleton.1 hmem]
        rfl

/-- Without snippets, only the required properties of a body are written as one. -/
theorem isSnippet_of_mem_raw (h : settings.snippets = false)
    (hmem : suggestion ∈ raw ⟨context, typing, settings⟩) :
    suggestion.isSnippet = suggestion.isRequired context.kind := by
  unfold raw at hmem
  unfold Suggestion.isRequired
  cases hkind : context.kind <;> rw [hkind] at hmem
  case resourceType =>
    obtain ⟨id, -, rfl⟩ := List.mem_map.1 hmem
    rfl
  case decoratorName => exact isSnippet_of_mem_decorators h hmem
  case resourceHeader =>
    obtain ⟨keyword, -, rfl⟩ := List.mem_map.1 hmem
    rfl
  case typeName =>
    obtain ⟨name, -, rfl⟩ := List.mem_map.1 hmem
    rfl
  case propertyKey => exact isSnippet_of_mem_propertyKeys h hmem
  case propertyValue => exact isSnippet_of_mem_propertyValues h hmem
  case memberAccess => exact isSnippet_of_mem_members hmem
  case resourceBody => exact isSnippet_of_mem_resourceBodies h hmem
  case declarations =>
    obtain ⟨keyword, -, rfl⟩ := List.mem_map.1 hmem
    rfl
  case expression => exact isSnippet_of_mem_expressions h hmem

theorem told_normalize_placed (replacement : Span) (suggestion : Suggestion) (size : Nat) :
    ((placed replacement suggestion).normalize size).told =
      (placed replacement suggestion.told).normalize size := by
  unfold placed
  change _ = Suggestion.normalize (if suggestion.replacement.isNone && !replacement.isEmpty then
    suggestion.told.replacing replacement else suggestion.told) size
  split <;> rfl

/-- What is told of the suggestions does not depend on what they insert. -/
theorem map_told_finish (raw : List Suggestion) (replacement : Span) (settings settings' : Settings)
    (size : Nat) :
    (finish raw replacement settings size).map Suggestion.told =
      finish ((raw.filter fun suggestion => settings.snippets || !suggestion.isSnippet).map
        Suggestion.told) replacement settings' size := by
  unfold finish
  dsimp only
  generalize (raw.filter fun suggestion => settings.snippets || !suggestion.isSnippet) = wanted
  have hwanted : (wanted.map Suggestion.told).filter (fun suggestion =>
      settings'.snippets || !suggestion.isSnippet) = wanted.map Suggestion.told := by
    refine List.filter_eq_self.2 fun suggestion hmem => ?_
    obtain ⟨first, -, rfl⟩ := List.mem_map.1 hmem
    exact Bool.or_true _
  have hsorted (xs : List Suggestion) :
      (xs.map Suggestion.told).mergeSort (fun a b => !(b.label < a.label)) =
        (xs.mergeSort fun a b => !(b.label < a.label)).map Suggestion.told := by
    refine (List.map_mergeSort ?_).symm
    intro first _ second _
    rfl
  have hdistinct : distinctBy Suggestion.label (wanted.map Suggestion.told) =
      (distinctBy Suggestion.label wanted).map Suggestion.told :=
    distinctBy_map Suggestion.label Suggestion.told wanted
  rw [hwanted, hdistinct, hsorted, List.map_map, List.map_map]
  exact List.map_congr_left fun suggestion _ => told_normalize_placed replacement suggestion size

/-- Without snippets the suggestions are those with snippets, but for what they insert and for the
required properties of a body. -/
theorem map_told_suggestions (context : Context) (typing : Typing) (settings : Settings)
    (size : Nat) :
    (suggestions ⟨context, typing, { settings with snippets := false }⟩ size).map Suggestion.told =
      ((suggestions ⟨context, typing, { settings with snippets := true }⟩ size).filter
        fun suggestion => !suggestion.isRequired context.kind).map Suggestion.told := by
  generalize hplain : raw ⟨context, typing, { settings with snippets := false }⟩ = plain
  generalize hall : raw ⟨context, typing, { settings with snippets := true }⟩ = all
  have htold : plain.map Suggestion.told = all.map Suggestion.told := by
    rw [← hplain, ← hall]
    exact map_told_raw rfl rfl
  have hwanted : plain.filter (fun suggestion => false || !suggestion.isSnippet) =
      plain.filter fun suggestion => !suggestion.isRequired context.kind := by
    refine List.filter_congr fun suggestion hmem => ?_
    rw [← hplain] at hmem
    rw [isSnippet_of_mem_raw rfl hmem, Bool.false_or]
  have hkept (xs : List Suggestion) :
      (xs.filter fun suggestion => !suggestion.isRequired context.kind).map Suggestion.told =
        (xs.map Suggestion.told).filter fun suggestion => !suggestion.isRequired context.kind := by
    rw [List.filter_map]
    rfl
  have hfilter : (finish all context.replacement { settings with snippets := true } size).filter
      (fun suggestion => !suggestion.isRequired context.kind) =
        finish (all.filter fun suggestion => !suggestion.isRequired context.kind)
          context.replacement { settings with snippets := true } size := by
    refine (finish_filter ?_ ?_ _ _ _).symm
    · intro first _ second _ hlabel
      simp only [Suggestion.isRequired, hlabel]
    · intro suggestion replacement size
      simp only [Suggestion.isRequired, (kind_normalize_placed replacement suggestion size).2]
  calc (suggestions ⟨context, typing, { settings with snippets := false }⟩ size).map
        Suggestion.told
      = finish ((plain.filter fun suggestion => !suggestion.isRequired context.kind).map
          Suggestion.told) context.replacement settings size := by
        rw [suggestions, hplain, map_told_finish _ _ _ settings, hwanted]
    _ = finish ((all.filter fun suggestion => !suggestion.isRequired context.kind).map
          Suggestion.told) context.replacement settings size := by
        rw [hkept, htold, ← hkept]
    _ = ((suggestions ⟨context, typing, { settings with snippets := true }⟩ size).filter
          fun suggestion => !suggestion.isRequired context.kind).map Suggestion.told := by
        rw [suggestions, hall, hfilter, map_told_finish _ _ _ settings]
        simp only [Bool.true_or, List.filter_true]

theorem isSnippet_of_mem_suggestions {completion : Completion} {size : Nat}
    (h : completion.settings.snippets = false) (hmem : suggestion ∈ completion.suggestions size) :
    suggestion.isSnippet = false := by
  obtain ⟨made, hmade, rfl⟩ := mem_suggestions_iff.1 hmem
  have hwanted := (List.mem_filter.1 ((distinctBy_sublist _ _).subset hmade)).2
  have hformat := (givenOf_normalize_placed completion.context.replacement made size).format
  rw [h, Bool.false_or, Bool.not_eq_true'] at hwanted
  rw [Suggestion.isSnippet, hformat]
  exact hwanted

end Completion

namespace Document

/-- Whether a suggestion that is made at an offset is that of the required properties of a body. -/
def isRequiredAt (text : String) (offset : Nat) (suggestion : Suggestion) : Bool :=
  (Context.at? (locus text) text offset).any fun context => suggestion.isRequired context.kind

end Document

open Document in
/-- The response without snippets has no snippet. It is that with snippets but for the texts that are
inserted and for the required properties of a body, so that suggestions with one label tell the same
in both. -/
theorem completionsIn_without_snippets (text : String) (offset : Nat) (types : Provider)
    (settings : Settings) :
    (completionsIn text offset types { settings with snippets := false }).map
        (List.map Suggestion.told) =
      (completionsIn text offset types { settings with snippets := true }).map (fun given =>
        (given.filter fun suggestion => !isRequiredAt text offset suggestion).map
          Suggestion.told) ∧
    ∀ plain, completionsIn text offset types { settings with snippets := false } = .ok plain →
      (∀ suggestion ∈ plain, suggestion.isSnippet = false) ∧
      ∀ given, completionsIn text offset types { settings with snippets := true } = .ok given →
        ∀ first ∈ plain, ∀ second ∈ given, first.label = second.label →
          first.told = second.told := by
  cases hboundary : Bytes.isBoundary offset text with
  | false =>
      rw [completionsIn_eq_error _ _ hboundary, completionsIn_eq_error _ _ hboundary]
      exact ⟨rfl, fun plain h => by cases h⟩
  | true =>
      cases hcontext : Context.at? (locus text) text offset with
      | none =>
          rw [completionsIn_eq _ _ hboundary, completionsIn_eq _ _ hboundary, hcontext]
          refine ⟨rfl, fun plain h => ?_⟩
          cases h
          exact ⟨by simp, fun given _ first hfirst => by cases hfirst⟩
      | some context =>
          have hrequired : isRequiredAt text offset = fun suggestion =>
              suggestion.isRequired context.kind := by
            funext suggestion
            rw [isRequiredAt, hcontext, Option.any_some]
          have htold := Completion.map_told_suggestions context
            ⟨locus text, .ofRoot (locus text), types⟩ settings text.utf8ByteSize
          rw [completionsIn_eq_ok _ _ hboundary hcontext, completionsIn_eq_ok _ _ hboundary hcontext,
            hrequired]
          refine ⟨congrArg Except.ok htold, fun plain h => ?_⟩
          obtain rfl := Except.ok.inj h
          refine ⟨fun suggestion => Completion.isSnippet_of_mem_suggestions rfl, ?_⟩
          intro given hgiven first hfirst second hsecond hlabel
          obtain rfl := Except.ok.inj hgiven
          have hin := List.mem_map_of_mem (f := Suggestion.told) hfirst
          rw [htold] at hin
          obtain ⟨other, hother, heq⟩ := List.mem_map.1 hin
          have hlabels : other.label = second.label :=
            (congrArg Suggestion.label heq).trans hlabel
          have hnodup : List.Nodup (List.map Suggestion.label (Completion.suggestions
              ⟨context, ⟨locus text, .ofRoot (locus text), types⟩,
                { settings with snippets := true }⟩ text.utf8ByteSize)) :=
            (Completion.pairwise_labels _ _).imp fun hlt => String.ne_of_lt hlt
          rw [← heq, List.inj_on_of_nodup_map hnodup (List.mem_filter.1 hother).1 hsecond hlabels]

end Caret
