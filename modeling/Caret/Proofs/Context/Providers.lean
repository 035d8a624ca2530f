import Caret.Proofs.Context.Members
import Caret.Proofs.Scope.Lookups

/-!
# The responses of two providers

Two providers that agree on most things make responses of which one is a part of the other. A
catalog that holds its ids against the typed text itself leaves out an id that would be kept after it
where the case of a letter beyond ASCII makes the difference. A provider whose lookups fail takes
away what is made of the shape that was looked up, and nothing else.
-/

namespace Caret

section Distinct

variable {α β : Type} [BEq β] [LawfulBEq β] {key : α → β} {keep : α → Bool}

/-- It makes no difference to what is kept whether the first of each key is taken before or after,
where elements of one key are kept or left out together. -/
theorem distinctAfter_filter {seen seen' : List β} {xs : List α}
    (hkeep : ∀ x ∈ xs, ∀ y ∈ xs, key x = key y → keep x = keep y)
    (hseen : ∀ x ∈ xs, keep x = true → (key x ∈ seen' ↔ key x ∈ seen)) :
    distinctAfter key seen' (xs.filter keep) = (distinctAfter key seen xs).filter keep := by
  induction xs generalizing seen seen' with
  | nil => rfl
  | cons x xs ih =>
      have htail : ∀ a ∈ xs, ∀ b ∈ xs, key a = key b → keep a = keep b := fun a ha b hb =>
        hkeep a (List.mem_cons_of_mem x ha) b (List.mem_cons_of_mem x hb)
      have hseenTail : ∀ y ∈ xs, keep y = true → (key y ∈ seen' ↔ key y ∈ seen) := fun y hy =>
        hseen y (List.mem_cons_of_mem x hy)
      cases hx : keep x with
      | true =>
          have hhead := hseen x List.mem_cons_self hx
          have hcontains : seen'.contains (key x) = seen.contains (key x) := by
            rw [Bool.eq_iff_iff, List.contains_iff_mem, List.contains_iff_mem, hhead]
          rw [List.filter_cons_of_pos hx, distinctAfter, distinctAfter, hcontains]
          split
          · exact ih htail hseenTail
          · rw [List.filter_cons_of_pos hx]
            refine congrArg (x :: ·) (ih htail fun y hy hkept => ?_)
            rw [List.mem_cons, List.mem_cons, hseenTail y hy hkept]
      | false =>
          have hnot : ¬keep x = true := by simp [hx]
          rw [List.filter_cons_of_neg hnot, distinctAfter]
          split
          · exact ih htail hseenTail
          · rw [List.filter_cons_of_neg hnot]
            refine ih htail fun y hy hkept => ?_
            have hne : key y ≠ key x := fun heq => by
              rw [hkeep y (List.mem_cons_of_mem x hy) x List.mem_cons_self heq, hx] at hkept
              cases hkept
            rw [List.mem_cons, hseenTail y hy hkept]
            simp [hne]

theorem distinctBy_filter {xs : List α}
    (hkeep : ∀ x ∈ xs, ∀ y ∈ xs, key x = key y → keep x = keep y) :
    distinctBy key (xs.filter keep) = (distinctBy key xs).filter keep :=
  distinctAfter_filter hkeep fun _ _ _ => Iff.rfl

end Distinct

namespace Completion

variable {completion other : Completion} {raw : List Suggestion} {keep : Suggestion → Bool}

/-- What is left out before suggestions are sorted is left out of the sorted ones. -/
theorem finish_filter
    (hlabel : ∀ first ∈ raw, ∀ second ∈ raw, first.label = second.label → keep first = keep second)
    (hplaced : ∀ suggestion replacement size,
      keep ((placed replacement suggestion).normalize size) = keep suggestion)
    (replacement : Span) (settings : Settings) (size : Nat) :
    finish (raw.filter keep) replacement settings size =
      (finish raw replacement settings size).filter keep := by
  have hirrefl : Std.Irrefl fun a b : Suggestion => a.label < b.label :=
    ⟨fun a => String.lt_irrefl a.label⟩
  have hantisymm : Std.Antisymm fun a b : Suggestion => a.label < b.label :=
    ⟨fun _ _ hab hba => absurd hba (String.lt_asymm hab)⟩
  have hsorted := List.pairwise_map.1 (pairwise_finish raw replacement settings size)
  have hsorted' := List.pairwise_map.1 (pairwise_finish (raw.filter keep) replacement settings size)
  refine hsorted'.eq_of_mem_iff (hsorted.filter _) fun suggestion => ?_
  rw [List.mem_filter, mem_finish_iff, mem_finish_iff, List.filter_comm, distinctBy_filter]
  · simp only [List.mem_filter]
    constructor
    · rintro ⟨made, ⟨hmem, hkept⟩, rfl⟩
      exact ⟨⟨made, hmem, rfl⟩, (hplaced _ _ _).trans hkept⟩
    · rintro ⟨⟨made, hmem, rfl⟩, hkept⟩
      exact ⟨made, ⟨hmem, (hplaced _ _ _).symm.trans hkept⟩, rfl⟩
  · intro first hfirst second hsecond
    exact hlabel first (List.mem_filter.1 hfirst).1 second (List.mem_filter.1 hsecond).1

theorem suggestions_filter (hcontext : other.context = completion.context)
    (hsettings : other.settings = completion.settings)
    (hraw : other.raw = completion.raw.filter keep)
    (hlabel : ∀ first ∈ completion.raw, ∀ second ∈ completion.raw, first.label = second.label →
      keep first = keep second)
    (hplaced : ∀ suggestion replacement size,
      keep ((placed replacement suggestion).normalize size) = keep suggestion) (size : Nat) :
    other.suggestions size = (completion.suggestions size).filter keep := by
  rw [suggestions, suggestions, hcontext, hsettings, hraw, finish_filter hlabel hplaced]

end Completion

namespace Document

variable {text : String} {offset : Nat}

theorem completionsIn_eq_error (types : Provider) (settings : Settings)
    (h : Bytes.isBoundary offset text = false) :
    completionsIn text offset types settings = .error
      (if text.utf8ByteSize < offset then .outOfBounds offset text.utf8ByteSize
        else .notBoundary offset) := by
  have hcheck : (Analysis.ofText text).check offset = .error
      (if text.utf8ByteSize < offset then .outOfBounds offset text.utf8ByteSize
        else .notBoundary offset) := by
    simp only [Analysis.check, Analysis.ofText, Analysis.size, h]
    split <;> rfl
  simp only [completionsIn, Analysis.completions, hcheck, bind, Except.bind]

/-- What is made of one document with two providers differs as the suggestions of its context do. -/
theorem completionsIn_filter {types types' : Provider} {settings : Settings}
    {keep : Suggestion → Bool}
    (h : ∀ context, Context.at? (locus text) text offset = some context →
      Completion.suggestions ⟨context, ⟨locus text, .ofRoot (locus text), types'⟩, settings⟩
          text.utf8ByteSize =
        (Completion.suggestions ⟨context, ⟨locus text, .ofRoot (locus text), types⟩, settings⟩
          text.utf8ByteSize).filter keep) :
    completionsIn text offset types' settings =
      (completionsIn text offset types settings).map (List.filter keep) := by
  cases hboundary : Bytes.isBoundary offset text with
  | true =>
      rw [completionsIn_eq _ _ hboundary, completionsIn_eq _ _ hboundary]
      cases hcontext : Context.at? (locus text) text offset with
      | none => rfl
      | some context => exact congrArg Except.ok (h context hcontext)
  | false =>
      rw [completionsIn_eq_error _ _ hboundary, completionsIn_eq_error _ _ hboundary]
      rfl

end Document

/-! ### Ids that a catalog holds against the typed text -/

namespace Catalog

/-- Whether an id begins with a text up to the case of ASCII letters. -/
def begins (typed id : String) : Bool := (asciiLowercase typed).isPrefixOf (asciiLowercase id)

theorem begins_of_prefix {typed id : String} (h : typed.toList.isPrefixOf id.toList = true) :
    begins typed id = true := by
  rw [List.isPrefixOf_iff_prefix] at h
  rw [begins, List.isPrefixOf_iff_prefix]
  exact h.map _

end Catalog

namespace Completion

variable {context : Context} {settings : Settings} {less more : Typing}

/-- Away from the types of resources, what is suggested is told by the shapes alone. -/
theorem raw_eq_of_loses (h : less.Loses more) (hback : more.Loses less)
    (hmembers : less.types.membersOf = more.types.membersOf)
    (htype : context.kind ≠ .resourceType) :
    raw ⟨context, less, settings⟩ = raw ⟨context, more, settings⟩ := by
  have hexpected : less.expected = more.expected :=
    funext fun node => (h.expected node).antisymm (hback.expected node)
  have hproperty : less.propertyShape = more.propertyShape :=
    funext fun node => (h.propertyShape node).antisymm (hback.propertyShape node)
  have hvalue : less.valueShape = more.valueShape :=
    funext fun node => (h.valueShape node).antisymm (hback.valueShape node)
  have hbody : less.bodyShape = more.bodyShape :=
    funext fun node => (h.bodyShape node).antisymm (hback.bodyShape node)
  simp only [raw, propertyKeys, propertyValues, members, resourceBodies, expressions, decorators,
    hexpected, hproperty, hvalue, hbody, hmembers, h.scopes_eq]
  cases hkind : context.kind <;> first | rfl | contradiction

theorem raw_provider (catalog : Catalog) (root : Locus) (scopes : ScopeTable)
    (hkind : context.kind = .resourceType) :
    raw ⟨context, ⟨root, scopes, catalog.provider⟩, settings⟩ =
      (raw ⟨context, ⟨root, scopes, catalog.unfiltered⟩, settings⟩).filter fun suggestion =>
        Catalog.begins context.typed suggestion.label := by
  simp only [raw, hkind, resourceTypes, Catalog.provider, Catalog.unfiltered, Catalog.available]
  rw [List.filter_map, List.filter_comm]
  rfl

/-- The ids that are offered for the type of a resource. -/
theorem exists_type_iff {completion : Completion} (hkind : completion.context.kind = .resourceType)
    (size : Nat) (id : String) :
    (∃ suggestion ∈ completion.suggestions size, suggestion.label = id) ↔
      id ∈ completion.typing.types.available completion.context.typed ∧
        completion.matchesTyped id = true := by
  have hraw : completion.raw = completion.resourceTypes := by rw [raw, hkind]
  rw [exists_label_iff, hraw]
  constructor
  · rintro ⟨_, hmem, -, rfl⟩
    obtain ⟨id, hid, rfl⟩ := List.mem_map.1 hmem
    exact List.mem_filter.1 hid
  · intro hid
    exact ⟨_, List.mem_map_of_mem (List.mem_filter.2 hid), Bool.or_true _, rfl⟩

/-- When a catalog would offer all of its ids that are kept. -/
theorem forall_begins_iff (catalog : Catalog) (root : Locus) (scopes : ScopeTable)
    (hkind : context.kind = .resourceType) (size : Nat) :
    (∀ suggestion ∈ suggestions ⟨context, ⟨root, scopes, catalog.unfiltered⟩, settings⟩ size,
        Catalog.begins context.typed suggestion.label = true) ↔
      (settings.caseSensitiveTypes = false → ∀ id ∈ catalog.ids,
        (lowercase context.typed).toList.isPrefixOf (lowercase id).toList = true →
          Catalog.begins context.typed id = true) := by
  have hids (id : String) :=
    @exists_type_iff ⟨context, ⟨root, scopes, catalog.unfiltered⟩, settings⟩ hkind size id
  simp only [matchesTyped] at hids
  constructor
  · intro hall hcase id hid hbegins
    obtain ⟨suggestion, hmem, rfl⟩ := (hids id).2 ⟨hid, by rwa [if_neg (by simp [hcase])]⟩
    exact hall suggestion hmem
  · intro hall suggestion hmem
    obtain ⟨hid, hmatches⟩ := (hids suggestion.label).1 ⟨suggestion, hmem, rfl⟩
    cases hcase : settings.caseSensitiveTypes with
    | true => exact Catalog.begins_of_prefix (by rwa [if_pos hcase] at hmatches)
    | false => exact hall hcase _ hid (by rwa [if_neg (by simp [hcase])] at hmatches)

end Completion

namespace Document

/-- What is typed of the type of a resource, where one is written. -/
def typedType (text : String) (offset : Nat) : Option String :=
  ((Context.at? (locus text) text offset).filter fun context =>
    context.kind = .resourceType).map Context.typed

variable {text : String} {offset : Nat} {context : Context}

theorem typedType_eq_some (hcontext : Context.at? (locus text) text offset = some context)
    (hkind : context.kind = .resourceType) : typedType text offset = some context.typed := by
  simp [typedType, hcontext, hkind]

theorem typedType_eq_none (hcontext : Context.at? (locus text) text offset = some context)
    (hkind : context.kind ≠ .resourceType) : typedType text offset = none := by
  simp [typedType, hcontext, hkind]

/-- The response that a catalog makes is a part of the one that is made of all its ids. -/
theorem completionsIn_provider (catalog : Catalog) (text : String) (offset : Nat)
    (settings : Settings) :
    completionsIn text offset catalog.provider settings =
      (completionsIn text offset catalog.unfiltered settings).map (List.filter fun suggestion =>
        (typedType text offset).all fun typed => Catalog.begins typed suggestion.label) := by
  refine completionsIn_filter fun context hcontext => ?_
  apply Completion.suggestions_filter
  case hcontext => rfl
  case hsettings => rfl
  case hlabel =>
    intro first _ second _ heq
    rw [heq]
  case hplaced =>
    intro suggestion replacement size
    rw [(Completion.kind_normalize_placed _ _ _).2]
  case hraw =>
    by_cases hkind : context.kind = .resourceType
    · simp only [typedType_eq_some hcontext hkind, Option.all_some]
      exact Completion.raw_provider catalog _ _ hkind
    · simp only [typedType_eq_none hcontext hkind, Option.all_none, List.filter_true]
      exact Completion.raw_eq_of_loses ⟨rfl, rfl, fun id => .refl _⟩ ⟨rfl, rfl, fun id => .refl _⟩
        rfl hkind

end Document

open Document in
/-- Whether a catalog holds its ids against the typed text before they are held against it again makes
no difference exactly where case counts or each id that begins with what is typed in lower case also
does so in lower case for the letters of ASCII alone. -/
theorem completionsIn_provider_eq_iff (catalog : Catalog) (text : String) (offset : Nat)
    (settings : Settings) :
    completionsIn text offset catalog.provider settings =
        completionsIn text offset catalog.unfiltered settings ↔
      (Bytes.isBoundary offset text = true → settings.caseSensitiveTypes = false →
        ∀ typed ∈ typedType text offset, ∀ id ∈ catalog.ids,
          (lowercase typed).toList.isPrefixOf (lowercase id).toList = true →
            Catalog.begins typed id = true) := by
  rw [completionsIn_provider]
  cases hboundary : Bytes.isBoundary offset text with
  | false =>
      rw [completionsIn_eq_error _ _ hboundary]
      simp [Except.map]
  | true =>
      rw [completionsIn_eq _ _ hboundary]
      simp only [Except.map, Except.ok.injEq, List.filter_eq_self, forall_const]
      cases hcontext : Context.at? (locus text) text offset with
      | none => simp [typedType, hcontext]
      | some context =>
          by_cases hkind : context.kind = .resourceType
          · simp only [typedType_eq_some hcontext hkind, Option.all_some, Option.elim_some,
              Option.mem_def, Option.some.injEq, forall_eq']
            exact Completion.forall_begins_iff catalog _ _ hkind _
          · simp [typedType_eq_none hcontext hkind]

open Document in
/-- An id that differs from what is typed in the case of a letter beyond ASCII is kept when all ids
are offered, and the catalog does not offer it. -/
theorem completionsIn_provider_ne :
    completionsIn "resource r '\u00E9" 14
        (Catalog.provider ⟨[("\u00C9@1", none)], List.pairwise_singleton _ _⟩) {} ≠
      completionsIn "resource r '\u00E9" 14
        (Catalog.unfiltered ⟨[("\u00C9@1", none)], List.pairwise_singleton _ _⟩) {} := by
  have hboundary : Bytes.isBoundary 14 "resource r '\u00E9" = true := by decide +kernel
  have htyped : typedType "resource r '\u00E9" 14 = some "\u00E9" := by decide +kernel
  have hlower : (lowercase "\u00E9").toList.isPrefixOf (lowercase "\u00C9@1").toList = true := by
    decide +kernel
  intro heq
  have hbegins := (completionsIn_provider_eq_iff _ _ _ _).1 heq hboundary rfl "\u00E9" htyped
    "\u00C9@1" List.mem_cons_self hlower
  revert hbegins
  decide +kernel

/-! ### Lookups that fail -/

/-- A provider that fails to look up the ids for which a cause is given. -/
def Provider.failing (types : Provider) (cause? : String → Option LookupError) : Provider :=
  { types with lookup := fun id => (cause? id).elim (types.lookup id) .error }

theorem Provider.loses_failing (types : Provider) (cause? : String → Option LookupError)
    (root : Locus) (scopes : ScopeTable) :
    Typing.Loses ⟨root, scopes, types.failing cause?⟩ ⟨root, scopes, types⟩ where
  root_eq := rfl
  scopes_eq := rfl
  lookup id := by
    change Fades ((cause? id).elim (types.lookup id) .error).toOption _
    cases cause? id with
    | none => exact .refl _
    | some cause => exact .inl rfl

/-- Whether a suggestion in a context of the given kind is made of a shape that is looked up: a key, a
member, a hint for a value, or the required members of a body. -/
def Suggestion.isLookedUp (suggestion : Suggestion) : ContextKind → Bool
  | .propertyKey | .memberAccess => suggestion.kind = .property
  | .propertyValue => suggestion.kind = .value || suggestion.kind = .snippet
  | .resourceBody => suggestion.label = "required-properties"
  | _ => false

namespace Completion

variable {completion : Completion} {suggestion : Suggestion}

theorem kind_propertyKey (settings : Settings) (member : Member) :
    (propertyKey settings member).kind = .property := by
  unfold propertyKey
  dsimp only
  split
  · rfl
  · split <;> rfl

theorem kind_member (dot : Option Locus) (entry : Member) :
    (member dot entry).kind = .property := by
  unfold member
  dsimp only
  split
  · rfl
  · split <;> rfl

theorem kind_of_mem_valueHints {settings : Settings} {shape : Shape}
    (h : suggestion ∈ valueHints settings shape) :
    suggestion.kind = .value ∨ suggestion.kind = .snippet := by
  have hsnippet : ∀ hint snippet plain,
      (snippetOr settings hint snippet plain).kind = hint.kind := by
    intro hint snippet plain
    unfold snippetOr
    split <;> rfl
  unfold valueHints at h
  split at h
  · rw [List.mem_singleton.1 h, hsnippet]
    exact .inr rfl
  · rw [List.mem_singleton.1 h, hsnippet]
    exact .inr rfl
  · obtain ⟨value, -, rfl⟩ := List.mem_map.1 h
    exact .inl rfl
  · obtain ⟨value, -, rfl⟩ := List.mem_map.1 h
    exact .inl rfl
  · cases h

theorem kind_of_mem_expressions (h : suggestion ∈ completion.expressions false) :
    suggestion.kind = .symbol ∨ suggestion.kind = .function := by
  rcases List.mem_append.1 h with h | h
  · rcases List.mem_append.1 h with h | h
    · obtain ⟨symbol, -, rfl⟩ := List.mem_map.1 h
      exact .inl rfl
    · obtain ⟨builtin, -, rfl⟩ := List.mem_map.1 h
      exact .inr (kind_function _ _)
  · cases h

theorem label_function (settings : Settings) (builtin : Builtin) :
    (function settings builtin).label = builtin.name := by
  unfold function
  dsimp only
  split
  · rfl
  · split <;> rfl

/-- A symbol or a function has an identifier for its label. -/
theorem isValid_of_mem_expressions
    (hnames : ∀ symbol ∈ completion.typing.scopes.visibleFrom completion.context.anchor,
      Identifier.isValid symbol.name = true)
    (h : suggestion ∈ completion.expressions false) :
    Identifier.isValid suggestion.label = true := by
  have hfunctions : ∀ builtin ∈ Vocabulary.functions, Identifier.isValid builtin.name = true := by
    decide +kernel
  rcases List.mem_append.1 h with h | h
  · rcases List.mem_append.1 h with h | h
    · obtain ⟨symbol, hsymbol, rfl⟩ := List.mem_map.1 h
      exact hnames symbol hsymbol
    · obtain ⟨builtin, hbuiltin, rfl⟩ := List.mem_map.1 h
      rw [label_function]
      exact hfunctions builtin hbuiltin
  · cases h

theorem kind_of_mem_propertyKeys (h : suggestion ∈ completion.propertyKeys) :
    suggestion.kind = .property := by
  unfold propertyKeys at h
  split at h
  · cases h
  · obtain ⟨entry, -, rfl⟩ := List.mem_map.1 h
    exact kind_propertyKey _ entry

theorem kind_of_mem_members (h : suggestion ∈ completion.members) :
    suggestion.kind = .property := by
  unfold members at h
  dsimp only at h
  split at h
  · cases h
  · obtain ⟨entry, -, rfl⟩ := List.mem_map.1 h
    exact kind_member _ entry

/-- Suggestions with one label are made of a lookup together or not at all. -/
theorem isLookedUp_eq_of_label
    (hnames : completion.context.kind = .propertyValue →
      ∀ symbol ∈ completion.typing.scopes.visibleFrom completion.context.anchor,
        Identifier.isValid symbol.name = true)
    {first second : Suggestion} (hfirst : first ∈ completion.raw) (hsecond : second ∈ completion.raw)
    (hlabel : first.label = second.label) :
    first.isLookedUp completion.context.kind = second.isLookedUp completion.context.kind := by
  unfold raw at hfirst hsecond
  cases hkind : completion.context.kind with
  | propertyKey =>
      rw [hkind] at hfirst hsecond
      simp only [Suggestion.isLookedUp, kind_of_mem_propertyKeys hfirst,
        kind_of_mem_propertyKeys hsecond]
  | memberAccess =>
      rw [hkind] at hfirst hsecond
      simp only [Suggestion.isLookedUp, kind_of_mem_members hfirst, kind_of_mem_members hsecond]
  | resourceBody => simp only [Suggestion.isLookedUp, hlabel]
  | propertyValue =>
      -- A hint is no identifier, which every symbol and every function is.
      have htold : ∀ suggestion ∈ completion.propertyValues,
          suggestion.isLookedUp .propertyValue = !Identifier.isValid suggestion.label := by
        intro suggestion hmem
        unfold propertyValues at hmem
        rcases List.mem_append.1 hmem with hmem | hmem
        · split at hmem
          · cases hmem
          · rw [(of_mem_valueHints hmem).2]
            rcases kind_of_mem_valueHints hmem with h | h <;> simp [Suggestion.isLookedUp, h]
        · rw [isValid_of_mem_expressions (hnames hkind) hmem]
          rcases kind_of_mem_expressions hmem with h | h <;> simp [Suggestion.isLookedUp, h]
      rw [hkind] at hfirst hsecond
      rw [htold first hfirst, htold second hsecond, hlabel]
  | _ => rfl

variable {context : Context} {settings : Settings} {less more : Typing}

theorem propertyKeys_of_loses (h : less.Loses more)
    (hmembers : less.types.membersOf = more.types.membersOf) :
    propertyKeys ⟨context, less, settings⟩ = propertyKeys ⟨context, more, settings⟩ ∨
      propertyKeys ⟨context, less, settings⟩ = [] := by
  unfold propertyKeys
  dsimp only
  rw [hmembers]
  obtain hnone | hsame := (Fades.refl (context.node.ofKind .object)).bind h.expected
  · exact .inr (by rw [hnone])
  · exact .inl (by rw [hsame])

theorem members_of_loses (h : less.Loses more)
    (hmembers : less.types.membersOf = more.types.membersOf) :
    members ⟨context, less, settings⟩ = members ⟨context, more, settings⟩ ∨
      members ⟨context, less, settings⟩ = [] := by
  unfold members
  dsimp only
  rw [hmembers]
  obtain hnone | hsame := (Fades.refl ((context.node.ofKind .propertyAccess).bind
    Locus.operand)).bind h.valueShape
  · exact .inr (by rw [hnone])
  · exact .inl (by rw [hsame])

theorem propertyValues_of_loses (h : less.Loses more) :
    propertyValues ⟨context, less, settings⟩ = propertyValues ⟨context, more, settings⟩ ∨
      propertyValues ⟨context, less, settings⟩ =
        (propertyValues ⟨context, more, settings⟩).filter fun suggestion =>
          !suggestion.isLookedUp .propertyValue := by
  have hexpressions : expressions ⟨context, less, settings⟩ false =
      expressions ⟨context, more, settings⟩ false := by
    simp only [expressions, h.scopes_eq]
  unfold propertyValues
  dsimp only
  rw [hexpressions]
  obtain hnone | hsame := h.propertyShape context.node
  · right
    have hkept : (expressions ⟨context, more, settings⟩ false).filter (fun suggestion =>
        !suggestion.isLookedUp .propertyValue) = expressions ⟨context, more, settings⟩ false := by
      refine List.filter_eq_self.2 fun suggestion hmem => ?_
      rcases kind_of_mem_expressions hmem with hkind | hkind <;>
        simp [Suggestion.isLookedUp, hkind]
    rw [hnone, List.filter_append, hkept, List.filter_eq_nil_iff.2]
    intro suggestion hmem
    split at hmem
    · cases hmem
    · rcases kind_of_mem_valueHints hmem with hkind | hkind <;>
        simp [Suggestion.isLookedUp, hkind]
  · exact .inl (by rw [hsame])

theorem resourceBodies_of_loses (h : less.Loses more) :
    resourceBodies ⟨context, less, settings⟩ = resourceBodies ⟨context, more, settings⟩ ∨
      resourceBodies ⟨context, less, settings⟩ =
        (resourceBodies ⟨context, more, settings⟩).filter fun suggestion =>
          suggestion.label ≠ "required-properties" := by
  have hblank : (snippetOr settings ((Suggestion.ofLabel "\x7b\x7d" .snippet).withDetail
      "Empty body") "\x7b\n\t$0\n\x7d" "\x7b\x7d").label = "\x7b\x7d" := by
    unfold snippetOr
    split <;> rfl
  unfold resourceBodies
  dsimp only
  obtain hnone | hsame := h.bodyShape context.node
  · right
    rw [hnone]
    cases more.bodyShape context.node with
    | none => simp [hblank]
    | some shape =>
        dsimp only
        split
        · simp [hblank]
        · rw [List.filter_cons_of_pos (by rw [hblank]; decide), List.filter_cons_of_neg]
          · rfl
          · simp [Suggestion.ofLabel, Suggestion.withDetail, Suggestion.withSnippet]
  · exact .inl (by rw [hsame])

/-- What is suggested with fewer lookups is all that was, or all of it that is not looked up. -/
theorem raw_of_loses (h : less.Loses more)
    (havailable : less.types.available = more.types.available)
    (hmembers : less.types.membersOf = more.types.membersOf) :
    raw ⟨context, less, settings⟩ = raw ⟨context, more, settings⟩ ∨
      raw ⟨context, less, settings⟩ = (raw ⟨context, more, settings⟩).filter fun suggestion =>
        !suggestion.isLookedUp context.kind := by
  unfold raw
  cases hkind : context.kind with
  | propertyKey =>
      refine (propertyKeys_of_loses h hmembers).imp id fun hnil => hnil.trans ?_
      refine (List.filter_eq_nil_iff.2 fun suggestion hmem => ?_).symm
      simp [Suggestion.isLookedUp, kind_of_mem_propertyKeys hmem]
  | memberAccess =>
      refine (members_of_loses h hmembers).imp id fun hnil => hnil.trans ?_
      refine (List.filter_eq_nil_iff.2 fun suggestion hmem => ?_).symm
      simp [Suggestion.isLookedUp, kind_of_mem_members hmem]
  | propertyValue => exact propertyValues_of_loses h
  | resourceBody =>
      refine (resourceBodies_of_loses h).imp id fun hlost => hlost.trans ?_
      simp [Suggestion.isLookedUp]
  | resourceType =>
      left
      simp only [resourceTypes, havailable]
      rfl
  | expression arrayStart =>
      left
      simp only [expressions, h.scopes_eq]
  | _ => exact .inl rfl

end Completion

namespace Document

variable {text : String} {offset : Nat} {context : Context}

/-- The names that are visible where an expression is written are identifiers. -/
theorem isValid_of_visible (hcontext : Context.at? (locus text) text offset = some context)
    (hkind : context.kind.isExpr = true) {symbol : Symbol}
    (h : symbol ∈ (ScopeTable.ofRoot (locus text)).visibleFrom context.anchor) :
    Identifier.isValid symbol.name = true := by
  obtain ⟨last, hawaits, hunder, hnode, hanchored⟩ := exists_anchored hcontext hkind
  rw [ScopeTable.visibleFrom_ofRoot (mem_descendants_iff.2 ⟨hunder, hnode⟩)] at h
  rcases List.mem_append.1 ((distinctBy_sublist _ _).subset h) with hin | hin
  · obtain ⟨loop, hloop, hsymbol⟩ := List.mem_filterMap.1 hin
    exact isValid_of_loopSymbol
      ((hanchored.mem_knownLoops_iff hawaits hunder hnode).1 hloop).1 hsymbol
  · obtain ⟨declaration, hdeclaration, hsymbol⟩ := List.mem_filterMap.1 hin
    exact isValid_of_declaredSymbol (List.mem_filter.1 hdeclaration).1 hsymbol

/-- Whether a suggestion that is made at an offset is made of a shape that is looked up. -/
def isLookedUpAt (text : String) (offset : Nat) (suggestion : Suggestion) : Bool :=
  (Context.at? (locus text) text offset).any fun context => suggestion.isLookedUp context.kind

theorem isLookedUpAt_eq (hcontext : Context.at? (locus text) text offset = some context)
    (suggestion : Suggestion) :
    isLookedUpAt text offset suggestion = suggestion.isLookedUp context.kind := by
  rw [isLookedUpAt, hcontext, Option.any_some]

end Document

open Document in
/-- When lookups fail, the response is what it was, or what it was without the keys, the members, the
hints and the required members that are made of a lookup. -/
theorem completionsIn_failing (text : String) (offset : Nat) (types : Provider)
    (cause? : String → Option LookupError) (settings : Settings) :
    completionsIn text offset (types.failing cause?) settings =
        completionsIn text offset types settings ∨
      completionsIn text offset (types.failing cause?) settings =
        (completionsIn text offset types settings).map (List.filter fun suggestion =>
          !isLookedUpAt text offset suggestion) := by
  cases hboundary : Bytes.isBoundary offset text with
  | false =>
      rw [completionsIn_eq_error _ _ hboundary, completionsIn_eq_error _ _ hboundary]
      exact .inl rfl
  | true =>
      cases hcontext : Context.at? (locus text) text offset with
      | none =>
          rw [completionsIn_eq _ _ hboundary, completionsIn_eq _ _ hboundary, hcontext]
          exact .inl rfl
      | some context =>
          have hraw := @Completion.raw_of_loses context settings _ _
            (types.loses_failing cause? (locus text) (.ofRoot (locus text))) rfl rfl
          refine hraw.imp (fun hsame => ?_) fun hlost => ?_
          · rw [completionsIn_eq_ok _ _ hboundary hcontext, completionsIn_eq_ok _ _ hboundary hcontext]
            simp only [Completion.suggestions, hsame]
          · refine completionsIn_filter fun other hother => ?_
            obtain rfl : context = other := Option.some.inj (hcontext.symm.trans hother)
            simp only [isLookedUpAt_eq hcontext]
            apply Completion.suggestions_filter
            case hcontext => rfl
            case hsettings => rfl
            case hraw => exact hlost
            case hlabel =>
              intro first hfirst second hsecond hlabel
              refine congrArg (!·) (Completion.isLookedUp_eq_of_label ?_ hfirst hsecond hlabel)
              intro hkind symbol hmem
              exact isValid_of_visible hcontext (by rw [hkind]; rfl) hmem
            case hplaced =>
              intro suggestion replacement size
              obtain ⟨hkind, hlabel⟩ := Completion.kind_normalize_placed replacement suggestion size
              unfold Suggestion.isLookedUp
              rw [hkind, hlabel]

end Caret
