import Caret.Proofs.Context.Keys
import Caret.Proofs.Context.Silence
import Mathlib.Data.List.Sort

/-!
# The members that are offered

Members are offered after a dot as keys are offered in an object, each name once and in their
order. A reference to a resource has the members that the body of the resource has and three more,
and no more than these three are told apart from the shape of the body by it.
-/

namespace Caret

theorem find?_eq_some_of_unique {α : Type} {test : α → Bool} {xs : List α} {x : α} (hmem : x ∈ xs)
    (hx : test x = true) (hunique : ∀ y ∈ xs, test y = true → y = x) : xs.find? test = some x := by
  cases hfound : xs.find? test with
  | none => exact absurd hx (List.find?_eq_none.1 hfound x hmem)
  | some y => rw [hunique y (List.mem_of_find?_eq_some hfound) (List.find?_some hfound)]

namespace Keyed

variable {α : Type} {key : α → String} {x : α} {xs : List α} {name : String}

/-- Keys are kept and one is added. -/
theorem exists_key_insert_iff :
    (∃ y ∈ insert key x xs, key y = name) ↔ key x = name ∨ ∃ y ∈ xs, key y = name := by
  fun_induction insert key x xs <;> grind

theorem find?_insert_of_ne (h : key x ≠ name) :
    (insert key x xs).find? (fun y => key y = name) = xs.find? fun y => key y = name := by
  fun_induction insert key x xs <;> grind

end Keyed

namespace Shape

/-- What each reference to a resource has. -/
def commonNames : List String := ["apiVersion", "id", "type"]

variable {body shape : Shape} {names : List String} {name label : String} {members : List Member}

/-- Adds members that hold a text. -/
def withTexts (names : List String) (members : List Member) : List Member :=
  names.foldl (fun all key => Keyed.insert Member.name (plain key .string) all) members

theorem find?_withTexts (h : name ∉ names) (members : List Member) :
    (withTexts names members).find? (fun member => member.name = name) =
      members.find? fun member => member.name = name := by
  induction names generalizing members with
  | nil => rfl
  | cons first names ih =>
      obtain ⟨hne, hmem⟩ := List.ne_and_not_mem_of_not_mem_cons h
      exact (ih hmem _).trans (Keyed.find?_insert_of_ne (Ne.symm hne))

theorem exists_mem_withTexts_iff :
    (∃ member ∈ withTexts names members, member.name = label) ↔
      (∃ member ∈ members, member.name = label) ∨ label ∈ names := by
  induction names generalizing members with
  | nil => simp [withTexts]
  | cons first names ih =>
      have hfirst : (∃ member ∈ Keyed.insert Member.name (plain first .string) members,
          member.name = label) ↔ first = label ∨ ∃ member ∈ members, member.name = label :=
        Keyed.exists_key_insert_iff
      change (∃ member ∈ withTexts names _, member.name = label) ↔ _
      rw [ih, hfirst, List.mem_cons]
      grind

theorem eq_plain_or_mem_of_mem_withTexts {member : Member} (h : member ∈ withTexts names members) :
    member.shape = .string ∨ member ∈ members := by
  induction names generalizing members with
  | nil => exact .inr h
  | cons first names ih =>
      rcases ih h with hshape | hmem
      · exact .inl hshape
      · rcases Keyed.eq_or_mem_of_mem_insert hmem with rfl | hmem
        · exact .inl rfl
        · exact .inr hmem

/-! A body and a reference to its resource -/

theorem members_ofResource (hbody : body.isObject = true) :
    (ofResource body).members =
      withTexts (commonNames.filter fun key => (body.member? key).isNone) body.members := by
  cases body <;> first | rfl | cases hbody

theorem member?_eq_find? (shape : Shape) (name : String) :
    shape.member? name = shape.members.find? fun member => member.name = name := rfl

theorem member?_isSome_iff :
    (shape.member? name).isSome = true ↔ ∃ member ∈ shape.members, member.name = name := by
  simp [member?_eq_find?]

/-- What the body has, a reference has as the body has it. -/
theorem member?_ofResource (hbody : body.isObject = true)
    (hdeclared : (body.member? name).isSome = true) :
    (ofResource body).member? name = body.member? name := by
  rw [member?_eq_find?, members_ofResource hbody, find?_withTexts]
  · rfl
  · intro hmem
    have hnone := (List.mem_filter.1 hmem).2
    rw [Option.isNone_iff_eq_none.1 hnone] at hdeclared
    cases hdeclared

/-- What a reference has and the body does not is a text. -/
theorem shape_of_member?_ofResource (hbody : body.isObject = true)
    (hnone : body.member? name = none) {member : Member}
    (h : (ofResource body).member? name = some member) : member.shape = .string := by
  have hmem := List.mem_of_find?_eq_some h
  have hname : member.name = name := by simpa using List.find?_some h
  rw [members_ofResource hbody] at hmem
  rcases eq_plain_or_mem_of_mem_withTexts hmem with hshape | hmem
  · exact hshape
  · have hsome := member?_isSome_iff.2 ⟨member, hmem, hname⟩
    rw [hnone] at hsome
    cases hsome

theorem exists_member_ofResource_iff (hbody : body.isObject = true) :
    (∃ member ∈ (ofResource body).members, member.name = label) ↔
      (∃ member ∈ body.members, member.name = label) ∨ label ∈ commonNames := by
  rw [members_ofResource hbody, exists_mem_withTexts_iff, List.mem_filter, ← member?_isSome_iff]
  cases body.member? label <;> simp

/-! The end of a path -/

/-- Whether a path leads to a shape with a member of the given name. -/
def Leads (shape : Shape) (path : List String) (label : String) : Prop :=
  ∃ part, shape.follow (path.map Step.member) = some part ∧
    ∃ member ∈ part.members, member.name = label

theorem leads_nil : shape.Leads [] label ↔ ∃ member ∈ shape.members, member.name = label := by
  simp [Leads, follow_nil]

theorem leads_cons {path : List String} :
    shape.Leads (name :: path) label ↔
      ∃ member, shape.member? name = some member ∧ member.shape.Leads path label := by
  have hfollow : shape.follow ((name :: path).map Step.member) =
      ((shape.member? name).map Member.shape).bind fun part => part.follow (path.map .member) := rfl
  rw [Leads, hfollow]
  cases shape.member? name <;> simp [Leads]

theorem not_leads_string (path : List String) : ¬string.Leads path label := by
  cases path with
  | nil => simp [leads_nil, members]
  | cons name path => simp [leads_cons, member?_eq_find?, members]

/-- Behind a member, it makes no difference whether the way starts at the body or at a reference. -/
theorem leads_ofResource_cons (hbody : body.isObject = true) (path : List String) :
    (ofResource body).Leads (name :: path) label ↔ body.Leads (name :: path) label := by
  rw [leads_cons, leads_cons]
  cases hdeclared : body.member? name with
  | some member => rw [member?_ofResource hbody (by rw [hdeclared]; rfl), hdeclared]
  | none =>
      constructor
      · rintro ⟨member, hmember, hleads⟩
        rw [shape_of_member?_ofResource hbody hdeclared hmember] at hleads
        exact absurd hleads (not_leads_string path)
      · rintro ⟨_, hmember, _⟩
        cases hmember

theorem leads_ofResource_nil (hbody : body.isObject = true) :
    (ofResource body).Leads [] label ↔ body.Leads [] label ∨ label ∈ commonNames := by
  rw [leads_nil, leads_nil, exists_member_ofResource_iff hbody]

end Shape

namespace Catalog

theorem lookup_eq_ok {catalog : Catalog} {id : String} {body : Shape}
    (h : (id, some body) ∈ catalog.entries) : catalog.lookup id = .ok body := by
  have hnodup : catalog.ids.Nodup := catalog.pairwise_ids.imp fun hlt => String.ne_of_lt hlt
  have hentry : catalog.entries.find? (fun entry => entry.1 = id) = some (id, some body) := by
    refine find?_eq_some_of_unique h (by simp) fun entry hmem hname => ?_
    exact List.inj_on_of_nodup_map hnodup hmem h (by simpa using hname)
  simp [lookup, entry?, hentry]

end Catalog

namespace Completion

variable {completion other : Completion} {size size' : Nat}

/-- Labels are given in their order, each one once. -/
theorem pairwise_labels (completion : Completion) (size : Nat) :
    ((completion.suggestions size).map Suggestion.label).Pairwise (· < ·) :=
  pairwise_finish _ _ _ _

/-- Two completions that give the same labels give them in the same order. -/
theorem labels_eq (h : ∀ label,
    (∃ suggestion ∈ completion.suggestions size, suggestion.label = label) ↔
      ∃ suggestion ∈ other.suggestions size', suggestion.label = label) :
    (completion.suggestions size).map Suggestion.label =
      (other.suggestions size').map Suggestion.label := by
  refine (pairwise_labels completion size).eq_of_mem_iff (pairwise_labels other size') fun label => ?_
  rw [List.mem_map, List.mem_map]
  exact h label

theorem label_member (dot : Option Locus) (entry : Member) :
    (member dot entry).label = entry.name := by
  unfold member
  dsimp only
  split
  · rfl
  · split <;> rfl

theorem isSnippet_member (dot : Option Locus) (entry : Member) :
    (member dot entry).isSnippet = false := by
  unfold member
  dsimp only
  split
  · rfl
  · split <;> rfl

theorem exists_key_iff (label : String) (hkind : completion.context.kind = .propertyKey)
    (hobject : completion.context.node.kind = .object) :
    (∃ suggestion ∈ completion.suggestions size, suggestion.label = label) ↔
      (∃ shape, completion.typing.expected completion.context.node = some shape ∧
        ∃ member ∈ completion.typing.types.membersOf shape, member.name = label) ∧
      label ∉ presentKeys completion.context.node completion.context.replacement := by
  have hraw : completion.raw = completion.propertyKeys := by
    unfold raw
    rw [hkind]
  have hwanted : ∀ suggestion ∈ completion.propertyKeys,
      (completion.settings.snippets || !suggestion.isSnippet) = true := by
    intro suggestion hmem
    unfold propertyKeys at hmem
    split at hmem
    · cases hmem
    · obtain ⟨member, -, rfl⟩ := List.mem_map.1 hmem
      exact wanted_propertyKey _ member
  rw [exists_label_iff, hraw, ← mem_propertyKeys_iff label hobject]
  exact ⟨fun ⟨suggestion, hmem, _, hlabel⟩ => ⟨suggestion, hmem, hlabel⟩,
    fun ⟨suggestion, hmem, hlabel⟩ => ⟨suggestion, hmem, hwanted suggestion hmem, hlabel⟩⟩

theorem exists_member_iff (label : String) (hkind : completion.context.kind = .memberAccess)
    (haccess : completion.context.node.kind = .propertyAccess) :
    (∃ suggestion ∈ completion.suggestions size, suggestion.label = label) ↔
      ∃ shape, completion.context.node.operand.bind completion.typing.valueShape = some shape ∧
        ∃ member ∈ completion.typing.types.membersOf shape, member.name = label := by
  have hraw : completion.raw = completion.members := by
    unfold raw
    rw [hkind]
  rw [exists_label_iff, hraw, members, Locus.ofKind, if_pos haccess, Option.bind_some]
  cases completion.context.node.operand.bind completion.typing.valueShape with
  | none => simp
  | some shape =>
      simp only [List.mem_map, Option.some.injEq]
      constructor
      · rintro ⟨_, ⟨entry, hentry, rfl⟩, -, rfl⟩
        exact ⟨shape, rfl, entry, hentry, (label_member _ entry).symm⟩
      · rintro ⟨_, rfl, entry, hentry, rfl⟩
        exact ⟨_, ⟨entry, hentry, rfl⟩, by simp [isSnippet_member], label_member _ entry⟩

end Completion

namespace Vicinity

variable {place : Vicinity} {leaf parent : Locus}

/-- Right behind the brace of an object its keys are found. -/
theorem finding_of_lBrace (honLine : place.beforeOnLine = some leaf)
    (hbefore : place.before = some leaf) (hkind : leaf.kind = .lBrace)
    (hparent : leaf.parent = some parent) (hobject : parent.kind = .object)
    (htype : ∀ token ∈ place.root.tokensAt place.offset, ∀ ancestor ∈ token.properAncestors,
      ancestor.kind ≠ .resourceType) :
    place.finding = some (place.found .propertyKey parent) := by
  have hname : place.beforeIn .ident [.name] = none := beforeIn_eq_none _ hbefore (by simp [hkind])
  have hdecorator : place.beforeIn .atSign [.decorator] = none :=
    beforeIn_eq_none _ hbefore (by simp [hkind])
  have hresourceType : place.resourceType = none := by
    simp [resourceType, insideTypeString_eq_none htype, missingType, hname]
  have hheader : place.resourceHeader = none := by
    simp [resourceHeader, hbefore, hkind, guard]
  have hkey : place.propertyKey = some (place.found .propertyKey parent) := by
    simp [propertyKey, honLine, hkind, hparent, hobject, guard]
  simp [finding, rules, hresourceType, decoratorName, hdecorator, hheader, typeName, hname, hkey]

/-- Right behind a dot the members of what is in front of it are found. -/
theorem finding_of_dot (honLine : place.beforeOnLine = some leaf)
    (hbefore : place.before = some leaf) (hkind : leaf.kind = .dot)
    (hparent : leaf.parent = some parent) (haccess : parent.kind = .propertyAccess)
    (htype : ∀ token ∈ place.root.tokensAt place.offset, ∀ ancestor ∈ token.properAncestors,
      ancestor.kind ≠ .resourceType) :
    place.finding = some (place.found .memberAccess parent) := by
  have hname : place.beforeIn .ident [.name] = none := beforeIn_eq_none _ hbefore (by simp [hkind])
  have hdecorator : place.beforeIn .atSign [.decorator] = none :=
    beforeIn_eq_none _ hbefore (by simp [hkind])
  have hvalue : place.beforeIn .colon [.objectProperty] = none :=
    beforeIn_eq_none _ hbefore (by simp [hkind])
  have hresourceType : place.resourceType = none := by
    simp [resourceType, insideTypeString_eq_none htype, missingType, hname]
  have hheader : place.resourceHeader = none := by
    simp [resourceHeader, hbefore, hkind, guard]
  have hkey : place.propertyKey = none := by
    simp [propertyKey, honLine, hkind, guard]
  have hmember : place.memberAccess = some (place.found .memberAccess parent) := by
    simp [memberAccess, beforeIn, hbefore, hkind, hparent, haccess, guard]
  simp [finding, rules, hresourceType, decoratorName, hdecorator, hheader, typeName, hname, hkey,
    propertyValue, hvalue, hmember]

end Vicinity

namespace Document

variable {text : String} {offset : Nat} {leaf : Locus}

/-- Around a leaf that is in no string and no comment there is plain code. -/
theorem regionAt_eq_none (hleaf : leaf ∈ (locus text).leaves) (hstart : leaf.span.start < offset)
    (hstop : offset ≤ leaf.span.stop) (hcomment : leaf.kind.isComment = false)
    (hstring : ∀ ancestor ∈ leaf.ancestors, ancestor.kind ≠ .string) :
    (locus text).regionAt offset = none := by
  have hnotComment : (locus text).isCommentAt offset = false := by
    refine List.any_eq_false.2 fun token htoken => ?_
    obtain ⟨hmem, -, hend⟩ := mem_tokensAt_iff.1 htoken
    by_cases hbefore : token.span.start < offset
    · obtain rfl := eq_of_start_lt hleaf hmem hstart hstop hbefore hend
      cases hkind : leaf.kind <;> simp_all [Kind.isComment]
    · simp [hbefore]
  obtain ⟨hunder, htoken⟩ := Locus.mem_leaves_iff.1 hleaf
  have hsearch : (locus text).search (fun element =>
      element.span.start < offset && offset ≤ element.span.stop) = _ :=
    hunder.search_eq_reverse (isRoot_locus text) (located_locus text) (fun element => by simp)
      hstart hstop
  have hinnermost : (locus text).innermostString offset = none := by
    unfold Locus.innermostString
    rw [hsearch, List.getLast?_eq_none_iff, List.filter_eq_nil_iff]
    intro ancestor hmem
    have hin : ancestor ∈ leaf.ancestors := by
      rw [Locus.ancestors_eq_cons, List.mem_cons]
      rw [List.mem_append, List.mem_reverse, Locus.search_eq, Locus.children_of_isToken htoken]
        at hmem
      rcases hmem with hmem | hmem
      · exact .inr hmem
      · left
        split at hmem
        · simpa using hmem
        · cases hmem
    simp [Locus.isStringAround, hstring ancestor hin]
  simp [Locus.regionAt, hnotComment, hinnermost]

/-- Around a leaf in plain code that is no word, what the rules find for it can be completed. -/
theorem exists_context_of_leaf {finding : Context.Finding} (hleaf : leaf ∈ (locus text).leaves)
    (hstart : leaf.span.start < offset) (hstop : offset ≤ leaf.span.stop)
    (hkind : leaf.kind = .lBrace ∨ leaf.kind = .dot)
    (hstring : ∀ ancestor ∈ leaf.properAncestors, ancestor.kind ≠ .string)
    (hfinding : Vicinity.finding ⟨locus text, offset, none, some leaf, some leaf⟩ = some finding) :
    ∃ context, Context.at? (locus text) text offset = some context ∧
      context.kind = finding.kind ∧ context.node = finding.node := by
  have hregion : (locus text).regionAt offset = none := by
    refine regionAt_eq_none hleaf hstart hstop (by rcases hkind with h | h <;> rw [h] <;> rfl)
      fun ancestor hmem => ?_
    rw [Locus.ancestors_eq_cons, List.mem_cons] at hmem
    rcases hmem with rfl | hmem
    · rcases hkind with h | h <;> rw [h] <;> decide
    · exact hstring ancestor hmem
  have hvicinity : (locus text).vicinity offset = ⟨locus text, offset, none, some leaf, some leaf⟩ :=
    vicinity_of_leaf hleaf hstart hstop (by rcases hkind with h | h <;> rw [h] <;> rfl)
      (by rcases hkind with h | h <;> rw [h] <;> rfl)
      (by rcases hkind with h | h <;> rw [h] <;> decide)
  have hsite : ((locus text).resolve offset).region = none := hregion
  unfold Context.at? Context.classify
  rw [if_neg (by simp [Site.isInStringBody, Site.isInComment, hsite])]
  change ∃ context, (((locus text).vicinity offset).finding.bind _) = some context ∧ _
  rw [hvicinity, hfinding]
  exact ⟨_, rfl, rfl, rfl⟩

end Document

end Caret
