import Caret.Proofs.Context.Symbols

/-!
# The keys that are offered

In an object the keys of one shape are offered. The shape is found from the declaration around the
object: from the shape of its body on, each property, array and loop on the way down to the object
takes one step, and a loop right below the declaration takes none, as it makes a body for each item.
On any other way nothing is offered. The keys that the object has already are left out, but for the
one that is being written.
-/

namespace Caret

namespace Shape

/-- A step from the shape of a value to that of a part of it. -/
inductive Step where
  | member (name : String)
  | item
  deriving DecidableEq, Repr

/-- The shape of a part, if the shape tells of it. -/
def step? (shape : Shape) : Step → Option Shape
  | .member name => (shape.member? name).map Member.shape
  | .item => shape.item?

def follow (shape : Shape) (steps : List Step) : Option Shape := steps.foldlM step? shape

theorem follow_nil (shape : Shape) : shape.follow [] = some shape := rfl

theorem follow_concat (shape : Shape) (steps : List Step) (step : Step) :
    shape.follow (steps ++ [step]) = (shape.follow steps).bind fun part => part.step? step := by
  simp [follow, List.foldlM_append, bind]

end Shape

namespace Locus

variable {root declaration node : Locus} {steps : List Shape.Step}

/-- The steps on the way from a declaration down to an expression in its body. -/
inductive Reaches (declaration : Locus) : Locus → List Shape.Step → Prop where
  | body {node : Locus} : node ∈ declaration.children → Reaches declaration node []
  | bodyOfLoop {loop body : Locus} : loop ∈ declaration.children → loop.kind = .forExpr →
      loop.loopBody = some body → Reaches declaration body []
  | value {object property node : Locus} {name : String} {steps : List Shape.Step} :
      Reaches declaration object steps → property ∈ object.children →
      property.kind = .objectProperty → property.propertyName = some name →
      node ∈ property.children → Reaches declaration node (steps ++ [.member name])
  | item {array item node : Locus} {steps : List Shape.Step} :
      Reaches declaration array steps → item ∈ array.children → item.kind = .arrayItem →
      node ∈ item.children → Reaches declaration node (steps ++ [.item])
  | itemOfLoop {loop body : Locus} {steps : List Shape.Step} :
      Reaches declaration loop steps → loop ∉ declaration.children → loop.kind = .forExpr →
      loop.loopBody = some body → Reaches declaration body (steps ++ [.item])

theorem mem_children_of_loopBody {loop body : Locus} (h : loop.loopBody = some body) :
    body ∈ loop.children :=
  (List.dropWhile_sublist _).subset (List.mem_filter.1 (List.mem_of_find?_eq_some h)).1

theorem Reaches.exists_parent (h : declaration.Reaches node steps) :
    ∃ parent, Under declaration parent ∧ node ∈ parent.children := by
  induction h with
  | body hnode => exact ⟨declaration, .root, hnode⟩
  | bodyOfLoop hloop _ hnode =>
      exact ⟨_, .child .root hloop, mem_children_of_loopBody hnode⟩
  | value _ hproperty _ _ hnode ih =>
      obtain ⟨parent, hparent, hobject⟩ := ih
      exact ⟨_, (hparent.child hobject).child hproperty, hnode⟩
  | item _ hitem _ hnode ih =>
      obtain ⟨parent, hparent, harray⟩ := ih
      exact ⟨_, (hparent.child harray).child hitem, hnode⟩
  | itemOfLoop _ _ _ hnode ih =>
      obtain ⟨parent, hparent, hloop⟩ := ih
      exact ⟨_, hparent.child hloop, mem_children_of_loopBody hnode⟩

theorem Reaches.isNode (h : declaration.Reaches node steps) : declaration.isNode = true := by
  obtain ⟨parent, hparent, hnode⟩ := h.exists_parent
  rcases hparent.eq_or_around with rfl | haround
  · exact isNode_of_mem_children hnode
  · exact haround.isNode

/-- Only the declaration itself has a body, of all that an expression on the way is right below. -/
theorem Reaches.mem_children (h : declaration.Reaches node steps) {parent : Locus}
    (hparent : node ∈ parent.children) (hbody : Typing.hasBody parent.kind = true) :
    node ∈ declaration.children := by
  have hother : ∀ {other : Locus} {kind : Kind}, node ∈ other.children → other.kind = kind →
      Typing.hasBody kind = false → node ∈ declaration.children := by
    intro other kind hmem hkind hnone
    have heq : parent = other := Option.some.inj
      ((parent_of_mem_children hparent).symm.trans (parent_of_mem_children hmem))
    rw [heq, hkind, hnone] at hbody
    cases hbody
  cases h with
  | body hnode => exact hnode
  | bodyOfLoop _ hkind hloop => exact hother (mem_children_of_loopBody hloop) hkind rfl
  | value _ _ hkind _ hnode => exact hother hnode hkind rfl
  | item _ _ hkind hnode => exact hother hnode hkind rfl
  | itemOfLoop _ _ hkind hloop => exact hother (mem_children_of_loopBody hloop) hkind rfl

end Locus

namespace Typing

open Locus (Reaches)

variable {typing : Typing} {root declaration node : Locus} {steps : List Shape.Step}

theorem expected_of_mem_children {parent : Locus} (h : node ∈ parent.children) :
    typing.expected node = typing.expectedFrom node.here (parent.here :: parent.above) := by
  rw [expected, (Locus.mem_children_iff.1 h).2]

theorem kind_of_hasBody {kind : Kind} (h : hasBody kind = true) :
    kind = .resourceDecl ∨ kind = .moduleDecl := by
  simpa [hasBody] using h

/-- Right below a declaration the shape of its body is asked for. -/
theorem expected_of_hasBody (hbody : hasBody declaration.kind = true)
    (h : node ∈ declaration.children) : typing.expected node = typing.bodyShape declaration := by
  rw [expected_of_mem_children h]
  unfold expectedFrom
  rcases kind_of_hasBody hbody with hkind | hkind
  · simp only [hkind]
  · simp only [hkind]

theorem expected_of_property {object property : Locus} (hproperty : property ∈ object.children)
    (hkind : property.kind = .objectProperty) (h : node ∈ property.children) :
    typing.expected node = property.propertyName.bind fun name =>
      (typing.expected object).bind fun shape => shape.step? (.member name) := by
  rw [expected_of_mem_children h]
  obtain ⟨here, above⟩ := property
  obtain rfl : above = object.here :: object.above := (Locus.mem_children_iff.1 hproperty).2
  unfold expectedFrom
  simp only [hkind, bind, Shape.step?, Option.map_eq_bind]
  rfl

theorem expected_of_arrayItem {array item : Locus} (hitem : item ∈ array.children)
    (hkind : item.kind = .arrayItem) (h : node ∈ item.children) :
    typing.expected node = (typing.expected array).bind fun shape => shape.step? .item := by
  rw [expected_of_mem_children h]
  obtain ⟨here, above⟩ := item
  obtain rfl : above = array.here :: array.above := (Locus.mem_children_iff.1 hitem).2
  unfold expectedFrom
  simp only [hkind]
  rfl

/-- Of the children of a loop the body alone is asked for a shape. -/
theorem loopBody_of_expected {loop : Locus} {shape : Shape} (hkind : loop.kind = .forExpr)
    (h : node ∈ loop.children) (hshape : typing.expected node = some shape) :
    loop.loopBody = some node := by
  rw [expected_of_mem_children h] at hshape
  unfold expectedFrom at hshape
  obtain ⟨here, above⟩ := loop
  cases above with
  | nil =>
      simp only [hkind] at hshape
      cases hshape
  | cons outer rest =>
      simp only [hkind, bind, Option.bind_eq_some_iff, Option.guard_eq_some'] at hshape
      obtain ⟨body, hbody, _, hlength, -⟩ := hshape
      rw [hbody, Locus.eq_of_length_left (Locus.mem_children_of_loopBody hbody) h hlength]

theorem expected_of_loopBody {loop outer : Locus} (hloop : loop ∈ outer.children)
    (hkind : loop.kind = .forExpr) (h : loop.loopBody = some node) :
    typing.expected node = if hasBody outer.kind then typing.bodyShape outer
      else (typing.expected loop).bind fun shape => shape.step? .item := by
  rw [expected_of_mem_children (Locus.mem_children_of_loopBody h)]
  obtain ⟨here, above⟩ := loop
  obtain rfl : above = outer.here :: outer.above := (Locus.mem_children_iff.1 hloop).2
  unfold expectedFrom
  simp only [hkind, h, bind, Option.bind_some, guard, if_true, pure]
  rfl

/-- The shape that is asked for at the end of a way down from a declaration. -/
theorem expected_of_reaches (hbody : hasBody declaration.kind = true)
    (h : declaration.Reaches node steps) :
    typing.expected node = (typing.bodyShape declaration).bind fun shape => shape.follow steps := by
  induction h with
  | body hnode =>
      rw [expected_of_hasBody hbody hnode]
      cases typing.bodyShape declaration <;> rfl
  | bodyOfLoop hloop hkind hnode =>
      rw [expected_of_loopBody hloop hkind hnode, if_pos hbody]
      cases typing.bodyShape declaration <;> rfl
  | value _ hproperty hkind hname hnode ih =>
      rw [expected_of_property hproperty hkind hnode, hname, ih, Option.bind_some,
        Option.bind_assoc]
      simp only [Shape.follow_concat]
  | item _ hitem hkind hnode ih =>
      rw [expected_of_arrayItem hitem hkind hnode, ih, Option.bind_assoc]
      simp only [Shape.follow_concat]
  | itemOfLoop hloop hdeep hkind hnode ih =>
      obtain ⟨outer, -, houter⟩ := hloop.exists_parent
      have hnone : ¬hasBody outer.kind = true := fun hhas => hdeep (hloop.mem_children houter hhas)
      rw [expected_of_loopBody houter hkind hnode, if_neg hnone, ih, Option.bind_assoc]
      simp only [Shape.follow_concat]

/-- A shape is asked for below declarations, properties, items of arrays and loops alone. -/
theorem kind_of_expected {parent : Locus} {shape : Shape} (h : node ∈ parent.children)
    (hshape : typing.expected node = some shape) : hasBody parent.kind = true ∨
      parent.above ≠ [] ∧ (parent.kind = .objectProperty ∨ parent.kind = .arrayItem ∨
        parent.kind = .forExpr) := by
  rw [expected_of_mem_children h] at hshape
  unfold expectedFrom at hshape
  obtain ⟨here, above⟩ := parent
  dsimp only at hshape
  split at hshape
  · exact .inl (by rw [hasBody]; simp [*])
  · exact .inl (by rw [hasBody]; simp [*])
  · exact .inr ⟨List.cons_ne_nil _ _, .inl ‹_›⟩
  · exact .inr ⟨List.cons_ne_nil _ _, .inr (.inl ‹_›)⟩
  · exact .inr ⟨List.cons_ne_nil _ _, .inr (.inr ‹_›)⟩
  · cases hshape

/-- A shape is asked for only at the end of a way down from a declaration. -/
theorem exists_reaches_of_expected {shape : Shape} (hroot : root.IsRoot)
    (hunder : Locus.Under root node) (h : typing.expected node = some shape) :
    ∃ declaration steps, Locus.Under root declaration ∧ hasBody declaration.kind = true ∧
      declaration.Reaches node steps := by
  induction hlength : node.above.length using Nat.strongRecOn generalizing node shape with
  | ind length ih =>
    cases hunder with
    | root =>
        rw [expected, hroot.1] at h
        cases h
    | @child parent _ hparent hnode =>
        rcases kind_of_expected hnode h with hbody | ⟨hdeep, hkinds⟩
        · exact ⟨parent, [], hparent, hbody, .body hnode⟩
        · -- the node that asks for the shape is two levels further up
          obtain ⟨outer, houter, hchild⟩ :
              ∃ outer, Locus.Under root outer ∧ parent ∈ outer.children := by
            cases hparent with
            | root => exact absurd hroot.1 hdeep
            | child houter hchild => exact ⟨_, houter, hchild⟩
          have habove := (Locus.mem_children_iff.1 hnode).2
          have habove' := (Locus.mem_children_iff.1 hchild).2
          have hless : parent.above.length < length := by
            rw [← hlength, habove, List.length_cons]
            exact Nat.lt_succ_self _
          have hless' : outer.above.length < length := by
            refine Nat.lt_trans ?_ hless
            rw [habove', List.length_cons]
            exact Nat.lt_succ_self _
          rcases hkinds with hkind | hkind | hkind
          · rw [expected_of_property hchild hkind hnode] at h
            obtain ⟨name, hname, h⟩ := Option.bind_eq_some_iff.1 h
            obtain ⟨around, haround, -⟩ := Option.bind_eq_some_iff.1 h
            obtain ⟨declaration, steps, hin, hbody, hway⟩ := ih _ hless' houter haround rfl
            exact ⟨declaration, _, hin, hbody, .value hway hchild hkind hname hnode⟩
          · rw [expected_of_arrayItem hchild hkind hnode] at h
            obtain ⟨around, haround, -⟩ := Option.bind_eq_some_iff.1 h
            obtain ⟨declaration, steps, hin, hbody, hway⟩ := ih _ hless' houter haround rfl
            exact ⟨declaration, _, hin, hbody, .item hway hchild hkind hnode⟩
          · have hloop := loopBody_of_expected hkind hnode h
            rw [expected_of_loopBody hchild hkind hloop] at h
            split at h
            · exact ⟨outer, [], houter, ‹_›, .bodyOfLoop hchild hkind hloop⟩
            · obtain ⟨around, haround, -⟩ := Option.bind_eq_some_iff.1 h
              obtain ⟨declaration, steps, hin, hbody, hway⟩ := ih _ hless hparent haround rfl
              by_cases htop : parent ∈ declaration.children
              · exact ⟨declaration, [], hin, hbody, .bodyOfLoop htop hkind hloop⟩
              · exact ⟨declaration, _, hin, hbody, .itemOfLoop hway htop hkind hloop⟩

/-- The shape that is asked for is what the way down from a declaration makes of that of its body. -/
theorem expected_eq_some_iff {shape : Shape} (hroot : root.IsRoot)
    (hunder : Locus.Under root node) :
    typing.expected node = some shape ↔
      ∃ declaration steps body, Locus.Under root declaration ∧
        hasBody declaration.kind = true ∧ declaration.Reaches node steps ∧
        typing.bodyShape declaration = some body ∧ body.follow steps = some shape := by
  constructor
  · intro h
    obtain ⟨declaration, steps, hin, hbody, hway⟩ := exists_reaches_of_expected hroot hunder h
    rw [expected_of_reaches hbody hway, Option.bind_eq_some_iff] at h
    obtain ⟨body, hbodyShape, hfollow⟩ := h
    exact ⟨declaration, steps, body, hin, hbody, hway, hbodyShape, hfollow⟩
  · rintro ⟨declaration, steps, body, -, hbody, hway, hbodyShape, hfollow⟩
    rw [expected_of_reaches hbody hway, hbodyShape, Option.bind_some, hfollow]

end Typing

namespace Completion

variable {completion : Completion} {size : Nat}

/-- The labels of the suggestions are those of all that are made and wanted. -/
theorem exists_label_iff (label : String) :
    (∃ suggestion ∈ completion.suggestions size, suggestion.label = label) ↔
      ∃ raw ∈ completion.raw, (completion.settings.snippets || !raw.isSnippet) = true ∧
        raw.label = label :=
  exists_label_finish_iff label

theorem label_propertyKey (settings : Settings) (member : Member) :
    (propertyKey settings member).label = member.name := by
  unfold propertyKey
  dsimp only
  split
  · rfl
  · split <;> rfl

/-- Without snippets a key is plain text. -/
theorem wanted_propertyKey (settings : Settings) (member : Member) :
    (settings.snippets || !(propertyKey settings member).isSnippet) = true := by
  cases hsnippets : settings.snippets with
  | true => rfl
  | false =>
      unfold propertyKey
      simp [hsnippets, Suggestion.isSnippet, Suggestion.withInsert]

theorem mem_propertyKeys_iff (label : String) (hobject : completion.context.node.kind = .object) :
    (∃ suggestion ∈ completion.propertyKeys, suggestion.label = label) ↔
      (∃ shape, completion.typing.expected completion.context.node = some shape ∧
        ∃ member ∈ completion.typing.types.membersOf shape, member.name = label) ∧
      label ∉ presentKeys completion.context.node completion.context.replacement := by
  unfold propertyKeys
  rw [Locus.ofKind, if_pos hobject, Option.bind_some]
  cases completion.typing.expected completion.context.node with
  | none => simp
  | some shape =>
      simp only [List.mem_map, List.mem_filter]
      constructor
      · rintro ⟨_, ⟨member, ⟨hmember, hnew⟩, rfl⟩, rfl⟩
        rw [label_propertyKey]
        exact ⟨⟨shape, rfl, member, hmember, rfl⟩, by simpa using hnew⟩
      · rintro ⟨⟨_, heq, member, hmember, rfl⟩, hnew⟩
        cases heq
        exact ⟨_, ⟨member, ⟨hmember, by simpa using hnew⟩, rfl⟩, label_propertyKey _ _⟩

end Completion

namespace Vicinity

variable {place : Vicinity} {finding : Context.Finding}

/-- Keys are found by one rule. -/
theorem propertyKey_of_finding (h : place.finding = some finding)
    (hkind : finding.kind = .propertyKey) : place.propertyKey = some finding := by
  have hother : ∀ {kind node}, place.found kind node = finding → kind = .propertyKey := by
    rintro kind node rfl
    rwa [kind_found] at hkind
  obtain ⟨rule, hrule, hfinds⟩ := List.exists_of_findSome?_eq_some h
  simp only [rules, List.mem_cons, List.not_mem_nil, or_false] at hrule
  rcases hrule with rfl | rfl | rfl | rfl | rfl | rfl | rfl | rfl | rfl | rfl
  case inr.inr.inr.inr.inl => exact hfinds
  · rcases Option.or_eq_some_iff.1 hfinds with hstring | ⟨-, hmissing⟩
    · rw [kind_insideTypeString hstring] at hkind
      cases hkind
    · simp only [missingType, bind, Option.bind_eq_some_iff, Option.some.injEq] at hmissing
      obtain ⟨_, -, _, -, _, -, _, -, hfound⟩ := hmissing
      cases hother hfound
  · simp only [decoratorName, bind, Option.bind_eq_some_iff, Option.some.injEq] at hfinds
    obtain ⟨_, -, hfound⟩ := hfinds
    cases hother hfound
  · simp only [resourceHeader, bind, Option.bind_eq_some_iff, Option.some.injEq] at hfinds
    obtain ⟨_, -, _, -, _, -, _, -, _, -, _, -, _, -, _, -, _, -, hfound⟩ := hfinds
    cases hother hfound
  · simp only [typeName, bind, Option.bind_eq_some_iff, Option.some.injEq] at hfinds
    obtain ⟨_, -, _, -, _, -, _, -, hfound⟩ := hfinds
    cases hother hfound
  · simp only [propertyValue, bind, Option.bind_eq_some_iff, Option.some.injEq] at hfinds
    obtain ⟨_, -, hfound⟩ := hfinds
    cases hother hfound
  · simp only [memberAccess, bind, Option.bind_eq_some_iff, Option.some.injEq] at hfinds
    obtain ⟨_, -, hfound⟩ := hfinds
    cases hother hfound
  · simp only [resourceBody, bind, Option.bind_eq_some_iff, Option.some.injEq] at hfinds
    obtain ⟨_, -, hfound⟩ := hfinds
    cases hother hfound
  · unfold declarations at hfinds
    split at hfinds
    · cases hother (Option.some.inj hfinds)
    · cases hfinds
  · unfold expression at hfinds
    split at hfinds
    · simp only [bind, Option.bind_eq_some_iff, Option.some.injEq] at hfinds
      obtain ⟨_, -, _, -, hfound⟩ := hfinds
      cases hother hfound
    · simp only [bind, Option.bind_eq_some_iff, Option.some.injEq] at hfinds
      obtain ⟨_, -, _, -, _, -, hfound⟩ := hfinds
      cases hother hfound

end Vicinity

namespace Document

variable {text : String} {offset : Nat} {object : Locus} {context : Context}

/-- A name that an object has as a key, other than in the key that the word at the cursor is in. -/
def IsWritten (text : String) (offset : Nat) (object : Locus) (name : String) : Prop :=
  ∃ property ∈ object.properties, ∃ key, property.keyNode = some key ∧ key.keyText = some name ∧
    ∀ word ∈ ((locus text).vicinity offset).word, ¬Locus.Under key word

/-- A node holds the word at the cursor if it covers the bytes of the word. -/
theorem contains_word_iff {key word : Locus} (hkey : Locus.Under (locus text) key)
    (hword : word ∈ (locus text).leaves) :
    key.span.contains word.span = true ↔ Locus.Under key word := by
  constructor
  · intro hcontains
    have hbytes := Span.contains_iff.1 hcontains
    have hne := start_lt_stop hword
    obtain ⟨hunder, htoken⟩ := Locus.mem_leaves_iff.1 hword
    rcases (located_locus text).under_or_apart hkey hunder with
      rfl | haround | haround | hapart | hapart
    · exact .root
    · exact haround.under
    · have hnode := haround.isNode
      rw [Locus.isNode_eq_not, htoken] at hnode
      cases hnode
    · omega
    · omega
  · exact fun hunder => hunder.contains (hkey.located (located_locus text))

theorem mem_presentKeys_iff (hobject : Locus.Under (locus text) object) (name : String) :
    name ∈ Completion.presentKeys object (replaced text offset) ↔
      IsWritten text offset object name := by
  have hkept : ∀ {property key}, property ∈ object.properties → property.keyNode = some key →
      (((replaced text offset).isEmpty || !key.span.contains (replaced text offset)) = true ↔
        ∀ word ∈ ((locus text).vicinity offset).word, ¬Locus.Under key word) := by
    intro property key hproperty hkey
    have hunder : Locus.Under (locus text) key :=
      (hobject.child (List.mem_filter.1 (List.mem_filter.1 hproperty).1).1).child
        (List.mem_filter.1 (List.mem_of_find?_eq_some hkey)).1
    unfold replaced
    cases hword : ((locus text).vicinity offset).word with
    | none => simp [Span.isEmpty, Span.empty]
    | some word =>
        have hleaf : word ∈ (locus text).leaves :=
          (mem_tokensAt_iff.1 (List.mem_of_find?_eq_some hword)).1
        have hempty : word.span.isEmpty = false := by
          have := start_lt_stop hleaf
          simp only [Span.isEmpty, decide_eq_false_iff_not]
          omega
        simp [hempty, ← contains_word_iff hunder hleaf]
  simp only [Completion.presentKeys, List.mem_filterMap, List.mem_filter, IsWritten]
  constructor
  · rintro ⟨key, ⟨⟨property, hproperty, hkey⟩, hother⟩, hname⟩
    exact ⟨property, hproperty, key, hkey, hname, (hkept hproperty hkey).1 hother⟩
  · rintro ⟨property, hproperty, key, hkey, hname, hother⟩
    exact ⟨key, ⟨⟨property, hproperty, hkey⟩, (hkept hproperty hkey).2 hother⟩, hname⟩

/-- Where keys are offered, the token in front on the line is one of an object that they are the keys
of. -/
theorem exists_token_of_propertyKey
    (hcontext : Context.at? (locus text) text offset = some context)
    (hkind : context.kind = .propertyKey) :
    ∃ token, ((locus text).vicinity offset).beforeOnLine = some token ∧
      (token.kind = .lBrace ∨ token.kind = .newline ∨ token.kind = .comma) ∧
      token ∈ context.node.children ∧ Locus.Under (locus text) context.node ∧
      context.node.kind = .object ∧ context.replacement = replaced text offset := by
  obtain ⟨finding, hfinding, hfound, hnode, hreplacement⟩ := exists_finding hcontext
  have hkey := Vicinity.propertyKey_of_finding hfinding (hfound.trans hkind)
  simp only [Vicinity.propertyKey, bind, Option.bind_eq_some_iff, Option.some.injEq] at hkey
  obtain ⟨before, hbefore, _, htoken, object, hparent, _, hobject, hmade⟩ := hkey
  rw [Option.guard_eq_some'] at htoken hobject
  obtain ⟨parent, hunder, hchild⟩ := exists_parent (of_beforeOnLine hbefore).1
  obtain rfl : object = parent :=
    Option.some.inj (hparent.symm.trans (Locus.parent_of_mem_children hchild))
  have hfoundNode : finding.node = object := by
    rw [← hmade, Vicinity.found]
    split <;> rfl
  have hreplaced : finding.replacement = replaced text offset := by
    rw [← hmade, Vicinity.replacement_found]
    rfl
  rw [← hnode, hfoundNode, ← hreplacement, hreplaced]
  exact ⟨before, hbefore, by simpa [or_assoc] using htoken, hchild, hunder, hobject, rfl⟩

/-- Where keys are offered, they are the keys of an object. -/
theorem object_of_propertyKey (hcontext : Context.at? (locus text) text offset = some context)
    (hkind : context.kind = .propertyKey) :
    Locus.Under (locus text) context.node ∧ context.node.kind = .object ∧
      context.replacement = replaced text offset := by
  obtain ⟨_, -, -, -, hobject⟩ := exists_token_of_propertyKey hcontext hkind
  exact hobject

end Document

open Document in
/-- Where keys are offered, they are those of the shape that the way down from a declaration to the
object leads to, without those that the object has. -/
theorem exists_key_completionsIn_iff (text : String) (offset : Nat) (types : Provider)
    (settings : Settings) (context : Context) (hboundary : Bytes.isBoundary offset text = true)
    (hcontext : Context.at? (locus text) text offset = some context)
    (hkind : context.kind = .propertyKey) :
    context.node.kind = .object ∧
      ∃ suggestions, completionsIn text offset types settings = .ok suggestions ∧ ∀ label,
        (∃ suggestion ∈ suggestions, suggestion.label = label) ↔
          (∃ declaration ∈ (locus text).declarations, ∃ steps body shape,
            Typing.hasBody declaration.kind = true ∧ declaration.Reaches context.node steps ∧
            Typing.bodyShape ⟨locus text, .ofRoot (locus text), types⟩ declaration = some body ∧
            body.follow steps = some shape ∧
            ∃ member ∈ types.membersOf shape, member.name = label) ∧
          ¬IsWritten text offset context.node label := by
  obtain ⟨hunder, hobject, hreplacement⟩ := object_of_propertyKey hcontext hkind
  refine ⟨hobject, _, completionsIn_eq_ok types settings hboundary hcontext, fun label => ?_⟩
  have hraw : Completion.raw ⟨context, ⟨locus text, .ofRoot (locus text), types⟩, settings⟩ =
      Completion.propertyKeys ⟨context, ⟨locus text, .ofRoot (locus text), types⟩, settings⟩ := by
    unfold Completion.raw
    rw [hkind]
  have hwanted : ∀ suggestion ∈ Completion.propertyKeys
      ⟨context, ⟨locus text, .ofRoot (locus text), types⟩, settings⟩,
      (settings.snippets || !suggestion.isSnippet) = true := by
    intro suggestion hmem
    unfold Completion.propertyKeys at hmem
    split at hmem
    · cases hmem
    · obtain ⟨member, -, rfl⟩ := List.mem_map.1 hmem
      exact Completion.wanted_propertyKey settings member
  calc (∃ suggestion ∈ Completion.suggestions
          ⟨context, ⟨locus text, .ofRoot (locus text), types⟩, settings⟩ text.utf8ByteSize,
          suggestion.label = label)
      ↔ ∃ suggestion ∈ Completion.propertyKeys
          ⟨context, ⟨locus text, .ofRoot (locus text), types⟩, settings⟩,
          suggestion.label = label := by
        rw [Completion.exists_label_iff, hraw]
        exact ⟨fun ⟨raw, hmem, _, hlabel⟩ => ⟨raw, hmem, hlabel⟩,
          fun ⟨raw, hmem, hlabel⟩ => ⟨raw, hmem, hwanted raw hmem, hlabel⟩⟩
    _ ↔ (∃ shape,
          Typing.expected ⟨locus text, .ofRoot (locus text), types⟩ context.node = some shape ∧
          ∃ member ∈ types.membersOf shape, member.name = label) ∧
          ¬IsWritten text offset context.node label := by
        rw [Completion.mem_propertyKeys_iff label hobject, ← mem_presentKeys_iff hunder,
          hreplacement]
    _ ↔ _ := by
        refine and_congr_left fun _ => ?_
        simp only [Typing.expected_eq_some_iff (isRoot_locus text) hunder]
        constructor
        · rintro ⟨shape, ⟨declaration, steps, body, hin, hbody, hway, hshape, hfollow⟩, hmember⟩
          have hdeclaration : declaration.kind.isDeclaration = true := by
            rcases Typing.kind_of_hasBody hbody with heq | heq <;> rw [heq] <;> rfl
          have hchild := mem_children_of_isDeclaration hin hway.isNode hdeclaration
          exact ⟨declaration, mem_declarations_iff.2 ⟨hchild, hway.isNode, hdeclaration⟩, steps,
            body, shape, hbody, hway, hshape, hfollow, hmember⟩
        · rintro ⟨declaration, hmem, steps, body, shape, hbody, hway, hshape, hfollow, hmember⟩
          have hin := Locus.Under.child .root (mem_declarations_iff.1 hmem).1
          exact ⟨shape, ⟨declaration, steps, body, hin, hbody, hway, hshape, hfollow⟩, hmember⟩

/-- One type of resources, with items that have an `a` and a `b`. -/
def Catalog.ofItems : Catalog :=
  Catalog.empty.insert "T@1" (some (.object none [Shape.plain "p" (.array (.object none
    [Shape.plain "a" .int, Shape.plain "b" .int]))]))

open Document in
/-- In an object in an array in a loop the key that is being written is still offered, and one that
is written already is not. -/
theorem offered_in_loop :
    Bytes.isBoundary 45 "resource r 'T@1' = [for i in n: \x7bp: [\x7ba: 1, b\x7d]\x7d]" = true ∧
      ∃ context, Context.at? (locus "resource r 'T@1' = [for i in n: \x7bp: [\x7ba: 1, b\x7d]\x7d]")
        "resource r 'T@1' = [for i in n: \x7bp: [\x7ba: 1, b\x7d]\x7d]" 45 = some context ∧
        context.kind = .propertyKey ∧ ∃ suggestions,
          completionsIn "resource r 'T@1' = [for i in n: \x7bp: [\x7ba: 1, b\x7d]\x7d]" 45
            Catalog.ofItems.provider {} = .ok suggestions ∧
          (∃ suggestion ∈ suggestions, suggestion.label = "b") ∧
          (¬∃ suggestion ∈ suggestions, suggestion.label = "a") ∧
          ∃ declaration ∈
            (locus "resource r 'T@1' = [for i in n: \x7bp: [\x7ba: 1, b\x7d]\x7d]").declarations,
            ∃ steps, declaration.Reaches context.node steps := by
  generalize htext : "resource r 'T@1' = [for i in n: \x7bp: [\x7ba: 1, b\x7d]\x7d]" = text
  have hboundary : Bytes.isBoundary 45 text = true := by
    rw [← htext]
    decide +kernel
  have hvalues : (Context.at? (locus text) text 45).map (fun context => (context.kind,
      (Completion.raw ⟨context, ⟨locus text, .ofRoot (locus text), Catalog.ofItems.provider⟩,
        {}⟩).map Suggestion.label)) = some (.propertyKey, ["b"]) := by
    rw [← htext]
    decide +kernel
  obtain ⟨context, hcontext, heq⟩ := Option.map_eq_some_iff.1 hvalues
  obtain ⟨hkind, hlabels⟩ := Prod.mk.inj heq
  obtain ⟨-, suggestions, hok, hiff⟩ := exists_key_completionsIn_iff text 45
    Catalog.ofItems.provider {} context hboundary hcontext hkind
  have hraw : ∀ label, (∃ suggestion ∈ suggestions, suggestion.label = label) ↔ label = "b" := by
    intro label
    rw [completionsIn_eq_ok Catalog.ofItems.provider {} hboundary hcontext] at hok
    cases hok
    rw [Completion.exists_label_iff, ← List.mem_singleton, ← hlabels, List.mem_map]
    simp
  have hoffered := (hraw "b").2 rfl
  obtain ⟨⟨declaration, hmem, steps, -, -, -, hway, -⟩, -⟩ := (hiff "b").1 hoffered
  refine ⟨hboundary, context, hcontext, hkind, suggestions, hok, hoffered, fun h => ?_,
    declaration, hmem, steps, hway⟩
  exact absurd ((hraw "a").1 h) (by decide)

end Caret
