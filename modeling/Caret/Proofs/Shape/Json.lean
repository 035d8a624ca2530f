import Caret.Proofs.Text.Compact
import Caret.Shape.Json

/-!
# Shapes are read back

A member and its shape share one object. No field of a shape is named like one of a member's own, so
the two are told apart again, whatever the names of the members of the shape are: those stand one
level further down.
-/

namespace Caret

namespace Keyed

variable {α : Type} {key : α → String} {x : α} {xs ys : List α}

theorem insert_of_forall_lt (h : ∀ y ∈ xs, key y < key x) : insert key x xs = xs ++ [x] := by
  induction xs with
  | nil => rfl
  | cons first rest ih =>
      have hlt : key first < key x := h first List.mem_cons_self
      have hrest := ih fun y hy => h y (List.mem_cons_of_mem first hy)
      rw [insert, if_neg (String.lt_asymm hlt), if_neg (fun heq => String.lt_irrefl _ (heq ▸ hlt)),
        hrest, List.cons_append]

theorem foldl_insert_of_sorted (h : Sorted key (xs ++ ys)) :
    ys.foldl (fun sorted y => insert key y sorted) xs = xs ++ ys := by
  induction ys generalizing xs with
  | nil => rw [List.foldl_nil, List.append_nil]
  | cons y ys ih =>
      have hbefore : ∀ x ∈ xs, key x < key y := fun x hx =>
        (List.pairwise_append.1 h).2.2 x hx y List.mem_cons_self
      have hsplit : xs ++ y :: ys = xs ++ [y] ++ ys := by rw [List.append_assoc]; rfl
      rw [List.foldl_cons, insert_of_forall_lt hbefore, hsplit]
      exact ih (hsplit ▸ h)

/-- What is in order stays as it is. -/
theorem ofList_of_sorted (h : Sorted key xs) : ofList key xs = xs := foldl_insert_of_sorted h

theorem mem_of_mem_foldl_insert (h : x ∈ ys.foldl (fun sorted y => insert key y sorted) xs) :
    x ∈ xs ∨ x ∈ ys := by
  induction ys generalizing xs with
  | nil => exact .inl h
  | cons y ys ih =>
      rcases ih h with hmem | hmem
      · rcases eq_or_mem_of_mem_insert hmem with rfl | hmem
        · exact .inr List.mem_cons_self
        · exact .inl hmem
      · exact .inr (List.mem_cons_of_mem y hmem)

theorem mem_of_mem_ofList (h : x ∈ ofList key xs) : x ∈ xs :=
  (mem_of_mem_foldl_insert h).resolve_left List.not_mem_nil

end Keyed

theorem exists_of_mem_mapM {α β : Type} {f : α → Option β} {xs : List α} {ys : List β} {y : β}
    (h : xs.mapM f = some ys) (hy : y ∈ ys) : ∃ x ∈ xs, f x = some y := by
  induction xs generalizing ys with
  | nil => simp_all
  | cons x xs ih =>
      simp only [List.mapM_cons, Option.bind_eq_bind, Option.bind_eq_some_iff, Option.pure_def,
        Option.some_inj] at h
      obtain ⟨first, hfirst, rest, hrest, rfl⟩ := h
      rcases List.mem_cons.1 hy with rfl | hy
      · exact ⟨x, List.mem_cons_self, hfirst⟩
      · obtain ⟨z, hz, hy⟩ := ih hrest hy
        exact ⟨z, List.mem_cons_of_mem x hz, hy⟩

namespace Shape

open Json (entry text)

mutual

/-- The members of all objects in a shape are in the order of their names, and no two of one object
have the same. -/
def IsOrdered : Shape → Prop
  | array items => items.IsOrdered
  | object _ members => Keyed.Sorted Member.name members ∧ AreOrdered members
  | _ => True

def AreOrdered : List Member → Prop
  | [] => True
  | ⟨_, shape, _, _⟩ :: members => shape.IsOrdered ∧ AreOrdered members

end

mutual

/-- The levels of arrays and objects in what a shape is written as. An object takes two, one of them
for its members, and so do the values of an enumeration. -/
def nesting : Shape → Nat
  | array items => items.nesting + 1
  | object _ members => nestingAll members + 2
  | enum _ => 2
  | _ => 1

/-- A member takes the levels of its shape. -/
def nestingAll : List Member → Nat
  | [] => 0
  | ⟨_, shape, _, _⟩ :: members => max shape.nesting (nestingAll members)

end

theorem one_le_nesting (shape : Shape) : 1 ≤ shape.nesting := by
  cases shape <;> simp [nesting]

end Shape

namespace Json

variable {members more : List (Option String × Json)} {name : String} {depth : Nat}

@[simp]
theorem hasValue_text (value : String) : (text value).hasValue depth = true := rfl

@[simp]
theorem hasValue_bool (value : Bool) : (bool value).hasValue depth = true := rfl

theorem hasValue_object_iff : (object members).hasValue depth = true ↔
    1 ≤ depth ∧ membersHaveValue (depth - 1) members = true := by
  simp [hasValue, Nat.one_le_iff_ne_zero]

theorem hasValue_texts_iff (values : List String) :
    (array (values.map text)).hasValue depth = true ↔ 1 ≤ depth := by
  have hvalues : ∀ inner, allHaveValue inner (values.map text) = true := fun inner => by
    induction values with
    | nil => rfl
    | cons value values ih => simp [allHaveValue, ih]
  simp [hasValue, hvalues, Nat.one_le_iff_ne_zero]

@[simp]
theorem membersHaveValue_nil : membersHaveValue depth [] = true := rfl

@[simp]
theorem membersHaveValue_entry (value : Json) :
    membersHaveValue depth (entry name value :: members) =
      (value.hasValue depth && membersHaveValue depth members) := rfl

@[simp]
theorem membersHaveValue_append : membersHaveValue depth (members ++ more) =
    (membersHaveValue depth members && membersHaveValue depth more) := by
  induction members with
  | nil => rfl
  | cons member members ih => simp [membersHaveValue, ih, Bool.and_assoc]

theorem valuesOf_append :
    valuesOf name (members ++ more) = valuesOf name members ++ valuesOf name more := by
  simp [valuesOf]

theorem valuesOf_eq_nil (h : ∀ member ∈ members, member.1 ≠ some name) :
    valuesOf name members = [] := by
  simpa [valuesOf] using h

theorem named_map_entry {α : Type} (name : α → String) (value : α → Json) (xs : List α) :
    named (xs.map fun x => entry (name x) (value x)) =
      some (xs.map fun x => (name x, value x)) := by
  rw [named, List.mapM_map]
  exact List.mapM_pure

theorem mapM_text? (values : List String) : (values.map text).mapM text? = some values := by
  rw [List.mapM_map]
  exact List.mapM_pure.trans (congrArg some (List.map_id values))

end Json

/-- The fields of a member that are not of its shape. -/
def Member.ownFields (member : Member) : List (Option String × Json) :=
  Json.entry "required" (.bool member.required) ::
    (member.description.map fun description =>
      Json.entry "description" (Json.text description)).toList

def Member.toJson (member : Member) : Json := .object (member.shape.fields ++ member.ownFields)

namespace Shape

open Json (entry text)

theorem memberFields_eq_map (members : List Member) :
    memberFields members = members.map fun member => entry member.name member.toJson := by
  induction members with
  | nil => simp [memberFields]
  | cons member members ih =>
      obtain ⟨name, shape, required, description⟩ := member
      rw [memberFields, ih, List.append_assoc]
      rfl

/-! ## How deep a shape nests in its JSON form -/

section

open Json (membersHaveValue hasValue_object_iff)

@[simp]
theorem membersHaveValue_ownFields (member : Member) :
    membersHaveValue depth member.ownFields = true := by
  cases hdescription : member.description <;> simp [Member.ownFields, hdescription]

theorem hasValue_toJson_member (member : Member) (depth : Nat) :
    member.toJson.hasValue depth = member.shape.toJson.hasValue depth := by
  rw [Bool.eq_iff_iff, Member.toJson, toJson, hasValue_object_iff, hasValue_object_iff,
    Json.membersHaveValue_append, membersHaveValue_ownFields, Bool.and_true]

mutual

theorem hasValue_toJson_iff (shape : Shape) (depth : Nat) :
    shape.toJson.hasValue depth = true ↔ shape.nesting ≤ depth := by
  rw [toJson, hasValue_object_iff]
  cases shape with
  | any => simp [fields, nesting]
  | string => simp [fields, nesting]
  | int => simp [fields, nesting]
  | bool => simp [fields, nesting]
  | array items =>
      have hitems : (Json.object items.fields).hasValue (depth - 1) = true ↔
          items.nesting ≤ depth - 1 := hasValue_toJson_iff items (depth - 1)
      simp only [fields, nesting, Json.membersHaveValue_entry, Json.hasValue_text, hitems,
        Json.membersHaveValue_nil, Bool.and_true, Bool.true_and]
      omega
  | object name members =>
      have hmembers := membersHaveValue_memberFields_iff members (depth - 1 - 1)
      have hname : membersHaveValue (depth - 1)
          (name.map fun name => entry "name" (text name)).toList = true := by
        cases name <;> simp
      simp only [fields, nesting, Json.membersHaveValue_entry, Json.hasValue_text,
        Json.membersHaveValue_append, hname, hasValue_object_iff, hmembers,
        Json.membersHaveValue_nil, Bool.and_true, Bool.true_and]
      omega
  | enum values =>
      simp only [fields, nesting, Json.membersHaveValue_entry, Json.hasValue_text,
        Json.hasValue_texts_iff, Json.membersHaveValue_nil, Bool.and_true, Bool.true_and]
      omega

theorem membersHaveValue_memberFields_iff (members : List Member) (depth : Nat) :
    membersHaveValue depth (memberFields members) = true ↔ nestingAll members ≤ depth := by
  match members with
  | [] => simp [memberFields, nestingAll]
  | ⟨name, shape, required, description⟩ :: members =>
      have hshape := hasValue_toJson_iff shape depth
      have hmember := hasValue_toJson_member ⟨name, shape, required, description⟩ depth
      have hmembers := membersHaveValue_memberFields_iff members depth
      rw [memberFields_eq_map] at hmembers ⊢
      rw [List.map_cons, Json.membersHaveValue_entry, Bool.and_eq_true, hmember, hshape, hmembers,
        nestingAll, Nat.max_le]

end

end

/-! ## The fields of a member are told apart -/

variable {shape : Shape} {members : List Member} {readShape : Json → Option Shape}

theorem isOwnField_of_mem_fields {field : Option String × Json} (h : field ∈ shape.fields) :
    isOwnField field.1 = false := by
  have hnames : field.1 ∈ ["type", "items", "name", "properties", "values"].map some := by
    cases shape with
    | object name members => cases name <;> simp [fields, entry] at h <;> grind
    | _ =>
        simp [fields, entry] at h
        grind
  have hnot : ∀ name ∈ ["type", "items", "name", "properties", "values"].map some,
      isOwnField name = false := by decide
  exact hnot field.1 hnames

theorem isOwnField_of_mem_ownFields {member : Member} {field : Option String × Json}
    (h : field ∈ member.ownFields) : isOwnField field.1 = true := by
  rcases List.mem_cons.1 h with rfl | h
  · rfl
  · cases hdescription : member.description with
    | none => simp [hdescription] at h
    | some description =>
        obtain rfl : field = entry "description" (text description) := by
          simpa [hdescription] using h
        rfl

/-- Without its own fields a member is what its shape is written as. -/
theorem filter_fields_append_ownFields (member : Member) :
    (member.shape.fields ++ member.ownFields).filter (fun field => !isOwnField field.1) =
      member.shape.fields := by
  rw [List.filter_append, List.filter_eq_self.2, List.filter_eq_nil_iff.2, List.append_nil]
  · intro field hfield
    simp [isOwnField_of_mem_ownFields hfield]
  · intro field hfield
    simp [isOwnField_of_mem_fields hfield]

/-- A field that only members have is not looked for among those of a shape. -/
theorem optional_fields_append {own : String} (hown : isOwnField (some own) = true)
    (more : List (Option String × Json)) :
    Json.optional own (shape.fields ++ more) = Json.optional own more := by
  have hnone : Json.valuesOf own shape.fields = [] :=
    Json.valuesOf_eq_nil fun field hfield heq => by
      simpa [heq, hown] using isOwnField_of_mem_fields hfield
  rw [Json.optional, Json.valuesOf_append, hnone, List.nil_append, Json.optional]

theorem readMember_toJson (member : Member)
    (h : readShape member.shape.toJson = some member.shape) :
    readMember readShape member.name member.toJson = some member := by
  have hrequired : Json.optional "required" (member.shape.fields ++ member.ownFields) =
      some (some (.bool member.required)) := by
    rw [optional_fields_append rfl]
    cases hdescription : member.description <;>
      simp [Member.ownFields, hdescription, Json.optional, Json.valuesOf, entry]
  have hdescription : Json.optional "description" (member.shape.fields ++ member.ownFields) =
      some (member.description.map text) := by
    rw [optional_fields_append rfl]
    cases hdescription : member.description <;>
      simp [Member.ownFields, hdescription, Json.optional, Json.valuesOf, entry]
  have hnullable : readNullable (member.description.map text) = some member.description := by
    cases member.description <;> rfl
  rw [toJson] at h
  rw [Member.toJson, readMember, hrequired, hdescription, filter_fields_append_ownFields, h]
  obtain ⟨name, shape, required, description⟩ := member
  simp [Json.bool?, hnullable]

theorem readMembers_memberFields (hsorted : Keyed.Sorted Member.name members)
    (h : ∀ member ∈ members, readShape member.shape.toJson = some member.shape) :
    readMembers readShape (.object (memberFields members)) = some members := by
  have hread : (members.map fun member => (member.name, member.toJson)).mapM
      (fun named => readMember readShape named.1 named.2) = some members := by
    clear hsorted
    induction members with
    | nil => rfl
    | cons member members ih =>
        have hmember := readMember_toJson member (h member List.mem_cons_self)
        have hmembers := ih fun other hother => h other (List.mem_cons_of_mem member hother)
        rw [List.map_cons, List.mapM_cons, hmember, hmembers]
        rfl
  rw [readMembers, memberFields_eq_map, Json.named_map_entry]
  simp only [Option.bind_eq_bind, Option.bind_some, hread, Keyed.ofList_of_sorted hsorted]

/-! ## A shape is read back from its JSON form -/

def tag : Shape → Tag
  | any => .any
  | string => .string
  | int => .int
  | bool => .bool
  | array _ => .array
  | object .. => .object
  | enum _ => .enum

theorem read_toJson_eq_readFields (shape : Shape) (nested : Bool) (depth : Nat) :
    read nested (depth + 1) shape.toJson = readFields (read true depth) shape.fields shape.tag := by
  cases shape with
  | object name members => cases name <;> rfl
  | _ => rfl

mutual

theorem read_toJson (shape : Shape) (nested : Bool) (depth : Nat) (hordered : shape.IsOrdered)
    (hdepth : shape.nesting ≤ depth) : read nested depth shape.toJson = some shape := by
  have hpos := one_le_nesting shape
  obtain ⟨inner, rfl⟩ : ∃ inner, depth = inner + 1 := ⟨depth - 1, by omega⟩
  rw [read_toJson_eq_readFields]
  cases shape with
  | any => rfl
  | string => rfl
  | int => rfl
  | bool => rfl
  | array items =>
      have hitems : read true inner (.object items.fields) = some items :=
        read_toJson items true inner hordered (Nat.le_of_succ_le_succ hdepth)
      simp [readFields, tag, fields, Json.required, Json.optional, Json.valuesOf, entry, hitems]
  | object name members =>
      rw [IsOrdered] at hordered
      rw [nesting] at hdepth
      have hmembers := readMembers_memberFields hordered.1
        (read_toJson_of_mem members inner hordered.2 (by omega))
      cases name <;>
        simp [readFields, tag, fields, Json.optional, Json.valuesOf, entry, text, readNullable,
          Json.nullableText?, Json.text?, hmembers]
  | enum values =>
      have hvalues := Json.mapM_text? values
      simp [readFields, tag, readValues, fields, Json.required, Json.optional, Json.valuesOf, entry,
        Json.items?, -List.mapM_map, hvalues]

theorem read_toJson_of_mem (members : List Member) (depth : Nat) (hordered : AreOrdered members)
    (hdepth : nestingAll members ≤ depth) :
    ∀ member ∈ members, read true depth member.shape.toJson = some member.shape := by
  match members with
  | [] => simp
  | ⟨name, shape, required, description⟩ :: members =>
      rw [nestingAll, Nat.max_le] at hdepth
      rw [AreOrdered] at hordered
      have hshape := read_toJson shape true depth hordered.1 hdepth.1
      have hmembers := read_toJson_of_mem members depth hordered.2 hdepth.2
      intro member hmember
      rcases List.mem_cons.1 hmember with rfl | hmember
      · exact hshape
      · exact hmembers member hmember

end

/-! ## What is read is ordered -/

theorem areOrdered_iff : AreOrdered members ↔ ∀ member ∈ members, member.shape.IsOrdered := by
  induction members with
  | nil => simp [AreOrdered]
  | cons member members ih =>
      obtain ⟨name, shape, required, description⟩ := member
      rw [AreOrdered, ih, List.forall_mem_cons]

theorem isOrdered_object_iff {name : Option String} :
    (object name members).IsOrdered ↔
      Keyed.Sorted Member.name members ∧ ∀ member ∈ members, member.shape.IsOrdered := by
  rw [IsOrdered, areOrdered_iff]

/-- Whether all that a reader makes is ordered. -/
def Orders (readShape : Json → Option Shape) : Prop :=
  ∀ json shape, readShape json = some shape → shape.IsOrdered

theorem isOrdered_of_readMember (hread : Orders readShape) {name : String} {json : Json}
    {member : Member} (h : readMember readShape name json = some member) :
    member.shape.IsOrdered := by
  cases json with
  | object fields =>
      simp only [readMember, Option.bind_eq_bind, Option.bind_eq_some_iff, Option.some_inj] at h
      obtain ⟨_, -, _, -, _, -, _, -, shape, hshape, rfl⟩ := h
      exact hread _ shape hshape
  | _ => cases h

theorem isOrdered_of_readMembers (hread : Orders readShape) {name : Option String} {json : Json}
    (h : readMembers readShape json = some members) : (object name members).IsOrdered := by
  cases json with
  | object fields =>
      simp only [readMembers, Option.bind_eq_bind, Option.bind_eq_some_iff, Option.some_inj] at h
      obtain ⟨named, -, read, hmapM, rfl⟩ := h
      refine isOrdered_object_iff.2 ⟨Keyed.sorted_ofList read, fun member hmember => ?_⟩
      obtain ⟨entry, -, hentry⟩ := exists_of_mem_mapM hmapM (Keyed.mem_of_mem_ofList hmember)
      exact isOrdered_of_readMember hread hentry
  | _ => cases h

theorem isOrdered_of_readValues {json : Json} (h : readValues json = some shape) :
    shape.IsOrdered := by
  simp only [readValues, Option.bind_eq_bind, Option.bind_eq_some_iff, Option.some_inj] at h
  obtain ⟨_, -, values, -, rfl⟩ := h
  trivial

theorem isOrdered_of_readFields (hread : Orders readShape)
    {fields : List (Option String × Json)} {tag : Tag}
    (h : readFields readShape fields tag = some shape) : shape.IsOrdered := by
  cases tag with
  | array =>
      simp only [readFields, Option.bind_eq_bind, Option.bind_eq_some_iff, Option.some_inj] at h
      obtain ⟨_, -, items, hitems, rfl⟩ := h
      exact hread _ items hitems
  | object =>
      simp only [readFields, Option.bind_eq_bind, Option.bind_eq_some_iff, Option.some_inj] at h
      obtain ⟨_, -, name, -, properties, -, members, hmembers, rfl⟩ := h
      cases properties with
      | none =>
          obtain rfl := Option.some.inj hmembers
          exact isOrdered_object_iff.2 ⟨.nil, by simp⟩
      | some properties => exact isOrdered_of_readMembers hread hmembers
  | enum =>
      obtain ⟨_, -, hvalues⟩ := Option.bind_eq_some_iff.1 h
      exact isOrdered_of_readValues hvalues
  | _ =>
      obtain rfl := Option.some.inj h
      trivial

theorem isOrdered_of_readInOrder (hread : Orders readShape) {values : List Json} {tag : Tag}
    (h : readInOrder readShape tag values = some shape) : shape.IsOrdered := by
  have hempty : ∀ {name}, (object name []).IsOrdered :=
    isOrdered_object_iff.2 ⟨.nil, by simp⟩
  unfold readInOrder at h
  split at h
  case h_5 items =>
      obtain ⟨items, hitems, rfl⟩ := Option.map_eq_some_iff.1 h
      exact hread _ items hitems
  case h_6 => exact Option.some.inj h ▸ hempty
  case h_7 name =>
      obtain ⟨name, -, rfl⟩ := Option.map_eq_some_iff.1 h
      exact hempty
  case h_8 name members =>
      simp only [Option.bind_eq_bind, Option.bind_eq_some_iff, Option.some_inj] at h
      obtain ⟨name, -, members, hmembers, rfl⟩ := h
      exact isOrdered_of_readMembers hread hmembers
  case h_9 values => exact isOrdered_of_readValues h
  case h_10 => cases h
  all_goals
    obtain rfl := Option.some.inj h
    trivial

theorem orders_read (nested : Bool) (depth : Nat) : Orders (read nested depth) := by
  intro json shape h
  induction depth generalizing nested json shape with
  | zero => cases json <;> cases h
  | succ depth ih =>
      have hnested : Orders (read true depth) := fun json shape h => ih true json shape h
      cases json with
      | object fields =>
          obtain ⟨_, -, h⟩ := Option.bind_eq_some_iff.1 h
          obtain ⟨tag, -, h⟩ := Option.bind_eq_some_iff.1 h
          exact isOrdered_of_readFields hnested h
      | array values =>
          cases values with
          | nil => cases h
          | cons first values =>
              obtain ⟨tag, -, h⟩ := Option.bind_eq_some_iff.1 h
              exact isOrdered_of_readInOrder hnested h
      | _ => cases h

theorem orders_ofJson (above : Nat) : Orders (ofJson above) := by
  intro json shape h
  obtain ⟨_, -, hread⟩ := Option.bind_eq_some_iff.1 h
  exact orders_read false (maxNesting + 1) json shape hread

/-- Below `above` levels a shape is read back from its JSON form just when it is in order and does
not nest too deeply for that. -/
theorem ofJson_toJson_iff (above : Nat) (shape : Shape) :
    ofJson above shape.toJson = some shape ↔
      shape.IsOrdered ∧ shape.nesting ≤ maxNesting - above := by
  have hnesting := hasValue_toJson_iff shape (maxNesting - above)
  constructor
  · intro h
    refine ⟨orders_ofJson above _ shape h, hnesting.1 ?_⟩
    obtain ⟨_, hguard, -⟩ := Option.bind_eq_some_iff.1 h
    by_cases hvalue : shape.toJson.hasValue (maxNesting - above) = true
    · exact hvalue
    · cases (if_neg hvalue).symm.trans hguard
  · rintro ⟨hordered, hle⟩
    have hread := read_toJson shape false (maxNesting + 1) hordered (by omega)
    exact Option.bind_eq_some_iff.2 ⟨(), if_pos (hnesting.2 hle), hread⟩

/-! ## Shapes as texts -/

mutual

theorem isSome_compact_toJson (shape : Shape) : shape.toJson.compact.isSome = true := by
  rw [toJson, Json.isSome_compact_object_iff]
  cases shape with
  | any => simp [fields, entry]
  | string => simp [fields, entry]
  | int => simp [fields, entry]
  | bool => simp [fields, entry]
  | array items =>
      have hitems : (Json.object items.fields).compact.isSome = true := isSome_compact_toJson items
      simp [fields, entry, hitems]
  | object name members =>
      have hmembers := isSome_compact_of_mem members
      have hobject : (Json.object (memberFields members)).compact.isSome = true := by
        rw [memberFields_eq_map, Json.isSome_compact_object_iff, List.forall_mem_map]
        exact fun member hmember => ⟨rfl, hmembers member hmember⟩
      cases name <;> simp [fields, entry, hobject]
  | enum values => simp [fields, entry, -List.map_map, Json.isSome_compact_texts]

theorem isSome_compact_of_mem (members : List Member) :
    ∀ member ∈ members, member.toJson.compact.isSome = true := by
  match members with
  | [] => simp
  | ⟨name, shape, required, description⟩ :: members =>
      have hshape := isSome_compact_toJson shape
      have hmembers := isSome_compact_of_mem members
      rw [toJson, Json.isSome_compact_object_iff] at hshape
      intro member hmember
      rcases List.mem_cons.1 hmember with rfl | hmember
      · rw [Member.toJson, Json.isSome_compact_object_iff, List.forall_mem_append]
        refine ⟨hshape, ?_⟩
        cases description <;> simp [Member.ownFields, entry]
      · exact hmembers member hmember

end

/-- A shape is written as a text, and read back from it just when it is in order and does not nest
too deeply. Below other levels there is less room. -/
theorem parse_compact_iff (shape : Shape) :
    (∃ written, shape.toJson.compact = some written ∧
      ((Json.parse (String.ofList written)).bind (ofJson 0) = some shape ↔
        shape.IsOrdered ∧ shape.nesting ≤ maxNesting)) ∧
    ∀ above, ofJson above shape.toJson = some shape ↔
      shape.IsOrdered ∧ shape.nesting ≤ maxNesting - above := by
  refine ⟨?_, fun above => ofJson_toJson_iff above shape⟩
  obtain ⟨written, hwritten⟩ := Option.isSome_iff_exists.1 (isSome_compact_toJson shape)
  refine ⟨written, hwritten, ?_⟩
  rw [Json.parse_of_compact hwritten, Option.bind_some]
  exact ofJson_toJson_iff 0 shape

end Shape

end Caret
