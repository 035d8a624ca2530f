import Caret.Json.Basic
import Caret.Shape.Basic

namespace Caret

namespace Shape

open Json (entry text)

mutual

/-- The members of the JSON object that a shape is written as, the tag first. -/
def fields : Shape → List (Option String × Json)
  | any => [entry "type" (text "any")]
  | string => [entry "type" (text "string")]
  | int => [entry "type" (text "int")]
  | bool => [entry "type" (text "bool")]
  | array items => [entry "type" (text "array"), entry "items" (.object items.fields)]
  | object name members =>
    entry "type" (text "object") ::
      ((name.map fun name => entry "name" (text name)).toList ++
        [entry "properties" (.object (memberFields members))])
  | enum values => [entry "type" (text "enum"), entry "values" (.array (values.map text))]

/-- A member shares one flat object with its shape. -/
def memberFields : List Member → List (Option String × Json)
  | [] => []
  | ⟨name, shape, required, description⟩ :: members =>
    entry name (.object
      (shape.fields ++ [entry "required" (.bool required)] ++
        (description.map fun description => entry "description" (text description)).toList)) ::
      memberFields members

end

def toJson (shape : Shape) : Json := .object shape.fields

/-- The forms of a shape, in the order of their numbers. -/
inductive Tag where
  | any
  | string
  | int
  | bool
  | array
  | object
  | enum
  deriving DecidableEq, Repr

def Tag.ofName : String → Option Tag
  | "any" => some any
  | "string" => some string
  | "int" => some int
  | "bool" => some bool
  | "array" => some array
  | "object" => some object
  | "enum" => some enum
  | _ => none

def Tag.all : List Tag := [any, string, int, bool, array, object, enum]

/-- A tag is written by name; the tag of a nested shape may be written by its number too. -/
def Tag.ofJson (nested : Bool) (json : Json) : Option Tag :=
  match json with
  | .string value => value.bind ofName
  | .number value => if nested then value.natural?.bind fun n => all[n]? else none
  | _ => none

/-- A member leaves what is not its own to its shape. -/
def isOwnField (name : Option String) : Bool := name = some "required" || name = some "description"

/-- Reads the list of the allowed values. -/
def readValues (json : Json) : Option Shape := do
  some (enum (← (← json.items?).mapM Json.text?))

/-- A text that may be left out or be `null`. -/
def readNullable (json : Option Json) : Option (Option String) :=
  (json.map Json.nullableText?).getD (some none)

/-- Reads a member, its shape with `readShape` from the fields that are not its own. -/
def readMember (readShape : Json → Option Shape) (name : String) : Json → Option Member
  | .object fields => do
    let required ← ((← Json.optional "required" fields).map Json.bool?).getD (some false)
    let description ← readNullable (← Json.optional "description" fields)
    let shape ← readShape (.object (fields.filter fun field => !isOwnField field.1))
    some ⟨name, shape, required, description⟩
  | _ => none

def readMembers (readShape : Json → Option Shape) : Json → Option (List Member)
  | .object members => do
    let named ← Json.named members
    let read ← named.mapM fun member => readMember readShape member.1 member.2
    some (Keyed.ofList Member.name read)
  | _ => none

/-- Reads what belongs to a tag from the fields of an object. Fields of no meaning are ignored. -/
def readFields (readShape : Json → Option Shape) (fields : List (Option String × Json)) :
    Tag → Option Shape
  | .any => some any
  | .string => some string
  | .int => some int
  | .bool => some bool
  | .array => do some (array (← readShape (← Json.required "items" fields)))
  | .object => do
    let name ← readNullable (← Json.optional "name" fields)
    let members ← Json.optional "properties" fields
    some (object name (← (members.map (readMembers readShape)).getD (some [])))
  | .enum => do readValues (← Json.required "values" fields)

/-- Reads what belongs to a tag from values in a fixed order. -/
def readInOrder (readShape : Json → Option Shape) : Tag → List Json → Option Shape
  | .any, [] => some any
  | .string, [] => some string
  | .int, [] => some int
  | .bool, [] => some bool
  | .array, [items] => (readShape items).map array
  | .object, [] => some (object none [])
  | .object, [name] => (readNullable (some name)).map fun name => object name []
  | .object, [name, members] => do
    some (object (← readNullable (some name)) (← readMembers readShape members))
  | .enum, [values] => readValues values
  | _, _ => none

/-- Reads a shape of at most `depth` levels from an object, or from an array of the tag and the
fields in order. -/
def read (nested : Bool) : Nat → Json → Option Shape
  | 0, _ => none
  | depth + 1, .object fields => do
    let tag ← Tag.ofJson nested (← Json.required "type" fields)
    readFields (read true depth) fields tag
  | depth + 1, .array (tag :: values) => do
    readInOrder (read true depth) (← Tag.ofJson nested tag) values
  | _ + 1, _ => none

/-- The number of levels that a JSON text may nest. -/
def maxNesting : Nat := 127

/-- Reads a shape that stands below `above` levels of arrays and objects. -/
def ofJson (above : Nat) (json : Json) : Option Shape := do
  guard (json.hasValue (maxNesting - above))
  read false (maxNesting + 1) json

end Shape

end Caret
