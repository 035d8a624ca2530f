import Caret.Keyed

namespace Caret

mutual

/-- What is known of a value: enough to list its members and to write a skeleton. -/
inductive Shape where
  | any
  | string
  | int
  | bool
  | array (items : Shape)
  | object (name : Option String) (members : List Member)
  | enum (values : List String)

/-- A named part of an object. -/
structure Member where
  name : String
  shape : Shape
  required : Bool
  description : Option String

end

instance : Inhabited Shape := ⟨.any⟩

namespace Shape

def plain (name : String) (shape : Shape) : Member := ⟨name, shape, false, none⟩

/-- The body that all modules share. -/
def moduleBody : Shape :=
  .object (some "module")
    [⟨"dependsOn", .array .any, false, some "Explicit dependencies of the deployment."⟩,
     ⟨"name", .string, true, some "The name of the deployment."⟩,
     ⟨"params", .object none [], false, some "Values for the parameters of the module."⟩,
     ⟨"scope", .any, false, some "The scope the module is deployed to."⟩]

def isObject : Shape → Bool
  | object .. => true
  | _ => false

/-- Objects and arrays, whose values take more than one token. -/
def isComposite : Shape → Bool
  | object .. => true
  | array _ => true
  | _ => false

def members : Shape → List Member
  | object _ members => members
  | _ => []

def member? (shape : Shape) (name : String) : Option Member :=
  shape.members.find? fun member => member.name = name

/-- The shape of what an array holds. -/
def item? : Shape → Option Shape
  | array items => some items
  | _ => none

/-- The names of the required members in their order. -/
def requiredNames (shape : Shape) : List String :=
  (shape.members.filter Member.required).map Member.name

/-- A shape as it is shown next to a name. -/
def label : Shape → String
  | any => "any"
  | string => "string"
  | int => "int"
  | bool => "bool"
  | array items => items.label ++ "[]"
  | object name _ => name.getD "object"
  | enum values => " | ".intercalate (values.map fun value => "\x27" ++ value ++ "\x27")

end Shape

def Member.label (member : Member) : String := member.name ++ ": " ++ member.shape.label

end Caret
