import Caret.Json.Reader
import Caret.Shape.Json

namespace Caret

/-- Why the shape of a resource type is not known. -/
inductive LookupError where
  | unknownType (id : String)
  | noShape (id : String)
  deriving DecidableEq, Repr

namespace LookupError

def message : LookupError → String
  | unknownType id => "unknown resource type `" ++ id ++ "`"
  | noShape id => "no type information available for `" ++ id ++ "`"

def code : LookupError → String
  | unknownType _ => "lang_ty::unknown_type"
  | noShape _ => "lang_ty::not_found"

end LookupError

/-- Why a document does not describe resource types. -/
inductive CatalogError where
  | malformed
  | missingVersion (id : String)
  | bodyNotObject (id : String)
  deriving DecidableEq, Repr

namespace CatalogError

def message : CatalogError → String
  | malformed => "failed to parse schema JSON"
  | missingVersion id => "resource type `" ++ id ++ "` is missing an `@version` suffix"
  | bodyNotObject id => "resource type `" ++ id ++ "` must have an object body"

def code : CatalogError → String
  | malformed => "lang_ty::schema_json"
  | missingVersion _ => "lang_ty::schema_missing_version"
  | bodyNotObject _ => "lang_ty::schema_body_not_object"

def help : CatalogError → Option String
  | missingVersion _ => some "resource type ids look like `Namespace/type@2023-01-01`"
  | _ => none

end CatalogError

/-- The resource types that are known by id, in the order of the ids. A type without a body is
listed, but its shape is not known. -/
structure Catalog where
  entries : List (String × Option Shape)
  sorted : Keyed.Sorted Prod.fst entries

/-- Where the shapes of resource types come from. It may offer more ids than asked for. -/
structure Provider where
  lookup : String → Except LookupError Shape
  available : String → List String
  membersOf : Shape → List Member := Shape.members

namespace Catalog

def empty : Catalog := ⟨[], List.Pairwise.nil⟩

/-- Registers an id in place of an earlier registration. -/
def insert (catalog : Catalog) (id : String) (body : Option Shape) : Catalog :=
  ⟨Keyed.insert Prod.fst (id, body) catalog.entries, Keyed.sorted_insert catalog.sorted⟩

def size (catalog : Catalog) : Nat := catalog.entries.length

def ids (catalog : Catalog) : List String := catalog.entries.map (·.1)

theorem pairwise_ids (catalog : Catalog) : catalog.ids.Pairwise (· < ·) :=
  List.pairwise_map.2 catalog.sorted

/-- An id names a version, and a body is an object. -/
def checkEntry (entry : String × Option Shape) : Except CatalogError Unit :=
  if !entry.1.contains '@' then .error (.missingVersion entry.1)
  else
    match entry.2 with
    | some body => if body.isObject then .ok () else .error (.bodyNotObject entry.1)
    | none => .ok ()

/-- The first entry in the order of the ids that is at fault decides on the error. -/
def check (catalog : Catalog) : Except CatalogError Catalog := do
  catalog.entries.forM checkEntry
  return catalog

/-- A body below two levels of objects, or `null`. -/
def readBody : Json → Option (Option Shape)
  | .null => some none
  | json => (Shape.ofJson 2 json).map some

def readTypes : Json → Option Catalog
  | .object members => do
    let named ← Json.named members
    let entries ← named.mapM fun (id, json) => (readBody json).map (id, ·)
    some (entries.foldl (fun catalog (id, body) => catalog.insert id body) empty)
  | _ => none

/-- Reads a record whose only field holds the types; without it there are none. -/
def read (json : Json) : Option Catalog := do
  match ← Json.fields ["resourceTypes"] json with
  | [some types] => readTypes types
  | _ => some empty

def parse (source : String) : Except CatalogError Catalog :=
  match (Json.parse source).bind read with
  | some catalog => catalog.check
  | none => .error .malformed

def asciiLowercase (text : String) : List Char := text.toList.map Char.toLower

/-- The entry with an id, or else the first whose id differs only in the case of ASCII letters. -/
def entry? (catalog : Catalog) (id : String) : Option (String × Option Shape) :=
  (catalog.entries.find? fun entry => entry.1 = id).or
    (catalog.entries.find? fun entry => asciiLowercase entry.1 = asciiLowercase id)

def lookup (catalog : Catalog) (id : String) : Except LookupError Shape :=
  match catalog.entry? id with
  | some (_, some body) => .ok body
  | some (known, none) => .error (.noShape known)
  | none => .error (.unknownType id)

/-- The ids that begin with a text up to the case of ASCII letters. -/
def available (catalog : Catalog) (typed : String) : List String :=
  catalog.ids.filter fun id => (asciiLowercase typed).isPrefixOf (asciiLowercase id)

def provider (catalog : Catalog) : Provider :=
  { lookup := catalog.lookup, available := catalog.available }

/-- Offers every id, whatever is typed. -/
def unfiltered (catalog : Catalog) : Provider :=
  { lookup := catalog.lookup, available := fun _ => catalog.ids }

end Catalog

end Caret
