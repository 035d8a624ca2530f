import Caret.Double

namespace Caret

/-- A number as written: its digits as one number, the power of ten that they count, and whether
there is neither a fraction nor an exponent. -/
structure Json.Number where
  negative : Bool
  digits : Nat
  power : Int
  isWhole : Bool
  deriving DecidableEq, Repr

/-- A JSON document. A string has no value when an escape in it names half of a surrogate pair.
Objects keep their members as written, repeated names included. -/
inductive Json where
  | null
  | bool (value : Bool)
  | number (value : Json.Number)
  | string (value : Option String)
  | array (items : List Json)
  | object (members : List (Option String × Json))
  deriving Repr, Inhabited

namespace Json

namespace Number

def ofNat (n : Nat) : Number := ⟨false, n, 0, true⟩

/-- The value of a number without sign, fraction and exponent that fits into 64 bits. -/
def natural? (number : Number) : Option Nat :=
  if number.isWhole && !number.negative && number.digits < Nat.pow 2 64 then some number.digits else none

/-- Whether double precision holds a number, worked out from its leading digits. -/
def isFinite (number : Number) : Bool := Double.isFiniteProduct number.digits number.power

end Number

def text (value : String) : Json := string (some value)

def nat (n : Nat) : Json := number (.ofNat n)

def entry (name : String) (value : Json) : Option String × Json := (some name, value)

mutual

/-- Whether every string and number has a value, and arrays and objects nest no deeper than so many
levels. -/
def hasValue (depth : Nat) : Json → Bool
  | null => true
  | bool _ => true
  | number value => value.isFinite
  | string value => value.isSome
  | array items => depth ≠ 0 && allHaveValue (depth - 1) items
  | object members => depth ≠ 0 && membersHaveValue (depth - 1) members

def allHaveValue (depth : Nat) : List Json → Bool
  | [] => true
  | item :: items => item.hasValue depth && allHaveValue depth items

def membersHaveValue (depth : Nat) : List (Option String × Json) → Bool
  | [] => true
  | member :: members =>
    member.1.isSome && member.2.hasValue depth && membersHaveValue depth members

end

/-- The values of all members with a name. -/
def valuesOf (name : String) (members : List (Option String × Json)) : List Json :=
  (members.filter fun member => member.1 = some name).map (·.2)

/-- The value of a member that may be left out but not repeated. -/
def optional (name : String) (members : List (Option String × Json)) : Option (Option Json) :=
  match valuesOf name members with
  | [] => some none
  | [value] => some (some value)
  | _ => none

/-- The value of a member that is there once. -/
def required (name : String) (members : List (Option String × Json)) : Option Json :=
  (optional name members).bind id

/-- The members of an object; one whose name has no value spoils all of them. -/
def named (members : List (Option String × Json)) : Option (List (String × Json)) :=
  members.mapM fun member => member.1.map (·, member.2)

/-- The values of the named fields of a record, `none` for one that is left out. A record is written
as an object, where other members have no meaning, or as an array of the first fields in order. -/
def fields (names : List String) : Json → Option (List (Option Json))
  | object members => do
    let _ ← named members
    names.mapM fun name => optional name members
  | array items =>
    if items.length ≤ names.length then
      some (items.map some ++ List.replicate (names.length - items.length) none)
    else none
  | _ => none

def text? : Json → Option String
  | string value => value
  | _ => none

def bool? : Json → Option Bool
  | bool value => some value
  | _ => none

/-- A whole number that fits into 32 bits. -/
def word32? : Json → Option Nat
  | number value => value.natural?.filter (· < Nat.pow 2 32)
  | _ => none

def items? : Json → Option (List Json)
  | array items => some items
  | _ => none

/-- A name by itself, or an object with that name and `null` as its only member. -/
def choice? : Json → Option String
  | string value => value
  | object [(name, null)] => name
  | _ => none

/-- A text, or `null` for none. -/
def nullableText? : Json → Option (Option String)
  | null => some none
  | value => value.text?.map some

end Json

end Caret
