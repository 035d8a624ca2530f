import Caret.Catalog
import Caret.Scope

namespace Caret

namespace Shape

/-- A reference to a resource has the members of its body and three more that every resource has,
unless the body says otherwise. -/
def ofResource (body : Shape) : Shape :=
  match body with
  | .object name members =>
    let common := ["apiVersion", "id", "type"].filter fun key => (body.member? key).isNone
    .object name
      (common.foldl (fun all key => Keyed.insert Member.name (plain key .string) all) members)
  | body => body

def ofModule : Shape :=
  .object none
    [plain "name" .string,
     ⟨"outputs", .object none [], false, some "Outputs of the module deployment."⟩]

end Shape

namespace Locus

/-- The shape of a value that is written out; only objects tell of their members. -/
def literalShape (node : Locus) : Shape :=
  match node.kind with
  | .object =>
    .object none (Keyed.ofList Member.name (node.properties.attach.filterMap fun ⟨property, _⟩ =>
      property.propertyName.map fun name =>
        match _found : property.propertyValue with
        | none => Shape.plain name .any
        | some value => Shape.plain name value.literalShape))
  | .array => .array .any
  | .string => .string
  | .literal =>
    match node.firstToken.map kind with
    | some .integer => .int
    | some .trueKw => .bool
    | some .falseKw => .bool
    | _ => .any
  | _ => .any
  termination_by sizeOf node.element
  decreasing_by
    exact Nat.lt_trans (sizeOf_lt_of_exprAfter _found) (sizeOf_lt_of_mem_properties (by assumption))

end Locus

/-- What shapes are worked out from: a tree with its scopes, and the resource types. -/
structure Typing where
  root : Locus
  scopes : ScopeTable
  types : Provider

namespace Typing

def bodyShape (typing : Typing) (declaration : Locus) : Option Shape :=
  match declaration.kind with
  | .resourceDecl => do
    let id ← (← declaration.resourceTypeNode).quotedValue
    (typing.types.lookup id).toOption
  | .moduleDecl => some .moduleBody
  | _ => none

def hasBody (kind : Kind) : Bool := kind = .resourceDecl || kind = .moduleDecl

/-- The shape that the place of a node asks for, the node being given with the way up from it. -/
def expectedFrom (typing : Typing) (here : Crumb) : List Crumb → Option Shape
  | [] => none
  | around :: above =>
    let parent : Locus := ⟨around, above⟩
    match parent.kind, above with
    | .resourceDecl, _ => typing.bodyShape parent
    | .moduleDecl, _ => typing.bodyShape parent
    | .objectProperty, object :: above => do
      let name ← parent.propertyName
      let shape ← typing.expectedFrom object above
      some (← shape.member? name).shape
    | .arrayItem, array :: above => (typing.expectedFrom array above).bind Shape.item?
    | .forExpr, outer :: rest => do
      let body ← parent.loopBody
      guard (body.here.left.length = here.left.length)
      if hasBody outer.element.kind then typing.bodyShape ⟨outer, rest⟩
      else (typing.expectedFrom around (outer :: rest)).bind Shape.item?
    | _, _ => none

/-- The shape that the place of a node asks for: the body of a declaration, the value of a member,
an item of an array or of a loop. A loop right behind a declaration makes bodies, not items. -/
def expected (typing : Typing) (node : Locus) : Option Shape :=
  typing.expectedFrom node.here node.above

/-- The shape of the member that a property sets. -/
def propertyShape (typing : Typing) (property : Locus) : Option Shape := do
  let name ← property.propertyName
  let shape ← typing.expected (← property.parent)
  some (← shape.member? name).shape

/-- The shape of what a symbol stands for; nothing is known of parameters and loop variables. -/
def symbolShape (typing : Typing) (symbol : Symbol) : Option Shape := do
  let declaration ← typing.root.find? symbol.declaration
  match symbol.kind with
  | .resource => (typing.bodyShape declaration).map .ofResource
  | .moduleCall => some .ofModule
  | .var => do
    let value ← (← declaration.ofKind .varDecl).declaredValue
    guard (value.kind = .object)
    some value.literalShape
  | .param => none
  | .loopVar => none

/-- The shape of what an expression evaluates to, as far as it can be told. -/
def valueShape (typing : Typing) (expr : Locus) : Option Shape :=
  match expr.kind with
  | .variableAccess => do
    let name ← expr.identText
    let symbol ← (typing.scopes.visibleFrom expr).find? fun symbol => symbol.name = name
    typing.symbolShape symbol
  | .propertyAccess =>
    match _found : expr.operand with
    | none => none
    | some receiver => do
      let member ← expr.member
      let shape ← typing.valueShape receiver
      some (← shape.member? member.text).shape
  | .arrayAccess =>
    match _found : expr.nodes.head? with
    | none => none
    | some receiver => (typing.valueShape receiver).bind Shape.item?
  | .parenExpr =>
    match _found : expr.firstExpr with
    | none => none
    | some inner => typing.valueShape inner
  | .object => some expr.literalShape
  | _ => none
  termination_by sizeOf expr.element
  decreasing_by
    · exact Locus.sizeOf_lt_of_operand _found
    · exact Locus.sizeOf_lt_of_firstNode _found
    · exact Locus.sizeOf_lt_of_firstExpr _found

end Typing

end Caret
