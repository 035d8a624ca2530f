import Caret.Context
import Caret.Settings
import Caret.Suggestion.Basic
import Caret.Text.Identifier
import Caret.Text.Lowercase
import Caret.Typing
import Caret.Vocabulary

namespace Caret

/-- What a completion is made from: its context, what the document tells, and the settings. -/
structure Completion where
  context : Context
  typing : Typing
  settings : Settings

/-- A key as it is written in an object. -/
def keyText (name : String) : String := if Identifier.isValid name then name else quote name

namespace Shape

def skeletonLines (stop : Nat) : List String → List String
  | [] => []
  | name :: names =>
    ("\t" ++ keyText name ++ ": $" ++ toString stop) :: skeletonLines (stop + 1) names

/-- An object with a numbered tab stop for each required member, or with one final stop inside. -/
def objectSkeleton (shape : Shape) : String :=
  match shape.requiredNames with
  | [] => "\x7b\n\t$0\n\x7d"
  | names => "\x7b\n" ++ "\n".intercalate (skeletonLines 1 names) ++ "\n\x7d$0"

def arraySkeleton : String := "[\n\t$0\n]"

end Shape

namespace Member

def detail (member : Member) : String :=
  if member.required then member.shape.label ++ " (required)" else member.shape.label

end Member

namespace Keyword

def suggestion (keyword : Keyword) : Suggestion :=
  (Suggestion.ofLabel keyword.name .keyword).withDetail keyword.detail

end Keyword

namespace Symbol

def noun : SymbolKind → String
  | .param => "param"
  | .var => "var"
  | .resource => "resource"
  | .moduleCall => "module"
  | .loopVar => "loop variable"

def suggestion (symbol : Symbol) : Suggestion :=
  let detail := match symbol.detail with
    | some detail => noun symbol.kind ++ " " ++ detail
    | none => noun symbol.kind
  (Suggestion.ofLabel symbol.name .symbol).withDetail detail

end Symbol

namespace Completion

/-- A provider may offer too much, so the ids are held against the typed text here. -/
def matchesTyped (completion : Completion) (id : String) : Bool :=
  let typed := completion.context.typed
  if completion.settings.caseSensitiveTypes then typed.toList.isPrefixOf id.toList
  else (lowercase typed).toList.isPrefixOf (lowercase id).toList

def resourceTypes (completion : Completion) : List Suggestion :=
  let ids := completion.typing.types.available completion.context.typed
  (ids.filter completion.matchesTyped).map fun id =>
    (((Suggestion.ofLabel id .resourceType).withInsert (quote id)).withDetail
      "Resource type").replacing completion.context.replacement

/-- A call leaves the cursor between the parentheses if there is something to write there. -/
def function (settings : Settings) (builtin : Builtin) : Suggestion :=
  let named := ((Suggestion.ofLabel builtin.name .function).withDetail
    (builtin.name ++ builtin.signature)).withDocumentation (some builtin.description)
  if !builtin.takesArguments then named.withInsert (builtin.name ++ "()")
  else if settings.snippets then named.withSnippet (builtin.name ++ "($0)")
  else named

def decorators (completion : Completion) : List Suggestion :=
  if completion.settings.decorators then
    Vocabulary.decorators.map (function completion.settings)
  else []

def typeNames : List Suggestion :=
  Vocabulary.primitiveTypes.map fun name =>
    (Suggestion.ofLabel name .keyword).withDetail "Primitive type"

def snippetOr (settings : Settings) (suggestion : Suggestion) (snippet plain : String) :
    Suggestion :=
  if settings.snippets then suggestion.withSnippet snippet else suggestion.withInsert plain

def propertyKey (settings : Settings) (member : Member) : Suggestion :=
  let key := keyText member.name
  let plain := (((Suggestion.ofLabel member.name .property).withDetail
    member.detail).withDocumentation member.description).withInsert (key ++ ": ")
  if !settings.snippets then plain
  else
    match member.shape with
    | .object .. => plain.withSnippet (key ++ ": " ++ member.shape.objectSkeleton)
    | .array _ => plain.withSnippet (key ++ ": " ++ Shape.arraySkeleton)
    | _ => plain

/-- The keys that an object has already; the one around the replaced word is still being written. -/
def presentKeys (object : Locus) (replaced : Span) : List String :=
  let keys := object.properties.filterMap Locus.keyNode
  (keys.filter fun key => replaced.isEmpty || !key.span.contains replaced).filterMap Locus.keyText

def propertyKeys (completion : Completion) : List Suggestion :=
  match (completion.context.node.ofKind .object).bind completion.typing.expected with
  | none => []
  | some shape =>
    let present := presentKeys completion.context.node completion.context.replacement
    let members := (completion.typing.types.membersOf shape).filter fun member =>
      !present.contains member.name
    members.map (propertyKey completion.settings)

def valueHints (settings : Settings) (shape : Shape) : List Suggestion :=
  match shape with
  | .object .. =>
    [snippetOr settings ((Suggestion.ofLabel "\x7b\x7d" .snippet).withDetail shape.label)
      shape.objectSkeleton "\x7b\x7d"]
  | .array _ =>
    [snippetOr settings ((Suggestion.ofLabel "[]" .snippet).withDetail shape.label)
      Shape.arraySkeleton "[]"]
  | .bool => ["true", "false"].map fun value => Suggestion.ofLabel value .value
  | .enum values => values.map fun value =>
      (Suggestion.ofLabel (quote value) .value).withDetail shape.label
  | _ => []

def expressions (completion : Completion) (arrayStart : Bool) : List Suggestion :=
  (completion.typing.scopes.visibleFrom completion.context.anchor).map Symbol.suggestion ++
    Vocabulary.functions.map (function completion.settings) ++
    (if arrayStart then Vocabulary.arrayStartKeywords.map Keyword.suggestion else [])

def propertyValues (completion : Completion) : List Suggestion :=
  let hints := match completion.typing.propertyShape completion.context.node with
    | none => []
    | some shape => valueHints completion.settings shape
  hints ++ completion.expressions false

/-- A member that is no identifier is reached by an index, which takes the place of the dot. -/
def member (dot : Option Locus) (member : Member) : Suggestion :=
  let named := ((Suggestion.ofLabel member.name .property).withDetail
    member.detail).withDocumentation member.description
  if Identifier.isValid member.name then named
  else
    let indexed := named.withInsert ("[" ++ quote member.name ++ "]")
    match dot with
    | none => indexed
    | some dot => indexed.withEdit dot.span ""

def members (completion : Completion) : List Suggestion :=
  let access := completion.context.node.ofKind .propertyAccess
  match (access.bind Locus.operand).bind completion.typing.valueShape with
  | none => []
  | some shape =>
    (completion.typing.types.membersOf shape).map
      (member (completion.context.node.tokenOf .dot))

def resourceBodies (completion : Completion) : List Suggestion :=
  let blank := snippetOr completion.settings
    ((Suggestion.ofLabel "\x7b\x7d" .snippet).withDetail "Empty body") "\x7b\n\t$0\n\x7d" "\x7b\x7d"
  match completion.typing.bodyShape completion.context.node with
  | none => [blank]
  | some shape =>
    if shape.requiredNames.isEmpty then [blank]
    else
      [blank,
       ((Suggestion.ofLabel "required-properties" .snippet).withDetail
         "Required properties").withSnippet shape.objectSkeleton]

/-- All suggestions of a context, in no particular order. -/
def raw (completion : Completion) : List Suggestion :=
  match completion.context.kind with
  | .resourceType => completion.resourceTypes
  | .decoratorName => completion.decorators
  | .resourceHeader => Vocabulary.resourceHeaderKeywords.map Keyword.suggestion
  | .typeName => typeNames
  | .propertyKey => completion.propertyKeys
  | .propertyValue => completion.propertyValues
  | .memberAccess => completion.members
  | .resourceBody => completion.resourceBodies
  | .declarations => Vocabulary.topLevelKeywords.map Keyword.suggestion
  | .expression arrayStart => completion.expressions arrayStart

/-- A suggestion that names no span replaces that of the context, unless it is empty. -/
def placed (replacement : Span) (suggestion : Suggestion) : Suggestion :=
  if suggestion.replacement.isNone && !replacement.isEmpty then suggestion.replacing replacement
  else suggestion

/-- The suggestions in the order of their labels, each label once, without snippets if they are not
wanted, and with all spans inside a text of the given size. -/
def finish (raw : List Suggestion) (replacement : Span) (settings : Settings) (size : Nat) :
    List Suggestion :=
  let wanted := raw.filter fun suggestion => settings.snippets || !suggestion.isSnippet
  let sorted := (distinctBy Suggestion.label wanted).mergeSort fun a b => !(b.label < a.label)
  sorted.map fun suggestion => (placed replacement suggestion).normalize size

/-- What is offered in a context of a text of the given size. -/
def suggestions (completion : Completion) (size : Nat) : List Suggestion :=
  finish completion.raw completion.context.replacement completion.settings size

end Completion

end Caret
