import Caret.Shape.Basic
import Caret.Text.Escaped

namespace Caret

/-- A value that may be missing, in the notation of dumps. -/
def dumpOption : Option String → String
  | none => "None"
  | some text => "Some(" ++ escaped text ++ ")"

mutual

/-- A shape with all that it holds. -/
def Shape.dump : Shape → String
  | .any => "Any"
  | .string => "String"
  | .int => "Int"
  | .bool => "Bool"
  | .array items => "Array(" ++ items.dump ++ ")"
  | .object name members =>
    "Object(" ++ dumpOption name ++ ", \x7b" ++ ", ".intercalate (Member.dumpAll members) ++ "\x7d)"
  | .enum values => "Enum([" ++ ", ".intercalate (values.map escaped) ++ "])"

def Member.dumpAll : List Member → List String
  | [] => []
  | ⟨name, shape, required, description⟩ :: members =>
    (escaped name ++ ": PropertyDescriptor \x7b ty: " ++ shape.dump ++ ", required: " ++
      (if required then "true" else "false") ++ ", description: " ++ dumpOption description ++
      " \x7d") :: Member.dumpAll members

end

end Caret
