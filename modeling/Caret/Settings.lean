import Caret.Toml.Reader

namespace Caret

/-- How completions are made: with tab stops or as plain text, with resource types told apart by
case or not, and with or without decorators. -/
structure Settings where
  snippets : Bool := true
  caseSensitiveTypes : Bool := false
  decorators : Bool := true
  deriving DecidableEq, Repr

namespace Settings

/-- Why a configuration cannot be used. -/
inductive Error where
  | invalid
  deriving DecidableEq, Repr

def Error.message : Error → String
  | invalid => "invalid completion configuration"

def Error.code : Error → String
  | invalid => "ide::config"

/-- A setting that may be left out but has to be a boolean. -/
def setting (table : Toml.Table) (name : String) (default : Bool) : Option Bool :=
  match table.get? name with
  | none => some default
  | some (.value bool) => bool
  | some _ => none

/-- Takes the settings from the top of a document; other keys have no meaning. -/
def ofTable (table : Toml.Table) : Option Settings := do
  some {
    snippets := ← setting table "snippets" true
    caseSensitiveTypes := ← setting table "caseSensitiveTypeFilter" false
    decorators := ← setting table "decorators" true }

def parse (source : String) : Except Error Settings :=
  match (Toml.parse source).bind ofTable with
  | some settings => .ok settings
  | none => .error .invalid

end Settings

end Caret
