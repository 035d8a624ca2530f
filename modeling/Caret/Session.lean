import Caret.Analysis

namespace Caret

namespace Suggestion

/-- What picking a suggestion changes, the insertion first: it takes the place of the suggestion's
span or goes to the cursor. -/
def edits (suggestion : Suggestion) (offset : Nat) : List TextEdit :=
  ⟨suggestion.replacement.getD (.empty offset), suggestion.insertText⟩ ::
    suggestion.additionalEdits

/-- Makes the edits of a suggestion from the end of the text to its start, so that none moves the
place of another. -/
def accept (suggestion : Suggestion) (offset : Nat) (text : String) : Option String :=
  let ordered := (suggestion.edits offset).mergeSort fun a b => b.span.start ≤ a.span.start
  ordered.foldlM (fun text edit => Bytes.replace text edit.span.start edit.span.stop edit.newText)
    text

end Suggestion

/-- A document that is being edited, with the resource types and the settings in use. -/
structure Session where
  analysis : Analysis
  catalog : Catalog
  offersAll : Bool
  settings : Settings

namespace Session

def types (session : Session) : Provider :=
  if session.offersAll then session.catalog.unfiltered else session.catalog.provider

def text (session : Session) : String := session.analysis.text

def withText (session : Session) (text : String) : Session :=
  { session with analysis := .ofText text }

/-- Puts a text in place of some bytes. -/
def edit (session : Session) (start stop : Nat) (inserted : String) : Option Session :=
  (Bytes.replace session.text start stop inserted).map session.withText

/-- The session after each of some characters is typed, with the offset of the cursor behind it. -/
def typing (session : Session) (offset : Nat) : List Char → Option (List (Nat × Session))
  | [] => some []
  | c :: cs => do
    let session ← session.edit offset offset c.toString
    let more ← typing session (offset + c.utf8Size) cs
    some ((offset + c.utf8Size, session) :: more)

def completions (session : Session) (offset : Nat) :
    Except CompletionError (List Suggestion) :=
  session.analysis.completions offset session.types session.settings

def completionsAt (session : Session) (position : LinePosition) :
    Except CompletionError (List Suggestion) :=
  session.analysis.completionsAt position session.types session.settings

/-- Picks the suggestion with a label, if there is one. -/
def accept (session : Session) (offset : Nat) (label : String) :
    Except CompletionError (Option Session) := do
  let suggestions ← session.completions offset
  let picked := suggestions.find? fun suggestion => suggestion.label = label
  return (picked.bind fun picked => picked.accept offset session.text).map session.withText

end Session

end Caret
