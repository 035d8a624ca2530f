import Caret.Span

namespace Caret

/-- A line and the bytes in front of the place on that line, both from zero. -/
structure LinePosition where
  line : Nat
  character : Nat
  deriving DecidableEq, Repr

/-- Where the lines of a text start, the first one at zero. -/
structure LineTable where
  starts : List Nat
  size : Nat

namespace LineTable

def startsAfterBreaks (offset : Nat) : List Char → List Nat
  | [] => []
  | c :: cs =>
    let next := offset + c.utf8Size
    if c = '\n' then next :: startsAfterBreaks next cs else startsAfterBreaks next cs

def ofText (text : String) : LineTable :=
  ⟨0 :: startsAfterBreaks 0 text.toList, text.utf8ByteSize⟩

/-- The last line that starts at or before an offset, and the distance from its start. -/
def position (table : LineTable) (offset : Nat) : LinePosition :=
  let offset := min offset table.size
  let before := table.starts.filter (· ≤ offset)
  ⟨before.length - 1, offset - before.getLastD 0⟩

/-- The end of a line, its line break left out. -/
def lineEnd (table : LineTable) (line : Nat) : Nat :=
  match table.starts[line + 1]? with
  | some next => next - 1
  | none => table.size

/-- There is no offset past the end of a line or past the last line. -/
def offset (table : LineTable) (position : LinePosition) : Option Nat :=
  match table.starts[position.line]? with
  | none => none
  | some start =>
    if start + position.character ≤ table.lineEnd position.line then
      some (start + position.character)
    else none

def range (table : LineTable) (span : Span) : LinePosition × LinePosition :=
  (table.position span.start, table.position span.stop)

end LineTable

end Caret
