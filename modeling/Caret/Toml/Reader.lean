import Caret.Double
import Caret.Text.Quoted
import Caret.Toml.Table

namespace Caret

namespace Toml

/-- A part of a document that stands at the front of a text, and what is left behind it. -/
abbrev Read (α : Type) := List Char → Option (α × List Char)

namespace Read

def isBlank (c : Char) : Bool := c = ' ' || c = '\t'

def isBareKey (c : Char) : Bool := c.isAlphanum || c = '_' || c = '-'

/-- The characters that a comment or a text on one line may hold. -/
def isPlain (c : Char) : Bool := c = '\t' || (0x20 ≤ c.toNat && c ≠ '\x7f')

def blanks (cs : List Char) : List Char := cs.dropWhile isBlank

def literal (word : String) : Read Unit := fun cs =>
  if word.toList.isPrefixOf cs then some ((), cs.drop word.length) else none

def newline : Read Unit
  | '\n' :: rest => some ((), rest)
  | '\r' :: '\n' :: rest => some ((), rest)
  | _ => none

/-- A comment, if there is one. -/
def comment : List Char → List Char
  | '#' :: rest => rest.dropWhile isPlain
  | cs => cs

/-- What ends a line: blanks, a comment, and a line break or the end of the document. -/
def lineEnd : Read Unit := fun cs =>
  match comment (blanks cs) with
  | [] => some ((), [])
  | rest => newline rest

/-- Blanks, line breaks and comments that end with a line break. -/
def skipLinesFor : Nat → List Char → List Char
  | 0, cs => cs
  | fuel + 1, cs =>
    let rest := blanks cs
    match newline (comment rest) with
    | some (_, after) => skipLinesFor fuel after
    | none => rest

def skipLines (cs : List Char) : List Char := skipLinesFor cs.length cs

/-! Texts -/

/-- The character of so many hexadecimal digits. -/
def codePoint (count : Nat) (cs : List Char) : Option (Char × List Char) := do
  let digits := cs.take count
  guard (digits.length = count)
  some (← Quoted.scalar (← Quoted.hexFrom 0 digits), cs.drop count)

/-- The character behind a backslash. -/
def escape : Read Char
  | 'b' :: rest => some ('\x08', rest)
  | 'f' :: rest => some ('\x0c', rest)
  | 'n' :: rest => some ('\n', rest)
  | 'r' :: rest => some ('\r', rest)
  | 't' :: rest => some ('\t', rest)
  | '"' :: rest => some ('"', rest)
  | '\\' :: rest => some ('\\', rest)
  | 'u' :: rest => codePoint 4 rest
  | 'U' :: rest => codePoint 8 rest
  | _ => none

/-- The rest of a text between quotes on one line; only double quotes allow escapes. -/
def quotedFor (quote : Char) : Nat → Read (List Char)
  | 0, _ => none
  | _ + 1, [] => none
  | fuel + 1, c :: rest =>
    if c = quote then some ([], rest)
    else do
      let (d, rest) ← if c = '\\' && quote = '"' then escape rest
        else if isPlain c then some (c, rest) else none
      let (text, after) ← quotedFor quote fuel rest
      some (d :: text, after)

def quoted (quote : Char) : Read (List Char) := fun cs => quotedFor quote (cs.length + 1) cs

/-- The rest of a text between tripled quotes. Of three quotes or more the last three end it, and no
more than two stand in front of them. With double quotes a backslash at the end of a line joins it
to the next text. -/
def tripledFor (quote : Char) : Nat → Read Unit
  | 0, _ => none
  | _ + 1, [] => none
  | fuel + 1, c :: rest =>
    if c = quote then
      let run := (c :: rest).takeWhile (· = quote)
      if 3 ≤ run.length then some ((), (c :: rest).drop (min run.length 5))
      else tripledFor quote fuel ((c :: rest).drop run.length)
    else if c = '\\' && quote = '"' then
      match newline (blanks rest) with
      | some (_, after) => tripledFor quote fuel after
      | none => do
        let (_, after) ← escape rest
        tripledFor quote fuel after
    else
      match newline (c :: rest) with
      | some (_, after) => tripledFor quote fuel after
      | none => if isPlain c then tripledFor quote fuel rest else none

def tripled (quote : Char) : Read Unit := fun cs => tripledFor quote (cs.length + 1) cs

/-- A text as a value, with the quote that it begins with. -/
def text (quote : Char) : Read Unit := fun cs =>
  match literal (String.ofList [quote, quote, quote]) cs with
  | some (_, rest) => tripled quote rest
  | none => (quoted quote cs.tail).map fun (_, rest) => ((), rest)

/-! Numbers and dates -/

/-- Digits, where an underscore stands between two of them only. -/
def digitsFor (isDigit : Char → Bool) : Nat → Read (List Char)
  | 0, _ => none
  | fuel + 1, cs =>
    let run := cs.takeWhile isDigit
    if run.isEmpty then none
    else
      match cs.dropWhile isDigit with
      | '_' :: rest => (digitsFor isDigit fuel rest).map fun (more, after) => (run ++ more, after)
      | rest => some (run, rest)

def digits (isDigit : Char → Bool) : Read (List Char) := fun cs =>
  digitsFor isDigit (cs.length + 1) cs

def sign : List Char → Bool × List Char
  | '-' :: rest => (true, rest)
  | '+' :: rest => (false, rest)
  | rest => (false, rest)

/-- A decimal number, where a zero in front stands alone. -/
def decimal : Read (List Char)
  | '0' :: rest => some (['0'], rest)
  | cs => digits Char.isDigit cs

def numberIn (base : Nat) (digits : List Char) : Nat :=
  digits.foldl (fun n c => n * base + (Quoted.hexDigit c).getD 0) 0

/-- Whole numbers have 64 bits, one of them for the sign. -/
def isWord (negative : Bool) (n : Nat) : Bool := if negative then n ≤ Nat.pow 2 63 else n < Nat.pow 2 63

def inBase (base : Nat) (isDigit : Char → Bool) : Read Unit := fun cs => do
  let (written, rest) ← digits isDigit cs
  guard (isWord false (numberIn base written))
  some ((), rest)

def integer : Read Unit
  | '0' :: 'x' :: rest => inBase 16 (fun c => (Quoted.hexDigit c).isSome) rest
  | '0' :: 'o' :: rest => inBase 8 (fun c => '0' ≤ c && c ≤ '7') rest
  | '0' :: 'b' :: rest => inBase 2 (fun c => c = '0' || c = '1') rest
  | cs => do
    let (negative, cs) := sign cs
    let (written, rest) ← decimal cs
    guard (isWord negative (numberIn 10 written))
    some ((), rest)

/-- The decimals behind a point, if there is one. -/
def decimals : Read (List Char)
  | '.' :: rest => digits Char.isDigit rest
  | cs => some ([], cs)

/-- The power of ten behind an `e`, if there is one. -/
def power : Read (Option Int)
  | c :: rest =>
    if c = 'e' || c = 'E' then do
      let (negative, rest) := sign rest
      let (written, rest) ← digits Char.isDigit rest
      let value : Int := numberIn 10 written
      some (some (if negative then -value else value), rest)
    else some (none, c :: rest)
  | [] => some (none, [])

def float : Read Unit := fun cs => do
  let (negative, cs) := sign cs
  match (literal "inf" cs).or (literal "nan" cs) with
  | some (_, rest) => some ((), rest)
  | none =>
    let (before, cs) ← decimal cs
    let (after, cs) ← decimals cs
    let (power, cs) ← power cs
    guard (!after.isEmpty || power.isSome)
    let digits := numberIn 10 (before ++ after)
    guard (negative || Double.isFinite digits (power.getD 0 - after.length))
    some ((), cs)

/-- A number of exactly so many digits within bounds. -/
def field (count least most : Nat) : Read Nat := fun cs => do
  let written := cs.take count
  guard (written.length = count && written.all Char.isDigit)
  let n := numberIn 10 written
  guard (least ≤ n && n ≤ most)
  some (n, cs.drop count)

def daysIn (year month : Nat) : Nat :=
  if month = 2 then
    if year % 4 = 0 && (year % 100 ≠ 0 || year % 400 = 0) then 29 else 28
  else if [4, 6, 9, 11].contains month then 30
  else 31

def date : Read Unit := fun cs => do
  let (year, cs) ← field 4 0 9999 cs
  let (_, cs) ← literal "-" cs
  let (month, cs) ← field 2 1 12 cs
  let (_, cs) ← literal "-" cs
  let (_, cs) ← field 2 1 (daysIn year month) cs
  some ((), cs)

def time : Read Unit := fun cs => do
  let (_, cs) ← field 2 0 23 cs
  let (_, cs) ← literal ":" cs
  let (_, cs) ← field 2 0 59 cs
  let (_, cs) ← literal ":" cs
  let (_, cs) ← field 2 0 60 cs
  match cs with
  | '.' :: rest =>
    guard ((rest.takeWhile Char.isDigit).length ≠ 0)
    some ((), rest.dropWhile Char.isDigit)
  | cs => some ((), cs)

def zone : Read Unit
  | 'Z' :: rest => some ((), rest)
  | 'z' :: rest => some ((), rest)
  | c :: rest => do
    guard (c = '+' || c = '-')
    let (_, cs) ← field 2 0 23 rest
    let (_, cs) ← literal ":" cs
    let (_, cs) ← field 2 0 59 cs
    some ((), cs)
  | [] => none

/-- A date, a time of day, or both with an optional zone. -/
def moment : Read Unit := fun cs =>
  match date cs with
  | none => time cs
  | some (_, rest) =>
    let timed := do
      let c ← rest.head?
      guard (c = 'T' || c = 't' || c = ' ')
      time rest.tail
    match timed with
    | none => some ((), rest)
    | some (_, rest) => (zone rest).or (some ((), rest))

/-- What begins with a digit or a sign. A number with a fraction or an exponent that is not well
formed is no whole number either, since no line can go on with a point or a letter. -/
def numeral : Read Unit := fun cs => ((moment cs).or (float cs)).or (integer cs)

/-! Keys and values -/

def simpleKey : Read String
  | '"' :: rest => (quoted '"' rest).map fun (text, after) => (String.ofList text, after)
  | '\x27' :: rest => (quoted '\x27' rest).map fun (text, after) => (String.ofList text, after)
  | cs =>
    let written := cs.takeWhile isBareKey
    if written.isEmpty then none
    else some (String.ofList written, cs.dropWhile isBareKey)

def keyFor : Nat → Read (List String)
  | 0, _ => none
  | fuel + 1, cs => do
    let (first, rest) ← simpleKey (blanks cs)
    match blanks rest with
    | '.' :: rest =>
      let (more, after) ← keyFor fuel rest
      some (first :: more, after)
    | rest => some ([first], rest)

/-- The number of levels that arrays, inline tables and dotted keys must stay below. -/
def maxDepth : Nat := 80

/-- A dotted key, as the tables it goes through and its last part. -/
def key : Read (List String × String) := fun cs => do
  let (parts, rest) ← keyFor (cs.length + 1) cs
  guard (parts.length < maxDepth)
  some ((parts.dropLast, ← parts.getLast?), rest)

mutual

/-- A value below so many levels, with its truth if it is a boolean. -/
def value (depth : Nat) : Nat → Read (Option Bool)
  | 0, _ => none
  | fuel + 1, cs =>
    let plain (read : Read Unit) : Option (Option Bool × List Char) :=
      (read cs).map fun (_, rest) => (none, rest)
    match cs with
    | '"' :: _ => plain (text '"')
    | '\x27' :: _ => plain (text '\x27')
    | '[' :: rest => do
      guard (depth + 1 < maxDepth)
      let (_, after) ← items (depth + 1) fuel (skipLines rest)
      some (none, after)
    | '\x7b' :: rest => do
      guard (depth + 1 < maxDepth)
      match blanks rest with
      | '\x7d' :: after => some (none, after)
      | rest =>
        let (_, after) ← pairs (depth + 1) .empty fuel rest
        some (none, after)
    | 't' :: _ => (literal "true" cs).map fun (_, rest) => (some true, rest)
    | 'f' :: _ => (literal "false" cs).map fun (_, rest) => (some false, rest)
    | 'i' :: _ => plain (literal "inf")
    | 'n' :: _ => plain (literal "nan")
    | _ => plain numeral

/-- The rest of an array. -/
def items (depth : Nat) : Nat → Read Unit
  | 0, _ => none
  | fuel + 1, cs =>
    match cs with
    | ']' :: after => some ((), after)
    | cs => do
      let (_, rest) ← value depth fuel cs
      match skipLines rest with
      | ',' :: rest => items depth fuel (skipLines rest)
      | ']' :: after => some ((), after)
      | _ => none

/-- The rest of an inline table that is not empty. -/
def pairs (depth : Nat) (table : Table) : Nat → Read Unit
  | 0, _ => none
  | fuel + 1, cs => do
    let ((path, name), rest) ← key cs
    match rest with
    | '=' :: rest =>
      let (bool, rest) ← value depth fuel (blanks rest)
      let table ← table.assign path name bool
      match blanks rest with
      | ',' :: rest => pairs depth table fuel rest
      | '\x7d' :: after => some ((), after)
      | _ => none
    | _ => none

end

/-- One line of a document, or several where a value spans them. -/
def line (progress : Progress) : Read Progress := fun cs =>
  match cs with
  | '#' :: _ => (lineEnd cs).map fun (_, rest) => (progress, rest)
  | '[' :: '[' :: rest => do
    let ((path, name), rest) ← key rest
    let (_, rest) ← literal "]]" rest
    let (_, rest) ← lineEnd rest
    some (← progress.openListed path name, rest)
  | '[' :: rest => do
    let ((path, name), rest) ← key rest
    let (_, rest) ← literal "]" rest
    let (_, rest) ← lineEnd rest
    some (← progress.openTable path name, rest)
  | c :: rest =>
    if c = '\n' || c = '\r' then (newline cs).map fun (_, rest) => (progress, rest)
    else do
      let ((path, name), rest) ← key (c :: rest)
      let (_, rest) ← literal "=" rest
      let (bool, rest) ← value 0 (2 * rest.length + 4) (blanks rest)
      let (_, rest) ← lineEnd rest
      some (← progress.assign path name bool, rest)
  | [] => none

def lines : Nat → Progress → List Char → Option Table
  | 0, _, _ => none
  | fuel + 1, progress, cs =>
    match blanks cs with
    | [] => progress.finish
    | cs => do
      let (progress, rest) ← line progress cs
      lines fuel progress rest

end Read

/-- Reads a document; a byte order mark in front of it has no meaning. -/
def parse (source : String) : Option Table :=
  let cs := match source.toList with
    | '\uFEFF' :: rest => rest
    | cs => cs
  Read.lines (cs.length + 1) .start cs

end Toml

end Caret
