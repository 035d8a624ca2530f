import Caret.Json.Basic
import Caret.Text.Quoted

namespace Caret

namespace Json

namespace Reader

def isBlank (c : Char) : Bool := c = ' ' || c = '\n' || c = '\t' || c = '\r'

def skipBlanks (cs : List Char) : List Char := cs.dropWhile isBlank

/-- The number that four hexadecimal digits write. -/
def hex4 (a b c d : Char) : Option Nat := Quoted.hexFrom 0 [a, b, c, d]

def isHighSurrogate (n : Nat) : Bool := 0xD800 ≤ n && n < 0xDC00

def isLowSurrogate (n : Nat) : Bool := 0xDC00 ≤ n && n < 0xE000

/-- The character of a surrogate pair. -/
def ofPair (high low : Nat) : Char :=
  Char.ofNat (0x10000 + (high - 0xD800) * 0x400 + (low - 0xDC00))

def unescapeOne : Char → Option Char
  | '"' => some '"'
  | '\\' => some '\\'
  | '/' => some '/'
  | 'b' => some '\x08'
  | 'f' => some '\x0c'
  | 'n' => some '\n'
  | 'r' => some '\r'
  | 't' => some '\t'
  | _ => none

/-- What is left of a string behind its opening quote: its characters, unless half a surrogate pair
stands alone in it, and the text behind the closing quote. -/
def string : List Char → Option (Option (List Char) × List Char)
  | [] => none
  | '"' :: rest => some (some [], rest)
  | '\\' :: 'u' :: a :: b :: c :: d :: rest => do
    let n ← hex4 a b c d
    if isLowSurrogate n then
      let (_, after) ← string rest
      some (none, after)
    else if isHighSurrogate n then
      match rest with
      | '\\' :: 'u' :: e :: f :: g :: h :: rest' =>
        let m ← hex4 e f g h
        if isLowSurrogate m then
          let (value, after) ← string rest'
          some (value.map (ofPair n m :: ·), after)
        else
          let (_, after) ← string ('\\' :: 'u' :: e :: f :: g :: h :: rest')
          some (none, after)
      | rest =>
        let (_, after) ← string rest
        some (none, after)
    else
      let (value, after) ← string rest
      some (value.map (Char.ofNat n :: ·), after)
  | '\\' :: c :: rest => do
    let d ← unescapeOne c
    let (value, after) ← string rest
    some (value.map (d :: ·), after)
  | c :: rest =>
    if c ≠ '\\' && 0x20 ≤ c.toNat then do
      let (value, after) ← string rest
      some (value.map (c :: ·), after)
    else none
  termination_by cs => cs.length

def ofDigits (cs : List Char) : Nat :=
  cs.foldl (fun n c => n * 10 + (c.toNat - '0'.toNat)) 0

/-- At least one digit. -/
def digits (cs : List Char) : Option (List Char × List Char) :=
  let written := cs.takeWhile Char.isDigit
  if written.isEmpty then none else some (written, cs.dropWhile Char.isDigit)

/-- A whole number, where a zero in front stands alone. -/
def whole (cs : List Char) : Option (List Char × List Char) := do
  let (written, rest) ← digits cs
  guard (written.head? ≠ some '0' || written.length = 1)
  some (written, rest)

def fraction : List Char → Option (List Char × List Char)
  | '.' :: rest => digits rest
  | cs => some ([], cs)

def exponent (cs : List Char) : Option (Option Int × List Char) :=
  match cs with
  | e :: rest =>
    if e = 'e' || e = 'E' then
      let (sign, rest) : Int × List Char := match rest with
        | '-' :: rest => (-1, rest)
        | '+' :: rest => (1, rest)
        | rest => (1, rest)
      (digits rest).map fun (written, rest) => (some (sign * ofDigits written), rest)
    else some (none, cs)
  | [] => some (none, [])

def number (cs : List Char) : Option (Number × List Char) := do
  let (negative, cs) := match cs with
    | '-' :: rest => (true, rest)
    | cs => (false, cs)
  let (before, cs) ← whole cs
  let (after, cs) ← fraction cs
  let (power, cs) ← exponent cs
  some (⟨negative, ofDigits (before ++ after), power.getD 0 - after.length,
    after.isEmpty && power.isNone⟩, cs)

def word (word : String) (value : Json) (cs : List Char) : Option (Json × List Char) :=
  if word.toList.isPrefixOf cs then some (value, cs.drop word.length) else none

mutual

/-- A value and the text behind it. The fuel bounds the number of steps, each of which takes at
least half a character. -/
def value : Nat → List Char → Option (Json × List Char)
  | 0, _ => none
  | fuel + 1, cs =>
    match skipBlanks cs with
    | '"' :: rest => do
      let (chars, after) ← string rest
      some (.string (chars.map String.ofList), after)
    | '[' :: rest =>
      match skipBlanks rest with
      | ']' :: after => some (.array [], after)
      | rest => do
        let (items, after) ← items fuel rest
        some (.array items, after)
    | '\x7b' :: rest =>
      match skipBlanks rest with
      | '\x7d' :: after => some (.object [], after)
      | rest => do
        let (members, after) ← members fuel rest
        some (.object members, after)
    | 'n' :: rest => word "null" .null ('n' :: rest)
    | 't' :: rest => word "true" (.bool true) ('t' :: rest)
    | 'f' :: rest => word "false" (.bool false) ('f' :: rest)
    | cs => (number cs).map fun (value, after) => (.number value, after)

def items : Nat → List Char → Option (List Json × List Char)
  | 0, _ => none
  | fuel + 1, cs => do
    let (item, rest) ← value fuel cs
    match skipBlanks rest with
    | ',' :: rest =>
      let (more, after) ← items fuel rest
      some (item :: more, after)
    | ']' :: after => some ([item], after)
    | _ => none

def members : Nat → List Char → Option (List (Option String × Json) × List Char)
  | 0, _ => none
  | fuel + 1, cs =>
    match skipBlanks cs with
    | '"' :: rest => do
      let (name, rest) ← string rest
      match skipBlanks rest with
      | ':' :: rest =>
        let (value, rest) ← value fuel rest
        let member := (name.map String.ofList, value)
        match skipBlanks rest with
        | ',' :: rest =>
          let (more, after) ← members fuel rest
          some (member :: more, after)
        | '\x7d' :: after => some ([member], after)
        | _ => none
      | _ => none
    | _ => none

end

end Reader

/-- Reads a text that holds one value and nothing else. -/
def parse (source : String) : Option Json := do
  let cs := source.toList
  let (value, rest) ← Reader.value (2 * cs.length + 2) cs
  guard (Reader.skipBlanks rest).isEmpty
  some value

end Json

end Caret
