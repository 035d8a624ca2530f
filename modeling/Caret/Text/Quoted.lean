namespace Caret

namespace Quoted

/-- How a character is written in the body of a single-line string. -/
def escape : Char → List Char
  | '\\' => ['\\', '\\']
  | '\x27' => ['\\', '\x27']
  | '\n' => ['\\', 'n']
  | '\r' => ['\\', 'r']
  | '\t' => ['\\', 't']
  | '$' => ['\\', '$']
  | c => [c]

/-- The character that a backslash and one more character stand for. -/
def unescapeOne : Char → Option Char
  | '\\' => some '\\'
  | '\x27' => some '\x27'
  | 'n' => some '\n'
  | 'r' => some '\r'
  | 't' => some '\t'
  | '$' => some '$'
  | _ => none

def hexDigit (c : Char) : Option Nat :=
  if '0' ≤ c && c ≤ '9' then some (c.toNat - '0'.toNat)
  else if 'a' ≤ c && c ≤ 'f' then some (c.toNat - 'a'.toNat + 10)
  else if 'A' ≤ c && c ≤ 'F' then some (c.toNat - 'A'.toNat + 10)
  else none

/-- The number that hexadecimal digits write, most significant first. -/
def hexFrom (value : Nat) : List Char → Option Nat
  | [] => some value
  | c :: cs => (hexDigit c).bind fun digit => hexFrom (value * 16 + digit) cs

/-- A hexadecimal number of at least one digit, with at most one plus sign in front. -/
def hexNumber (cs : List Char) : Option Nat :=
  let digits := match cs with
    | '+' :: rest => rest
    | _ => cs
  if digits.isEmpty then none else hexFrom 0 digits

def scalar (value : Nat) : Option Char :=
  if value.isValidChar then some (Char.ofNat value) else none

def beforeBrace (cs : List Char) : List Char := cs.takeWhile (· ≠ '\x7d')

def afterBrace (cs : List Char) : List Char := (cs.dropWhile (· ≠ '\x7d')).tail

theorem length_afterBrace_le (cs : List Char) : (afterBrace cs).length ≤ cs.length := by
  unfold afterBrace
  have : (cs.dropWhile (· ≠ '\x7d')).length ≤ cs.length := (List.dropWhile_sublist _).length_le
  rw [List.length_tail]
  omega

/-- Reads the body of a single-line string. What is no escape stands for itself; an escape by
number that names no character is closed with a brace even where the body cuts it off. -/
def unescapeChars : List Char → List Char
  | [] => []
  | '\\' :: 'u' :: '\x7b' :: rest =>
    match (hexNumber (beforeBrace rest)).bind scalar with
    | some c => c :: unescapeChars (afterBrace rest)
    | none =>
      '\\' :: 'u' :: '\x7b' :: (beforeBrace rest ++ '\x7d' :: unescapeChars (afterBrace rest))
  | '\\' :: c :: rest =>
    match unescapeOne c with
    | some d => d :: unescapeChars rest
    | none => '\\' :: c :: unescapeChars rest
  | c :: rest => c :: unescapeChars rest
  termination_by cs => cs.length
  decreasing_by
    all_goals simp_wf
    all_goals grind [length_afterBrace_le]

def quoteChars (cs : List Char) : List Char := '\x27' :: cs.flatMap escape ++ ['\x27']

end Quoted

def unescape (raw : String) : String := String.ofList (Quoted.unescapeChars raw.toList)

/-- A text as a single-line string literal. -/
def quote (text : String) : String := String.ofList (Quoted.quoteChars text.toList)

end Caret
