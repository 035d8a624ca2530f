namespace Caret

namespace Bytes

/-- Leaves out so many bytes, unless they end inside a character or past the text. -/
def drop : Nat → List Char → Option (List Char)
  | 0, cs => some cs
  | _ + 1, [] => none
  | n + 1, c :: cs => if c.utf8Size ≤ n + 1 then drop (n + 1 - c.utf8Size) cs else none
  termination_by _ cs => cs.length

/-- Keeps so many bytes, unless they end inside a character or past the text. -/
def take : Nat → List Char → Option (List Char)
  | 0, _ => some []
  | _ + 1, [] => none
  | n + 1, c :: cs =>
    if c.utf8Size ≤ n + 1 then (take (n + 1 - c.utf8Size) cs).map (c :: ·) else none
  termination_by _ cs => cs.length

def isBoundary (offset : Nat) (text : String) : Bool := (drop offset text.toList).isSome

/-- The text between two offsets. -/
def slice (text : String) (start stop : Nat) : Option String := do
  let rest ← drop start text.toList
  let kept ← take (stop - start) rest
  some (String.ofList kept)

/-- The character that ends at an offset. -/
def charBefore (text : String) (offset : Nat) : Option Char :=
  (take offset text.toList).bind List.getLast?

/-- Puts `inserted` in place of the bytes of a span. -/
def replace (text : String) (start stop : Nat) (inserted : String) : Option String := do
  let before ← take start text.toList
  let after ← drop stop text.toList
  some (String.ofList before ++ inserted ++ String.ofList after)

theorem take_append_drop (offset : Nat) (cs before after : List Char)
    (ht : take offset cs = some before) (hd : drop offset cs = some after) :
    before ++ after = cs := by
  fun_induction take offset cs generalizing before with
  | case1 cs => simp_all [drop]
  | case2 n => simp at ht
  | case3 n c cs h ih =>
    obtain ⟨kept, hk, rfl⟩ := Option.map_eq_some_iff.1 ht
    rw [drop, if_pos h] at hd
    simp [ih kept hk hd]
  | case4 n c cs h => simp at ht

end Bytes

end Caret
