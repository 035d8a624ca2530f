namespace Caret

/-- A set of characters as the first and last numbers of its runs. -/
abbrev CharRanges := List (Nat × Nat)

def CharRanges.contain (ranges : CharRanges) (c : Char) : Bool :=
  ranges.any fun range => range.1 ≤ c.toNat && c.toNat ≤ range.2

end Caret
