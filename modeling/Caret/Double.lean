namespace Caret

namespace Double

/-- The numbers from here on are rounded to infinity. -/
def limit : Nat := Nat.pow 2 1024 - Nat.pow 2 970

/-- The nearest number of 53 significant bits, and of two such numbers the one that ends with a zero
bit. -/
def nearest (n : Nat) : Nat :=
  if n < Nat.pow 2 53 then n
  else
    let unit := Nat.pow 2 (n.log2 - 52)
    let kept := n / unit
    let left := 2 * (n % unit)
    if unit < left || (unit = left && kept % 2 = 1) then (kept + 1) * unit else kept * unit

def decimalLength (n : Nat) : Nat := (Nat.toDigits 10 n).length

/-- Whether `digits` times a power of ten is finite when it is rounded. The length of the number
decides unless it is close to that of the limit, which has 309 digits. -/
def isFinite (digits : Nat) (power : Int) : Bool :=
  let length := decimalLength digits + power
  if digits = 0 || length < 300 then true
  else if 320 < length then false
  else if 0 ≤ power then digits * Nat.pow 10 power.toNat < limit
  else digits < limit * Nat.pow 10 (-power).toNat

/-- The digits in front that fit into 64 bits, and the number of those behind them. -/
def leading (digits : Nat) : Nat × Nat :=
  let behind := decimalLength digits - 20
  let front := digits / Nat.pow 10 behind
  if front < Nat.pow 2 64 then (front, behind) else (front / 10, behind + 1)

/-- Whether the product of the leading digits and a power of ten is finite when both factors and the
product are rounded. -/
def isFiniteProduct (digits : Nat) (power : Int) : Bool :=
  let (front, behind) := leading digits
  let power := power + behind
  if front = 0 || power < 0 then true
  else if 308 < power then false
  else nearest front * nearest (Nat.pow 10 power.toNat) < limit

end Double

end Caret
