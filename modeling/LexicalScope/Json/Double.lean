import LexicalScope.Json.Decimal

/-! # Doubles

A double is an integer of at most 53 bits times a power of two, of which the least is `2 ^ (-1074)`.
A decimal value is near one or two doubles, and is rounded to the nearest, or to the one with the
even integer if both are as near.
-/

namespace LexicalScope

/-- The integer nearest to `num / den`, and the even one of two. -/
def roundDiv (num den : Nat) : Nat :=
  if 2 * (num % den) < den ∨ 2 * (num % den) = den ∧ num / den % 2 = 0 then num / den
  else num / den + 1

def binaryOrder (num den : Nat) : Int :=
  let order : Int := num.log2 - den.log2
  if den <<< order.toNat ≤ num <<< (-order).toNat then order else order - 1

/-- The power of two by which the integer of a double of the size of `num / den` counts. -/
def doubleUnit (num den : Nat) : Int := max (-1074) (binaryOrder num den - 52)

namespace Decimal

def ofBinary (n : Int) (exponent : Int) : Decimal :=
  ⟨n * (1 <<< exponent.toNat : Nat) * Nat.pow 5 (-exponent).toNat, min exponent 0⟩

/-- The value of the double nearest to a value. -/
def nearestDouble (d : Decimal) : Decimal :=
  let num := d.mantissa.natAbs * Nat.pow 10 d.exponent.toNat
  let den := Nat.pow 10 (-d.exponent).toNat
  let unit := doubleUnit num den
  let n := roundDiv (num <<< (-unit).toNat) (den <<< unit.toNat)
  ofBinary (if d.mantissa < 0 then -n else n) unit

end Decimal

end LexicalScope
