/-! # Decimal values

A decimal value is an integer times a power of ten, and each value has one normal form.
-/

namespace LexicalScope

/-- The value `mantissa * 10 ^ exponent`. -/
structure Decimal where
  mantissa : Int
  exponent : Int
deriving DecidableEq, Repr

namespace Decimal

def stripZeros (digits : Nat) (exponent : Int) : Nat × Int :=
  if 0 < digits ∧ digits % 10 = 0 then stripZeros (digits / 10) (exponent + 1)
  else (digits, exponent)
termination_by digits

/-- The only form of its value whose mantissa does not end in a zero. -/
def normal (d : Decimal) : Decimal :=
  if d.mantissa = 0 then ⟨0, 0⟩
  else
    let (digits, exponent) := stripZeros d.mantissa.natAbs d.exponent
    ⟨if d.mantissa < 0 then -digits else digits, exponent⟩

def ofInt (n : Int) : Decimal := ⟨n, 0⟩

def scaledTo (d : Decimal) (exponent : Int) : Int :=
  d.mantissa * Nat.pow 10 (d.exponent - exponent).toNat

/-- The order of values, compared at the smaller of the two exponents. -/
def less (a b : Decimal) : Bool :=
  let exponent := min a.exponent b.exponent
  decide (a.scaledTo exponent < b.scaledTo exponent)

end Decimal

end LexicalScope
