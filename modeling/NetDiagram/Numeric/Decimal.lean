import NetDiagram.Numeric.Binary64

/-!
# Decimal numerals

A numeral is a coefficient and a power of ten. It denotes the nearest binary64
number; the sign stands apart because a zero keeps it.
-/

namespace NetDiagram

structure Decimal where
  coeff : Nat
  exp : Int
  deriving DecidableEq

namespace Decimal

/-- The magnitude `coeff * 10 ^ exp` as a quotient of units. -/
def ratio (d : Decimal) : Nat × Nat :=
  match d.exp with
  | .ofNat e => (d.coeff * Nat.pow 10 e * Binary64.unitsPerOne, 1)
  | .negSucc e => (d.coeff * Binary64.unitsPerOne, Nat.pow 10 (e + 1))

/-- Too large for any rounding to be finite. -/
def Overflows (d : Decimal) : Prop :=
  d.coeff ≠ 0 ∧ 309 ≤ d.exp

/-- Less than half a unit, as `10 ^ exp ≤ 2 ^ (3 * exp)` for a negative exponent. -/
def Underflows (d : Decimal) : Prop :=
  d.coeff = 0 ∨ d.coeff.log2 + 1077 ≤ -3 * d.exp

instance (d : Decimal) : Decidable d.Overflows :=
  inferInstanceAs (Decidable (_ ∧ _))

instance (d : Decimal) : Decidable d.Underflows :=
  inferInstanceAs (Decidable (_ ∨ _))

/-- The nearest binary64 number. The two tests keep the powers of ten small and do not change the result. -/
def toBinary64 (d : Decimal) (negative : Bool) : Binary64 :=
  if d.Overflows then .infinity negative
  else if d.Underflows then .zero negative
  else .nearest negative d.ratio.1 d.ratio.2

end Decimal

end NetDiagram
