import NetDiagram.Numeric.Arithmetic
import NetDiagram.Text.Basic

/-!
# Weight labels

A weight is drawn as the nearest integer, a half going to the even one. The
rounding is done in binary64 arithmetic on the weight's distance from its floor.
-/

namespace NetDiagram

namespace Binary64

def IsEven (x : Binary64) : Prop :=
  match x.integer? with
  | some n => n % 2 = 0
  | none => False

instance (x : Binary64) : Decidable x.IsEven := by
  unfold IsEven; split <;> infer_instance

def roundEven (x : Binary64) : Binary64 :=
  let base := x.floor
  let fraction := x.sub base
  if fraction < half then base
  else if half < fraction then base.add one
  else if base.IsEven then base
  else base.add one

end Binary64

inductive WeightLabel
  | nan
  | infinite (negative : Bool)
  | whole (n : Int)
  deriving DecidableEq

namespace WeightLabel

/-- The label of a weight, unless rounding leaves no integer. -/
def ofWeight? : Binary64 → Option WeightLabel
  | .nan => some .nan
  | .infinity negative => some (.infinite negative)
  | weight => weight.roundEven.integer?.map .whole

def text : WeightLabel → Text
  | .nan => "NaN"
  | .infinite negative => if negative then "-inf" else "inf"
  | .whole n => if n < 0 then "-" ++ n.natAbs.repr else n.natAbs.repr

end WeightLabel

end NetDiagram
