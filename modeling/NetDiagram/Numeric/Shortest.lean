import NetDiagram.Numeric.Decimal
import NetDiagram.Text.Basic

/-!
# Shortest decimal text of a number

The text of a number is the numeral with the fewest digits that reads back as
the number, and of those the nearest. A point of a decimal grid that reads back
exists only if one of the two grid points around the number does, so the search
tests these two on ever finer grids. On the grid of `10 ^ -1074` every number
lies exactly.
-/

namespace NetDiagram

namespace Decimal

/-- A magnitude of that many units in steps of `10 ^ exp`, as a quotient. -/
def steps (units : Nat) (exp : Int) : Nat × Nat :=
  match exp with
  | .ofNat e => (units, Binary64.unitsPerOne * Nat.pow 10 e)
  | .negSucc e => (units * Nat.pow 10 (e + 1), Binary64.unitsPerOne)

/-- The numerals next to the magnitude on the grid of `10 ^ exp`, the nearer one first; of two equally near ones the
first is even. -/
def neighbours (units : Nat) (exp : Int) : List Decimal :=
  let (num, den) := steps units exp
  let nearer := roundDiv num den
  let farther := if nearer = num / den then nearer + 1 else num / den
  [⟨nearer, exp⟩, ⟨farther, exp⟩]

/-- The first neighbour that reads back as the magnitude, on grids from `10 ^ exp` down. -/
def search (x : Binary64) (units : Nat) : Nat → Int → Decimal
  | 0, _ => ⟨units * Nat.pow 5 1074, -1074⟩
  | fuel + 1, exp =>
    match (neighbours units exp).find? fun d => d.toBinary64 false = x with
    | some d => d
    | none => search x units fuel (exp - 1)

/-- The exponent of a power of ten above a magnitude of that many units. -/
def ceiling (units : Nat) : Nat :=
  if units < Binary64.unitsPerOne then 0 else (Nat.toDigits 10 (units / Binary64.unitsPerOne)).length

/-- The shortest numeral that reads back as the magnitude `sig * 2 ^ exp` units. -/
def shortest (sig exp : Nat) : Decimal :=
  let units := Binary64.magnitude sig exp
  search (.ofFields false sig exp) units (ceiling units + 1074) (ceiling units)

/-! ## Layout -/

/-- The digits with the decimal point after the first `point` of them: written out in full when the point is at most
21 places after the first digit and at most 6 places before it, in scientific form otherwise. -/
def layout (digits : List Char) (point : Int) : List Char :=
  if digits.length ≤ point ∧ point ≤ 21 then
    digits ++ List.replicate (point.toNat - digits.length) '0'
  else if 0 < point ∧ point ≤ 21 then
    digits.take point.toNat ++ '.' :: digits.drop point.toNat
  else if -6 < point ∧ point ≤ 0 then
    '0' :: '.' :: List.replicate (-point).toNat '0' ++ digits
  else
    let exponent := point - 1
    let mantissa := if digits.length = 1 then digits else digits.take 1 ++ '.' :: digits.drop 1
    mantissa ++ 'e' :: (if exponent < 0 then '-' else '+') :: Nat.toDigits 10 exponent.natAbs

def chars (d : Decimal) : List Char :=
  let digits := Nat.toDigits 10 d.coeff
  layout digits (digits.length + d.exp)

end Decimal

namespace Binary64

/-- The text as characters; both zeros are written `0`. -/
def chars : Binary64 → List Char
  | .nan => "NaN".toList
  | .infinity negative => if negative then "-Infinity".toList else "Infinity".toList
  | .finite negative sig exp _ =>
    if sig = 0 then ['0']
    else if negative then '-' :: (Decimal.shortest sig exp).chars
    else (Decimal.shortest sig exp).chars

def text (x : Binary64) : Text :=
  .ofChars x.chars

end Binary64

end NetDiagram
