import NetDiagram.Numeric.Binary64

/-!
# Arithmetic of binary64 numbers

A sum is the exact sum rounded once. The floor of a number and the integer that
a number denotes are exact.
-/

namespace NetDiagram.Binary64

/-! ## Integers -/

/-- The integer that a number denotes. -/
def integer? : Binary64 → Option Int
  | .finite negative sig exp _ =>
    let units := magnitude sig exp
    if units % unitsPerOne = 0 then some (signed negative (units / unitsPerOne)) else none
  | _ => none

def IsNatural (x : Binary64) : Prop :=
  ∃ n : Nat, x.integer? = some n

instance (x : Binary64) : Decidable x.IsNatural :=
  match h : x.integer? with
  | some (.ofNat n) => isTrue ⟨n, h⟩
  | some (.negSucc n) => isFalse fun ⟨_, h'⟩ => by rw [h] at h'; cases h'
  | none => isFalse fun ⟨_, h'⟩ => by rw [h] at h'; cases h'

/-- The largest integer that is not above the number. -/
def floor : Binary64 → Binary64
  | .finite negative sig exp fits =>
    let units := magnitude sig exp
    let whole := units / unitsPerOne
    if units % unitsPerOne = 0 then .finite negative sig exp fits
    else nearest negative ((if negative then whole + 1 else whole) * unitsPerOne) 1
  | x => x

/-! ## Sums -/

def neg : Binary64 → Binary64
  | .nan => .nan
  | .infinity negative => .infinity (!negative)
  | .finite negative sig exp fits => .finite (!negative) sig exp fits

/-- The exact sum rounded to the nearest number; an exact zero is negative only as the sum of negative zeros. -/
def add : Binary64 → Binary64 → Binary64
  | .finite s m e _, .finite t n f _ =>
    let sum := signed s (magnitude m e) + signed t (magnitude n f)
    if sum = 0 then zero (s && t) else nearest (sum < 0) sum.natAbs 1
  | .infinity s, .infinity t => if s = t then .infinity s else .nan
  | .infinity s, .finite .. => .infinity s
  | .finite .., .infinity t => .infinity t
  | _, _ => .nan

def sub (a b : Binary64) : Binary64 :=
  a.add b.neg

end NetDiagram.Binary64
