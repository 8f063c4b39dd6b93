import NetDiagram.Numeric.Decimal

/-!
# Numerals of JSON texts

A numeral is an optional minus sign, digits without a leading zero, and
optionally a point with digits and an exponent.
-/

namespace NetDiagram

structure Numeral where
  negative : Bool
  whole : List Char
  fraction : List Char
  exponent : Int

namespace Numeral

/-- The digits at the front, one at least, and what follows them. -/
def digits? (cs : List Char) : Option (List Char × List Char) :=
  match cs.takeWhile Char.isDigit with
  | [] => none
  | ds => some (ds, cs.dropWhile Char.isDigit)

def sign : List Char → Bool × List Char
  | '-' :: cs => (true, cs)
  | cs => (false, cs)

def whole? (cs : List Char) : Option (List Char × List Char) :=
  match digits? cs with
  | some ('0' :: _ :: _, _) => none
  | r => r

def fraction? : List Char → Option (List Char × List Char)
  | '.' :: cs => digits? cs
  | cs => some ([], cs)

def value (digits : List Char) : Nat :=
  Nat.ofDigitChars 10 digits 0

/-- The exponent that makes up the whole of the characters. -/
def exponent? : List Char → Option Int
  | [] => some 0
  | e :: cs =>
    if e = 'e' ∨ e = 'E' then
      let (negative, cs) :=
        match cs with
        | '+' :: cs => (false, cs)
        | cs => sign cs
      match digits? cs with
      | some (ds, []) => some (if negative then -value ds else value ds)
      | _ => none
    else none

def ofChars? (cs : List Char) : Option Numeral := do
  let (negative, cs) := sign cs
  let (whole, cs) ← whole? cs
  let (fraction, cs) ← fraction? cs
  let exponent ← exponent? cs
  return ⟨negative, whole, fraction, exponent⟩

def toDecimal (n : Numeral) : Decimal :=
  ⟨value (n.whole ++ n.fraction), n.exponent - n.fraction.length⟩

def toBinary64 (n : Numeral) : Binary64 :=
  n.toDecimal.toBinary64 n.negative

end Numeral

end NetDiagram
