import NetDiagram.Text.Basic

/-!
# Quoted text

Quoting escapes the quote, the backslash, the control characters and every
surrogate that has no partner, and keeps every other unit. Reading accepts every
JSON escape and takes each escaped unit for itself, a surrogate too.
-/

namespace NetDiagram.Quoted

/-! ## Writing -/

/-- Four lower-case hexadecimal digits. -/
def hexDigits (n : Nat) : List CodeUnit :=
  [(n / 4096).digitChar.unit, (n / 256 % 16).digitChar.unit, (n / 16 % 16).digitChar.unit, (n % 16).digitChar.unit]

def escape (u : CodeUnit) : List CodeUnit :=
  if u = '"'.unit then ['\\'.unit, '"'.unit]
  else if u = '\\'.unit then ['\\'.unit, '\\'.unit]
  else if u = '\x08'.unit then ['\\'.unit, 'b'.unit]
  else if u = '\x0c'.unit then ['\\'.unit, 'f'.unit]
  else if u = '\n'.unit then ['\\'.unit, 'n'.unit]
  else if u = '\r'.unit then ['\\'.unit, 'r'.unit]
  else if u = '\t'.unit then ['\\'.unit, 't'.unit]
  else if u.code < 32 ∨ u.IsHigh ∨ u.IsLow then '\\'.unit :: 'u'.unit :: hexDigits u.code
  else [u]

/-- The escaped units, where a high surrogate and the low one behind it are kept as they are. -/
def escaped : List CodeUnit → List CodeUnit
  | [] => []
  | [u] => escape u
  | u :: v :: us => if u.IsHigh ∧ v.IsLow then u :: v :: escaped us else escape u ++ escaped (v :: us)

def quote (s : Text) : List CodeUnit :=
  '"'.unit :: escaped s.toList ++ ['"'.unit]

/-! ## Reading -/

def hexDigit? (u : CodeUnit) : Option Nat :=
  let c := u.char
  if c.isDigit then some (c.toNat - '0'.toNat)
  else if 'a' ≤ c ∧ c ≤ 'f' then some (c.toNat - 'a'.toNat + 10)
  else if 'A' ≤ c ∧ c ≤ 'F' then some (c.toNat - 'A'.toNat + 10)
  else none

/-- The unit that four hexadecimal digits stand for. -/
def unit? (a b c d : CodeUnit) : Option CodeUnit := do
  return .ofNat (4096 * (← hexDigit? a) + 256 * (← hexDigit? b) + 16 * (← hexDigit? c) + (← hexDigit? d))

def simpleEscape? (u : CodeUnit) : Option CodeUnit :=
  match u.char with
  | '"' => some '"'.unit
  | '\\' => some '\\'.unit
  | '/' => some '/'.unit
  | 'b' => some '\x08'.unit
  | 'f' => some '\x0c'.unit
  | 'n' => some '\n'.unit
  | 'r' => some '\r'.unit
  | 't' => some '\t'.unit
  | _ => none

/-- The units that the text between two quotes stands for. -/
def unescape? : List CodeUnit → Option (List CodeUnit)
  | [] => some []
  | u :: us =>
    if u = '\\'.unit then
      match us with
      | [] => none
      | v :: us =>
        if v = 'u'.unit then
          match us with
          | a :: b :: c :: d :: us => do return (← unit? a b c d) :: (← unescape? us)
          | _ => none
        else do return (← simpleEscape? v) :: (← unescape? us)
    else if u.code < 32 ∨ u = '"'.unit then none
    else (unescape? us).map (u :: ·)

end NetDiagram.Quoted
