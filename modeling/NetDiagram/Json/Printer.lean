import NetDiagram.Json.Basic
import NetDiagram.Json.Quoted
import NetDiagram.Numeric.Shortest

/-!
# Writing JSON texts

Values are written without blanks, numbers by their shortest text, members in
the order of visit. A number that is not finite has no numeral and is written
as null.
-/

namespace NetDiagram.Json

def joined (texts : List (List CodeUnit)) : List CodeUnit :=
  [','.unit].intercalate texts

def memberText (member : Text × List CodeUnit) : List CodeUnit :=
  Quoted.quote member.1 ++ ':'.unit :: member.2

mutual

def units : Json → List CodeUnit
  | .null => Text.encode ['n', 'u', 'l', 'l']
  | .bool true => Text.encode ['t', 'r', 'u', 'e']
  | .bool false => Text.encode ['f', 'a', 'l', 's', 'e']
  | .number value => if value.isFinite then Text.encode value.chars else Text.encode ['n', 'u', 'l', 'l']
  | .string value => Quoted.quote value
  | .array elements => '['.unit :: joined (elementUnits elements) ++ [']'.unit]
  | .object members =>
    '\x7b'.unit :: joined ((Members.inOrder (memberUnits members)).map memberText) ++ ['\x7d'.unit]

def elementUnits : List Json → List (List CodeUnit)
  | [] => []
  | v :: vs => v.units :: elementUnits vs

def memberUnits : Members Json → Members (List CodeUnit)
  | [] => []
  | (key, v) :: ms => (key, v.units) :: memberUnits ms

end

def render (value : Json) : Text :=
  .ofList value.units

end NetDiagram.Json
