import NetDiagram.Json.Basic
import NetDiagram.Json.Token

/-!
# Reading JSON texts

The value is built with an explicit stack of the arrays and objects that are
still open, so that no nesting is too deep.
-/

namespace NetDiagram.Json

/-- An open array or object: the values before the one that is due, in reverse. -/
inductive Frame
  | array (before : List Json)
  | object (before : List (Text × Json)) (key : Text)

def Token.scalar? : Token → Option Json
  | .null => some .null
  | .bool value => some (.bool value)
  | .number value => some (.number value)
  | .string value => some (.string value)
  | _ => none

/-- Reads the rest of a text inside the open frames, either where a value is due or behind the value given. -/
def build? : Option Json → List Frame → List Token → Option Json
  | none, frames, .openBracket :: .closeBracket :: ts => build? (some (.array [])) frames ts
  | none, frames, .openBracket :: ts => build? none (.array [] :: frames) ts
  | none, frames, .openBrace :: .closeBrace :: ts => build? (some (.object [])) frames ts
  | none, frames, .openBrace :: .string key :: .colon :: ts => build? none (.object [] key :: frames) ts
  | none, frames, t :: ts =>
    match t.scalar? with
    | some v => build? (some v) frames ts
    | none => none
  | some v, [], [] => some v
  | some v, .array before :: frames, .comma :: ts => build? none (.array (v :: before) :: frames) ts
  | some v, .array before :: frames, .closeBracket :: ts =>
    build? (some (.array (v :: before).reverse)) frames ts
  | some v, .object before key :: frames, .comma :: .string key' :: .colon :: ts =>
    build? none (.object ((key, v) :: before) key' :: frames) ts
  | some v, .object before key :: frames, .closeBrace :: ts =>
    build? (some (.object (Members.ofList ((key, v) :: before).reverse))) frames ts
  | _, _, _ => none

def parse? (text : Text) : Option Json := do
  build? none [] (← tokens? text.toList)

end NetDiagram.Json
