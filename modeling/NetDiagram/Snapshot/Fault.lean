import NetDiagram.Json.Quoted
import NetDiagram.Network.Basic
import NetDiagram.Numeric.Shortest

/-!
# Faults of snapshot texts

A fault is found at a path, which leads from the root of the text through
members that a snapshot has, places in arrays, and keys of the text's own.
-/

namespace NetDiagram

/-- The members of the objects that make up a snapshot. -/
inductive Field
  | routers | links | prefixes | nextHops | sessions | propagations
  | id | name | position | x | y | external
  | a | b | weight | reverseWeight
  | source | destination | kind | detail
  deriving DecidableEq

def Field.key : Field → Text
  | .routers => "routers"
  | .links => "links"
  | .prefixes => "prefixes"
  | .nextHops => "nextHops"
  | .sessions => "sessions"
  | .propagations => "propagations"
  | .id => "id"
  | .name => "name"
  | .position => "position"
  | .x => "x"
  | .y => "y"
  | .external => "external"
  | .a => "a"
  | .b => "b"
  | .weight => "weight"
  | .reverseWeight => "reverseWeight"
  | .source => "source"
  | .destination => "destination"
  | .kind => "kind"
  | .detail => "detail"

inductive Step
  | field (f : Field)
  | index (i : Nat)
  | key (k : Text)
  deriving DecidableEq

def Step.units : Step → List CodeUnit
  | .field f => '.'.unit :: f.key.toList
  | .index i => '['.unit :: Text.encode (Nat.toDigits 10 i) ++ [']'.unit]
  | .key k => '['.unit :: Quoted.quote k ++ [']'.unit]

structure Path where
  steps : List Step
  deriving DecidableEq

namespace Path

def root : Path :=
  ⟨[]⟩

def step (path : Path) (s : Step) : Path :=
  ⟨path.steps ++ [s]⟩

def field (path : Path) (f : Field) : Path :=
  path.step (.field f)

def index (path : Path) (i : Nat) : Path :=
  path.step (.index i)

def key (path : Path) (k : Text) : Path :=
  path.step (.key k)

def text (path : Path) : Text :=
  .ofList ('$'.unit :: path.steps.flatMap Step.units)

end Path

inductive Fault
  | notJson
  | notObject
  | notArray
  | notString
  | notNumber
  | notBoolean
  | notRouterId
  | duplicateRouterId (id : RouterId)
  | unknownSessionKind (name : Text)
  deriving DecidableEq

def Fault.message : Fault → Text
  | .notJson => "Invalid JSON"
  | .notObject => "Expected an object"
  | .notArray => "Expected an array"
  | .notString => "Expected a string"
  | .notNumber => "Expected a number"
  | .notBoolean => "Expected a boolean"
  | .notRouterId => "Expected a nonnegative integer router id"
  | .duplicateRouterId id => "Duplicate router id " ++ id.text
  | .unknownSessionKind name =>
    "Unknown session kind \"" ++ name ++ "\" (expected " ++ Text.intercalate ", " (SessionKind.all.map (·.name)) ++ ")"

structure SnapshotError where
  path : Path
  fault : Fault
  deriving DecidableEq

end NetDiagram
