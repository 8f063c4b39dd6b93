import NetDiagram.Network.Toggle
import NetDiagram.Picture.Command

/-!
# Layers of the picture

Each layer is made from the answers of a few queries, asked from left to right.
The first query that fails, or the first session of an unknown kind, ends it.
-/

namespace NetDiagram

inductive DrawingError
  | query (failure : QueryFailure)
  | unknownSessionKind (name : Text)
  | fractionalWeight (weight : Binary64)
  deriving DecidableEq

def DrawingError.message : DrawingError → Text
  | .query failure => failure.message
  | .unknownSessionKind name => "Unknown BGP session kind: " ++ name
  | .fractionalWeight weight => "Weight does not round to an integer: " ++ weight.text

abbrev Drawing := Except DrawingError

def ask {α : Type} (query : Query α) : Drawing α :=
  query.mapError .query

def Edge.label (e : Edge) : Drawing Command :=
  match WeightLabel.ofWeight? e.weight with
  | some label => .ok (.weight e.a e.b label)
  | none => .error (.fractionalWeight e.weight)

def Session.line (s : Session) : Drawing Command :=
  match SessionKind.ofName? s.kind with
  | some kind => .ok (.session kind s.source s.destination)
  | none => .error (.unknownSessionKind s.kind)

namespace Model

variable {P : Type} (model : Model P)

/-- A router without a position is drawn at the origin, one without a name has an empty name. -/
def node (style : NodeStyle) (router : RouterId) : Drawing Command := do
  let position ← ask (model.routerPosition router)
  let name ← ask (model.routerName router)
  return .node style router (position.getD .origin) (name.getD "")

def internalNodes : Drawing (List Command) := do
  (← ask model.internalRouters).mapM (model.node .router)

def externalNodes : Drawing (List Command) := do
  (← ask model.externalRouters).mapM (model.node .external)

/-- Each link once, from the smaller id to the larger one. -/
def linkLines : Drawing (List Command) := do
  return ((← ask model.edges).filter fun e => e.a < e.b).map fun e => .link e.a e.b

def weightLabels : Drawing (List Command) := do
  (← ask model.edges).mapM Edge.label

def sessionLines : Drawing (List Command) := do
  (← ask model.sessions).mapM Session.line

/-! ## Layers with a block for each prefix -/

def hopLines (key : P) : Drawing (List Command) := do
  let hops ← (← ask model.internalRouters).mapM fun router =>
    return (← ask (model.nextHops key router)).map (.nextHop router)
  return hops.flatten

def propagationLines (key : P) : Drawing (List Command) := do
  return (← ask (model.propagations key)).map fun p => .propagation p.source p.destination

def nextHopBlocks (entries : List (PrefixEntry P)) : Drawing (List Block) :=
  entries.mapM fun entry => return ⟨entry.toggle, ← model.hopLines entry.key⟩

def propagationBlocks (entries : List (PrefixEntry P)) : Drawing (List Block) :=
  entries.mapM fun entry => return ⟨entry.toggle, ← model.propagationLines entry.key⟩

end Model

/-! ## The whole picture -/

structure Picture where
  toggles : List Text
  internalNodes : List Command
  externalNodes : List Command
  links : List Command
  nextHops : List Block
  weights : List Command
  sessions : List Command
  propagations : List Block
  deriving DecidableEq

def Model.picture {P : Type} (model : Model P) (entries : List (PrefixEntry P)) : Drawing Picture := do
  return {
    toggles := entries.map (·.toggle)
    internalNodes := ← model.internalNodes
    externalNodes := ← model.externalNodes
    links := ← model.linkLines
    nextHops := ← model.nextHopBlocks entries
    weights := ← model.weightLabels
    sessions := ← model.sessionLines
    propagations := ← model.propagationBlocks entries }

end NetDiagram
