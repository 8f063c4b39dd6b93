import NetDiagram.Picture.Layers

/-!
# Placeholders and sections

A document has eight places to fill, in a fixed order, each with the text of
one layer of the picture.
-/

namespace NetDiagram

inductive Placeholder
  | prefixes
  | internalNodes
  | externalNodes
  | edges
  | nextHops
  | linkWeights
  | bgpSessions
  | bgpPropagations
  deriving DecidableEq

namespace Placeholder

def all : List Placeholder :=
  [.prefixes, .internalNodes, .externalNodes, .edges, .nextHops, .linkWeights, .bgpSessions, .bgpPropagations]

def name : Placeholder → Text
  | .prefixes => "PREFIXES"
  | .internalNodes => "INTERNAL_NODES"
  | .externalNodes => "EXTERNAL_NODES"
  | .edges => "EDGES"
  | .nextHops => "NEXT_HOPS"
  | .linkWeights => "LINK_WEIGHTS"
  | .bgpSessions => "BGP_SESSIONS"
  | .bgpPropagations => "BGP_PROPAGATIONS"

def ofName? (name : Text) : Option Placeholder :=
  all.find? fun p => p.name = name

theorem mem_all (p : Placeholder) : p ∈ all := by
  cases p <;> decide

theorem ofName?_name (p : Placeholder) : ofName? p.name = some p := by
  cases p <;> decide

end Placeholder

/-- A text for each placeholder. -/
abbrev Sections := Placeholder → Text

def choices (toggles : List Text) : Text :=
  Text.intercalate ", " toggles

def Picture.sections (picture : Picture) : Sections
  | .prefixes => choices picture.toggles
  | .internalNodes => commandLines picture.internalNodes
  | .externalNodes => commandLines picture.externalNodes
  | .edges => commandLines picture.links
  | .nextHops => blockLines picture.nextHops
  | .linkWeights => commandLines picture.weights
  | .bgpSessions => commandLines picture.sessions
  | .bgpPropagations => blockLines picture.propagations

/-- One section alone; a section made of blocks asks for the prefixes itself. -/
def Model.sectionText {P : Type} (model : Model P) : Placeholder → Drawing Text
  | .prefixes => return choices ((← ask model.prefixEntries).map (·.toggle))
  | .internalNodes => return commandLines (← model.internalNodes)
  | .externalNodes => return commandLines (← model.externalNodes)
  | .edges => return commandLines (← model.linkLines)
  | .nextHops => return blockLines (← model.nextHopBlocks (← ask model.prefixEntries))
  | .linkWeights => return commandLines (← model.weightLabels)
  | .bgpSessions => return commandLines (← model.sessionLines)
  | .bgpPropagations => return blockLines (← model.propagationBlocks (← ask model.prefixEntries))

end NetDiagram
