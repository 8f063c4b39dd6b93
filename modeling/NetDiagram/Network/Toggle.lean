import NetDiagram.Network.Model

/-!
# Toggles of prefixes

What belongs to a prefix is drawn only while the toggle of the prefix is
defined. Its name is made from the text of the prefix and is not unique: texts
that differ only in points, slashes and underscores share one toggle.
-/

namespace NetDiagram

def identifierUnit (u : CodeUnit) : CodeUnit :=
  if u = '.'.unit ∨ u = '/'.unit then '_'.unit else u

/-- The part of a toggle's name that stands for the text. -/
def identifier (text : Text) : Text :=
  .ofList (text.toList.map identifierUnit)

def toggle (text : Text) : Text :=
  "prefix" ++ identifier text

structure PrefixEntry (P : Type) where
  key : P
  text : Text
  toggle : Text

def PrefixEntry.ofText {P : Type} (key : P) (text : Text) : PrefixEntry P :=
  ⟨key, text, NetDiagram.toggle text⟩

def Model.prefixEntries {P : Type} (model : Model P) : Query (List (PrefixEntry P)) := do
  (← model.knownPrefixes).mapM fun key => return .ofText key (← model.prefixString key)

/-! ## Collisions -/

/-- Different texts with one identifier. -/
structure Collision where
  identifier : Text
  members : List Text
  deriving DecidableEq

/-- The different texts by first occurrence, each with its identifier. -/
def tagged (texts : List Text) : List (Text × Text) :=
  texts.eraseDups.map fun text => (identifier text, text)

def sharing (texts : List (Text × Text)) (id : Text) : List Text :=
  (texts.filter fun t => t.1 = id).map (·.2)

/-- All groups of different texts with one identifier, by the first occurrence of a member. -/
def collisions (texts : List Text) : List Collision :=
  let texts := tagged texts
  let ids := (texts.map (·.1)).eraseDups
  (ids.map fun id => ⟨id, sharing texts id⟩).filter fun c => 1 < c.members.length

end NetDiagram
