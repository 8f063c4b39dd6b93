import NetDiagram.Json.Basic

/-!
# Parts of a network

Routers are identified by numbers. Sessions carry the name of their kind, which
need not be one of the three kinds that can be drawn.
-/

namespace NetDiagram

abbrev RouterId := Binary64

structure Position where
  x : Binary64
  y : Binary64
  deriving DecidableEq

def Position.origin : Position :=
  ⟨.zero false, .zero false⟩

/-- One direction of a link. -/
structure Edge where
  a : RouterId
  b : RouterId
  weight : Binary64
  deriving DecidableEq

structure Session where
  source : RouterId
  destination : RouterId
  kind : Text
  deriving DecidableEq

/-- A route announced from one router to another; the detail is not drawn. -/
structure Propagation where
  source : RouterId
  destination : RouterId
  detail : Option Json
  deriving DecidableEq

inductive SessionKind
  | ebgp
  | ibgpPeer
  | ibgpClient
  deriving DecidableEq

namespace SessionKind

def all : List SessionKind :=
  [.ebgp, .ibgpPeer, .ibgpClient]

def name : SessionKind → Text
  | .ebgp => "ebgp"
  | .ibgpPeer => "ibgp-peer"
  | .ibgpClient => "ibgp-client"

def ofName? (name : Text) : Option SessionKind :=
  all.find? fun kind => kind.name = name

end SessionKind

end NetDiagram
