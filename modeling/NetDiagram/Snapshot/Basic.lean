import NetDiagram.Network.Model
import NetDiagram.Numeric.Shortest

/-!
# Snapshots

A snapshot is a network as plain data, and a model of itself with texts as
prefix keys. Where an id is given to several routers the last one counts.
-/

namespace NetDiagram

structure Router where
  id : RouterId
  name : Option Text
  position : Option Position
  external : Option Bool
  deriving DecidableEq

structure Link where
  a : RouterId
  b : RouterId
  weight : Binary64
  reverseWeight : Option Binary64
  deriving DecidableEq

structure Snapshot where
  routers : List Router
  links : List Link
  prefixes : List Text
  nextHops : Option (Members (Members (List RouterId)))
  sessions : Option (List Session)
  propagations : Option (Members (List Propagation))
  deriving DecidableEq

def Router.IsExternal (router : Router) : Prop :=
  router.external = some true

instance (router : Router) : Decidable router.IsExternal :=
  inferInstanceAs (Decidable (_ = _))

/-- Both directions; a weight that is not given is that of the other direction. -/
def Link.edges (link : Link) : List Edge :=
  [⟨link.a, link.b, link.weight⟩, ⟨link.b, link.a, link.reverseWeight.getD link.weight⟩]

namespace Snapshot

def router? (s : Snapshot) (id : RouterId) : Option Router :=
  s.routers.reverse.find? fun router => router.id.Same id

def internalRouters (s : Snapshot) : List RouterId :=
  (s.routers.filter fun router => ¬ router.IsExternal).map (·.id)

def externalRouters (s : Snapshot) : List RouterId :=
  (s.routers.filter fun router => router.IsExternal).map (·.id)

def edges (s : Snapshot) : List Edge :=
  s.links.flatMap Link.edges

/-- The next hops stored under the prefix and the text of the router's id. -/
def nextHopsAt (s : Snapshot) (key : Text) (router : RouterId) : List RouterId :=
  ((s.nextHops.bind (Members.get? key)).bind (Members.get? router.text)).getD []

def propagationsAt (s : Snapshot) (key : Text) : List Propagation :=
  (s.propagations.bind (Members.get? key)).getD []

def model (s : Snapshot) : Model Text where
  internalRouters := .ok s.internalRouters
  externalRouters := .ok s.externalRouters
  routerName id := .ok ((s.router? id).bind (·.name))
  routerPosition id := .ok ((s.router? id).bind (·.position))
  edges := .ok s.edges
  knownPrefixes := .ok s.prefixes
  prefixString key := .ok key
  nextHops key router := .ok (s.nextHopsAt key router)
  sessions := .ok (s.sessions.getD [])
  propagations key := .ok (s.propagationsAt key)

end Snapshot

end NetDiagram
