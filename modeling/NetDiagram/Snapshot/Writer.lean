import NetDiagram.Json.Printer
import NetDiagram.Snapshot.Basic
import NetDiagram.Snapshot.Fault

/-!
# Writing snapshots

Every object has its members in the order in which they are read. An absent
value has no member.
-/

namespace NetDiagram

def Field.member (field : Field) (value : Option Json) : List (Text × Json) :=
  match value with
  | none => []
  | some v => [(field.key, v)]

def Json.ofMembers {α : Type} (write : α → Json) (members : Members α) : Json :=
  .object (members.map fun (key, value) => (key, write value))

def Position.toJson (p : Position) : Json :=
  .object [(Field.x.key, .number p.x), (Field.y.key, .number p.y)]

def Router.toJson (r : Router) : Json :=
  .object (Field.id.member (some (.number r.id)) ++ Field.name.member (r.name.map .string) ++
    Field.position.member (r.position.map Position.toJson) ++ Field.external.member (r.external.map .bool))

def Link.toJson (l : Link) : Json :=
  .object (Field.a.member (some (.number l.a)) ++ Field.b.member (some (.number l.b)) ++
    Field.weight.member (some (.number l.weight)) ++ Field.reverseWeight.member (l.reverseWeight.map .number))

def Session.toJson (s : Session) : Json :=
  .object [(Field.source.key, .number s.source), (Field.destination.key, .number s.destination),
    (Field.kind.key, .string s.kind)]

def Propagation.toJson (p : Propagation) : Json :=
  .object (Field.source.member (some (.number p.source)) ++ Field.destination.member (some (.number p.destination)) ++
    Field.detail.member p.detail)

namespace Snapshot

def toJson (s : Snapshot) : Json :=
  let hops := Json.ofMembers fun ids => .array (ids.map .number)
  let propagations := fun ps => Json.array (ps.map Propagation.toJson)
  .object (Field.routers.member (some (.array (s.routers.map Router.toJson))) ++
    Field.links.member (some (.array (s.links.map Link.toJson))) ++
    Field.prefixes.member (some (.array (s.prefixes.map .string))) ++
    Field.nextHops.member (s.nextHops.map (Json.ofMembers hops)) ++
    Field.sessions.member (s.sessions.map fun ss => .array (ss.map Session.toJson)) ++
    Field.propagations.member (s.propagations.map (Json.ofMembers propagations)))

def text (s : Snapshot) : Text :=
  s.toJson.render

end Snapshot

end NetDiagram
