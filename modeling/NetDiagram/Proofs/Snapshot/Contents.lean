import NetDiagram.Proofs.Picture.Readings
import NetDiagram.Proofs.Snapshot.Parts

/-!
# Visible contents

The part of a snapshot text that a drawing may show: numbers without the sign of
zero, what is absent replaced by its default, and next hops and propagations for
the listed prefixes only. A snapshot that was read has the contents of its
value, so the contents are all that reading has to keep.
-/

namespace NetDiagram

structure RouterContents where
  id : PlainNumber
  name : Text
  x : PlainNumber
  y : PlainNumber
  external : Bool
  deriving DecidableEq

structure LinkContents where
  a : PlainNumber
  b : PlainNumber
  weight : PlainNumber
  reverseWeight : PlainNumber
  deriving DecidableEq

structure PrefixContents where
  text : Text
  hops : List (PlainNumber × List PlainNumber)
  propagations : List (PlainNumber × PlainNumber)
  deriving DecidableEq

structure SessionContents where
  source : PlainNumber
  destination : PlainNumber
  kind : Text
  deriving DecidableEq

structure Contents where
  routers : List RouterContents
  links : List LinkContents
  prefixes : List PrefixContents
  sessions : List SessionContents
  deriving DecidableEq

def Contents.internalIds (routers : List RouterContents) : List PlainNumber :=
  (routers.filter fun r => ¬ r.external).map (·.id)

/-! ## Contents of a value -/

namespace Json

def plainNumber? : Json → Option PlainNumber
  | .number x => some x.toPlain
  | _ => none

def text? : Json → Option Text
  | .string s => some s
  | _ => none

def numberAt (keys : List Text) (v : Json) : PlainNumber :=
  ((v.at? keys).bind plainNumber?).getD (Binary64.zero false).toPlain

def textAt (keys : List Text) (v : Json) : Text :=
  ((v.at? keys).bind text?).getD ""

def elementsAt (keys : List Text) (v : Json) : List Json :=
  match v.at? keys with
  | some (.array vs) => vs
  | _ => []

def routerContents (v : Json) : RouterContents where
  id := v.numberAt ["id"]
  name := v.textAt ["name"]
  x := v.numberAt ["position", "x"]
  y := v.numberAt ["position", "y"]
  external := v.at? ["external"] = some (.bool true)

def linkContents (v : Json) : LinkContents where
  a := v.numberAt ["a"]
  b := v.numberAt ["b"]
  weight := v.numberAt ["weight"]
  reverseWeight := ((v.at? ["reverseWeight"]).bind plainNumber?).getD (v.numberAt ["weight"])

def sessionContents (v : Json) : SessionContents where
  source := v.numberAt ["source"]
  destination := v.numberAt ["destination"]
  kind := v.textAt ["kind"]

def propagationEnds (v : Json) : PlainNumber × PlainNumber :=
  (v.numberAt ["source"], v.numberAt ["destination"])

def prefixContents (ids : List PlainNumber) (v : Json) (key : Text) : PrefixContents where
  text := key
  hops := ids.map fun id => (id, (v.elementsAt ["nextHops", key, id.number.text]).filterMap plainNumber?)
  propagations := (v.elementsAt ["propagations", key]).map propagationEnds

def contents (v : Json) : Contents :=
  let routers := (v.elementsAt ["routers"]).map routerContents
  { routers
    links := (v.elementsAt ["links"]).map linkContents
    prefixes := ((v.elementsAt ["prefixes"]).filterMap text?).map (v.prefixContents (Contents.internalIds routers))
    sessions := (v.elementsAt ["sessions"]).map sessionContents }

end Json

/-! ## Contents of a snapshot -/

def Router.contents (r : Router) : RouterContents where
  id := r.id.toPlain
  name := r.name.getD ""
  x := (r.position.getD .origin).x.toPlain
  y := (r.position.getD .origin).y.toPlain
  external := r.IsExternal

def Link.contents (l : Link) : LinkContents where
  a := l.a.toPlain
  b := l.b.toPlain
  weight := l.weight.toPlain
  reverseWeight := (l.reverseWeight.getD l.weight).toPlain

def Session.contents (s : Session) : SessionContents where
  source := s.source.toPlain
  destination := s.destination.toPlain
  kind := s.kind

def Propagation.ends (p : Propagation) : PlainNumber × PlainNumber :=
  (p.source.toPlain, p.destination.toPlain)

namespace Snapshot

variable (s : Snapshot)

def prefixContents (key : Text) : PrefixContents where
  text := key
  hops := s.internalRouters.map fun id => (id.toPlain, (s.nextHopsAt key id).map Binary64.toPlain)
  propagations := (s.propagationsAt key).map Propagation.ends

def contents : Contents where
  routers := s.routers.map Router.contents
  links := s.links.map Link.contents
  prefixes := s.prefixes.map s.prefixContents
  sessions := (s.sessions.getD []).map Session.contents

end Snapshot

/-! ## Reading keeps the contents -/

namespace Json

variable {v : Json} {key : Text} {keys : List Text}

@[simp]
theorem at?_singleton : v.at? [key] = v.member? key := by
  simp [at?]

theorem at?_cons : v.at? (key :: keys) = (v.member? key).bind (Json.at? · keys) :=
  rfl

theorem numberAt_of_member {x : Binary64} (h : v.member? key = some (.number x)) : v.numberAt [key] = x.toPlain := by
  simp [numberAt, h, plainNumber?]

theorem numbers_elementsAt {o : Option (List Binary64)}
    (h : Option.Rel (fun w xs => w = .array (xs.map .number)) (v.at? keys) o) :
    (v.elementsAt keys).filterMap plainNumber? = (o.getD []).map Binary64.toPlain := by
  unfold elementsAt
  generalize v.at? keys = value at h
  cases h with
  | none => rfl
  | some hw =>
    subst hw
    simp [List.filterMap_map, Function.comp_def, plainNumber?]

/-- Arrays that are read element by element, and are empty when absent. -/
theorem map_elementsAt {α β : Type} {Reads : α → Json → Prop} {f : Json → β} {g : α → β} {o : Option (List α)}
    (h : Option.Rel (IsArrayFor Reads) (v.at? keys) o) (hfg : ∀ a w, Reads a w → f w = g a) :
    (v.elementsAt keys).map f = (o.getD []).map g := by
  unfold elementsAt
  generalize v.at? keys = value at h
  cases h with
  | none => rfl
  | some hvs =>
    obtain ⟨vs, rfl, hvs⟩ := hvs
    exact map_eq_of_forall₂ hvs fun _ _ => hfg _ _

end Json

section
variable {v : Json}

theorem Router.IsReadFrom.coordinate {r : Router} (h : r.IsReadFrom v) {key : Text} {coordinate : Position → Binary64}
    (horigin : coordinate .origin = .zero false)
    (hread : ∀ p w, Position.IsReadFrom p w → w.member? key = some (.number (coordinate p))) :
    v.numberAt ["position", key] = (coordinate (r.position.getD .origin)).toPlain := by
  have hposition := h.position
  rw [Json.numberAt, Json.at?_cons]
  generalize v.member? "position" = w at hposition
  generalize r.position = position at hposition
  cases hposition with
  | none => simp [horigin]
  | some hp => simp [hread _ _ hp, Json.plainNumber?]

theorem Router.IsReadFrom.contents {r : Router} (h : r.IsReadFrom v) : v.routerContents = r.contents := by
  have hname : v.textAt ["name"] = r.name.getD "" := by
    rw [Json.textAt, Json.at?_singleton, h.name]
    cases r.name <;> rfl
  have hexternal : decide (v.member? "external" = some (.bool true)) = decide (r.external = some true) := by
    rw [h.external]
    cases r.external <;> simp
  rw [Json.routerContents, Json.numberAt_of_member h.id, hname, h.coordinate rfl fun _ _ hp => hp.x,
    h.coordinate rfl fun _ _ hp => hp.y]
  simp only [Json.at?_singleton, hexternal]
  rfl

theorem Link.IsReadFrom.contents {l : Link} (h : l.IsReadFrom v) : v.linkContents = l.contents := by
  have hreverse : ((v.member? "reverseWeight").bind Json.plainNumber?).getD l.weight.toPlain =
      (l.reverseWeight.getD l.weight).toPlain := by
    rw [h.reverseWeight]
    cases l.reverseWeight <;> rfl
  rw [Json.linkContents, Json.numberAt_of_member h.a, Json.numberAt_of_member h.b, Json.numberAt_of_member h.weight,
    Json.at?_singleton, hreverse]
  rfl

theorem Session.IsReadFrom.contents {s : Session} (h : s.IsReadFrom v) : v.sessionContents = s.contents := by
  have hkind : v.textAt ["kind"] = s.kind := by simp [Json.textAt, h.kind, Json.text?]
  rw [Json.sessionContents, Json.numberAt_of_member h.source, Json.numberAt_of_member h.destination, hkind]
  rfl

theorem Propagation.IsReadFrom.ends {p : Propagation} (h : p.IsReadFrom v) : v.propagationEnds = p.ends := by
  rw [Json.propagationEnds, Json.numberAt_of_member h.source, Json.numberAt_of_member h.destination]
  rfl

end

namespace Snapshot

variable {s : Snapshot} {v : Json}

theorem internalIds_contents (s : Snapshot) :
    Contents.internalIds (s.routers.map Router.contents) = s.internalRouters.map Binary64.toPlain := by
  simp [Contents.internalIds, internalRouters, List.filter_map, Function.comp_def, Router.contents]

theorem IsReadFrom.prefixContents (h : s.IsReadFrom v) (key : Text) :
    v.prefixContents (s.internalRouters.map Binary64.toPlain) key = s.prefixContents key := by
  have hhops : ∀ id : RouterId, (v.elementsAt ["nextHops", key, id.text]).filterMap Json.plainNumber? =
      (s.nextHopsAt key id).map Binary64.toPlain := fun id => Json.numbers_elementsAt (h.nextHops key id.text)
  rw [Json.prefixContents, Json.map_elementsAt (h.propagations key) fun _ _ hp => hp.ends, List.map_map]
  -- a plain id has the text of the id that the entry stands under
  simp only [Function.comp_def, text_toPlain]
  simp only [hhops]
  rfl

/-- A snapshot has the contents of the value that it was read from. -/
theorem IsReadFrom.contents (h : s.IsReadFrom v) : v.contents = s.contents := by
  have hrequired : ∀ {α : Type} {key : Text} {Reads : α → Json → Prop} {as : List α},
      (∃ w, v.member? key = some w ∧ IsArrayFor Reads w as) →
      Option.Rel (IsArrayFor Reads) (v.at? [key]) (some as) := by
    rintro α key Reads as ⟨w, hw, has⟩
    rw [Json.at?_singleton, hw]
    exact .some has
  have hrouters : (v.elementsAt ["routers"]).map Json.routerContents = s.routers.map Router.contents :=
    Json.map_elementsAt (hrequired h.routers) fun _ _ hr => hr.contents
  have hlinks : (v.elementsAt ["links"]).map Json.linkContents = s.links.map Link.contents :=
    Json.map_elementsAt (hrequired h.links) fun _ _ hl => hl.contents
  have hprefixes : (v.elementsAt ["prefixes"]).filterMap Json.text? = s.prefixes := by
    simp [Json.elementsAt, h.prefixes, List.filterMap_map, Function.comp_def, Json.text?]
  have hsessions : (v.elementsAt ["sessions"]).map Json.sessionContents =
      (s.sessions.getD []).map Session.contents := by
    have hstored : Option.Rel (IsArrayFor Session.IsReadFrom) (v.at? ["sessions"]) s.sessions := by
      rw [Json.at?_singleton]
      exact h.sessions
    exact Json.map_elementsAt hstored fun _ _ hx => hx.contents
  have hprefix : Json.prefixContents (s.internalRouters.map Binary64.toPlain) v = s.prefixContents :=
    funext h.prefixContents
  rw [Json.contents, hrouters, hlinks, hprefixes, hsessions, internalIds_contents, hprefix]
  rfl

end Snapshot

end NetDiagram
