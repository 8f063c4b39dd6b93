import NetDiagram.Proofs.Snapshot.FirstFault
import NetDiagram.Proofs.Snapshot.Lookup

/-!
# The parts of a snapshot

A snapshot that was read has in each of its parts what stands under the members
of its value, element by element. Its routers have different ids, so that each
of them is found by its own, and the kinds of its sessions can be drawn.
-/

namespace NetDiagram

/-! ## Parts and values -/

structure Position.IsReadFrom (p : Position) (v : Json) : Prop where
  x : v.member? "x" = some (.number p.x)
  y : v.member? "y" = some (.number p.y)

structure Router.IsReadFrom (r : Router) (v : Json) : Prop where
  id : v.member? "id" = some (.number r.id)
  name : v.member? "name" = r.name.map .string
  position : Option.Rel (fun w p => p.IsReadFrom w) (v.member? "position") r.position
  external : v.member? "external" = r.external.map .bool

structure Link.IsReadFrom (l : Link) (v : Json) : Prop where
  a : v.member? "a" = some (.number l.a)
  b : v.member? "b" = some (.number l.b)
  weight : v.member? "weight" = some (.number l.weight)
  reverseWeight : v.member? "reverseWeight" = l.reverseWeight.map .number

structure Session.IsReadFrom (s : Session) (v : Json) : Prop where
  source : v.member? "source" = some (.number s.source)
  destination : v.member? "destination" = some (.number s.destination)
  kind : v.member? "kind" = some (.string s.kind)
  known : ∃ kind, SessionKind.ofName? s.kind = some kind

def IsArrayFor {α : Type} (Reads : α → Json → Prop) (v : Json) (as : List α) : Prop :=
  ∃ vs, v = .array vs ∧ List.Forall₂ (fun w a => Reads a w) vs as

theorem IsArrayFor.forall_mem {α : Type} {Reads : α → Json → Prop} {R : α → Prop} {v : Json} {as : List α}
    (h : IsArrayFor Reads v as) (hR : ∀ a w, Reads a w → R a) : ∀ a ∈ as, R a := by
  obtain ⟨vs, -, hvs⟩ := h
  induction hvs with
  | nil => exact List.forall_mem_nil _
  | cons hw _ ih => exact List.forall_mem_cons.mpr ⟨hR _ _ hw, ih⟩

theorem map_eq_of_forall₂ {α β γ : Type} {R : α → β → Prop} {f : α → γ} {g : β → γ} {xs : List α} {ys : List β}
    (h : List.Forall₂ R xs ys) (hR : ∀ x y, R x y → f x = g y) : xs.map f = ys.map g := by
  rw [← List.forall₂_eq_eq_eq, List.forall₂_map_left_iff, List.forall₂_map_right_iff]
  exact h.imp hR

structure Snapshot.IsReadFrom (s : Snapshot) (v : Json) : Prop where
  routers : ∃ w, v.member? "routers" = some w ∧ IsArrayFor Router.IsReadFrom w s.routers
  distinct : s.routers.Pairwise fun a b => ¬ a.id.Same b.id
  links : ∃ w, v.member? "links" = some w ∧ IsArrayFor Link.IsReadFrom w s.links
  prefixes : v.member? "prefixes" = some (.array (s.prefixes.map .string))
  nextHops : ∀ key router, Option.Rel (fun w ids => w = .array (ids.map .number)) (v.at? ["nextHops", key, router])
    ((s.nextHops.bind (Members.get? key)).bind (Members.get? router))
  sessions : Option.Rel (IsArrayFor Session.IsReadFrom) (v.member? "sessions") s.sessions
  propagations : ∀ key, Option.Rel (IsArrayFor Propagation.IsReadFrom) (v.at? ["propagations", key])
    (s.propagations.bind (Members.get? key))

/-! ## Readers of parts -/

namespace Reader

theorem string_eq_ok {value : Option Json} {path : Path} {s : Text} (h : string value path = .ok s) :
    value = some (.string s) := by
  unfold string at h
  split at h <;> cases h
  rfl

theorem number_eq_ok {value : Option Json} {path : Path} {x : Binary64} (h : number value path = .ok x) :
    value = some (.number x) := by
  unfold number at h
  split at h <;> cases h
  rfl

theorem boolean_eq_ok {value : Option Json} {path : Path} {b : Bool} (h : boolean value path = .ok b) :
    value = some (.bool b) := by
  unfold boolean at h
  split at h <;> cases h
  rfl

theorem sessionKind_eq_ok {value : Option Json} {path : Path} {name : Text} (h : sessionKind value path = .ok name) :
    value = some (.string name) ∧ ∃ kind, SessionKind.ofName? name = some kind := by
  obtain ⟨name', hname, h⟩ := bind_eq_ok h
  split at h
  · rename_i hkind
    cases h
    exact ⟨string_eq_ok hname, Option.isSome_iff_exists.mp hkind⟩
  · cases h

section
variable {α : Type} {read : Reader α} {field : Field} {members : Members Json} {path : Path}

theorem optional_eq_ok {write : α → Json} (hread : ∀ value path a, read value path = .ok a → value = some (write a))
    {o : Option α} (h : optional read field members path = .ok o) : members.get? field.key = o.map write := by
  have hrel := rel_optional h
  generalize members.get? field.key = value at hrel
  cases hrel with
  | none => rfl
  | some ha => exact hread _ _ _ ha

theorem elements_eq_ok {Reads : α → Json → Prop} (hread : ∀ v path a, read (some v) path = .ok a → Reads a v)
    {value : Option Json} {as : List α} (h : elements read value path = .ok as) :
    ∃ v, value = some v ∧ IsArrayFor Reads v as := by
  cases value with
  | none => cases h
  | some v =>
    obtain ⟨vs, rfl, hvs⟩ := forall₂_elements h
    exact ⟨_, rfl, vs, rfl, hvs.imp fun w a hw => hread w _ a hw.choose_spec⟩

end

theorem position_eq_ok {v : Json} {path : Path} {p : Position} (h : position (some v) path = .ok p) :
    p.IsReadFrom v := by
  obtain ⟨members, hmembers, h⟩ := bind_eq_ok h
  obtain ⟨x, hx, h⟩ := bind_eq_ok h
  obtain ⟨y, hy, h⟩ := bind_eq_ok h
  cases h
  obtain rfl := object_eq_ok hmembers
  exact ⟨number_eq_ok hx, number_eq_ok hy⟩

theorem router_eq_ok {v : Json} {path : Path} {r : Router} (h : router (some v) path = .ok r) : r.IsReadFrom v := by
  obtain ⟨members, hmembers, h⟩ := bind_eq_ok h
  obtain ⟨id, hid, h⟩ := bind_eq_ok h
  obtain ⟨name, hname, h⟩ := bind_eq_ok h
  obtain ⟨position, hposition, h⟩ := bind_eq_ok h
  obtain ⟨external, hexternal, h⟩ := bind_eq_ok h
  cases h
  obtain rfl := object_eq_ok hmembers
  exact ⟨routerId_eq_ok hid, optional_eq_ok (fun _ _ _ => string_eq_ok) hname,
    rel_mono (rel_optional hposition) fun _ _ => position_eq_ok, optional_eq_ok (fun _ _ _ => boolean_eq_ok) hexternal⟩

theorem link_eq_ok {v : Json} {path : Path} {l : Link} (h : link (some v) path = .ok l) : l.IsReadFrom v := by
  obtain ⟨members, hmembers, h⟩ := bind_eq_ok h
  obtain ⟨a, ha, h⟩ := bind_eq_ok h
  obtain ⟨b, hb, h⟩ := bind_eq_ok h
  obtain ⟨weight, hweight, h⟩ := bind_eq_ok h
  obtain ⟨reverseWeight, hreverseWeight, h⟩ := bind_eq_ok h
  cases h
  obtain rfl := object_eq_ok hmembers
  exact ⟨routerId_eq_ok ha, routerId_eq_ok hb, number_eq_ok hweight,
    optional_eq_ok (fun _ _ _ => number_eq_ok) hreverseWeight⟩

theorem session_eq_ok {v : Json} {path : Path} {s : Session} (h : session (some v) path = .ok s) : s.IsReadFrom v := by
  obtain ⟨members, hmembers, h⟩ := bind_eq_ok h
  obtain ⟨kind, hkind, h⟩ := bind_eq_ok h
  obtain ⟨source, hsource, h⟩ := bind_eq_ok h
  obtain ⟨destination, hdestination, h⟩ := bind_eq_ok h
  cases h
  obtain rfl := object_eq_ok hmembers
  obtain ⟨hname, hknown⟩ := sessionKind_eq_ok hkind
  exact ⟨routerId_eq_ok hsource, routerId_eq_ok hdestination, hname, hknown⟩

theorem strings_eq_ok {value : Option Json} {path : Path} {ss : List Text} (h : elements string value path = .ok ss) :
    value = some (.array (ss.map .string)) := by
  have hread : ∀ v path s, string (some v) path = .ok s → v = .string s :=
    fun _ _ _ hs => Option.some.inj (string_eq_ok hs)
  obtain ⟨v, rfl, vs, rfl, hvs⟩ := elements_eq_ok hread h
  rw [← map_eq_of_forall₂ hvs fun _ _ hw => hw, List.map_id']

/-! ## Distinct ids -/

/-- Where no duplicate is found, the ids differ from those seen before and from each other. -/
theorem pairwise_of_duplicate? {seen ids : List RouterId} {i : Nat} (h : duplicate? seen i ids = none) :
    (∀ id ∈ ids, ∀ other ∈ seen, ¬ id.Same other) ∧ ids.Pairwise fun a b => ¬ a.Same b := by
  induction ids generalizing seen i with
  | nil => exact ⟨List.forall_mem_nil _, .nil⟩
  | cons x ids ih =>
    rw [duplicate?] at h
    split at h
    · cases h
    · rename_i hx
      obtain ⟨hseen, hids⟩ := ih h
      refine ⟨List.forall_mem_cons.mpr ⟨?_, ?_⟩, List.pairwise_cons.mpr ⟨?_, hids⟩⟩
      · exact fun other hother hsame => hx ⟨other, hother, hsame⟩
      · exact fun id hid other hother => hseen id hid other (List.mem_cons_of_mem _ hother)
      · exact fun id hid hsame => hseen id hid x List.mem_cons_self hsame.symm

theorem distinctIds_eq_ok {routers : List Router} {path : Path} (h : distinctIds routers path = .ok ()) :
    routers.Pairwise fun a b => ¬ a.id.Same b.id := by
  unfold distinctIds at h
  split at h
  · cases h
  · rename_i hnone
    exact List.pairwise_map.mp (pairwise_of_duplicate? hnone).2

end Reader

/-! ## Snapshots -/

namespace Snapshot

theorem isReadFrom_of_snapshot {v : Json} {path : Path} {s : Snapshot} (h : Reader.snapshot (some v) path = .ok s)
    (hv : v.IsSpelled) : s.IsReadFrom v := by
  have hnextHops := rel_nextHops h hv
  have hpropagations := rel_propagations h hv
  obtain ⟨members, rfl, hparts⟩ := Reader.snapshot_eq_ok h
  refine ⟨Reader.elements_eq_ok (fun _ _ _ => Reader.router_eq_ok) hparts.routers,
    Reader.distinctIds_eq_ok hparts.distinct, Reader.elements_eq_ok (fun _ _ _ => Reader.link_eq_ok) hparts.links,
    Reader.strings_eq_ok hparts.prefixes, hnextHops, ?_, hpropagations⟩
  refine rel_mono (Reader.rel_optional hparts.sessions) fun w ss hw => ?_
  obtain ⟨v, hv, hss⟩ := Reader.elements_eq_ok (fun _ _ _ => Reader.session_eq_ok) hw
  cases hv
  exact hss

theorem isReadFrom_of_parse {text : Text} {s : Snapshot} (h : Snapshot.parse text = .ok s) :
    ∃ v, Grammar.Document text.toList v ∧ s.IsReadFrom v := by
  obtain ⟨v, hdocument, hread⟩ := exists_of_parse h
  exact ⟨v, hdocument, isReadFrom_of_snapshot hread hdocument.isSpelled⟩

namespace IsReadFrom

variable {s : Snapshot} {v : Json}

/-- A router is found by its id. -/
theorem router?_of_mem (h : s.IsReadFrom v) {r : Router} (hr : r ∈ s.routers) : s.router? r.id = some r := by
  cases hfound : s.router? r.id with
  | none =>
    have hnot := List.find?_eq_none.mp hfound r (List.mem_reverse.mpr hr)
    exact absurd (decide_eq_true (Binary64.Same.refl r.id)) hnot
  | some other =>
    have hsame : other.id.Same r.id := by simpa using List.find?_some hfound
    have hmem : other ∈ s.routers := List.mem_reverse.mp (List.mem_of_find?_eq_some hfound)
    have hsymm : Std.Symm fun a b : Router => ¬ a.id.Same b.id := ⟨fun _ _ hab hba => hab hba.symm⟩
    by_contra hne
    exact h.distinct.forall hmem hr (fun heq => hne (heq ▸ rfl)) hsame

theorem routerName_of_mem (h : s.IsReadFrom v) {r : Router} (hr : r ∈ s.routers) :
    s.model.routerName r.id = .ok r.name := by
  show Except.ok ((s.router? r.id).bind _) = _
  rw [h.router?_of_mem hr, Option.bind_some]

theorem routerPosition_of_mem (h : s.IsReadFrom v) {r : Router} (hr : r ∈ s.routers) :
    s.model.routerPosition r.id = .ok r.position := by
  show Except.ok ((s.router? r.id).bind _) = _
  rw [h.router?_of_mem hr, Option.bind_some]

theorem kind_of_mem (h : s.IsReadFrom v) {session : Session} (hsession : session ∈ s.sessions.getD []) :
    ∃ kind, SessionKind.ofName? session.kind = some kind := by
  have hsessions := h.sessions
  generalize v.member? "sessions" = w at hsessions
  generalize s.sessions = sessions at hsession hsessions
  cases hsessions with
  | none => cases hsession
  | some hss => exact hss.forall_mem (fun _ _ hw => hw.known) session hsession

end IsReadFrom

end Snapshot

end NetDiagram
