import NetDiagram.Proofs.Json.Sameness
import NetDiagram.Proofs.Snapshot.Parts
import NetDiagram.Snapshot.Writer

/-!
# The shape of what is read

A snapshot that was read from a text has ids of its own shape, kinds that are
known, and records without a key twice. Each reader ensures its part of this,
and the details of propagations have distinct keys because the text spells them.
-/

namespace NetDiagram

/-! ## Values that a text spells -/

theorem Grammar.Elements.spelled {cs : List CodeUnit} {vs : List Json} (h : Grammar.Elements cs vs) :
    ∀ v ∈ vs, v.IsSpelled := by
  induction vs generalizing cs with
  | nil => cases h
  | cons v vs ih =>
    cases h with
    | one _ hv _ => exact List.forall_mem_singleton.mpr ⟨_, hv⟩
    | more _ hv _ hvs => exact List.forall_mem_cons.mpr ⟨⟨_, hv⟩, ih hvs⟩

namespace Json

theorem IsSpelled.element {vs : List Json} {v : Json} (h : IsSpelled (.array vs)) (hv : v ∈ vs) : v.IsSpelled := by
  obtain ⟨cs, hcs⟩ := h
  cases hcs with
  | emptyArray _ => cases hv
  | array hvs => exact hvs.spelled v hv

theorem IsSpelled.value {ms : Members Json} {key : Text} {v : Json} (h : IsSpelled (.object ms))
    (hv : (key, v) ∈ ms) : v.IsSpelled :=
  h.member (Members.get?_of_mem h.nodup_keys hv)

theorem IsSpelled.within {u v : Json} (h : v.IsSpelled) (hu : Within u v) : u.IsSpelled := by
  induction hu with
  | self => exact h
  | element hv _ ih => exact ih (h.element hv)
  | member hv _ ih => exact ih (h.value hv)

theorem IsSpelled.hasDistinctKeys {v : Json} (h : v.IsSpelled) : v.HasDistinctKeys :=
  fun _ hms => (h.within hms).nodup_keys

end Json

/-! ## Readers -/

namespace Reader

section
variable {α : Type} {read : Reader α} {p : α → Prop}

/-- What is read from a value that a text spells has the property. -/
def Ensures (read : Reader α) (p : α → Prop) : Prop :=
  ∀ value path a, (∀ v ∈ value, Json.IsSpelled v) → read value path = .ok a → p a

theorem ensures_elements (h : Ensures read p) : Ensures (elements read) fun as => ∀ a ∈ as, p a := by
  intro value path as hvalue has
  obtain ⟨vs, hvs, hmap⟩ := bind_eq_ok has
  unfold array at hvs
  split at hvs <;> cases hvs
  refine forall_mem_mapM hmap fun x hx a ha => h _ _ a (fun v hv => ?_) ha
  obtain rfl := Option.some.inj hv
  exact (hvalue _ rfl).element (List.fst_mem_of_mem_zipIdx hx)

/-- The keys that are read are those of the object, so they stay different. -/
theorem ensures_entries (h : Ensures read p) :
    Ensures (entries read) fun as => (as.map Prod.fst).Nodup ∧ ∀ m ∈ as, p m.2 := by
  intro value path as hvalue has
  obtain ⟨ms, hms, hmap⟩ := bind_eq_ok has
  unfold object at hms
  split at hms <;> cases hms
  have hspelled := hvalue _ rfl
  have hperm := Members.inOrder_perm ms
  constructor
  · have hkeys : (Members.inOrder ms).map Prod.fst = as.map Prod.fst := by
      refine map_of_mapM (fun m b hb => ?_) hmap
      obtain ⟨a, -, hb⟩ := bind_eq_ok hb
      cases hb
      rfl
    rw [← hkeys]
    exact (hperm.map Prod.fst).nodup_iff.mpr hspelled.nodup_keys
  · refine forall_mem_mapM hmap fun m hm b hb => ?_
    obtain ⟨a, ha, hb⟩ := bind_eq_ok hb
    cases hb
    refine h _ _ a (fun v hv => ?_) ha
    obtain rfl := Option.some.inj hv
    exact hspelled.value (hperm.mem_iff.mp hm)

theorem ensures_object {next : Members Json → Path → Except SnapshotError α}
    (h : ∀ ms path a, Json.IsSpelled (.object ms) → next ms path = .ok a → p a) :
    Ensures (fun value path => do next (← object value path) path) p := by
  intro value path a hvalue ha
  obtain ⟨ms, hms, ha⟩ := bind_eq_ok ha
  unfold object at hms
  split at hms <;> cases hms
  exact h _ path a (hvalue _ rfl) ha

variable {ms : Members Json} (hms : Json.IsSpelled (.object ms)) {field : Field} {path : Path}
include hms

theorem Ensures.required (h : Ensures read p) {a : α} (ha : required read field ms path = .ok a) : p a :=
  h _ _ a (fun _ hv => hms.member hv) ha

theorem Ensures.optional (h : Ensures read p) {o : Option α} (ho : optional read field ms path = .ok o) :
    ∀ a ∈ o, p a := by
  rintro a rfl
  have hrel := rel_optional ho
  cases hv : Members.get? field.key ms with
  | none =>
    rw [hv] at hrel
    cases hrel
  | some v =>
    rw [hv] at hrel
    cases hrel with
    | some ha => exact h _ _ a (fun w hw => Option.some.inj hw ▸ hms.member hv) ha

end

theorem ensures_routerId : Ensures routerId Binary64.IsNatural := by
  intro value path id _ h
  unfold routerId at h
  split at h
  · split at h <;> cases h
    assumption
  · cases h

theorem ensures_sessionKind : Ensures sessionKind fun name => ∃ kind, SessionKind.ofName? name = some kind :=
  fun _ _ _ _ h => (sessionKind_eq_ok h).2

theorem ensures_router : Ensures router fun r => r.id.IsNatural := by
  refine ensures_object fun ms path r hms h => ?_
  obtain ⟨id, hid, h⟩ := bind_eq_ok h
  obtain ⟨name, hname, h⟩ := bind_eq_ok h
  obtain ⟨position, hposition, h⟩ := bind_eq_ok h
  obtain ⟨external, hexternal, h⟩ := bind_eq_ok h
  cases h
  exact ensures_routerId.required hms hid

theorem ensures_link : Ensures link fun l => l.a.IsNatural ∧ l.b.IsNatural := by
  refine ensures_object fun ms path l hms h => ?_
  obtain ⟨a, ha, h⟩ := bind_eq_ok h
  obtain ⟨b, hb, h⟩ := bind_eq_ok h
  obtain ⟨weight, hweight, h⟩ := bind_eq_ok h
  obtain ⟨reverseWeight, hreverseWeight, h⟩ := bind_eq_ok h
  cases h
  exact ⟨ensures_routerId.required hms ha, ensures_routerId.required hms hb⟩

theorem ensures_session : Ensures session fun s =>
    s.source.IsNatural ∧ s.destination.IsNatural ∧ ∃ kind, SessionKind.ofName? s.kind = some kind := by
  refine ensures_object fun ms path s hms h => ?_
  obtain ⟨kind, hkind, h⟩ := bind_eq_ok h
  obtain ⟨source, hsource, h⟩ := bind_eq_ok h
  obtain ⟨destination, hdestination, h⟩ := bind_eq_ok h
  cases h
  exact ⟨ensures_routerId.required hms hsource, ensures_routerId.required hms hdestination,
    ensures_sessionKind.required hms hkind⟩

theorem ensures_propagation : Ensures propagation fun p =>
    p.source.IsNatural ∧ p.destination.IsNatural ∧ ∀ v ∈ p.detail, v.HasDistinctKeys := by
  refine ensures_object fun ms path p hms h => ?_
  obtain ⟨source, hsource, h⟩ := bind_eq_ok h
  obtain ⟨destination, hdestination, h⟩ := bind_eq_ok h
  cases h
  exact ⟨ensures_routerId.required hms hsource, ensures_routerId.required hms hdestination,
    fun v hv => (hms.member hv).hasDistinctKeys⟩

end Reader

/-! ## Keys of what is written -/

@[simp]
theorem get?_member (field : Field) (key : Text) (value : Option Json) :
    Members.get? key (field.member value) = if field.key = key then value else none := by
  cases value with
  | none => simp [Field.member, Members.get?]
  | some v => rfl

theorem hasDistinctKeys_ofMembers_iff {α : Type} {write : α → Json} {ms : Members α} :
    (Json.ofMembers write ms).HasDistinctKeys ↔
      (ms.map Prod.fst).Nodup ∧ ∀ m ∈ ms, (write m.2).HasDistinctKeys := by
  rw [Json.ofMembers, Json.hasDistinctKeys_object_iff, List.map_map, List.forall_mem_map]
  rfl

theorem Position.hasDistinctKeys (p : Position) : p.toJson.HasDistinctKeys := by
  simp [toJson, Field.key]

theorem Router.hasDistinctKeys (r : Router) : r.toJson.HasDistinctKeys := by
  obtain ⟨id, _ | name, _ | position, _ | external⟩ := r <;>
    simp [toJson, Field.member, Field.key, Position.hasDistinctKeys]

theorem Link.hasDistinctKeys (l : Link) : l.toJson.HasDistinctKeys := by
  obtain ⟨a, b, weight, _ | reverseWeight⟩ := l <;> simp [toJson, Field.member, Field.key]

theorem Session.hasDistinctKeys (s : Session) : s.toJson.HasDistinctKeys := by
  simp [toJson, Field.key]

theorem Propagation.hasDistinctKeys {p : Propagation} (h : ∀ v ∈ p.detail, v.HasDistinctKeys) :
    p.toJson.HasDistinctKeys := by
  obtain ⟨source, destination, _ | detail⟩ := p
  · simp [toJson, Field.member, Field.key]
  · simp [toJson, Field.member, Field.key, h]

namespace Snapshot

structure IsProper (s : Snapshot) : Prop where
  ids : ∀ r ∈ s.routers, r.id.IsNatural
  distinct : s.routers.Pairwise fun a b => ¬ a.id.Same b.id
  links : ∀ l ∈ s.links, l.a.IsNatural ∧ l.b.IsNatural
  hops : ∀ rows ∈ s.nextHops, ∀ row ∈ rows, ∀ entry ∈ row.2, ∀ id ∈ entry.2, id.IsNatural
  sessions : ∀ ss ∈ s.sessions, ∀ x ∈ ss, x.source.IsNatural ∧ x.destination.IsNatural ∧
    ∃ kind, SessionKind.ofName? x.kind = some kind
  propagations : ∀ rows ∈ s.propagations, ∀ row ∈ rows, ∀ p ∈ row.2, p.source.IsNatural ∧ p.destination.IsNatural
  keys : s.toJson.HasDistinctKeys

variable {s : Snapshot}

theorem hasDistinctKeys
    (hhops : ∀ rows ∈ s.nextHops, (rows.map Prod.fst).Nodup ∧ ∀ row ∈ rows, (row.2.map Prod.fst).Nodup)
    (hpropagations : ∀ rows ∈ s.propagations, (rows.map Prod.fst).Nodup ∧
      ∀ row ∈ rows, ∀ p ∈ row.2, ∀ v ∈ p.detail, v.HasDistinctKeys) : s.toJson.HasDistinctKeys := by
  have hwrittenHops : ∀ rows ∈ s.nextHops,
      (Json.ofMembers (Json.ofMembers fun ids => .array (ids.map .number)) rows).HasDistinctKeys := by
    intro rows hrows
    refine hasDistinctKeys_ofMembers_iff.mpr ⟨(hhops rows hrows).1, fun row hrow => ?_⟩
    exact hasDistinctKeys_ofMembers_iff.mpr ⟨(hhops rows hrows).2 row hrow, by simp⟩
  have hwrittenPropagations : ∀ rows ∈ s.propagations,
      (Json.ofMembers (fun ps => .array (ps.map Propagation.toJson)) rows).HasDistinctKeys := by
    intro rows hrows
    refine hasDistinctKeys_ofMembers_iff.mpr ⟨(hpropagations rows hrows).1, fun row hrow => ?_⟩
    rw [Json.hasDistinctKeys_array_iff, List.forall_mem_map]
    exact fun p hp => Propagation.hasDistinctKeys ((hpropagations rows hrows).2 row hrow p hp)
  clear hhops hpropagations
  obtain ⟨routers, links, prefixes, _ | hops, _ | sessions, _ | propagations⟩ := s <;>
    simp_all [toJson, Field.member, Field.key, Router.hasDistinctKeys, Link.hasDistinctKeys, Session.hasDistinctKeys]

theorem isProper_of_snapshot {v : Json} {path : Path} (hv : v.IsSpelled) (h : Reader.snapshot (some v) path = .ok s) :
    s.IsProper := by
  obtain ⟨ms, rfl, hparts⟩ := Reader.snapshot_eq_ok h
  have hops := (Reader.ensures_entries (Reader.ensures_entries
    (Reader.ensures_elements Reader.ensures_routerId))).optional hv hparts.nextHops
  have propagations := (Reader.ensures_entries
    (Reader.ensures_elements Reader.ensures_propagation)).optional hv hparts.propagations
  refine ⟨(Reader.ensures_elements Reader.ensures_router).required hv hparts.routers,
    Reader.distinctIds_eq_ok hparts.distinct, (Reader.ensures_elements Reader.ensures_link).required hv hparts.links,
    ?_, (Reader.ensures_elements Reader.ensures_session).optional hv hparts.sessions, ?_, ?_⟩
  · exact fun rows hrows row hrow entry hentry => ((hops rows hrows).2 row hrow).2 entry hentry
  · intro rows hrows row hrow p hp
    obtain ⟨hsource, hdestination, -⟩ := (propagations rows hrows).2 row hrow p hp
    exact ⟨hsource, hdestination⟩
  · refine hasDistinctKeys (fun rows hrows => ⟨(hops rows hrows).1, ?_⟩)
      fun rows hrows => ⟨(propagations rows hrows).1, ?_⟩
    · exact fun row hrow => ((hops rows hrows).2 row hrow).1
    · exact fun row hrow p hp => ((propagations rows hrows).2 row hrow p hp).2.2

/-- What has been read from a text is proper. -/
theorem isProper_of_parse {text : Text} (h : Snapshot.parse text = .ok s) : s.IsProper := by
  obtain ⟨v, hdocument, hread⟩ := exists_of_parse h
  exact isProper_of_snapshot hdocument.isSpelled hread

end Snapshot

end NetDiagram
