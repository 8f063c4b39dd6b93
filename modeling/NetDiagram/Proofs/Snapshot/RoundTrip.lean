import NetDiagram.Proofs.Json.Writing
import NetDiagram.Proofs.Snapshot.Proper

/-!
# Writing and reading a snapshot

A snapshot of the shape that is read comes back from its own text: every list in
its order, every optional part present exactly when it was, every record with
the same keys and values. Only the order in which a record holds its keys may
change.
-/

namespace NetDiagram

/-! ## Snapshots but for the order of their records -/

structure Propagation.Same (p q : Propagation) : Prop where
  source : p.source = q.source
  destination : p.destination = q.destination
  detail : Option.Rel Json.Same p.detail q.detail

namespace Snapshot

structure Same (s t : Snapshot) : Prop where
  routers : s.routers = t.routers
  links : s.links = t.links
  prefixes : s.prefixes = t.prefixes
  nextHops : Option.Rel (Members.SameEntries (Members.SameEntries Eq)) s.nextHops t.nextHops
  sessions : s.sessions = t.sessions
  propagations : Option.Rel (Members.SameEntries (List.Forall₂ Propagation.Same)) s.propagations t.propagations

end Snapshot

namespace Snapshot.IsProper

variable {s : Snapshot} (h : s.IsProper)
include h

theorem nextHops_hasDistinctKeys {rows : Members (Members (List RouterId))} (hrows : rows ∈ s.nextHops) :
    (Json.ofMembers (Json.ofMembers fun ids => .array (ids.map .number)) rows).HasDistinctKeys :=
  Json.HasDistinctKeys.value h.keys Field.nextHops.key (by simp [Option.mem_def.mp hrows, Field.key])

theorem propagations_hasDistinctKeys {rows : Members (List Propagation)} (hrows : rows ∈ s.propagations) :
    (Json.ofMembers (fun ps => .array (ps.map Propagation.toJson)) rows).HasDistinctKeys :=
  Json.HasDistinctKeys.value h.keys Field.propagations.key (by simp [Option.mem_def.mp hrows, Field.key])

end Snapshot.IsProper

/-! ## Readers recover what was written -/

namespace Reader

section
variable {α : Type} {read : Reader α} {R : α → α → Prop} {write : α → Json}

/-- From every value that is the same as the one given, the reader reads a part that is related to the one given. -/
def Recovers (read : Reader α) (R : α → α → Prop) (v : Json) (a : α) : Prop :=
  ∀ w path, v.Same w → ∃ b, read (some w) path = .ok b ∧ R a b

theorem recovers_string (s : Text) : Recovers string Eq (.string s) s := by
  rintro w path ⟨⟩
  exact ⟨s, rfl, rfl⟩

theorem recovers_number (x : Binary64) : Recovers number Eq (.number x) x := by
  rintro w path ⟨⟩
  exact ⟨x, rfl, rfl⟩

theorem recovers_boolean (b : Bool) : Recovers boolean Eq (.bool b) b := by
  rintro w path ⟨⟩
  exact ⟨b, rfl, rfl⟩

theorem recovers_routerId {id : RouterId} (h : id.IsNatural) : Recovers routerId Eq (.number id) id := by
  rintro w path ⟨⟩
  exact ⟨id, if_pos h, rfl⟩

theorem recovers_sessionKind {name : Text} (h : ∃ kind, SessionKind.ofName? name = some kind) :
    Recovers sessionKind Eq (.string name) name := by
  rintro w path ⟨⟩
  exact ⟨name, if_pos (Option.isSome_iff_exists.mpr h), rfl⟩

theorem mapM_zipIdx {as : List α} {ws : List Json}
    (h : List.Forall₂ (fun a w => ∀ path, ∃ b, read (some w) path = .ok b ∧ R a b) as ws) (path : Path) (start : Nat) :
    ∃ bs, (ws.zipIdx start).mapM (fun (element, i) => read (some element) (path.index i)) = .ok bs ∧
      List.Forall₂ R as bs := by
  induction h generalizing start with
  | nil => exact ⟨[], rfl, .nil⟩
  | cons hread _ ih =>
    obtain ⟨b, hb, hab⟩ := hread (path.index start)
    obtain ⟨bs, hbs, habs⟩ := ih (start + 1)
    exact ⟨b :: bs, mapM_cons_ok hb hbs, .cons hab habs⟩

theorem recovers_elements {as : List α} (h : ∀ a ∈ as, Recovers read R (write a) a) :
    Recovers (elements read) (List.Forall₂ R) (.array (as.map write)) as := by
  intro w path hsame
  obtain ⟨ws, rfl, hws⟩ := Json.same_array_iff.mp hsame
  have hread := (List.forall₂_and_left as ws).mpr ⟨h, List.forall₂_map_left_iff.mp hws⟩
  exact mapM_zipIdx (hread.imp fun a w ha path => ha.1 w path ha.2) path 0

theorem recovers_entries {as : Members α} (hn : (as.map Prod.fst).Nodup)
    (h : ∀ key a, (key, a) ∈ as → Recovers read R (write a) a) :
    Recovers (entries read) (Members.SameEntries R) (Json.ofMembers write as) as := by
  intro w path hsame
  obtain ⟨ns, rfl, hns⟩ := Json.same_object_iff.mp hsame
  have hparts := hns.of_map.mono (T := fun a v => ∀ path, ∃ b, read (some v) path = .ok b ∧ R a b)
    fun key a v ha hv path => h key a ha v path hv
  have hperm := Members.inOrder_perm ns
  have hnodup : (ns.map Prod.fst).Nodup := hparts.keys.nodup_iff.mp hn
  have hread : ∀ m ∈ Members.inOrder ns, ∃ p : Text × α, m.1 = p.1 ∧
      read (some m.2) (path.key m.1) = .ok p.2 := by
    rintro ⟨key, v⟩ hm
    obtain ⟨a, -, ha⟩ := hparts.exists_of_mem hnodup (hperm.mem_iff.mp hm)
    obtain ⟨b, hb, -⟩ := ha (path.key key)
    exact ⟨(key, b), rfl, hb⟩
  obtain ⟨bs, hbs⟩ := exists_forall₂ hread
  refine ⟨bs, mapM_of_forall₂ (hbs.imp fun m p hp => ?_), ?_⟩
  · obtain ⟨key, b⟩ := p
    obtain ⟨rfl, hb⟩ := hp
    show (do return (m.1, ← read (some m.2) (path.key m.1)) : Except SnapshotError (Text × α)) = _
    rw [hb]
    rfl
  · -- what is read stands in the order of visit, which the relation does not look at
    have hordered := hparts.trans (Members.sameEntries_of_perm hperm.symm hnodup)
    have hparsed := Members.sameEntries_of_forall₂ (R := fun v b => ∃ path, read (some v) path = .ok b)
      (hbs.imp fun m p hp => ⟨hp.1, _, hp.2⟩)
    refine (hordered.trans hparsed).mono ?_
    rintro key a b - ⟨v, ⟨u, ha, rfl⟩, path, hb⟩
    obtain ⟨b', hb', hab⟩ := ha path
    obtain rfl := Except.ok.inj (hb.symm.trans hb')
    exact hab

theorem recovers_list {as : List α} (h : ∀ a ∈ as, Recovers read Eq (write a) a) :
    Recovers (elements read) Eq (.array (as.map write)) as := by
  intro w path hsame
  obtain ⟨bs, hbs, hrel⟩ := recovers_elements h w path hsame
  rw [List.forall₂_eq_eq_eq] at hrel
  exact ⟨bs, hbs, hrel⟩

end

/-! ## Fields -/

section
variable {α : Type} {read : Reader α} {R : α → α → Prop} {write : α → Json} {field : Field} {ms ns : Members Json}
  (hsame : Members.SameEntries Json.Same ms ns) (path : Path)
include hsame

theorem required_recovers {v : Json} {a : α} (hv : ms.get? field.key = some v) (h : Recovers read Eq v a) :
    required read field ns path = .ok a := by
  have hrel := hsame.rel field.key
  rw [hv] at hrel
  rw [required]
  generalize Members.get? field.key ns = w at hrel
  cases hrel with
  | some hvw =>
    obtain ⟨b, hb, rfl⟩ := h _ (path.field field) hvw
    exact hb

theorem optional_recovers {o : Option α} (hv : ms.get? field.key = o.map write)
    (h : ∀ a ∈ o, Recovers read R (write a) a) :
    ∃ b, optional read field ns path = .ok b ∧ Option.Rel R o b := by
  have hrel := hsame.rel field.key
  rw [hv] at hrel
  rw [optional]
  generalize Members.get? field.key ns = w at hrel
  cases o with
  | none =>
    cases hrel
    exact ⟨none, rfl, .none⟩
  | some a =>
    cases hrel with
    | some hvw =>
      obtain ⟨b, hb, hab⟩ := h a rfl _ (path.field field) hvw
      refine ⟨some b, ?_, .some hab⟩
      dsimp only
      rw [hb]
      rfl

theorem optional_recovers_eq {o : Option α} (hv : ms.get? field.key = o.map write)
    (h : ∀ a ∈ o, Recovers read Eq (write a) a) : optional read field ns path = .ok o := by
  obtain ⟨b, hb, hrel⟩ := optional_recovers hsame path hv h
  cases hrel with
  | none => exact hb
  | some hab => exact hab ▸ hb

end

/-! ## Parts -/

theorem recovers_position (p : Position) : Recovers position Eq p.toJson p := by
  intro w path hsame
  obtain ⟨ns, rfl, hns⟩ := Json.same_object_iff.mp hsame
  have hx : required number .x ns path = .ok p.x := required_recovers hns path rfl (recovers_number p.x)
  have hy : required number .y ns path = .ok p.y := required_recovers hns path rfl (recovers_number p.y)
  refine ⟨p, ?_, rfl⟩
  simp only [position, object, bind, Except.bind, hx, hy]
  rfl

theorem recovers_router {r : Router} (h : r.id.IsNatural) : Recovers router Eq r.toJson r := by
  intro w path hsame
  obtain ⟨ns, rfl, hns⟩ := Json.same_object_iff.mp hsame
  have hid : required routerId .id ns path = .ok r.id :=
    required_recovers hns path (by simp [Field.key]) (recovers_routerId h)
  have hname : optional string .name ns path = .ok r.name :=
    optional_recovers_eq hns path (by simp [Field.key]) fun s _ => recovers_string s
  have hposition : optional position .position ns path = .ok r.position :=
    optional_recovers_eq hns path (by simp [Field.key])
      fun p _ => recovers_position p
  have hexternal : optional boolean .external ns path = .ok r.external :=
    optional_recovers_eq hns path (by simp [Field.key])
      fun b _ => recovers_boolean b
  refine ⟨r, ?_, rfl⟩
  simp only [router, object, bind, Except.bind, hid, hname, hposition, hexternal]
  rfl

theorem recovers_link {l : Link} (ha : l.a.IsNatural) (hb : l.b.IsNatural) : Recovers link Eq l.toJson l := by
  intro w path hsame
  obtain ⟨ns, rfl, hns⟩ := Json.same_object_iff.mp hsame
  have ha : required routerId .a ns path = .ok l.a :=
    required_recovers hns path (by simp [Field.key]) (recovers_routerId ha)
  have hb : required routerId .b ns path = .ok l.b :=
    required_recovers hns path (by simp [Field.key]) (recovers_routerId hb)
  have hweight : required number .weight ns path = .ok l.weight :=
    required_recovers hns path (by simp [Field.key]) (recovers_number l.weight)
  have hreverse : optional number .reverseWeight ns path = .ok l.reverseWeight :=
    optional_recovers_eq hns path (by simp [Field.key]) fun x _ => recovers_number x
  refine ⟨l, ?_, rfl⟩
  simp only [link, object, bind, Except.bind, ha, hb, hweight, hreverse]
  rfl

theorem recovers_session {s : Session} (hsource : s.source.IsNatural) (hdestination : s.destination.IsNatural)
    (hkind : ∃ kind, SessionKind.ofName? s.kind = some kind) : Recovers session Eq s.toJson s := by
  intro w path hsame
  obtain ⟨ns, rfl, hns⟩ := Json.same_object_iff.mp hsame
  have hsource : required routerId .source ns path = .ok s.source :=
    required_recovers hns path rfl (recovers_routerId hsource)
  have hdestination : required routerId .destination ns path = .ok s.destination :=
    required_recovers hns path rfl (recovers_routerId hdestination)
  have hkind : required sessionKind .kind ns path = .ok s.kind :=
    required_recovers hns path rfl (recovers_sessionKind hkind)
  refine ⟨s, ?_, rfl⟩
  simp only [session, object, bind, Except.bind, hsource, hdestination, hkind]
  rfl

theorem recovers_propagation {p : Propagation} (hsource : p.source.IsNatural) (hdestination : p.destination.IsNatural) :
    Recovers propagation Propagation.Same p.toJson p := by
  intro w path hsame
  obtain ⟨ns, rfl, hns⟩ := Json.same_object_iff.mp hsame
  have hsource : required routerId .source ns path = .ok p.source :=
    required_recovers hns path (by simp [Field.key]) (recovers_routerId hsource)
  have hdestination : required routerId .destination ns path = .ok p.destination :=
    required_recovers hns path (by simp [Field.key]) (recovers_routerId hdestination)
  -- the detail is kept as it was read, so its members may stand in another order
  have hdetail := hns.rel Field.detail.key
  have hwritten : Members.get? Field.detail.key (Field.source.member (some (.number p.source)) ++
      Field.destination.member (some (.number p.destination)) ++ Field.detail.member p.detail) = p.detail := by
    simp [Members.get?_append, get?_member, Field.key]
  rw [hwritten] at hdetail
  refine ⟨⟨p.source, p.destination, Members.get? Field.detail.key ns⟩, ?_, rfl, rfl, hdetail⟩
  simp only [propagation, object, bind, Except.bind, hsource, hdestination]
  rfl

theorem duplicate?_eq_none {seen ids : List RouterId} {i : Nat} (hseen : ∀ id ∈ ids, ∀ other ∈ seen, ¬ id.Same other)
    (h : ids.Pairwise fun a b => ¬ a.Same b) : duplicate? seen i ids = none := by
  induction ids generalizing seen i with
  | nil => rfl
  | cons id ids ih =>
    rw [List.forall_mem_cons] at hseen
    obtain ⟨hid, hids⟩ := List.pairwise_cons.mp h
    have hnew : ¬ ∃ other ∈ seen, id.Same other := fun ⟨other, hother, hsame⟩ => hseen.1 other hother hsame
    rw [duplicate?, if_neg hnew]
    refine ih (fun x hx => List.forall_mem_cons.mpr ⟨fun hsame => hid x hx hsame.symm, hseen.2 x hx⟩) hids

theorem distinctIds_of_pairwise {routers : List Router} (h : routers.Pairwise fun a b => ¬ a.id.Same b.id)
    (path : Path) : distinctIds routers path = .ok () := by
  rw [distinctIds, duplicate?_eq_none (fun _ _ => List.forall_mem_nil _) (List.pairwise_map.mpr h)]

/-- A written snapshot is read back but for the order of entries, whatever the order of members in its text. -/
theorem recovers_snapshot {s : Snapshot} (h : s.IsProper) : Recovers snapshot Snapshot.Same s.toJson s := by
  intro w path hsame
  obtain ⟨ns, rfl, hns⟩ := Json.same_object_iff.mp hsame
  have hrouters : required (elements router) .routers ns path = .ok s.routers :=
    required_recovers hns path (by simp [Field.key])
      (recovers_list fun r hr => recovers_router (h.ids r hr))
  have hlinks : required (elements link) .links ns path = .ok s.links :=
    required_recovers hns path (by simp [Field.key])
      (recovers_list fun l hl => recovers_link (h.links l hl).1 (h.links l hl).2)
  have hprefixes : required (elements string) .prefixes ns path = .ok s.prefixes :=
    required_recovers hns path (by simp [Field.key])
      (recovers_list fun s _ => recovers_string s)
  have hsessions : optional (elements session) .sessions ns path = .ok s.sessions :=
    optional_recovers_eq hns path (by simp [Field.key]) fun ss hss =>
      recovers_list fun x hx =>
        recovers_session (h.sessions ss hss x hx).1 (h.sessions ss hss x hx).2.1 (h.sessions ss hss x hx).2.2
  obtain ⟨nextHops, hnextHops, hsameHops⟩ : ∃ rows,
      optional (entries (entries (elements routerId))) .nextHops ns path = .ok rows ∧
        Option.Rel (Members.SameEntries (Members.SameEntries Eq)) s.nextHops rows :=
    optional_recovers hns path (by simp [Field.key]) fun rows hrows =>
      have hkeys := hasDistinctKeys_ofMembers_iff.mp (h.nextHops_hasDistinctKeys hrows)
      recovers_entries hkeys.1 fun key row hrow =>
        recovers_entries (hasDistinctKeys_ofMembers_iff.mp (hkeys.2 _ hrow)).1 fun router ids hids =>
          recovers_list fun id hid => recovers_routerId (h.hops rows hrows _ hrow _ hids id hid)
  obtain ⟨propagations, hpropagations, hsamePropagations⟩ : ∃ rows,
      optional (entries (elements propagation)) .propagations ns path = .ok rows ∧
        Option.Rel (Members.SameEntries (List.Forall₂ Propagation.Same)) s.propagations rows :=
    optional_recovers hns path (by simp [Field.key]) fun rows hrows =>
      have hkeys := hasDistinctKeys_ofMembers_iff.mp (h.propagations_hasDistinctKeys hrows)
      recovers_entries hkeys.1 fun key ps hps => recovers_elements fun p hp =>
        recovers_propagation (h.propagations rows hrows _ hps p hp).1 (h.propagations rows hrows _ hps p hp).2
  refine ⟨⟨s.routers, s.links, s.prefixes, nextHops, s.sessions, propagations⟩, ?_,
    ⟨rfl, rfl, rfl, hsameHops, rfl, hsamePropagations⟩⟩
  simp only [snapshot, object, bind, Except.bind, hrouters, distinctIds_of_pairwise h.distinct, hlinks, hprefixes,
    hnextHops, hsessions, hpropagations]
  rfl

end Reader
/-! ## Round trips -/

namespace Snapshot

variable {s : Snapshot}

/-- The objects of the text may hold their members in any order. -/
theorem IsProper.parse_render (h : s.IsProper) (hnumbers : s.toJson.HasPlainNumbers) {v : Json}
    (hv : s.toJson.Same v) : ∃ t, Snapshot.parse v.render = .ok t ∧ s.Same t := by
  obtain ⟨w, hw, hsame⟩ := Json.parse?_render (hv.hasPlainNumbers h.keys hnumbers) (hv.hasDistinctKeys h.keys)
  obtain ⟨t, ht, hst⟩ := Reader.recovers_snapshot h w .root (hv.trans hsame)
  refine ⟨t, ?_, hst⟩
  rw [Snapshot.parse, hw]
  exact ht

/-- A snapshot of the shape that is read, with numbers that have a text of their own, comes back from its text, also
when the text holds the members of its objects in another order. So does every snapshot that was read. -/
theorem parse_written :
    (∀ s : Snapshot, s.IsProper → s.toJson.HasPlainNumbers →
      (∃ t, Snapshot.parse s.text = .ok t ∧ s.Same t) ∧
        ∀ v, s.toJson.Same v → ∃ t, Snapshot.parse v.render = .ok t ∧ s.Same t) ∧
      ∀ (text : Text) (s : Snapshot), Snapshot.parse text = .ok s → s.toJson.HasPlainNumbers →
        ∃ t, Snapshot.parse s.text = .ok t ∧ s.Same t :=
  ⟨fun _ h hnumbers => ⟨h.parse_render hnumbers (.refl _), fun _ => h.parse_render hnumbers⟩,
    fun _ _ h hnumbers => (isProper_of_parse h).parse_render hnumbers (.refl _)⟩

end Snapshot

def peculiarSnapshot : Snapshot where
  routers := [⟨largeId, some ("a\n\\" ++ .surrogate 0), some ⟨.half, .one⟩, some true⟩, ⟨.zero false, none, none, none⟩]
  links := [⟨.zero false, largeId, .half, none⟩, ⟨.one, .one, .one, some .half⟩]
  prefixes := ["__proto__", "10", "__proto__"]
  nextHops := some [(.surrogate 1, []), ("10", [("1e+21", [.zero false]), ("0", [])]), ("__proto__", [("0", [.one])])]
  sessions := some [⟨.zero false, .one, "ibgp-peer"⟩]
  propagations := some [("__proto__", [⟨.zero false, .one, some (.object [("x\"", .array [.null, .bool true]),
    ("7", .object []), ("", .number .half)])⟩, ⟨.one, .zero false, none⟩])]

theorem parse_written_peculiar :
    peculiarSnapshot.IsProper ∧ peculiarSnapshot.toJson.HasPlainNumbers ∧
      ∃ t, Snapshot.parse peculiarSnapshot.text = .ok t ∧ peculiarSnapshot.Same t := by
  have hproper : peculiarSnapshot.IsProper := by
    refine ⟨by decide +kernel, by decide +kernel, by decide +kernel, ?_, ?_, ?_, Snapshot.hasDistinctKeys ?_ ?_⟩
    · rintro rows ⟨⟩
      decide +kernel
    · rintro ss ⟨⟩ x hx
      obtain rfl := List.mem_singleton.mp hx
      exact ⟨by decide +kernel, by decide +kernel, .ibgpPeer, by decide⟩
    · rintro rows ⟨⟩
      decide +kernel
    · rintro rows ⟨⟩
      decide +kernel
    · rintro rows ⟨⟩
      simp [Json.HasDistinctKeys]
  have hnumbers : peculiarSnapshot.toJson.HasPlainNumbers := by
    intro x hx
    have hmem : x ∈ [largeId, .half, .one, .zero false] := by
      simp [peculiarSnapshot, Snapshot.toJson, Router.toJson, Position.toJson, Link.toJson, Session.toJson,
        Propagation.toJson, Json.ofMembers, Field.member] at hx
      simp
      tauto
    have hall : ∀ x ∈ [largeId, .half, .one, .zero false], x.isFinite ∧ x ≠ .zero true := by decide +kernel
    exact hall x hmem
  exact ⟨hproper, hnumbers, (Snapshot.parse_written.1 peculiarSnapshot hproper hnumbers).1⟩

end NetDiagram
