import NetDiagram.Proofs.Json.Paths
import NetDiagram.Proofs.Results
import NetDiagram.Snapshot.Reader

/-!
# Looking up in a snapshot

The next hops and the propagations of a snapshot are found under exactly the
keys that stand in its text, whatever the keys are. What is found is what stands
at the last place of a key.
-/

namespace NetDiagram

/-! ## Values that a text spells -/

/-- Such values have no key twice in an object. -/
def Json.IsSpelled (v : Json) : Prop :=
  ∃ cs, Grammar.Value cs v

theorem Json.IsSpelled.member {v w : Json} {key : Text} (h : v.IsSpelled) (hw : v.member? key = some w) :
    w.IsSpelled := by
  obtain ⟨cs, hcs⟩ := h
  obtain ⟨ds, -, hds⟩ := hcs.under hw
  exact ⟨ds, hds⟩

theorem Json.IsSpelled.nodup_keys {members : Members Json} (h : Json.IsSpelled (.object members)) :
    (members.map Prod.fst).Nodup := by
  obtain ⟨cs, hcs⟩ := h
  exact hcs.nodup_keys

theorem Grammar.Document.isSpelled {cs : List CodeUnit} {v : Json} (h : Grammar.Document cs v) : v.IsSpelled := by
  cases h with
  | value _ hv _ => exact ⟨_, hv⟩

/-- A snapshot is read from the value that its text spells. -/
theorem Snapshot.exists_of_parse {text : Text} {s : Snapshot} (h : Snapshot.parse text = .ok s) :
    ∃ v, Grammar.Document text.toList v ∧ Reader.snapshot (some v) .root = .ok s := by
  unfold Snapshot.parse at h
  cases hparse : Json.parse? text with
  | none =>
    rw [hparse] at h
    cases h
  | some v =>
    rw [hparse] at h
    exact ⟨v, Grammar.parse?_iff.mp hparse, h⟩

theorem rel_bind {α β γ δ : Type} {R : α → β → Prop} {S : γ → δ → Prop} {a : Option α} {b : Option β}
    {f : α → Option γ} {g : β → Option δ} (h : Option.Rel R a b)
    (hnext : ∀ x y, a = some x → R x y → Option.Rel S (f x) (g y)) : Option.Rel S (a.bind f) (b.bind g) := by
  cases h with
  | none => exact .none
  | some hxy => exact hnext _ _ rfl hxy

theorem rel_mono {α β : Type} {R S : α → β → Prop} {a : Option α} {b : Option β} (h : Option.Rel R a b)
    (hRS : ∀ x y, R x y → S x y) : Option.Rel S a b := by
  cases h with
  | none => exact .none
  | some hxy => exact .some (hRS _ _ hxy)

/-- A propagation has the endpoints of the value and keeps its detail as it is. -/
structure Propagation.IsReadFrom (p : Propagation) (v : Json) : Prop where
  source : v.member? "source" = some (.number p.source)
  destination : v.member? "destination" = some (.number p.destination)
  detail : v.member? "detail" = p.detail

/-! ## Readers -/

namespace Reader

section
variable {α : Type} {read : Reader α} {path : Path}

theorem rel_optional {field : Field} {members : Members Json} {o : Option α}
    (h : optional read field members path = .ok o) :
    Option.Rel (fun v a => read (some v) (path.field field) = .ok a) (members.get? field.key) o := by
  unfold optional at h
  cases hv : members.get? field.key with
  | none =>
    rw [hv] at h
    cases h
    exact .none
  | some v =>
    rw [hv] at h
    obtain ⟨a, ha, h⟩ := bind_eq_ok (r := read (some v) (path.field field)) (f := fun a => .ok (some a)) h
    cases h
    exact .some ha

theorem rel_mapM {ms : Members Json} {as : Members α}
    (h : ms.mapM (fun (key, member) => return (key, ← read (some member) (path.key key))) = .ok as) (key : Text) :
    Option.Rel (fun v a => read (some v) (path.key key) = .ok a) (ms.get? key) (as.get? key) := by
  induction ms generalizing as with
  | nil =>
    rw [mapM_nil_eq_ok h]
    exact .none
  | cons m ms ih =>
    obtain ⟨k, v⟩ := m
    obtain ⟨p, ps, hp, hps, rfl⟩ := mapM_cons_eq_ok h
    obtain ⟨a, ha, hp⟩ := bind_eq_ok hp
    cases hp
    rw [Members.get?, Members.get?]
    by_cases hk : k = key
    · subst hk
      rw [if_pos rfl, if_pos rfl]
      exact .some ha
    · rw [if_neg hk, if_neg hk]
      exact ih hps

/-- The order of visit does not show when a key is looked up. -/
theorem rel_entries {v : Json} {as : Members α} (h : entries read (some v) path = .ok as) (hv : v.IsSpelled)
    (key : Text) :
    Option.Rel (fun w a => read (some w) (path.key key) = .ok a) (v.member? key) (as.get? key) := by
  obtain ⟨members, hmembers, h⟩ := bind_eq_ok h
  cases v with
  | object _ =>
    cases hmembers
    have hperm := Members.inOrder_perm members
    rw [Json.member?, ← Members.get?_perm hperm ((hperm.map Prod.fst).nodup_iff.mpr hv.nodup_keys) key]
    exact rel_mapM h key
  | _ => cases hmembers

theorem forall₂_mapM {start : Nat} {vs : List Json} {as : List α}
    (h : (vs.zipIdx start).mapM (fun (element, i) => read (some element) (path.index i)) = .ok as) :
    List.Forall₂ (fun w a => ∃ i, read (some w) (path.index i) = .ok a) vs as := by
  induction vs generalizing start as with
  | nil =>
    rw [mapM_nil_eq_ok h]
    exact .nil
  | cons v vs ih =>
    obtain ⟨a, rest, ha, hrest, rfl⟩ := mapM_cons_eq_ok h
    exact .cons ⟨start, ha⟩ (ih hrest)

theorem forall₂_elements {v : Json} {as : List α} (h : elements read (some v) path = .ok as) :
    ∃ vs, v = .array vs ∧ List.Forall₂ (fun w a => ∃ i, read (some w) (path.index i) = .ok a) vs as := by
  obtain ⟨vs, hvs, hmap⟩ := bind_eq_ok h
  cases v with
  | array _ =>
    cases hvs
    exact ⟨vs, rfl, forall₂_mapM hmap⟩
  | _ => cases hvs

end

theorem routerId_eq_ok {value : Option Json} {path : Path} {id : RouterId} (h : routerId value path = .ok id) :
    value = some (.number id) := by
  unfold routerId at h
  split at h
  · split at h <;> cases h
    rfl
  · cases h

theorem routerIds_eq_ok {v : Json} {path : Path} {ids : List RouterId} (h : elements routerId (some v) path = .ok ids) :
    v = .array (ids.map .number) := by
  obtain ⟨vs, rfl, hvs⟩ := forall₂_elements h
  clear h
  congr 1
  induction hvs with
  | nil => rfl
  | cons hw _ ih =>
    obtain ⟨i, hw⟩ := hw
    rw [Option.some.inj (routerId_eq_ok hw), List.map_cons, ih]

theorem object_eq_ok {v : Json} {path : Path} {members : Members Json} (h : object (some v) path = .ok members) :
    v = .object members := by
  cases v with
  | object _ =>
    cases h
    rfl
  | _ => cases h

theorem propagation_eq_ok {v : Json} {path : Path} {p : Propagation} (h : propagation (some v) path = .ok p) :
    p.IsReadFrom v := by
  obtain ⟨members, hmembers, h⟩ := bind_eq_ok h
  obtain ⟨source, hsource, h⟩ := bind_eq_ok h
  obtain ⟨destination, hdestination, h⟩ := bind_eq_ok h
  cases h
  obtain rfl := object_eq_ok hmembers
  exact ⟨routerId_eq_ok hsource, routerId_eq_ok hdestination, rfl⟩

theorem propagations_eq_ok {v : Json} {path : Path} {ps : List Propagation}
    (h : elements propagation (some v) path = .ok ps) :
    ∃ vs, v = .array vs ∧ List.Forall₂ (fun w p => p.IsReadFrom w) vs ps := by
  obtain ⟨vs, rfl, hvs⟩ := forall₂_elements h
  exact ⟨vs, rfl, hvs.imp fun w p hw => propagation_eq_ok hw.choose_spec⟩

structure ReadsParts (members : Members Json) (path : Path) (s : Snapshot) : Prop where
  routers : required (elements router) .routers members path = .ok s.routers
  distinct : distinctIds s.routers (path.field .routers) = .ok ()
  links : required (elements link) .links members path = .ok s.links
  prefixes : required (elements string) .prefixes members path = .ok s.prefixes
  nextHops : optional (entries (entries (elements routerId))) .nextHops members path = .ok s.nextHops
  sessions : optional (elements session) .sessions members path = .ok s.sessions
  propagations : optional (entries (elements propagation)) .propagations members path = .ok s.propagations

theorem snapshot_eq_ok {v : Json} {path : Path} {s : Snapshot} (h : snapshot (some v) path = .ok s) :
    ∃ members, v = .object members ∧ ReadsParts members path s := by
  obtain ⟨members, hmembers, h⟩ := bind_eq_ok h
  obtain ⟨routers, hrouters, h⟩ := bind_eq_ok h
  obtain ⟨_, hdistinct, h⟩ := bind_eq_ok h
  obtain ⟨links, hlinks, h⟩ := bind_eq_ok h
  obtain ⟨prefixes, hprefixes, h⟩ := bind_eq_ok h
  obtain ⟨nextHops, hnextHops, h⟩ := bind_eq_ok h
  obtain ⟨sessions, hsessions, h⟩ := bind_eq_ok h
  obtain ⟨propagations, hpropagations, h⟩ := bind_eq_ok h
  cases h
  exact ⟨members, object_eq_ok hmembers, hrouters, hdistinct, hlinks, hprefixes, hnextHops, hsessions, hpropagations⟩

end Reader

/-! ## Values at paths -/

namespace Snapshot

section
variable {v : Json} {path : Path} {s : Snapshot}

theorem rel_nextHops (h : Reader.snapshot (some v) path = .ok s) (hv : v.IsSpelled) (key router : Text) :
    Option.Rel (fun w ids => w = .array (ids.map .number)) (v.at? ["nextHops", key, router])
      ((s.nextHops.bind (Members.get? key)).bind (Members.get? router)) := by
  obtain ⟨members, rfl, hparts⟩ := Reader.snapshot_eq_ok h
  rw [Option.bind_assoc]
  refine rel_bind (Reader.rel_optional hparts.nextHops) fun w byKey hw hread => ?_
  refine rel_bind (Reader.rel_entries hread (hv.member hw) key) fun x byRouter hx hread' => ?_
  have hentries := Reader.rel_entries hread' ((hv.member hw).member hx) router
  have hids : Option.Rel (fun w ids => w = Json.array (ids.map .number))
      ((x.member? router).bind fun y => y.at? []) ((Members.get? router byRouter).bind some) :=
    rel_bind hentries fun _ _ _ hread => .some (Reader.routerIds_eq_ok hread)
  rwa [Option.bind_fun_some] at hids

theorem rel_propagations (h : Reader.snapshot (some v) path = .ok s) (hv : v.IsSpelled) (key : Text) :
    Option.Rel (fun w ps => ∃ vs, w = .array vs ∧ List.Forall₂ (fun x p => p.IsReadFrom x) vs ps)
      (v.at? ["propagations", key]) (s.propagations.bind (Members.get? key)) := by
  obtain ⟨members, rfl, hparts⟩ := Reader.snapshot_eq_ok h
  refine rel_bind (Reader.rel_optional hparts.propagations) fun w byKey hw hread => ?_
  have hentries := Reader.rel_entries hread (hv.member hw) key
  have hps : Option.Rel (fun w ps => ∃ vs, w = Json.array vs ∧ List.Forall₂ (fun x p => p.IsReadFrom x) vs ps)
      ((w.member? key).bind fun y => y.at? []) ((Members.get? key byKey).bind some) :=
    rel_bind hentries fun _ _ _ hread => .some (Reader.propagations_eq_ok hread)
  rwa [Option.bind_fun_some] at hps

end

end Snapshot

/-! ## Texts at paths -/

open Grammar

/-- What is related to a value along a path is found in the text exactly when it is found at all. -/
theorem documentAt_of_rel {α : Type} {R : Json → List α → Prop} {cs : List CodeUnit} {v : Json} {key : Text}
    {keys : List Text} {o : Option (List α)} (hv : Document cs v) (h : Option.Rel R (v.at? (key :: keys)) o) :
    (∀ ds, DocumentAt cs (key :: keys) ds → ∃ w, Value ds w ∧ R w (o.getD [])) ∧
      ((∀ ds, ¬ DocumentAt cs (key :: keys) ds) → o.getD [] = []) := by
  constructor
  · intro ds hds
    obtain ⟨w, hw, hvalue⟩ := hds.value hv
    rw [hw] at h
    cases h with
    | some hR => exact ⟨w, hvalue, hR⟩
  · intro hnone
    cases hat : v.at? (key :: keys) with
    | none =>
      rw [hat] at h
      cases h
      rfl
    | some w =>
      obtain ⟨ds, hds, -⟩ := hv.at hat
      exact absurd hds (hnone ds)

/-- Next hops and propagations are found under exactly the keys that stand in the text. -/
theorem snapshot_lookup {text : Text} {s : Snapshot} (h : Snapshot.parse text = .ok s) :
    (∀ key router, ∃ ids, s.model.nextHops key router = .ok ids ∧
      (∀ ds, DocumentAt text.toList ["nextHops", key, router.text] ds → Value ds (.array (ids.map .number))) ∧
      ((∀ ds, ¬ DocumentAt text.toList ["nextHops", key, router.text] ds) → ids = [])) ∧
    ∀ key, ∃ ps, s.model.propagations key = .ok ps ∧
      (∀ ds, DocumentAt text.toList ["propagations", key] ds →
        ∃ vs, Value ds (.array vs) ∧ List.Forall₂ (fun v p => p.IsReadFrom v) vs ps) ∧
      ((∀ ds, ¬ DocumentAt text.toList ["propagations", key] ds) → ps = []) := by
  obtain ⟨v, hdocument, hread⟩ := Snapshot.exists_of_parse h
  -- no key stands twice in a value that a text spells, so no entry is lost when its object is read
  have hspelled := hdocument.isSpelled
  constructor
  · intro key router
    obtain ⟨hfound, hnone⟩ := documentAt_of_rel hdocument (Snapshot.rel_nextHops hread hspelled key router.text)
    refine ⟨_, rfl, fun ds hds => ?_, hnone⟩
    obtain ⟨w, hw, rfl⟩ := hfound ds hds
    exact hw
  · intro key
    obtain ⟨hfound, hnone⟩ := documentAt_of_rel hdocument (Snapshot.rel_propagations hread hspelled key)
    refine ⟨_, rfl, fun ds hds => ?_, hnone⟩
    obtain ⟨w, hw, vs, rfl, hvs⟩ := hfound ds hds
    exact ⟨vs, hw, hvs⟩

/-- The second object under the first surrogate has nothing of the first, and the next surrogate is another key. -/
def repeatedKeys : Text :=
  "\x7b\"routers\":[],\"links\":[],\"prefixes\":[],\"nextHops\":\x7b\"\\ud800\":\x7b\"0\":[2]\x7d," ++
    "\"__proto__\":\x7b\"0\":[1]\x7d,\"\\uD800\":\x7b\"1e+21\":[0,1]\x7d," ++
    "\"\\ud801\":\x7b\"0\":[0]\x7d\x7d\x7d"

def largeId : RouterId :=
  .finite false 7629394531250000 1091 (by decide)

def repeatedSnapshot : Snapshot where
  routers := []
  links := []
  prefixes := []
  nextHops := some [(.surrogate 0, [("1e+21", [.zero false, .one])]), ("__proto__", [("0", [.one])]),
    (.surrogate 1, [("0", [.zero false])])]
  sessions := none
  propagations := none

theorem snapshot_lookup_repeated :
    Snapshot.parse repeatedKeys = .ok repeatedSnapshot ∧
      repeatedSnapshot.model.nextHops "__proto__" (.zero true) = .ok [.one] ∧
      (∃ ds, DocumentAt repeatedKeys.toList ["nextHops", "__proto__", "0"] ds ∧ Value ds (.array [.number .one])) ∧
      repeatedSnapshot.model.nextHops (.surrogate 0) largeId = .ok [.zero false, .one] ∧
      (∃ ds, DocumentAt repeatedKeys.toList ["nextHops", .surrogate 0, "1e+21"] ds ∧
        Value ds (.array [.number (.zero false), .number .one])) ∧
      repeatedSnapshot.model.nextHops (.surrogate 0) (.zero false) = .ok [] ∧
      repeatedSnapshot.model.propagations "constructor" = .ok [] := by
  have hparse : Snapshot.parse repeatedKeys = .ok repeatedSnapshot := by decide +kernel
  have hzero : (Binary64.zero true).text = "0" := by decide +kernel
  have hlarge : largeId.text = "1e+21" := by decide +kernel
  have hproto : repeatedSnapshot.model.nextHops "__proto__" (.zero true) = .ok [.one] := by decide +kernel
  have hlast : repeatedSnapshot.model.nextHops (.surrogate 0) largeId = .ok [.zero false, .one] := by decide +kernel
  have hfirst : repeatedSnapshot.model.nextHops (.surrogate 0) (.zero false) = .ok [] := by decide +kernel
  obtain ⟨ids, hids, hfound, hnone⟩ := (snapshot_lookup hparse).1 "__proto__" (.zero true)
  obtain ⟨ids', hids', hfound', hnone'⟩ := (snapshot_lookup hparse).1 (.surrogate 0) largeId
  obtain rfl := Except.ok.inj (hproto.symm.trans hids)
  obtain rfl := Except.ok.inj (hlast.symm.trans hids')
  rw [hzero] at hfound hnone
  rw [hlarge] at hfound' hnone'
  -- a list that is not empty stands somewhere in the text
  obtain ⟨ds, hds⟩ := not_forall_not.mp fun h => List.cons_ne_nil _ _ (hnone h)
  obtain ⟨ds', hds'⟩ := not_forall_not.mp fun h => List.cons_ne_nil _ _ (hnone' h)
  exact ⟨hparse, hproto, ⟨ds, hds, hfound ds hds⟩, hlast, ⟨ds', hds', hfound' ds' hds'⟩, hfirst, rfl⟩

end NetDiagram
