import NetDiagram.Proofs.Snapshot.FirstFault

/-!
# Which texts are snapshots

The shape of a snapshot, part by part and in no order. A text is read exactly
when it is JSON of that shape.
-/

namespace NetDiagram

/-! ## Shapes -/

namespace Json

def Has (key : Text) (Shape : Json → Prop) (v : Json) : Prop :=
  ∃ w, v.member? key = some w ∧ Shape w

def MayHave (key : Text) (Shape : Json → Prop) (v : Json) : Prop :=
  ∀ w, v.member? key = some w → Shape w

def IsArrayOf (Shape : Json → Prop) (v : Json) : Prop :=
  ∃ vs, v = .array vs ∧ ∀ w ∈ vs, Shape w

def IsRecordOf (Shape : Json → Prop) (v : Json) : Prop :=
  ∃ members, v = .object members ∧ ∀ m ∈ members, Shape m.2

structure IsPosition (v : Json) : Prop where
  object : v.IsObject
  x : v.Has "x" IsNumber
  y : v.Has "y" IsNumber

structure IsRouter (v : Json) : Prop where
  object : v.IsObject
  id : v.Has "id" IsRouterId
  name : v.MayHave "name" IsString
  position : v.MayHave "position" IsPosition
  external : v.MayHave "external" IsBoolean

def HasDistinctIds (v : Json) : Prop :=
  ∃ vs, v = .array vs ∧
    vs.Pairwise fun a b => ∀ x y, a.routerNumber? = some x → b.routerNumber? = some y → ¬ x.Same y

structure IsLink (v : Json) : Prop where
  object : v.IsObject
  a : v.Has "a" IsRouterId
  b : v.Has "b" IsRouterId
  weight : v.Has "weight" IsNumber
  reverseWeight : v.MayHave "reverseWeight" IsNumber

structure IsSession (v : Json) : Prop where
  object : v.IsObject
  source : v.Has "source" IsRouterId
  destination : v.Has "destination" IsRouterId
  kind : v.Has "kind" fun w => ∃ name, w = .string name ∧ IsKind name

structure IsPropagation (v : Json) : Prop where
  object : v.IsObject
  source : v.Has "source" IsRouterId
  destination : v.Has "destination" IsRouterId

structure IsSnapshot (v : Json) : Prop where
  object : v.IsObject
  routers : v.Has "routers" (IsArrayOf IsRouter)
  distinct : v.Has "routers" HasDistinctIds
  links : v.Has "links" (IsArrayOf IsLink)
  prefixes : v.Has "prefixes" (IsArrayOf IsString)
  nextHops : v.MayHave "nextHops" (IsRecordOf (IsRecordOf (IsArrayOf IsRouterId)))
  sessions : v.MayHave "sessions" (IsArrayOf IsSession)
  propagations : v.MayHave "propagations" (IsRecordOf (IsArrayOf IsPropagation))

end Json

/-! ## Checks that demand a shape -/

namespace Checks

def Hold (checks : List Check) : Prop :=
  ∀ c ∈ checks, c.Holds

/-- The checks hold for the values of the shape and fail for an absent value. -/
def Demand (checks : Checks) (Shape : Json → Prop) : Prop :=
  ∀ value path, Hold (checks value path) ↔ ∃ v, value = some v ∧ Shape v

section
variable {checks : Checks} {Shape : Json → Prop}

theorem hold_nil : Hold [] := by
  simp [Hold]

theorem hold_append {cs ds : List Check} : Hold (cs ++ ds) ↔ Hold cs ∧ Hold ds :=
  List.forall_mem_append

theorem hold_flatMap {α : Type} {xs : List α} {f : α → List Check} :
    Hold (xs.flatMap f) ↔ ∀ x ∈ xs, Hold (f x) :=
  List.forall_mem_flatMap

theorem demand_one (fault : Fault) (Shape : Json → Prop) : Demand (one fault Shape) Shape := by
  intro value path
  simp [Hold, one]

theorem Demand.some (h : Demand checks Shape) {v : Json} {path : Path} : Hold (checks (some v) path) ↔ Shape v := by
  simp [h (Option.some v) path]

theorem Demand.member (h : Demand checks Shape) {field : Field} {v : Json} {path : Path} :
    Hold (member field checks (Option.some v) path) ↔ v.Has field.key Shape :=
  h _ _

theorem Demand.memberIfAny (h : Demand checks Shape) {field : Field} {v : Json} {path : Path} :
    Hold (memberIfAny field checks (Option.some v) path) ↔ v.MayHave field.key Shape := by
  unfold Checks.memberIfAny Json.MayHave
  rw [Option.bind_some]
  cases v.member? field.key with
  | none => simp [hold_nil]
  | some w => simp [h.some]

theorem demand_inTurn {first : Checks} {rest : List Checks} {First : Json → Prop} (hfirst : Demand first First)
    (h : ∀ v path, Shape v ↔ First v ∧ ∀ c ∈ rest, Hold (c (some v) path)) :
    Demand (inTurn (first :: rest)) Shape := by
  intro value path
  rw [inTurn, List.flatMap_cons, hold_append, hfirst value path, hold_flatMap]
  constructor
  · intro hall
    obtain ⟨⟨v, rfl, hv⟩, hrest⟩ := hall
    exact ⟨v, rfl, (h v path).mpr ⟨hv, hrest⟩⟩
  · intro hall
    obtain ⟨v, rfl, hv⟩ := hall
    exact ⟨⟨v, rfl, ((h v path).mp hv).1⟩, ((h v path).mp hv).2⟩

theorem demand_arrayOf (h : Demand checks Shape) : Demand (arrayOf checks) (Json.IsArrayOf Shape) := by
  apply demand_inTurn (demand_one .notArray Json.IsArray)
  intro v path
  rw [List.forall_mem_singleton]
  constructor
  · intro hv
    obtain ⟨vs, rfl, hvs⟩ := hv
    refine ⟨⟨vs, rfl⟩, hold_flatMap.mpr ?_⟩
    intro p hp
    exact h.some.mpr (hvs p.1 (List.fst_mem_of_mem_zipIdx hp))
  · intro hv
    obtain ⟨⟨vs, rfl⟩, hvs⟩ := hv
    refine ⟨vs, rfl, ?_⟩
    intro w hw
    obtain ⟨i, hi, rfl⟩ := List.mem_iff_getElem.mp hw
    have hmem : (vs[i], i) ∈ vs.zipIdx := List.mem_zipIdx_iff_getElem?.mpr (List.getElem?_eq_getElem hi)
    exact h.some.mp (hold_flatMap.mp hvs _ hmem)

theorem demand_recordOf (h : Demand checks Shape) : Demand (recordOf checks) (Json.IsRecordOf Shape) := by
  apply demand_inTurn (demand_one .notObject Json.IsObject)
  intro v path
  rw [List.forall_mem_singleton]
  have hperm : ∀ ms : Members Json, (Members.visited ms).Perm ms := by
    intro ms
    exact Members.inOrder_eq_visited ms ▸ Members.inOrder_perm ms
  constructor
  · intro hv
    obtain ⟨members, rfl, hmembers⟩ := hv
    refine ⟨⟨members, rfl⟩, hold_flatMap.mpr ?_⟩
    intro m hm
    exact h.some.mpr (hmembers m ((hperm members).mem_iff.mp hm))
  · intro hv
    obtain ⟨⟨members, rfl⟩, hmembers⟩ := hv
    refine ⟨members, rfl, ?_⟩
    intro m hm
    exact h.some.mp (hold_flatMap.mp hmembers m ((hperm members).mem_iff.mpr hm))

theorem hold_areDistinct {vs : List Json} {path : Path} :
    Hold (areDistinct (Option.some (.array vs)) path) ↔
      vs.Pairwise fun a b => ∀ x y, a.routerNumber? = some x → b.routerNumber? = some y → ¬ x.Same y := by
  rw [List.pairwise_iff_getElem]
  unfold Hold areDistinct
  constructor
  · intro h i j hi hj hij x y hx hy
    -- the check at the later place compares its number with all those in front
    have hcheck := h ⟨(path.index j).field .id, .duplicateRouterId y,
      ∀ other ∈ (vs.take j).filterMap Json.routerNumber?, ¬ other.Same y⟩
    refine hcheck ?_ x (List.mem_filterMap.mpr ⟨vs[i], ?_, hx⟩)
    · refine List.mem_filterMap.mpr ⟨(vs[j], j), ?_, by simp [hy]⟩
      exact List.mem_zipIdx_iff_getElem?.mpr (List.getElem?_eq_getElem hj)
    · exact List.mem_take_iff_getElem.mpr ⟨i, by omega, rfl⟩
  · intro h c hc
    obtain ⟨p, hp, hcheck⟩ := List.mem_filterMap.mp hc
    obtain ⟨y, hy, rfl⟩ := Option.map_eq_some_iff.mp hcheck
    obtain ⟨hj, hget⟩ := List.getElem?_eq_some_iff.mp (List.mem_zipIdx_iff_getElem?.mp hp)
    intro x hx
    obtain ⟨a, ha, hax⟩ := List.mem_filterMap.mp hx
    obtain ⟨i, hi, rfl⟩ := List.mem_take_iff_getElem.mp ha
    exact h i p.2 (by omega) hj (by omega) x y hax (hget ▸ hy)

theorem member_areDistinct {v : Json} (path : Path) (h : v.Has "routers" Json.IsArray) :
    Hold (member .routers areDistinct (Option.some v) path) ↔ v.Has "routers" Json.HasDistinctIds := by
  obtain ⟨w, hw, vs, rfl⟩ := h
  have hmember : member .routers areDistinct (Option.some v) path =
      areDistinct (Option.some (.array vs)) (path.field .routers) := by
    rw [member, Option.bind_some, Field.key, hw]
  rw [hmember, hold_areDistinct]
  simp [Json.Has, hw, Json.HasDistinctIds]

end

/-! ## Snapshots -/

theorem demand_position : Demand position Json.IsPosition := by
  apply demand_inTurn (demand_one .notObject Json.IsObject)
  intro v path
  simp only [List.forall_mem_cons, (demand_one _ _).member, isNumber]
  constructor
  · intro h
    exact ⟨h.object, h.x, h.y, by simp⟩
  · intro h
    obtain ⟨object, x, y, -⟩ := h
    exact ⟨object, x, y⟩

theorem demand_router : Demand router Json.IsRouter := by
  apply demand_inTurn (demand_one .notObject Json.IsObject)
  intro v path
  simp only [List.forall_mem_cons, (demand_one _ _).member, (demand_one _ _).memberIfAny,
    demand_position.memberIfAny, isRouterId, isString, isBoolean]
  constructor
  · intro h
    exact ⟨h.object, h.id, h.name, h.position, h.external, by simp⟩
  · intro h
    obtain ⟨object, id, name, position, external, -⟩ := h
    exact ⟨object, id, name, position, external⟩

theorem demand_link : Demand link Json.IsLink := by
  apply demand_inTurn (demand_one .notObject Json.IsObject)
  intro v path
  simp only [List.forall_mem_cons, (demand_one _ _).member, (demand_one _ _).memberIfAny, isRouterId, isNumber]
  constructor
  · intro h
    exact ⟨h.object, h.a, h.b, h.weight, h.reverseWeight, by simp⟩
  · intro h
    obtain ⟨object, a, b, weight, reverseWeight, -⟩ := h
    exact ⟨object, a, b, weight, reverseWeight⟩

theorem demand_kind :
    Demand (inTurn [isString, isKnownKind]) fun v => ∃ name, v = .string name ∧ Json.IsKind name := by
  apply demand_inTurn (demand_one .notString Json.IsString)
  intro v path
  rw [List.forall_mem_singleton]
  cases v <;> simp [Json.IsString, Hold, isKnownKind]

theorem demand_session : Demand session Json.IsSession := by
  apply demand_inTurn (demand_one .notObject Json.IsObject)
  intro v path
  simp only [List.forall_mem_cons, (demand_one _ _).member, demand_kind.member, isRouterId]
  constructor
  · intro h
    exact ⟨h.object, h.kind, h.source, h.destination, by simp⟩
  · intro h
    obtain ⟨object, kind, source, destination, -⟩ := h
    exact ⟨object, source, destination, kind⟩

theorem demand_propagation : Demand propagation Json.IsPropagation := by
  apply demand_inTurn (demand_one .notObject Json.IsObject)
  intro v path
  simp only [List.forall_mem_cons, (demand_one _ _).member, isRouterId]
  constructor
  · intro h
    exact ⟨h.object, h.source, h.destination, by simp⟩
  · intro h
    obtain ⟨object, source, destination, -⟩ := h
    exact ⟨object, source, destination⟩

/-- The checks of a snapshot demand its shape and nothing else. -/
theorem demand_snapshot : Demand snapshot Json.IsSnapshot := by
  apply demand_inTurn (demand_one .notObject Json.IsObject)
  intro v path
  simp only [List.forall_mem_cons, (demand_arrayOf demand_router).member, (demand_arrayOf demand_link).member,
    (demand_arrayOf (demand_one _ _)).member, (demand_arrayOf demand_session).memberIfAny,
    (demand_recordOf (demand_recordOf (demand_arrayOf (demand_one _ _)))).memberIfAny,
    (demand_recordOf (demand_arrayOf demand_propagation)).memberIfAny, isRouterId, isString]
  have harray : v.Has "routers" (Json.IsArrayOf Json.IsRouter) → v.Has "routers" Json.IsArray := by
    intro h
    obtain ⟨w, hw, vs, hvs, -⟩ := h
    exact ⟨w, hw, vs, hvs⟩
  constructor
  · intro h
    have hdistinct := (member_areDistinct path (harray h.routers)).mpr h.distinct
    exact ⟨h.object, h.routers, hdistinct, h.links, h.prefixes, h.nextHops, h.sessions, h.propagations, by simp⟩
  · intro h
    obtain ⟨object, routers, hdistinct, links, prefixes, nextHops, sessions, propagations, -⟩ := h
    have distinct := (member_areDistinct path (harray routers)).mp hdistinct
    exact ⟨object, routers, distinct, links, prefixes, nextHops, sessions, propagations⟩

end Checks

/-! ## Texts -/

/-- A text is read exactly when it is JSON in the shape of a snapshot. -/
theorem Snapshot.parse_ok_iff {text : Text} :
    (∃ s, Snapshot.parse text = .ok s) ↔ ∃ v, Grammar.Document text.toList v ∧ v.IsSnapshot := by
  simp only [← Grammar.parse?_iff]
  unfold Snapshot.parse
  cases Json.parse? text with
  | none => simp [Reader.fail]
  | some v =>
    simp only [Option.some.injEq, exists_eq_left']
    rw [(Reader.performs_snapshot (some v) .root).ok_iff]
    exact Checks.demand_snapshot.some

end NetDiagram
