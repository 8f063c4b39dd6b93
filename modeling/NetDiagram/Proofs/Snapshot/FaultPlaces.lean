import NetDiagram.Proofs.Snapshot.Acceptance
import NetDiagram.Proofs.Snapshot.Locations
import NetDiagram.Proofs.Snapshot.Lookup

/-!
# Places of faults

Every location is the place of some fault. A value with one fault is made from
the location: what is on the way to the fault holds the parts that are demanded
of it, and in their front nothing is wrong.
-/

namespace NetDiagram

/-! ## Values that a text spells -/

namespace Json

theorem isSpelled_null : IsSpelled .null :=
  ⟨_, .null⟩

theorem isSpelled_array {vs : List Json} (h : ∀ v ∈ vs, v.IsSpelled) : IsSpelled (.array vs) := by
  obtain ⟨texts, htexts⟩ := exists_forall₂ h
  exact ⟨_, value_array htexts.flip⟩

theorem isSpelled_object {ms : Members Json} (h : ∀ m ∈ ms, m.2.IsSpelled) (hn : (ms.map Prod.fst).Nodup) :
    IsSpelled (.object ms) := by
  have hmembers : ∀ m ∈ ms, ∃ t : Text × List CodeUnit, t.1 = m.1 ∧ Grammar.Value t.2 m.2 := by
    intro m hm
    obtain ⟨cs, hcs⟩ := h m hm
    exact ⟨(m.1, cs), rfl, hcs⟩
  obtain ⟨texts, htexts⟩ := exists_forall₂ hmembers
  exact ⟨_, value_object htexts.flip hn⟩

end Json

theorem Members.mem_put {α : Type} {key : Text} {value : α} {ms : Members α} {m : Text × α}
    (h : m ∈ put key value ms) : m = (key, value) ∨ m ∈ ms := by
  induction ms with
  | nil => exact .inl (List.mem_singleton.mp h)
  | cons n ms ih =>
    rw [put] at h
    split at h
    · rcases List.mem_cons.mp h with h | h
      · exact .inl h
      · exact .inr (List.mem_cons_of_mem n h)
    · rcases List.mem_cons.mp h with h | h
      · exact .inr (h ▸ List.mem_cons_self)
      · exact (ih h).imp_right (List.mem_cons_of_mem n)

/-! ## A record for all parts -/

/-- What is demanded of the parts of a snapshot and of the snapshot itself, in one record. -/
def soundMembers : Members Json :=
  [(Field.id.key, .number (.zero false)), (Field.x.key, .number (.zero false)), (Field.y.key, .number (.zero false)),
    (Field.a.key, .number (.zero false)), (Field.b.key, .number (.zero false)),
    (Field.weight.key, .number (.zero false)), (Field.source.key, .number (.zero false)),
    (Field.destination.key, .number (.zero false)), (Field.kind.key, .string "ebgp"), (Field.routers.key, .array []),
    (Field.links.key, .array []), (Field.prefixes.key, .array [])]

def soundRecord : Json :=
  .object soundMembers

def recordWith (f : Field) (v : Json) : Json :=
  .object (soundMembers.put f.key v)

theorem isSpelled_zero : Json.IsSpelled (.number (.zero false)) :=
  ⟨_, value_number rfl (by decide)⟩

theorem isSpelled_string (s : Text) : Json.IsSpelled (.string s) :=
  ⟨_, .string (literal_quote s)⟩

theorem isSpelled_soundMembers : ∀ m ∈ soundMembers, m.2.IsSpelled := by
  simp [soundMembers, isSpelled_zero, isSpelled_string, Json.isSpelled_array]

theorem nodup_soundMembers : (soundMembers.map Prod.fst).Nodup := by
  decide +kernel

theorem isSpelled_soundRecord : soundRecord.IsSpelled :=
  Json.isSpelled_object isSpelled_soundMembers nodup_soundMembers

theorem isSpelled_recordWith (f : Field) {v : Json} (h : v.IsSpelled) : (recordWith f v).IsSpelled := by
  refine Json.isSpelled_object (fun m hm => ?_) ?_
  · rcases Members.mem_put hm with rfl | hm
    · exact h
    · exact isSpelled_soundMembers m hm
  · rw [Members.keys_put]
    split
    · exact nodup_soundMembers
    · rename_i hkey
      exact nodup_soundMembers.concat hkey

theorem member?_recordWith (f : Field) (v : Json) (key : Text) :
    (recordWith f v).member? key = if f.key = key then some v else soundRecord.member? key :=
  Members.get?_put f.key key v soundMembers

theorem isRouterId_zero : Json.IsRouterId (.number (.zero false)) :=
  ⟨_, rfl, Binary64.isNatural_iff.mp (by decide +kernel)⟩

theorem isPosition_soundRecord : soundRecord.IsPosition :=
  ⟨⟨_, rfl⟩, ⟨_, rfl, _, rfl⟩, ⟨_, rfl, _, rfl⟩⟩

theorem isRouter_soundRecord : soundRecord.IsRouter :=
  ⟨⟨_, rfl⟩, ⟨_, rfl, isRouterId_zero⟩, nofun, nofun, nofun⟩

theorem isLink_soundRecord : soundRecord.IsLink :=
  ⟨⟨_, rfl⟩, ⟨_, rfl, isRouterId_zero⟩, ⟨_, rfl, isRouterId_zero⟩, ⟨_, rfl, _, rfl⟩, nofun⟩

theorem isSession_soundRecord : soundRecord.IsSession :=
  ⟨⟨_, rfl⟩, ⟨_, rfl, isRouterId_zero⟩, ⟨_, rfl, isRouterId_zero⟩, ⟨_, rfl, _, rfl, .inl rfl⟩⟩

theorem isPropagation_soundRecord : soundRecord.IsPropagation :=
  ⟨⟨_, rfl⟩, ⟨_, rfl, isRouterId_zero⟩, ⟨_, rfl, isRouterId_zero⟩⟩

theorem isSnapshot_soundRecord : soundRecord.IsSnapshot := by
  have hempty : ∀ Shape, Json.IsArrayOf Shape (.array []) := fun _ => ⟨[], rfl, List.forall_mem_nil _⟩
  have hdistinct : Json.HasDistinctIds (.array []) := ⟨[], rfl, .nil⟩
  exact ⟨⟨_, rfl⟩, ⟨_, rfl, hempty _⟩, ⟨_, rfl, hdistinct⟩, ⟨_, rfl, hempty _⟩, ⟨_, rfl, hempty _⟩, nofun, nofun, nofun⟩

/-! ## Checks that fail -/

namespace Checks

def Fail (checks : Checks) (path place : Path) : Prop :=
  ∃ v : Json, v.IsSpelled ∧ ∃ fault, FirstViolation (checks (some v) path) ⟨place, fault⟩

theorem firstViolation_inTurn {front back : List Checks} {c : Checks} {value : Option Json} {path : Path}
    {e : SnapshotError} (hfront : ∀ d ∈ front, Hold (d value path)) (h : FirstViolation (c value path) e) :
    FirstViolation (inTurn (front ++ c :: back) value path) e := by
  rw [inTurn, List.flatMap_append, List.flatMap_cons]
  exact FirstViolation.append_left (hold_flatMap.mpr hfront) (h.append_right _)

section
variable {checks : Checks} {path place : Path}

theorem fail_one {fault : Fault} {Shape : Json → Prop} (h : ¬ Shape .null) : Fail (one fault Shape) path path :=
  ⟨.null, Json.isSpelled_null, fault, .head (by simpa using h)⟩

theorem fail_isObject : Fail isObject path path :=
  fail_one (by simp [Json.IsObject])

theorem fail_isArray : Fail isArray path path :=
  fail_one (by simp [Json.IsArray])

theorem fail_isString : Fail isString path path :=
  fail_one (by simp [Json.IsString])

theorem fail_isNumber : Fail isNumber path path :=
  fail_one (by simp [Json.IsNumber])

theorem fail_isBoolean : Fail isBoolean path path :=
  fail_one (by simp [Json.IsBoolean])

theorem fail_isRouterId : Fail isRouterId path path :=
  fail_one (by simp [Json.IsRouterId])

theorem Fail.first (h : Fail checks path place) (cs : List Checks) : Fail (inTurn (checks :: cs)) path place := by
  obtain ⟨v, hv, fault, hfirst⟩ := h
  exact ⟨v, hv, fault, hfirst.append_right _⟩

theorem Fail.element {good : Json} {i : ℕ} (h : Fail checks (path.index i) place) (hspelled : good.IsSpelled)
    (hgood : ∀ path, Hold (checks (some good) path)) : Fail (arrayOf checks) path place := by
  obtain ⟨v, hv, fault, hfirst⟩ := h
  -- sound elements fill the places in front of the faulty one
  have helements : ∀ w ∈ List.replicate i good ++ [v], w.IsSpelled := by
    intro w hw
    rcases List.mem_append.mp hw with hw | hw
    · exact List.eq_of_mem_replicate hw ▸ hspelled
    · exact List.mem_singleton.mp hw ▸ hv
  refine ⟨.array (List.replicate i good ++ [v]), Json.isSpelled_array helements, fault, ?_⟩
  have heach : eachElement checks (some (.array (List.replicate i good ++ [v]))) path =
      ((List.replicate i good).zipIdx.flatMap fun p => checks (some p.1) (path.index p.2)) ++
        checks (some v) (path.index i) := by
    simp [eachElement, List.zipIdx_append]
  have hfront : Hold ((List.replicate i good).zipIdx.flatMap fun p => checks (some p.1) (path.index p.2)) := by
    refine hold_flatMap.mpr fun p hp => ?_
    rw [List.eq_of_mem_replicate (List.fst_mem_of_mem_zipIdx hp)]
    exact hgood _
  have harray : Hold (isArray (some (.array (List.replicate i good ++ [v]))) path) :=
    (demand_one _ _).some.mpr ⟨_, rfl⟩
  refine firstViolation_inTurn (List.forall_mem_singleton.mpr harray) ?_
  rw [heach]
  exact FirstViolation.append_left hfront hfirst

theorem Fail.entry {key : Text} (h : Fail checks (path.key key) place) : Fail (recordOf checks) path place := by
  obtain ⟨v, hv, fault, hfirst⟩ := h
  have hspelled : Json.IsSpelled (.object [(key, v)]) := Json.isSpelled_object (by simpa using hv) (by simp)
  refine ⟨.object [(key, v)], hspelled, fault, ?_⟩
  have hobject : Hold (isObject (some (.object [(key, v)])) path) := (demand_one _ _).some.mpr ⟨_, rfl⟩
  have heach : eachMember checks (some (.object [(key, v)])) path = checks (some v) (path.key key) := by
    rw [eachMember, ← Members.inOrder_eq_visited]
    exact List.append_nil _
  refine firstViolation_inTurn (List.forall_mem_singleton.mpr hobject) ?_
  rw [heach]
  exact hfirst

end

/-! ## Members of records -/

def Skips (checks : Checks) (f : Field) : Prop :=
  ∀ v path, checks (some (recordWith f v)) path = checks (some soundRecord) path

theorem skips_member {f g : Field} (h : f ≠ g) (checks : Checks) : Skips (member g checks) f := by
  intro v path
  have hkey : f.key ≠ g.key := Field.key_injective.ne h
  rw [member, member, Option.bind_some, Option.bind_some, member?_recordWith, if_neg hkey]

theorem skips_memberIfAny {f g : Field} (h : f ≠ g) (checks : Checks) : Skips (memberIfAny g checks) f := by
  intro v path
  have hkey : f.key ≠ g.key := Field.key_injective.ne h
  rw [memberIfAny, memberIfAny, Option.bind_some, Option.bind_some, member?_recordWith, if_neg hkey]

def FailWith (f : Field) (checks : Checks) (path place : Path) : Prop :=
  ∃ v : Json, v.IsSpelled ∧ ∃ fault, FirstViolation (checks (some (recordWith f v)) path) ⟨place, fault⟩

section
variable {f : Field} {checks : Checks} {path place : Path}

theorem Fail.member (h : Fail checks (path.field f) place) : FailWith f (member f checks) path place := by
  obtain ⟨v, hv, fault, hfirst⟩ := h
  refine ⟨v, hv, fault, ?_⟩
  rwa [Checks.member, Option.bind_some, member?_recordWith, if_pos rfl]

theorem Fail.memberIfAny (h : Fail checks (path.field f) place) : FailWith f (memberIfAny f checks) path place := by
  obtain ⟨v, hv, fault, hfirst⟩ := h
  refine ⟨v, hv, fault, ?_⟩
  rwa [Checks.memberIfAny, Option.bind_some, member?_recordWith, if_pos rfl]

/-- The fault is that of the part at the given place in the list; the parts in front of it look at other members. -/
theorem fail_record {cs : List Checks} (i : ℕ) (hsound : Hold (record cs (some soundRecord) path))
    (hget : cs[i]? = some checks) (hskips : ∀ c ∈ cs.take i, Skips c f) (h : FailWith f checks path place) :
    Fail (record cs) path place := by
  obtain ⟨v, hv, fault, hfirst⟩ := h
  refine ⟨recordWith f v, isSpelled_recordWith f hv, fault, ?_⟩
  have hparts : isObject :: cs = (isObject :: cs.take i) ++ checks :: cs.drop (i + 1) := by
    obtain ⟨hi, hchecks⟩ := List.getElem?_eq_some_iff.mp hget
    rw [List.cons_append, ← hchecks, List.getElem_cons_drop, List.take_append_drop]
  have hobject : Hold (isObject (some (recordWith f v)) path) := (demand_one _ _).some.mpr ⟨_, rfl⟩
  have hfront : ∀ c ∈ cs.take i, Hold (c (some (recordWith f v)) path) := by
    intro c hc
    rw [hskips c hc v path]
    exact hold_flatMap.mp hsound c (List.mem_cons_of_mem _ (List.mem_of_mem_take hc))
  rw [record, hparts]
  exact firstViolation_inTurn (List.forall_mem_cons.mpr ⟨hobject, hfront⟩) hfirst

end

theorem hold_position (path : Path) : Hold (position (some soundRecord) path) :=
  demand_position.some.mpr isPosition_soundRecord

theorem hold_router (path : Path) : Hold (router (some soundRecord) path) :=
  demand_router.some.mpr isRouter_soundRecord

theorem hold_link (path : Path) : Hold (link (some soundRecord) path) :=
  demand_link.some.mpr isLink_soundRecord

theorem hold_session (path : Path) : Hold (session (some soundRecord) path) :=
  demand_session.some.mpr isSession_soundRecord

theorem hold_propagation (path : Path) : Hold (propagation (some soundRecord) path) :=
  demand_propagation.some.mpr isPropagation_soundRecord

theorem hold_snapshot (path : Path) : Hold (snapshot (some soundRecord) path) :=
  demand_snapshot.some.mpr isSnapshot_soundRecord

section
variable {path place : Path} {f : Field}

theorem fail_position (h : f ∈ [Field.x, .y]) : Fail position path (path.field f) := by
  simp only [List.mem_cons, List.not_mem_nil, or_false] at h
  rcases h with rfl | rfl
  · exact fail_record 0 (hold_position path) rfl (by simp) fail_isNumber.member
  · exact fail_record 1 (hold_position path) rfl (by simp [skips_member]) fail_isNumber.member

theorem fail_router (h : f ∈ [Field.id, .name, .position, .external]) : Fail router path (path.field f) := by
  simp only [List.mem_cons, List.not_mem_nil, or_false] at h
  rcases h with rfl | rfl | rfl | rfl
  · exact fail_record 0 (hold_router path) rfl (by simp) fail_isRouterId.member
  · exact fail_record 1 (hold_router path) rfl (by simp [skips_member]) fail_isString.memberIfAny
  · have hposition : Fail position (path.field .position) (path.field .position) := fail_isObject.first _
    exact fail_record 2 (hold_router path) rfl (by simp [skips_member, skips_memberIfAny]) hposition.memberIfAny
  · exact fail_record 3 (hold_router path) rfl (by simp [skips_member, skips_memberIfAny]) fail_isBoolean.memberIfAny

theorem fail_coordinate (h : f ∈ [Field.x, .y]) : Fail router path ((path.field .position).field f) := by
  exact fail_record 2 (hold_router path) rfl (by simp [skips_member, skips_memberIfAny]) (fail_position h).memberIfAny

theorem fail_link (h : f ∈ [Field.a, .b, .weight, .reverseWeight]) : Fail link path (path.field f) := by
  simp only [List.mem_cons, List.not_mem_nil, or_false] at h
  rcases h with rfl | rfl | rfl | rfl
  · exact fail_record 0 (hold_link path) rfl (by simp) fail_isRouterId.member
  · exact fail_record 1 (hold_link path) rfl (by simp [skips_member]) fail_isRouterId.member
  · exact fail_record 2 (hold_link path) rfl (by simp [skips_member]) fail_isNumber.member
  · exact fail_record 3 (hold_link path) rfl (by simp [skips_member]) fail_isNumber.memberIfAny

theorem fail_session (h : f ∈ [Field.kind, .source, .destination]) : Fail session path (path.field f) := by
  simp only [List.mem_cons, List.not_mem_nil, or_false] at h
  rcases h with rfl | rfl | rfl
  · exact fail_record 0 (hold_session path) rfl (by simp) (fail_isString.first _).member
  · exact fail_record 1 (hold_session path) rfl (by simp [skips_member]) fail_isRouterId.member
  · exact fail_record 2 (hold_session path) rfl (by simp [skips_member]) fail_isRouterId.member

theorem fail_propagation (h : f ∈ [Field.source, .destination]) : Fail propagation path (path.field f) := by
  simp only [List.mem_cons, List.not_mem_nil, or_false] at h
  rcases h with rfl | rfl
  · exact fail_record 0 (hold_propagation path) rfl (by simp) fail_isRouterId.member
  · exact fail_record 1 (hold_propagation path) rfl (by simp [skips_member]) fail_isRouterId.member

theorem fail_routers (h : Fail (arrayOf router) (path.field .routers) place) : Fail snapshot path place :=
  fail_record 0 (hold_snapshot path) rfl (by simp) h.member

theorem fail_links (h : Fail (arrayOf link) (path.field .links) place) : Fail snapshot path place :=
  fail_record 2 (hold_snapshot path) rfl (by simp [skips_member]) h.member

theorem fail_prefixes (h : Fail (arrayOf isString) (path.field .prefixes) place) : Fail snapshot path place :=
  fail_record 3 (hold_snapshot path) rfl (by simp [skips_member]) h.member

theorem fail_nextHops (h : Fail (recordOf (recordOf (arrayOf isRouterId))) (path.field .nextHops) place) :
    Fail snapshot path place :=
  fail_record 4 (hold_snapshot path) rfl (by simp [skips_member]) h.memberIfAny

theorem fail_sessions (h : Fail (arrayOf session) (path.field .sessions) place) : Fail snapshot path place :=
  fail_record 5 (hold_snapshot path) rfl (by simp [skips_member, skips_memberIfAny]) h.memberIfAny

theorem fail_propagations (h : Fail (recordOf (arrayOf propagation)) (path.field .propagations) place) :
    Fail snapshot path place :=
  fail_record 6 (hold_snapshot path) rfl (by simp [skips_member, skips_memberIfAny]) h.memberIfAny

end

/-- Every location is the place of the first fault of some value. -/
theorem fail_of_isLocation {place : Path} (h : place.IsLocation) : Fail snapshot .root place := by
  cases h with
  | document => exact fail_isObject.first _
  | @part f hf =>
    simp only [List.mem_cons, List.not_mem_nil, or_false] at hf
    rcases hf with rfl | rfl | rfl | rfl | rfl | rfl
    · exact fail_routers (fail_isArray.first _)
    · exact fail_links (fail_isArray.first _)
    · exact fail_prefixes (fail_isArray.first _)
    · exact fail_nextHops (fail_isObject.first _)
    · exact fail_sessions (fail_isArray.first _)
    · exact fail_propagations (fail_isObject.first _)
  | router i => exact fail_routers (Fail.element (fail_isObject.first _) isSpelled_soundRecord hold_router)
  | routerField i hf => exact fail_routers ((fail_router hf).element isSpelled_soundRecord hold_router)
  | coordinate i hf => exact fail_routers ((fail_coordinate hf).element isSpelled_soundRecord hold_router)
  | link i => exact fail_links (Fail.element (fail_isObject.first _) isSpelled_soundRecord hold_link)
  | linkField i hf => exact fail_links ((fail_link hf).element isSpelled_soundRecord hold_link)
  | prefixText i =>
    have hempty : ∀ path, Hold (isString (some (.string "")) path) := fun _ => (demand_one _ _).some.mpr ⟨_, rfl⟩
    exact fail_prefixes (fail_isString.element (isSpelled_string "") hempty)
  | hopTable key => exact fail_nextHops (Fail.entry (fail_isObject.first _))
  | hopList key router => exact fail_nextHops (Fail.entry (Fail.entry (fail_isArray.first _)))
  | hop key router i =>
    have hzero : ∀ path, Hold (isRouterId (some (.number (.zero false))) path) :=
      fun _ => (demand_one _ _).some.mpr isRouterId_zero
    exact fail_nextHops (Fail.entry (Fail.entry (fail_isRouterId.element isSpelled_zero hzero)))
  | session i => exact fail_sessions (Fail.element (fail_isObject.first _) isSpelled_soundRecord hold_session)
  | sessionField i hf => exact fail_sessions ((fail_session hf).element isSpelled_soundRecord hold_session)
  | propagationList key => exact fail_propagations (Fail.entry (fail_isArray.first _))
  | propagation key i =>
    exact fail_propagations (Fail.entry (Fail.element (fail_isObject.first _) isSpelled_soundRecord hold_propagation))
  | propagationField key i hf =>
    exact fail_propagations (Fail.entry ((fail_propagation hf).element isSpelled_soundRecord hold_propagation))

end Checks

/-! ## Texts -/

theorem Snapshot.exists_error_of_isLocation {place : Path} (h : place.IsLocation) :
    ∃ text fault, Snapshot.parse text = .error ⟨place, fault⟩ := by
  obtain ⟨v, ⟨cs, hcs⟩, fault, hfirst⟩ := Checks.fail_of_isLocation h
  have hdocument := Grammar.Document.value Grammar.blanks_nil hcs Grammar.blanks_nil
  rw [List.nil_append, List.append_nil, ← Text.toList_ofList cs] at hdocument
  refine ⟨.ofList cs, fault, ?_⟩
  unfold Snapshot.parse
  rw [Grammar.parse?_iff.mpr hdocument]
  exact (Reader.performs_snapshot (some v) .root).error_iff.mpr hfirst

/-- Faults are reported at the locations and nowhere else, and a path is told by its text. -/
theorem error_paths_differ :
    (∀ place : Path, (∃ text fault, Snapshot.parse text = .error ⟨place, fault⟩) ↔ place.IsLocation) ∧
      Function.Injective Path.text := by
  refine ⟨fun place => ⟨fun h => ?_, Snapshot.exists_error_of_isLocation⟩, Path.text_injective⟩
  obtain ⟨text, fault, htext⟩ := h
  exact Snapshot.isLocation_of_error htext

def nextHopsText (nextHops : Text) : Text :=
  "\x7b\"routers\":[],\"links\":[],\"prefixes\":[],\"nextHops\":" ++ nextHops ++ "\x7d"

/-- A key that looks like the rest of the other path. -/
theorem error_paths_differ_nested :
    ∃ outer inner, Snapshot.parse (nextHopsText "\x7b\"\\\"][\\\"0\":null\x7d") = .error ⟨outer, .notObject⟩ ∧
      Snapshot.parse (nextHopsText "\x7b\"\":\x7b\"0\":null\x7d\x7d") = .error ⟨inner, .notArray⟩ ∧
      outer.text = "$.nextHops[\"\\\"][\\\"0\"]" ∧ inner.text = "$.nextHops[\"\"][\"0\"]" ∧
      outer.text ≠ inner.text := by
  refine ⟨(Path.root.field .nextHops).key "\"][\"0", ((Path.root.field .nextHops).key "").key "0", by decide +kernel,
    by decide +kernel, by decide +kernel, by decide +kernel, fun heq => ?_⟩
  exact absurd (error_paths_differ.2 heq) (by decide)

end NetDiagram
