import NetDiagram.Proofs.Json.Parsing
import NetDiagram.Proofs.Results
import NetDiagram.Proofs.Snapshot.Checks

/-!
# The first fault

A reader of a value reports the first check that fails, and gives a value when
none does. That is proved reader by reader, and the parts of a larger reader
meet its checks in the order of the list.
-/

namespace NetDiagram

/-! ## Reports -/

def Reports {α : Type} (r : Except SnapshotError α) (checks : List Check) : Prop :=
  match r with
  | .ok _ => ∀ c ∈ checks, c.Holds
  | .error e => FirstViolation checks e

section
variable {α β : Type} {cs ds : List Check}

theorem FirstViolation.append_right {e : SnapshotError} (h : FirstViolation cs e) (ds : List Check) :
    FirstViolation (cs ++ ds) e := by
  obtain ⟨before, c, after, rfl, hbefore, hc, he⟩ := h
  exact ⟨before, c, after ++ ds, by simp, hbefore, hc, he⟩

theorem FirstViolation.append_left {e : SnapshotError} (hcs : ∀ c ∈ cs, c.Holds) (h : FirstViolation ds e) :
    FirstViolation (cs ++ ds) e := by
  obtain ⟨before, c, after, rfl, hbefore, hc, he⟩ := h
  refine ⟨cs ++ before, c, after, by simp, ?_, hc, he⟩
  intro d hd
  rcases List.mem_append.mp hd with hd | hd
  · exact hcs d hd
  · exact hbefore d hd

theorem FirstViolation.head {c : Check} (h : ¬ c.Holds) : FirstViolation (c :: cs) ⟨c.path, c.fault⟩ :=
  ⟨[], c, cs, rfl, by simp, h, rfl⟩

theorem firstViolation_cons {c : Check} {e : SnapshotError} :
    FirstViolation (c :: cs) e ↔ (¬ c.Holds ∧ e = ⟨c.path, c.fault⟩) ∨ (c.Holds ∧ FirstViolation cs e) := by
  constructor
  · intro h
    obtain ⟨before, d, after, heq, hbefore, hd, he⟩ := h
    cases before with
    | nil =>
      obtain ⟨rfl, -⟩ := List.cons.inj heq
      exact .inl ⟨hd, he⟩
    | cons b before =>
      obtain ⟨rfl, htail⟩ := List.cons.inj heq
      exact .inr ⟨hbefore c (by simp), before, d, after, htail, fun x hx => hbefore x (by simp [hx]), hd, he⟩
  · intro h
    rcases h with ⟨hc, rfl⟩ | ⟨hc, h⟩
    · exact .head hc
    · have hone : ∀ d ∈ [c], d.Holds := by simpa using hc
      exact FirstViolation.append_left hone h

theorem reports_ok (a : α) : Reports (.ok a) [] := by
  simp [Reports]

/-- Where the first of two steps goes wrong the second one is not taken, so its checks come behind. -/
theorem Reports.bind {r : Except SnapshotError α} {f : α → Except SnapshotError β} (hr : Reports r cs)
    (hf : ∀ a, r = .ok a → Reports (f a) ds) : Reports (r >>= f) (cs ++ ds) := by
  cases r with
  | error e => exact FirstViolation.append_right hr ds
  | ok a =>
    have ha := hf a rfl
    show Reports (f a) (cs ++ ds)
    unfold Reports at hr ha ⊢
    cases hfa : f a with
    | error e =>
      rw [hfa] at ha
      exact FirstViolation.append_left hr ha
    | ok b =>
      rw [hfa] at ha
      intro c hc
      rcases List.mem_append.mp hc with hc | hc
      · exact hr c hc
      · exact ha c hc

theorem Reports.cons {r : Except SnapshotError α} {c : Check} (hc : c.Holds) (hr : Reports r cs) :
    Reports r (c :: cs) := by
  cases r with
  | error e => exact firstViolation_cons.mpr (.inr ⟨hc, hr⟩)
  | ok a => exact List.forall_mem_cons.mpr ⟨hc, hr⟩

theorem Reports.map {r : Except SnapshotError α} (f : α → β) (hr : Reports r cs) : Reports (f <$> r) cs := by
  cases r with
  | error e => exact hr
  | ok a => exact hr

theorem reports_mapM {f : α → Except SnapshotError β} {g : α → List Check} {xs : List α}
    (h : ∀ x ∈ xs, Reports (f x) (g x)) : Reports (xs.mapM f) (xs.flatMap g) := by
  induction xs with
  | nil => exact reports_ok []
  | cons x xs ih =>
    rw [List.mapM_cons, List.flatMap_cons]
    apply Reports.bind (h x (by simp))
    intro y _
    rw [← List.append_nil (xs.flatMap g)]
    apply Reports.bind (ih fun x hx => h x (by simp [hx]))
    intro ys _
    exact reports_ok _

theorem FirstViolation.unique {e e' : SnapshotError} (h : FirstViolation cs e) (h' : FirstViolation cs e') :
    e = e' := by
  induction cs with
  | nil =>
    obtain ⟨before, c, after, heq, -⟩ := h
    simp at heq
  | cons c cs ih =>
    rw [firstViolation_cons] at h h'
    rcases h with ⟨hc, he⟩ | ⟨hc, h⟩
    · rcases h' with ⟨-, he'⟩ | ⟨hc', -⟩
      · exact he.trans he'.symm
      · exact absurd hc' hc
    · rcases h' with ⟨hc', -⟩ | ⟨-, h'⟩
      · exact absurd hc hc'
      · exact ih h h'

theorem FirstViolation.not_all {e : SnapshotError} (h : FirstViolation cs e) : ¬ ∀ c ∈ cs, c.Holds := by
  obtain ⟨before, c, after, rfl, -, hc, -⟩ := h
  intro hall
  exact hc (hall c (by simp))

theorem Reports.error_iff {r : Except SnapshotError α} (h : Reports r cs) {e : SnapshotError} :
    r = .error e ↔ FirstViolation cs e := by
  cases r with
  | error e' =>
    rw [Except.error.injEq]
    constructor
    · intro he
      exact he ▸ h
    · intro he
      exact FirstViolation.unique h he
  | ok a =>
    constructor
    · intro he
      cases he
    · intro he
      exact absurd h he.not_all

theorem Reports.ok_iff {r : Except SnapshotError α} (h : Reports r cs) : (∃ a, r = .ok a) ↔ ∀ c ∈ cs, c.Holds := by
  cases r with
  | error e =>
    constructor
    · intro hok
      obtain ⟨a, ha⟩ := hok
      cases ha
    · intro hall
      exact absurd hall h.not_all
  | ok a => exact ⟨fun _ => h, fun _ => ⟨a, rfl⟩⟩

end

/-! ## Router ids -/

theorem Binary64.signed_eq_natural {negative : Bool} {k n : ℕ} :
    signed negative k = n ↔ k = n ∧ (negative = false ∨ n = 0) := by
  cases negative
  · simp [signed]
  · simp only [signed, if_true, reduceCtorEq, false_or]
    omega

theorem Binary64.isNatural_iff {x : Binary64} :
    x.IsNatural ↔ x.isFinite ∧ ∃ n : ℕ, x.absValue? = some (n : ℚ) ∧ (x.sign? = some false ∨ n = 0) := by
  cases x with
  | nan => simp [IsNatural, integer?, isFinite]
  | infinity negative => simp [IsNatural, integer?, isFinite]
  | finite negative sig exp fits =>
    have hpos : 0 < unitsPerOne := by exact_mod_cast unitsPerOne_pos
    have hvalue : ∀ n : ℕ, (magnitude sig exp : ℚ) / unitsPerOne = n ↔ magnitude sig exp = n * unitsPerOne := by
      intro n
      rw [div_eq_iff unitsPerOne_pos.ne']
      exact_mod_cast Iff.rfl
    -- an integer is a multiple of the units of one, and its sign is that of the number
    have hinteger : ∀ n : ℕ, (Binary64.finite negative sig exp fits).integer? = some (n : ℤ) ↔
        magnitude sig exp = n * unitsPerOne ∧ (negative = false ∨ n = 0) := by
      intro n
      unfold integer?
      dsimp only
      split
      · rename_i hdvd
        have hmul := Nat.div_mul_cancel (Nat.dvd_of_mod_eq_zero hdvd)
        rw [Option.some.injEq, signed_eq_natural, Nat.div_eq_iff_eq_mul_left hpos (Nat.dvd_of_mod_eq_zero hdvd)]
      · rename_i hdvd
        constructor
        · intro h
          cases h
        · intro h
          exact absurd (h.1 ▸ Nat.mul_mod_left n unitsPerOne) hdvd
    show (∃ n : ℕ, (Binary64.finite negative sig exp fits).integer? = some (n : ℤ)) ↔ _
    simp only [hinteger, isFinite, absValue?, sign?, Option.some.injEq, hvalue, true_and]

namespace Reader

variable {α β : Type}

def Performs (read : Reader α) (checks : Checks) : Prop :=
  ∀ value path, Reports (read value path) (checks value path)

/-! ## Single values -/

theorem performs_one {read : Reader α} {fault : Fault} {Shape : Json → Prop}
    (habsent : ∀ path, read none path = .error ⟨path, fault⟩)
    (hpresent : ∀ v path, (Shape v ∧ ∃ a, read (some v) path = .ok a) ∨
      (¬ Shape v ∧ read (some v) path = .error ⟨path, fault⟩)) :
    Performs read (Checks.one fault Shape) := by
  intro value path
  cases value with
  | none =>
    rw [habsent]
    apply FirstViolation.head
    simp
  | some v =>
    rcases hpresent v path with ⟨hv, a, ha⟩ | ⟨hv, he⟩
    · rw [ha]
      simpa [Reports, Checks.one] using hv
    · rw [he]
      apply FirstViolation.head
      simpa using hv

theorem performs_object : Performs object Checks.isObject := by
  apply performs_one
  · intro path
    rfl
  · intro v path
    cases v <;> simp [object, fail, Json.IsObject]

theorem performs_array : Performs array Checks.isArray := by
  apply performs_one
  · intro path
    rfl
  · intro v path
    cases v <;> simp [array, fail, Json.IsArray]

theorem performs_string : Performs string Checks.isString := by
  apply performs_one
  · intro path
    rfl
  · intro v path
    cases v <;> simp [string, fail, Json.IsString]

theorem performs_number : Performs number Checks.isNumber := by
  apply performs_one
  · intro path
    rfl
  · intro v path
    cases v <;> simp [number, fail, Json.IsNumber]

theorem performs_boolean : Performs boolean Checks.isBoolean := by
  apply performs_one
  · intro path
    rfl
  · intro v path
    cases v <;> simp [boolean, fail, Json.IsBoolean]

theorem performs_routerId : Performs routerId Checks.isRouterId := by
  apply performs_one
  · intro path
    rfl
  · intro v path
    cases v with
    | number x =>
      by_cases hx : x.IsNatural
      · simp [routerId, Json.IsRouterId, ← Binary64.isNatural_iff, hx]
      · simp [routerId, fail, Json.IsRouterId, ← Binary64.isNatural_iff, hx]
    | _ => simp [routerId, fail, Json.IsRouterId]

theorem isKind_iff {name : Text} : Json.IsKind name ↔ (SessionKind.ofName? name).isSome := by
  unfold Json.IsKind SessionKind.ofName?
  rw [List.find?_isSome]
  simp [SessionKind.all, SessionKind.name, eq_comm]

theorem performs_sessionKind : Performs sessionKind (Checks.inTurn [Checks.isString, Checks.isKnownKind]) := by
  intro value path
  unfold sessionKind
  simp only [Checks.inTurn, List.flatMap_cons, List.flatMap_nil, List.append_nil]
  apply Reports.bind (performs_string value path)
  intro name hname
  obtain rfl : value = some (.string name) := by
    unfold string at hname
    split at hname
    · cases hname
      rfl
    · cases hname
  by_cases hk : (SessionKind.ofName? name).isSome
  · rw [if_pos hk]
    intro c hc
    obtain rfl := List.mem_singleton.mp hc
    exact isKind_iff.mpr hk
  · rw [if_neg hk]
    apply FirstViolation.head
    simpa [isKind_iff] using hk

/-! ## Parts -/

section
variable {read : Reader α} {checks : Checks}

theorem eq_object {value : Option Json} {path : Path} {members : Members Json} (h : object value path = .ok members) :
    value = some (.object members) := by
  unfold object at h
  split at h
  · cases h
    rfl
  · cases h

theorem eq_array {value : Option Json} {path : Path} {vs : List Json} (h : array value path = .ok vs) :
    value = some (.array vs) := by
  unfold array at h
  split at h
  · cases h
    rfl
  · cases h

theorem reports_required (h : Performs read checks) (field : Field) (members : Members Json) (path : Path) :
    Reports (required read field members path) (Checks.member field checks (some (.object members)) path) :=
  h _ _

theorem reports_optional (h : Performs read checks) (field : Field) (members : Members Json) (path : Path) :
    Reports (optional read field members path) (Checks.memberIfAny field checks (some (.object members)) path) := by
  unfold optional Checks.memberIfAny
  rw [Option.bind_some, Json.member?]
  cases members.get? field.key with
  | none => exact reports_ok none
  | some v => exact (h (some v) (path.field field)).map some

theorem reports_inTurn {β : Type} {r : Except SnapshotError α} {f : α → Except SnapshotError β} {c : Checks}
    {cs : List Checks} {value : Option Json} {path : Path} (hr : Reports r (c value path))
    (hf : ∀ a, r = .ok a → Reports (f a) (Checks.inTurn cs value path)) :
    Reports (r >>= f) (Checks.inTurn (c :: cs) value path) :=
  hr.bind hf

theorem reports_done (a : α) (value : Option Json) (path : Path) :
    Reports (pure a) (Checks.inTurn [] value path) :=
  reports_ok a

theorem performs_record {f : Members Json → Path → Except SnapshotError α} {cs : List Checks}
    (h : ∀ members path, Reports (f members path) (Checks.inTurn cs (some (.object members)) path)) :
    Performs (fun value path => object value path >>= fun members => f members path) (Checks.record cs) := by
  intro value path
  apply reports_inTurn (performs_object value path)
  intro members hmembers
  rw [eq_object hmembers]
  exact h members path

theorem performs_elements (h : Performs read checks) : Performs (elements read) (Checks.arrayOf checks) := by
  intro value path
  apply reports_inTurn (performs_array value path)
  intro vs hvs
  rw [eq_array hvs, Checks.inTurn, List.flatMap_singleton]
  apply reports_mapM
  intro p _
  exact h (some p.1) (path.index p.2)

theorem performs_entries (h : Performs read checks) : Performs (entries read) (Checks.recordOf checks) := by
  intro value path
  apply reports_inTurn (performs_object value path)
  intro members hmembers
  rw [eq_object hmembers, Checks.inTurn, List.flatMap_singleton, Members.inOrder_eq_visited]
  apply reports_mapM
  intro m _
  exact (h (some m.2) (path.key m.1)).map fun a => (m.1, a)

end

/-! ## Snapshots -/

theorem performs_position : Performs position Checks.position := by
  apply performs_record
  intro members path
  apply reports_inTurn (reports_required performs_number .x members path)
  intro x _
  apply reports_inTurn (reports_required performs_number .y members path)
  intro y _
  exact reports_done _ _ _

theorem performs_router : Performs router Checks.router := by
  apply performs_record
  intro members path
  apply reports_inTurn (reports_required performs_routerId .id members path)
  intro id _
  apply reports_inTurn (reports_optional performs_string .name members path)
  intro name _
  apply reports_inTurn (reports_optional performs_position .position members path)
  intro position _
  apply reports_inTurn (reports_optional performs_boolean .external members path)
  intro external _
  exact reports_done _ _ _

theorem performs_link : Performs link Checks.link := by
  apply performs_record
  intro members path
  apply reports_inTurn (reports_required performs_routerId .a members path)
  intro a _
  apply reports_inTurn (reports_required performs_routerId .b members path)
  intro b _
  apply reports_inTurn (reports_required performs_number .weight members path)
  intro weight _
  apply reports_inTurn (reports_optional performs_number .reverseWeight members path)
  intro reverseWeight _
  exact reports_done _ _ _

theorem performs_session : Performs session Checks.session := by
  apply performs_record
  intro members path
  apply reports_inTurn (reports_required performs_sessionKind .kind members path)
  intro kind _
  apply reports_inTurn (reports_required performs_routerId .source members path)
  intro source _
  apply reports_inTurn (reports_required performs_routerId .destination members path)
  intro destination _
  exact reports_done _ _ _

theorem performs_propagation : Performs propagation Checks.propagation := by
  apply performs_record
  intro members path
  apply reports_inTurn (reports_required performs_routerId .source members path)
  intro source _
  apply reports_inTurn (reports_required performs_routerId .destination members path)
  intro destination _
  exact reports_done _ _ _

/-! ## Distinct ids -/

def distinctAt (path : Path) (ids : List RouterId) (x : RouterId) (i : Nat) : Check :=
  ⟨(path.index i).field .id, .duplicateRouterId x, ∀ other ∈ ids.take i, ¬ other.Same x⟩

theorem reports_duplicate (path : Path) (before ids : List RouterId) :
    Reports
      (match duplicate? before.reverse before.length ids with
        | some (i, id) => (fail (.duplicateRouterId id) ((path.index i).field .id) : Except SnapshotError Unit)
        | none => .ok ())
      ((ids.zipIdx before.length).map fun p => distinctAt path (before ++ ids) p.1 p.2) := by
  induction ids generalizing before with
  | nil => exact reports_ok ()
  | cons x ids ih =>
    have htake : (before ++ x :: ids).take before.length = before := List.take_left
    rw [duplicate?, List.zipIdx_cons, List.map_cons]
    by_cases hx : ∃ other ∈ before.reverse, x.Same other
    · rw [if_pos hx]
      apply FirstViolation.head
      obtain ⟨other, hmem, hsame⟩ := hx
      intro hall
      exact hall other (htake.symm ▸ List.mem_reverse.mp hmem) hsame.symm
    · rw [if_neg hx]
      have hrest := ih (before ++ [x])
      rw [List.reverse_append, List.length_append, List.append_assoc] at hrest
      have hhead : (distinctAt path (before ++ x :: ids) x before.length).Holds := by
        intro other hmem hsame
        exact hx ⟨other, List.mem_reverse.mpr (htake ▸ hmem), hsame.symm⟩
      apply Reports.cons hhead
      simpa using hrest

/-- A router that was read gives its id as its number. -/
theorem routerNumber?_of_router {value : Option Json} {path : Path} {r : Router} (h : router value path = .ok r) :
    value.bind Json.routerNumber? = some r.id := by
  obtain ⟨members, hmembers, h⟩ := bind_eq_ok h
  obtain ⟨id, hid, h⟩ := bind_eq_ok h
  obtain ⟨name, -, h⟩ := bind_eq_ok h
  obtain ⟨position, -, h⟩ := bind_eq_ok h
  obtain ⟨external, -, h⟩ := bind_eq_ok h
  cases h
  have hmember : members.get? "id" = some (.number id) := by
    change routerId (members.get? "id") _ = _ at hid
    unfold routerId at hid
    split at hid
    · rename_i x path hx
      split at hid
      · cases hid
        exact hx
      · cases hid
    · cases hid
  rw [eq_object hmembers, Option.bind_some, Json.routerNumber?, Json.member?, hmember]

theorem routerNumbers_of_elements {value : Option Json} {path : Path} {routers : List Router}
    (h : elements router value path = .ok routers) :
    ∃ vs, value = some (.array vs) ∧ vs.map Json.routerNumber? = (routers.map (·.id)).map some := by
  obtain ⟨vs, hvs, h⟩ := bind_eq_ok h
  refine ⟨vs, eq_array hvs, ?_⟩
  have hmap : vs.zipIdx.map (fun p => p.1.routerNumber?) = routers.map fun r => some r.id := by
    apply map_of_mapM _ h
    intro p r hr
    exact routerNumber?_of_router hr
  calc vs.map Json.routerNumber? = (vs.zipIdx.map Prod.fst).map Json.routerNumber? := by rw [List.zipIdx_map_fst]
    _ = routers.map fun r => some r.id := by rw [← hmap, List.map_map]; rfl
    _ = (routers.map (·.id)).map some := by rw [List.map_map]; rfl

theorem areDistinct_eq {vs : List Json} {ids : List RouterId} (h : vs.map Json.routerNumber? = ids.map some)
    (path : Path) :
    Checks.areDistinct (some (.array vs)) path = ids.zipIdx.map fun p => distinctAt path ids p.1 p.2 := by
  have htake : ∀ i, (vs.take i).filterMap Json.routerNumber? = ids.take i := by
    intro i
    calc (vs.take i).filterMap Json.routerNumber? = ((vs.map Json.routerNumber?).take i).filterMap id := by
          rw [← List.map_take, List.filterMap_map]; rfl
      _ = ids.take i := by rw [h, ← List.map_take, List.filterMap_map]; simp
  calc Checks.areDistinct (some (.array vs)) path
      = vs.zipIdx.filterMap fun p => p.1.routerNumber?.map fun x => distinctAt path ids x p.2 := by
        simp only [Checks.areDistinct, htake, distinctAt]
    _ = (vs.map Json.routerNumber?).zipIdx.filterMap fun p => p.1.map fun x => distinctAt path ids x p.2 := by
        rw [List.zipIdx_map, List.filterMap_map]; rfl
    _ = ids.zipIdx.map fun p => distinctAt path ids p.1 p.2 := by
        rw [h, List.zipIdx_map, List.filterMap_map, ← List.filterMap_eq_map]; rfl

theorem reports_distinctIds {vs : List Json} {routers : List Router}
    (h : vs.map Json.routerNumber? = (routers.map (·.id)).map some) (path : Path) :
    Reports (distinctIds routers path) (Checks.areDistinct (some (.array vs)) path) := by
  rw [areDistinct_eq h]
  exact reports_duplicate path [] (routers.map (·.id))

theorem performs_snapshot : Performs snapshot Checks.snapshot := by
  apply performs_record
  intro members path
  apply reports_inTurn (reports_required (performs_elements performs_router) .routers members path)
  intro routers hrouters
  -- the ids are compared when all routers have been read
  obtain ⟨vs, hvs, hids⟩ := routerNumbers_of_elements hrouters
  have hdistinct : Reports (distinctIds routers (path.field .routers))
      (Checks.member .routers Checks.areDistinct (some (.object members)) path) := by
    show Reports _ (Checks.areDistinct (members.get? _) _)
    rw [hvs]
    exact reports_distinctIds hids _
  apply reports_inTurn hdistinct
  intro _ _
  apply reports_inTurn (reports_required (performs_elements performs_link) .links members path)
  intro links _
  apply reports_inTurn (reports_required (performs_elements performs_string) .prefixes members path)
  intro prefixes _
  apply reports_inTurn
    (reports_optional (performs_entries (performs_entries (performs_elements performs_routerId))) .nextHops members
      path)
  intro nextHops _
  apply reports_inTurn (reports_optional (performs_elements performs_session) .sessions members path)
  intro sessions _
  apply reports_inTurn
    (reports_optional (performs_entries (performs_elements performs_propagation)) .propagations members path)
  intro propagations _
  exact reports_done _ _ _

end Reader

/-! ## Texts -/

-- a key that no string has is a key of its own
example : Snapshot.parse ("\x7b\"routers\":[],\"links\":[],\"prefixes\":[]," ++
    "\"nextHops\":\x7b\"\\ud800\":5,\"\\ud801\":\x7b\x7d\x7d\x7d") =
      .error ⟨(Path.root.field .nextHops).key (.surrogate 0), .notObject⟩ := by
  decide +kernel

end NetDiagram
