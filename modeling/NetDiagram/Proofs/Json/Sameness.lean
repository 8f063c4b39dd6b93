import NetDiagram.Proofs.Json.Members

/-!
# Values but for the order of members

Objects are maps: two values are the same when they differ in nothing but the
order in which their objects hold their keys. The elements of an array keep
their places.
-/

namespace NetDiagram

/-! ## Records -/

namespace Members

section
variable {α β γ : Type} {R : α → β → Prop} {S : β → γ → Prop}

structure SameEntries (R : α → β → Prop) (ms : Members α) (ns : Members β) : Prop where
  keys : (ms.map Prod.fst).Perm (ns.map Prod.fst)
  values : ∀ key v w, get? key ms = some v → get? key ns = some w → R v w

variable {ms : Members α} {ns : Members β} {ls : Members γ}

theorem SameEntries.rel (h : SameEntries R ms ns) (key : Text) : Option.Rel R (get? key ms) (get? key ns) := by
  cases hv : get? key ms with
  | none =>
    rw [get?_eq_none_iff, h.keys.mem_iff, ← get?_eq_none_iff] at hv
    rw [hv]
    exact .none
  | some v =>
    cases hw : get? key ns with
    | none =>
      rw [get?_eq_none_iff, ← h.keys.mem_iff, ← get?_eq_none_iff, hv] at hw
      cases hw
    | some w => exact .some (h.values key v w hv hw)

theorem SameEntries.trans (h : SameEntries R ms ns) (h' : SameEntries S ns ls) :
    SameEntries (fun v w => ∃ u, R v u ∧ S u w) ms ls := by
  refine ⟨h.keys.trans h'.keys, fun key v w hv hw => ?_⟩
  have hrel := h.rel key
  rw [hv] at hrel
  cases hu : get? key ns with
  | none =>
    rw [hu] at hrel
    cases hrel
  | some u => exact ⟨u, h.values key v u hv hu, h'.values key u w hu hw⟩

theorem SameEntries.mono {T : α → β → Prop} (h : SameEntries R ms ns)
    (hRT : ∀ key v w, (key, v) ∈ ms → R v w → T v w) : SameEntries T ms ns :=
  ⟨h.keys, fun key v w hv hw => hRT key v w (mem_of_get? hv) (h.values key v w hv hw)⟩

theorem SameEntries.exists_of_mem (h : SameEntries R ms ns) (hn : (ns.map Prod.fst).Nodup) {key : Text} {w : β}
    (hw : (key, w) ∈ ns) : ∃ v, (key, v) ∈ ms ∧ R v w := by
  have hrel := h.rel key
  rw [get?_of_mem hn hw] at hrel
  cases hv : get? key ms with
  | none =>
    rw [hv] at hrel
    cases hrel
  | some v => exact ⟨v, mem_of_get? hv, h.values key v w hv (get?_of_mem hn hw)⟩

theorem sameEntries_of_perm {ms ns : Members α} (h : ms.Perm ns) (hn : (ms.map Prod.fst).Nodup) :
    SameEntries Eq ms ns := by
  refine ⟨h.map Prod.fst, fun key v w hv hw => ?_⟩
  rw [get?_perm h hn, hw] at hv
  exact (Option.some.inj hv).symm

theorem sameEntries_of_forall₂ (h : List.Forall₂ (fun m n => m.1 = n.1 ∧ R m.2 n.2) ms ns) : SameEntries R ms ns := by
  induction h with
  | nil => exact ⟨.refl _, fun key v w hv _ => by cases hv⟩
  | @cons m n ms ns hmn hrest ih =>
    obtain ⟨key, v⟩ := m
    obtain ⟨key', w⟩ := n
    obtain ⟨rfl, hvw⟩ := hmn
    refine ⟨ih.keys.cons key, fun k v' w' hv' hw' => ?_⟩
    rw [get?] at hv' hw'
    split at hv'
    · rename_i hk
      rw [if_pos hk] at hw'
      cases hv'
      cases hw'
      exact hvw
    · rename_i hk
      rw [if_neg hk] at hw'
      exact ih.values k v' w' hv' hw'

end

theorem get?_map {α β : Type} (f : α → β) (ms : Members α) (key : Text) :
    get? key (ms.map fun m => (m.1, f m.2)) = (get? key ms).map f := by
  induction ms with
  | nil => rfl
  | cons m ms ih =>
    rw [List.map_cons, get?, get?, ih]
    split <;> rfl

theorem SameEntries.of_map {α β γ : Type} {R : β → γ → Prop} {f : α → β} {ms : Members α} {ns : Members γ}
    (h : SameEntries R (ms.map fun m => (m.1, f m.2)) ns) : SameEntries (fun v w => R (f v) w) ms ns := by
  refine ⟨by simpa [Function.comp_def] using h.keys, fun key v w hv hw => h.values key (f v) w ?_ hw⟩
  rw [get?_map, hv, Option.map_some]

@[simp]
theorem get?_append {α : Type} (key : Text) (ms ns : Members α) :
    get? key (ms ++ ns) = (get? key ms).or (get? key ns) := by
  induction ms with
  | nil => rfl
  | cons m ms ih =>
    rw [List.cons_append, get?, get?, ih]
    split <;> rfl

end Members

/-! ## Values -/

namespace Json

/-- The same value but for the order of the members of its objects. -/
inductive Same : Json → Json → Prop
  | null : Same .null .null
  | bool (value : Bool) : Same (.bool value) (.bool value)
  | number (value : Binary64) : Same (.number value) (.number value)
  | string (value : Text) : Same (.string value) (.string value)
  | array {vs ws : List Json} (length : vs.length = ws.length)
      (elements : ∀ (i : Nat) (v w : Json), vs[i]? = some v → ws[i]? = some w → Same v w) : Same (.array vs) (.array ws)
  | object {ms ns : List (Text × Json)} (keys : (ms.map Prod.fst).Perm (ns.map Prod.fst))
      (values : ∀ (key : Text) (v w : Json), Members.get? key ms = some v → Members.get? key ns = some w → Same v w) :
      Same (.object ms) (.object ns)

theorem same_array_iff {vs : List Json} {w : Json} :
    Same (.array vs) w ↔ ∃ ws, w = .array ws ∧ List.Forall₂ Same vs ws := by
  simp only [List.forall₂_iff_get]
  constructor
  · intro h
    cases h with
    | array hlength helements =>
      refine ⟨_, rfl, hlength, fun i hi hi' => ?_⟩
      exact helements i _ _ (List.getElem?_eq_getElem hi) (List.getElem?_eq_getElem hi')
  · rintro ⟨ws, rfl, hlength, helements⟩
    refine .array hlength fun i v w hv hw => ?_
    obtain ⟨hi, rfl⟩ := List.getElem?_eq_some_iff.mp hv
    obtain ⟨hi', rfl⟩ := List.getElem?_eq_some_iff.mp hw
    exact helements i hi hi'

theorem same_object_iff {ms : Members Json} {w : Json} :
    Same (.object ms) w ↔ ∃ ns, w = .object ns ∧ Members.SameEntries Same ms ns := by
  constructor
  · intro h
    cases h with
    | object hkeys hvalues => exact ⟨_, rfl, hkeys, hvalues⟩
  · rintro ⟨ns, rfl, hkeys, hvalues⟩
    exact .object hkeys hvalues

/-- Induction with the elements of an array and the values of an object. -/
theorem induction {p : Json → Prop} (null : p .null) (bool : ∀ value, p (.bool value))
    (number : ∀ value, p (.number value)) (string : ∀ value, p (.string value))
    (array : ∀ vs, (∀ v ∈ vs, p v) → p (.array vs)) (object : ∀ ms, (∀ m ∈ ms, p m.2) → p (.object ms)) (v : Json) :
    p v :=
  @Json.rec p (fun vs => ∀ v ∈ vs, p v) (fun ms => ∀ m ∈ ms, p m.2) (fun m => p m.2) null bool number string array
    object (List.forall_mem_nil _) (fun _ _ hv hvs => List.forall_mem_cons.mpr ⟨hv, hvs⟩) (List.forall_mem_nil _)
    (fun _ _ hm hms => List.forall_mem_cons.mpr ⟨hm, hms⟩) (fun _ _ hv => hv) v

theorem Same.refl (v : Json) : Same v v := by
  induction v using induction with
  | null => exact .null
  | bool value => exact .bool value
  | number value => exact .number value
  | string value => exact .string value
  | array vs ih =>
    refine .array rfl fun i v w hv hw => ?_
    obtain rfl := Option.some.inj (hv.symm.trans hw)
    exact ih v (List.mem_of_getElem? hv)
  | object ms ih =>
    refine .object (.refl _) fun key v w hv hw => ?_
    obtain rfl := Option.some.inj (hv.symm.trans hw)
    exact ih (key, v) (Members.mem_of_get? hv)

theorem Same.trans {u v w : Json} (h : Same u v) (h' : Same v w) : Same u w := by
  induction h generalizing w with
  | null | bool | number | string => exact h'
  | @array us vs hlength _ ih =>
    cases h' with
    | @array _ ws hlength' helements' =>
      refine .array (hlength.trans hlength') fun i u w hu hw => ?_
      obtain ⟨hi, rfl⟩ := List.getElem?_eq_some_iff.mp hw
      have hv := List.getElem?_eq_getElem (hlength'.symm ▸ hi)
      exact ih i u _ hu hv (helements' i _ _ hv hw)
  | @object ls ms hkeys _ ih =>
    cases h' with
    | @object _ ns hkeys' hvalues' =>
      refine .object (hkeys.trans hkeys') fun key u w hu hw => ?_
      -- the object in the middle has the key as well
      cases hv : Members.get? key ms with
      | none =>
        rw [Members.get?_eq_none_iff, hkeys'.mem_iff, ← Members.get?_eq_none_iff, hw] at hv
        cases hv
      | some v => exact ih key u v hu hv (hvalues' key v w hv hw)

/-! ## Values inside a value -/

inductive Within : Json → Json → Prop
  | self (v : Json) : Within v v
  | element {u v : Json} {vs : List Json} : v ∈ vs → Within u v → Within u (.array vs)
  | member {u v : Json} {key : Text} {ms : List (Text × Json)} : (key, v) ∈ ms → Within u v → Within u (.object ms)

section
variable {u : Json}

@[simp]
theorem within_null_iff : Within u .null ↔ u = .null :=
  ⟨fun h => by cases h; rfl, fun h => h ▸ .self _⟩

@[simp]
theorem within_bool_iff {value : Bool} : Within u (.bool value) ↔ u = .bool value :=
  ⟨fun h => by cases h; rfl, fun h => h ▸ .self _⟩

@[simp]
theorem within_number_iff {value : Binary64} : Within u (.number value) ↔ u = .number value :=
  ⟨fun h => by cases h; rfl, fun h => h ▸ .self _⟩

@[simp]
theorem within_string_iff {value : Text} : Within u (.string value) ↔ u = .string value :=
  ⟨fun h => by cases h; rfl, fun h => h ▸ .self _⟩

@[simp]
theorem within_array_iff {vs : List Json} : Within u (.array vs) ↔ u = .array vs ∨ ∃ v ∈ vs, Within u v := by
  constructor
  · intro h
    cases h with
    | self => exact .inl rfl
    | element hv hu => exact .inr ⟨_, hv, hu⟩
  · rintro (rfl | ⟨v, hv, hu⟩)
    · exact .self _
    · exact .element hv hu

@[simp]
theorem within_object_iff {ms : Members Json} : Within u (.object ms) ↔ u = .object ms ∨ ∃ m ∈ ms, Within u m.2 := by
  constructor
  · intro h
    cases h with
    | self => exact .inl rfl
    | member hm hu => exact .inr ⟨_, hm, hu⟩
  · rintro (rfl | ⟨m, hm, hu⟩)
    · exact .self _
    · exact .member hm hu

end

/-- All numbers are finite and none is the negative zero, which has no text of its own. -/
def HasPlainNumbers (v : Json) : Prop :=
  ∀ x, Within (.number x) v → x.isFinite ∧ x ≠ .zero true

def HasDistinctKeys (v : Json) : Prop :=
  ∀ ms, Within (.object ms) v → (ms.map Prod.fst).Nodup

@[simp]
theorem hasDistinctKeys_array_iff {vs : List Json} : HasDistinctKeys (.array vs) ↔ ∀ v ∈ vs, v.HasDistinctKeys := by
  simp only [HasDistinctKeys, within_array_iff, reduceCtorEq, false_or]
  exact ⟨fun h v hv ms hms => h ms ⟨v, hv, hms⟩, fun h ms ⟨v, hv, hms⟩ => h v hv ms hms⟩

@[simp]
theorem hasDistinctKeys_object_iff {ms : Members Json} :
    HasDistinctKeys (.object ms) ↔ (ms.map Prod.fst).Nodup ∧ ∀ m ∈ ms, m.2.HasDistinctKeys := by
  constructor
  · exact fun h => ⟨h ms (.self _), fun m hm ns hns => h ns (.member hm hns)⟩
  · rintro ⟨hn, h⟩ ns hns
    obtain hself | ⟨m, hm, hns⟩ := within_object_iff.mp hns
    · cases hself
      exact hn
    · exact h m hm ns hns

theorem HasDistinctKeys.value {ms : Members Json} (h : HasDistinctKeys (.object ms)) (key : Text) {v : Json}
    (hv : Members.get? key ms = some v) : v.HasDistinctKeys :=
  (hasDistinctKeys_object_iff.mp h).2 _ (Members.mem_of_get? hv)

@[simp]
theorem hasDistinctKeys_number (x : Binary64) : HasDistinctKeys (.number x) := by
  simp [HasDistinctKeys]

@[simp]
theorem hasDistinctKeys_string (s : Text) : HasDistinctKeys (.string s) := by
  simp [HasDistinctKeys]

@[simp]
theorem hasDistinctKeys_bool (b : Bool) : HasDistinctKeys (.bool b) := by
  simp [HasDistinctKeys]

/-- What stands inside one of two same values has its like inside the other. -/
theorem Same.within {u v w : Json} (h : Same v w) (hkeys : v.HasDistinctKeys) (hu : Within u w) :
    ∃ x, Within x v ∧ Same x u := by
  induction hu generalizing v with
  | self => exact ⟨v, .self v, h⟩
  | @element w ws hw _ ih =>
    cases h with
    | @array vs _ hlength helements =>
      obtain ⟨i, hi, rfl⟩ := List.getElem_of_mem hw
      have hv : vs[i]? = some _ := List.getElem?_eq_getElem (hlength.symm ▸ hi)
      have hmem := List.mem_of_getElem? hv
      obtain ⟨x, hx, hsame⟩ := ih (helements i _ _ hv (List.getElem?_eq_getElem hi))
        (hasDistinctKeys_array_iff.mp hkeys _ hmem)
      exact ⟨x, .element hmem hx, hsame⟩
  | @member w key ns hw _ ih =>
    cases h with
    | @object ms _ hperm hvalues =>
      obtain ⟨hn, hparts⟩ := hasDistinctKeys_object_iff.mp hkeys
      have hentries : Members.SameEntries Same ms ns := ⟨hperm, hvalues⟩
      obtain ⟨v, hv, hsame⟩ := hentries.exists_of_mem (hperm.nodup_iff.mp hn) hw
      obtain ⟨x, hx, hlike⟩ := ih hsame (hparts _ hv)
      exact ⟨x, .member hv hx, hlike⟩

theorem Same.hasPlainNumbers {v w : Json} (h : Same v w) (hkeys : v.HasDistinctKeys) (hv : v.HasPlainNumbers) :
    w.HasPlainNumbers := by
  intro x hx
  obtain ⟨u, hu, hsame⟩ := h.within hkeys hx
  cases hsame
  exact hv x hu

theorem Same.hasDistinctKeys {v w : Json} (h : Same v w) (hkeys : v.HasDistinctKeys) : w.HasDistinctKeys := by
  intro ns hns
  obtain ⟨u, hu, hsame⟩ := h.within hkeys hns
  cases hsame with
  | object hperm _ => exact hperm.nodup_iff.mp (hkeys _ hu)

end Json

end NetDiagram
