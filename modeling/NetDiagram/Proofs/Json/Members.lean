import NetDiagram.Proofs.Json.Grammar
import NetDiagram.Proofs.Occurrences

/-!
# Members and their order

Putting the members of a text one after the other leaves each key once, at its
first place and with its last value, and no other list does. Visiting takes the
keys that spell an array index in ascending order and then the rest as they
stand.
-/

namespace NetDiagram

namespace Members

variable {α : Type}

/-! ## One member for each key -/

theorem get?_eq_none_iff {key : Text} {ms : Members α} : get? key ms = none ↔ key ∉ ms.map Prod.fst := by
  induction ms with
  | nil => simp [get?]
  | cons m ms ih =>
    obtain ⟨k, v⟩ := m
    by_cases h : k = key
    · simp [get?, h]
    · simp [get?, h, ih, Ne.symm h]

theorem keys_put (key : Text) (value : α) (ms : Members α) :
    (put key value ms).map Prod.fst =
      if key ∈ ms.map Prod.fst then ms.map Prod.fst else ms.map Prod.fst ++ [key] := by
  induction ms with
  | nil => rfl
  | cons m ms ih =>
    obtain ⟨k, v⟩ := m
    by_cases h : k = key
    · simp [put, h]
    · simp only [put, if_neg h, List.map_cons, ih, List.mem_cons, Ne.symm h, false_or]
      split <;> simp

theorem keys_ofList (pairs : List (Text × α)) : (ofList pairs).map Prod.fst = (pairs.map Prod.fst).eraseDups := by
  induction pairs using List.reverseRecOn with
  | nil => rfl
  | append_singleton pairs p ih =>
    obtain ⟨key, value⟩ := p
    have hsnoc : ofList (pairs ++ [(key, value)]) = put key value (ofList pairs) := by simp [ofList]
    rw [hsnoc, keys_put, ih, List.map_append, List.map_singleton, eraseDups_snoc]
    simp only [List.mem_eraseDups]

theorem lastWins_ofList (pairs : List (Text × α)) : LastWins pairs (ofList pairs) :=
  ⟨keys_ofList pairs, fun key => get?_ofList key pairs⟩

/-- Lists with the same keys, each of them once, are told by the values found in them. -/
theorem eq_of_get? {ms ms' : Members α} (hkeys : ms.map Prod.fst = ms'.map Prod.fst) (hn : (ms.map Prod.fst).Nodup)
    (h : ∀ key, get? key ms = get? key ms') : ms = ms' := by
  induction ms generalizing ms' with
  | nil => exact (List.map_eq_nil_iff.mp hkeys.symm).symm
  | cons m ms ih =>
    obtain ⟨k, v⟩ := m
    cases ms' with
    | nil => cases hkeys
    | cons m' ms' =>
      obtain ⟨k', v'⟩ := m'
      simp only [List.map_cons, List.cons.injEq] at hkeys
      obtain ⟨rfl, hkeys⟩ := hkeys
      rw [List.map_cons, List.nodup_cons] at hn
      have hv : v = v' := by simpa [get?] using h k
      have htail : ms = ms' := by
        refine ih hkeys hn.2 fun key => ?_
        by_cases hk : k = key
        · subst hk
          rw [get?_eq_none_iff.mpr hn.1, get?_eq_none_iff.mpr (hkeys ▸ hn.1)]
        · simpa [get?, hk] using h key
      rw [hv, htail]

theorem LastWins.nodup {pairs : List (Text × α)} {ms : Members α} (h : LastWins pairs ms) :
    (ms.map Prod.fst).Nodup :=
  h.keys ▸ nodup_eraseDups _

theorem LastWins.eq_ofList {pairs : List (Text × α)} {ms : Members α} (h : LastWins pairs ms) : ms = ofList pairs :=
  eq_of_get? (h.keys.trans (keys_ofList pairs).symm) h.nodup fun key =>
    (h.values key).trans (get?_ofList key pairs).symm

/-! ## Looking up -/

/-- A key is found at its first place. -/
theorem get?_eq_some {key : Text} {value : α} {ms : Members α} :
    get? key ms = some value ↔ ∃ front back, ms = front ++ (key, value) :: back ∧ ∀ p ∈ front, p.1 ≠ key := by
  induction ms with
  | nil => simp [get?]
  | cons m ms ih =>
    obtain ⟨k, v⟩ := m
    rw [get?]
    by_cases hk : k = key
    · subst hk
      rw [if_pos rfl]
      constructor
      · intro h
        cases h
        exact ⟨[], ms, rfl, List.forall_mem_nil _⟩
      · rintro ⟨_ | ⟨p, front⟩, back, heq, hfront⟩
        · cases heq
          rfl
        · cases heq
          exact absurd rfl (hfront _ List.mem_cons_self)
    · rw [if_neg hk, ih]
      constructor
      · rintro ⟨front, back, rfl, hfront⟩
        exact ⟨(k, v) :: front, back, rfl, List.forall_mem_cons.mpr ⟨hk, hfront⟩⟩
      · rintro ⟨_ | ⟨p, front⟩, back, heq, hfront⟩
        · cases heq
          exact absurd rfl hk
        · cases heq
          exact ⟨front, back, rfl, (List.forall_mem_cons.mp hfront).2⟩

/-- Looking from the end a key is found at its last place. -/
theorem get?_reverse_eq_some {key : Text} {value : α} {pairs : List (Text × α)} :
    get? key pairs.reverse = some value ↔
      ∃ before after, pairs = before ++ (key, value) :: after ∧ ∀ p ∈ after, p.1 ≠ key := by
  rw [get?_eq_some]
  constructor
  · rintro ⟨front, back, heq, hfront⟩
    refine ⟨back.reverse, front.reverse, ?_, by simpa using hfront⟩
    rw [← pairs.reverse_reverse, heq]
    simp
  · rintro ⟨before, after, rfl, hafter⟩
    exact ⟨after.reverse, before.reverse, by simp, by simpa using hafter⟩

theorem mem_of_get? {key : Text} {value : α} {ms : Members α} (h : get? key ms = some value) : (key, value) ∈ ms := by
  obtain ⟨front, back, rfl, -⟩ := get?_eq_some.mp h
  simp

theorem get?_of_mem {key : Text} {value : α} {ms : Members α} (hn : (ms.map Prod.fst).Nodup)
    (h : (key, value) ∈ ms) : get? key ms = some value := by
  obtain ⟨front, back, rfl⟩ := List.append_of_mem h
  refine get?_eq_some.mpr ⟨front, back, rfl, fun p hp heq => ?_⟩
  rw [List.map_append, List.map_cons, List.nodup_middle, List.nodup_cons] at hn
  have hmem : p.1 ∈ front.map Prod.fst := List.mem_map_of_mem hp
  rw [heq] at hmem
  exact hn.1 (List.mem_append_left _ hmem)

/-- Where no key is repeated the order of the members does not matter. -/
theorem get?_perm {ms ns : Members α} (hperm : ms.Perm ns) (hn : (ms.map Prod.fst).Nodup) (key : Text) :
    get? key ms = get? key ns := by
  have hn' : (ns.map Prod.fst).Nodup := (hperm.map Prod.fst).nodup_iff.mp hn
  cases h : get? key ms with
  | some value => exact (get?_of_mem hn' (hperm.mem_iff.mp (mem_of_get? h))).symm
  | none =>
    rw [get?_eq_none_iff, (hperm.map Prod.fst).mem_iff, ← get?_eq_none_iff] at h
    exact h.symm

/-! ## Order of visit -/

def visited (ms : Members α) : Members α :=
  (ms.filter fun m => (arrayIndex? m.1).isSome).insertionSort
      (fun m n => (arrayIndex? m.1).getD 0 ≤ (arrayIndex? n.1).getD 0) ++
    ms.filter fun m => (arrayIndex? m.1).isNone

theorem precedes_iff {a b : Text} :
    Precedes a b ↔ (arrayIndex? a).isSome ∧
      (arrayIndex? b = none ∨ (arrayIndex? a).getD 0 < (arrayIndex? b).getD 0 ∧ (arrayIndex? b).isSome) := by
  unfold Precedes
  cases arrayIndex? a <;> cases arrayIndex? b <;> simp

theorem place_of_others {m : Text × α} {ys : Members α} (hy : ∀ y ∈ ys, arrayIndex? y.1 = none) :
    place m ys = m :: ys := by
  cases ys with
  | nil => rfl
  | cons y ys =>
    have hp : ¬ Precedes y.1 m.1 := by simp [precedes_iff, hy y (by simp)]
    simp [place, hp]

theorem place_append_of_index {m : Text × α} {xs ys : Members α} (hm : (arrayIndex? m.1).isSome)
    (hx : ∀ x ∈ xs, (arrayIndex? x.1).isSome) (hy : ∀ y ∈ ys, arrayIndex? y.1 = none) :
    place m (xs ++ ys) =
      xs.orderedInsert (fun m n => (arrayIndex? m.1).getD 0 ≤ (arrayIndex? n.1).getD 0) m ++ ys := by
  induction xs with
  | nil => exact place_of_others hy
  | cons x xs ih =>
    have hx' := hx x (by simp)
    have hp : Precedes x.1 m.1 ↔ ¬ (arrayIndex? m.1).getD 0 ≤ (arrayIndex? x.1).getD 0 := by
      rw [precedes_iff, Nat.not_le]
      simp [hx', Option.isSome_iff_ne_none.mp hm, hm]
    rw [List.cons_append, place, List.orderedInsert_cons, ih fun x h => hx x (by simp [h])]
    by_cases h : (arrayIndex? m.1).getD 0 ≤ (arrayIndex? x.1).getD 0 <;> simp [hp, h]

theorem place_append_of_other {m : Text × α} {xs ys : Members α} (hm : arrayIndex? m.1 = none)
    (hx : ∀ x ∈ xs, (arrayIndex? x.1).isSome) (hy : ∀ y ∈ ys, arrayIndex? y.1 = none) :
    place m (xs ++ ys) = xs ++ m :: ys := by
  induction xs with
  | nil => exact place_of_others hy
  | cons x xs ih =>
    have hp : Precedes x.1 m.1 := by simp [precedes_iff, hx x (by simp), hm]
    rw [List.cons_append, place, if_pos hp, ih fun x h => hx x (by simp [h])]
    rfl

/-- Placing the members one by one sorts those with an index as key and keeps the order of the others. -/
theorem inOrder_eq_visited (ms : Members α) : inOrder ms = visited ms := by
  unfold inOrder visited
  induction ms with
  | nil => rfl
  | cons m ms ih =>
    have hx : ∀ x ∈ (ms.filter fun m => (arrayIndex? m.1).isSome).insertionSort
        (fun m n => (arrayIndex? m.1).getD 0 ≤ (arrayIndex? n.1).getD 0), (arrayIndex? x.1).isSome := by
      intro x hx
      simpa using (List.mem_filter.mp ((List.mem_insertionSort _).mp hx)).2
    have hy : ∀ y ∈ ms.filter fun m => (arrayIndex? m.1).isNone, arrayIndex? y.1 = none := by
      intro y hy
      simpa using (List.mem_filter.mp hy).2
    rw [List.foldr_cons, ih]
    cases hm : arrayIndex? m.1 with
    | none => rw [place_append_of_other hm hx hy]; simp [hm]
    | some i => rw [place_append_of_index (by simp [hm]) hx hy]; simp [hm]

end Members

end NetDiagram
