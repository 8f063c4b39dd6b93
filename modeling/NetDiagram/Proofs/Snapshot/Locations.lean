import NetDiagram.Proofs.Json.Writing
import NetDiagram.Proofs.Picture.Readings
import NetDiagram.Proofs.Snapshot.FirstFault

/-!
# Locations of faults

A fault is reported at one of a fixed sort of locations, though there are as
many of them as there are keys and places. The text of a path tells the path:
each step ends before the next one begins, and a quoted key ends at its own
closing quote, whatever units it holds.
-/

namespace NetDiagram

/-! ## Quoted keys -/

namespace Grammar

theorem HexDigit.unique {u : CodeUnit} {m n : ℕ} (hm : HexDigit u m) (hn : HexDigit u n) : m = n :=
  Option.some.inj ((hexDigit?_iff.mpr hm).symm.trans (hexDigit?_iff.mpr hn))

theorem escapes_unique {c c' d e : Char} (hd : (c, d) ∈ escapes) (he : (c', e) ∈ escapes) (h : c.unit = c'.unit) :
    d.unit = e.unit :=
  Option.some.inj
    ((simpleEscape?_iff.mpr ⟨c, d, hd, rfl, rfl⟩).symm.trans (simpleEscape?_iff.mpr ⟨c', e, he, h, rfl⟩))

/-- No code goes on into another one, so that a code tells where it ends. -/
theorem Code.append_inj {as bs us vs : List CodeUnit} {u v : CodeUnit} (hu : Code as u) (hv : Code bs v)
    (h : as ++ us = bs ++ vs) : u = v ∧ us = vs := by
  cases hu with
  | plain _ _ hslash =>
    cases hv with
    | plain =>
      obtain ⟨rfl, rfl⟩ := List.cons.inj h
      exact ⟨rfl, rfl⟩
    | escape | hex => exact absurd (List.cons.inj h).1 hslash
  | escape he =>
    cases hv with
    | plain _ _ hslash => exact absurd (List.cons.inj h).1.symm hslash
    | escape he' =>
      simp only [List.cons_append, List.nil_append, List.cons.injEq, true_and] at h
      exact ⟨escapes_unique he he' h.1, h.2⟩
    | hex =>
      simp only [List.cons_append, List.cons.injEq, true_and] at h
      exact absurd h.1 (unit_ne_of_mem_escapes he)
  | hex hi hj hk hl hcode =>
    cases hv with
    | plain _ _ hslash => exact absurd (List.cons.inj h).1.symm hslash
    | escape he =>
      simp only [List.cons_append, List.cons.injEq, true_and] at h
      exact absurd h.1.symm (unit_ne_of_mem_escapes he)
    | hex hi' hj' hk' hl' hcode' =>
      simp only [List.cons_append, List.nil_append, List.cons.injEq, true_and] at h
      obtain ⟨rfl, rfl, rfl, rfl, rfl⟩ := h
      rw [hi.unique hi', hj.unique hj', hk.unique hk', hl.unique hl'] at hcode
      exact ⟨CodeUnit.ext (hcode.trans hcode'.symm), rfl⟩

theorem Code.not_quote {as us vs : List CodeUnit} {u : CodeUnit} (h : Code as u) : as ++ us ≠ '"'.unit :: vs := by
  intro heq
  cases h with
  | plain hc hquote hslash => exact hquote (List.cons.inj heq).1
  | escape | hex => exact absurd (List.cons.inj heq).1 (by decide)

/-- The spelling of a string ends at the first quote that no code has taken in. -/
theorem Codes.append_quote_inj {as bs us vs cs ds : List CodeUnit} (hu : Codes as us) (hv : Codes bs vs)
    (h : as ++ '"'.unit :: cs = bs ++ '"'.unit :: ds) : us = vs ∧ cs = ds := by
  induction hu generalizing bs vs with
  | nil =>
    cases hv with
    | nil => exact ⟨rfl, (List.cons.inj h).2⟩
    | cons hcode _ =>
      rw [List.append_assoc] at h
      exact absurd h.symm hcode.not_quote
  | cons hcode _ ih =>
    rw [List.append_assoc] at h
    cases hv with
    | nil => exact absurd h hcode.not_quote
    | cons hcode' hrest =>
      rw [List.append_assoc] at h
      obtain ⟨rfl, htail⟩ := hcode.append_inj hcode' h
      obtain ⟨rfl, hend⟩ := ih hrest htail
      exact ⟨rfl, hend⟩

end Grammar

theorem quote_append_inj {s t : Text} {as bs : List CodeUnit} (h : Quoted.quote s ++ as = Quoted.quote t ++ bs) :
    s = t ∧ as = bs := by
  simp only [Quoted.quote, List.cons_append, List.append_assoc, List.nil_append, List.cons.injEq, true_and] at h
  obtain ⟨hunits, hrest⟩ := (codes_escaped s.toList).append_quote_inj (codes_escaped t.toList) h
  exact ⟨Text.toList_inj.mp hunits, hrest⟩

/-! ## Steps -/

/-- Where a step may end: at the end of the path, or before the next step. -/
def IsBound (cs : List CodeUnit) : Prop :=
  ∀ c ∈ cs.head?, c = '.'.unit ∨ c = '['.unit

namespace Field

def all : List Field :=
  [.routers, .links, .prefixes, .nextHops, .sessions, .propagations, .id, .name, .position, .x, .y, .external, .a, .b,
    .weight, .reverseWeight, .source, .destination, .kind, .detail]

theorem mem_all (f : Field) : f ∈ all := by
  cases f <;> decide

theorem key_injective : Function.Injective key := by
  have hdistinct : (all.map key).Nodup := by simp [all, key]
  exact fun f g => List.inj_on_of_nodup_map hdistinct f.mem_all g.mem_all

theorem key_units (f : Field) : ∀ c ∈ f.key.toList, ¬ (c = '.'.unit ∨ c = '['.unit) := by
  cases f <;> decide +kernel

end Field

namespace Step

theorem isBound_units (s : Step) (cs : List CodeUnit) : IsBound (s.units ++ cs) := by
  intro c hc
  cases s with
  | field f => exact .inl (Option.some.inj hc).symm
  | index i => exact .inr (Option.some.inj hc).symm
  | key k => exact .inr (Option.some.inj hc).symm

theorem units_append_ne_nil (s : Step) (cs : List CodeUnit) : s.units ++ cs ≠ [] := by
  cases s <;> exact List.cons_ne_nil _ _

theorem index_inj {i j : ℕ} {cs ds : List CodeUnit}
    (h : Text.encode (Nat.toDigits 10 i) ++ ']'.unit :: cs = Text.encode (Nat.toDigits 10 j) ++ ']'.unit :: ds) :
    i = j ∧ cs = ds := by
  obtain ⟨hij, hrest⟩ := append_cons_inj (Grammar.bare_toDigits i) (Grammar.bare_toDigits j) (by decide) (by decide) h
  have hvalue := congrArg Numeral.value (Text.encode_inj.mp hij)
  rw [value_toDigits, value_toDigits] at hvalue
  exact ⟨hvalue, (List.cons.inj hrest).2⟩

/-- An index begins with a digit and a key with a quote. -/
theorem index_ne_key {i : ℕ} {k : Text} {cs ds : List CodeUnit} :
    Text.encode (Nat.toDigits 10 i) ++ cs ≠ Quoted.quote k ++ ds := by
  intro h
  have hbare := Grammar.bare_toDigits i
  cases hi : Text.encode (Nat.toDigits 10 i) with
  | nil => exact Nat.toDigits_ne_nil (Text.encode_inj.mp hi)
  | cons u us =>
    rw [hi] at h hbare
    have hu := hbare u List.mem_cons_self
    rw [(List.cons.inj h).1] at hu
    exact absurd hu (by decide)

/-- A step is told by its text when the next step, or nothing, stands behind it. -/
theorem units_append_inj {s t : Step} {cs ds : List CodeUnit} (hcs : IsBound cs) (hds : IsBound ds)
    (h : s.units ++ cs = t.units ++ ds) : s = t ∧ cs = ds := by
  cases s with
  | field f =>
    cases t with
    | field g =>
      have hcs : ∀ c ∈ cs.head?, ¬ ¬ (c = '.'.unit ∨ c = '['.unit) := fun c hc => not_not_intro (hcs c hc)
      have hds : ∀ d ∈ ds.head?, ¬ ¬ (d = '.'.unit ∨ d = '['.unit) := fun d hd => not_not_intro (hds d hd)
      obtain ⟨hkey, hrest⟩ := append_inj_of_head f.key_units g.key_units hcs hds (List.cons.inj h).2
      rw [Field.key_injective (Text.toList_inj.mp hkey)]
      exact ⟨rfl, hrest⟩
    | index | key => exact absurd (List.cons.inj h).1 (by decide)
  | index i =>
    cases t with
    | field g => exact absurd (List.cons.inj h).1 (by decide)
    | index j =>
      simp only [units, List.cons_append, List.append_assoc, List.nil_append, List.cons.injEq, true_and] at h
      obtain ⟨rfl, hrest⟩ := index_inj h
      exact ⟨rfl, hrest⟩
    | key k =>
      simp only [units, List.cons_append, List.append_assoc, List.cons.injEq, true_and] at h
      exact absurd h index_ne_key
  | key k =>
    cases t with
    | field g => exact absurd (List.cons.inj h).1 (by decide)
    | index j =>
      simp only [units, List.cons_append, List.append_assoc, List.cons.injEq, true_and] at h
      exact absurd h.symm index_ne_key
    | key l =>
      simp only [units, List.cons_append, List.append_assoc, List.cons.injEq, true_and] at h
      obtain ⟨rfl, hrest⟩ := quote_append_inj h
      exact ⟨rfl, (List.cons.inj hrest).2⟩

end Step

namespace Path

theorem isBound_steps (ss : List Step) : IsBound (ss.flatMap Step.units) := by
  cases ss with
  | nil => exact fun c hc => by cases hc
  | cons s ss =>
    rw [List.flatMap_cons]
    exact s.isBound_units _

theorem steps_injective : Function.Injective fun ss : List Step => ss.flatMap Step.units := by
  intro ss ts h
  induction ss generalizing ts with
  | nil =>
    cases ts with
    | nil => rfl
    | cons t ts => exact absurd h.symm (t.units_append_ne_nil _)
  | cons s ss ih =>
    cases ts with
    | nil => exact absurd h (s.units_append_ne_nil _)
    | cons t ts =>
      obtain ⟨rfl, hrest⟩ := Step.units_append_inj (isBound_steps ss) (isBound_steps ts) h
      rw [ih hrest]

/-- A path is told by its text. -/
theorem text_injective : Function.Injective text := by
  intro p q h
  have hchars := (List.cons.inj (Text.ofList_inj.mp h)).2
  cases p
  cases q
  exact congrArg mk (steps_injective hchars)

example : ((root.field .nextHops).key (.surrogate 0)).text = "$.nextHops[\"\\ud800\"]" := by
  decide +kernel

end Path

/-! ## Locations -/

inductive Path.IsLocation : Path → Prop
  | document : IsLocation .root
  | part {f : Field} : f ∈ [.routers, .links, .prefixes, .nextHops, .sessions, .propagations] →
      IsLocation (Path.root.field f)
  | router (i : ℕ) : IsLocation ((Path.root.field .routers).index i)
  | routerField (i : ℕ) {f : Field} : f ∈ [.id, .name, .position, .external] →
      IsLocation (((Path.root.field .routers).index i).field f)
  | coordinate (i : ℕ) {f : Field} : f ∈ [.x, .y] →
      IsLocation ((((Path.root.field .routers).index i).field .position).field f)
  | link (i : ℕ) : IsLocation ((Path.root.field .links).index i)
  | linkField (i : ℕ) {f : Field} : f ∈ [.a, .b, .weight, .reverseWeight] →
      IsLocation (((Path.root.field .links).index i).field f)
  | prefixText (i : ℕ) : IsLocation ((Path.root.field .prefixes).index i)
  | hopTable (key : Text) : IsLocation ((Path.root.field .nextHops).key key)
  | hopList (key router : Text) : IsLocation (((Path.root.field .nextHops).key key).key router)
  | hop (key router : Text) (i : ℕ) : IsLocation ((((Path.root.field .nextHops).key key).key router).index i)
  | session (i : ℕ) : IsLocation ((Path.root.field .sessions).index i)
  | sessionField (i : ℕ) {f : Field} : f ∈ [.kind, .source, .destination] →
      IsLocation (((Path.root.field .sessions).index i).field f)
  | propagationList (key : Text) : IsLocation ((Path.root.field .propagations).key key)
  | propagation (key : Text) (i : ℕ) : IsLocation (((Path.root.field .propagations).key key).index i)
  | propagationField (key : Text) (i : ℕ) {f : Field} : f ∈ [.source, .destination] →
      IsLocation ((((Path.root.field .propagations).key key).index i).field f)

namespace Checks

def Stay (R : Path → Prop) (checks : Checks) (path : Path) : Prop :=
  ∀ value, ∀ c ∈ checks value path, R c.path

section
variable {R : Path → Prop} {checks : Checks} {path : Path}

theorem stay_one {fault : Fault} {Shape : Json → Prop} (h : R path) : Stay R (one fault Shape) path := by
  intro value c hc
  obtain rfl := List.mem_singleton.mp hc
  exact h

theorem stay_isKnownKind (h : R path) : Stay R isKnownKind path := by
  intro value c hc
  unfold isKnownKind at hc
  split at hc
  · obtain rfl := List.mem_singleton.mp hc
    exact h
  · cases hc

theorem stay_nil : Stay R (inTurn []) path := by
  intro value c hc
  cases hc

theorem stay_cons {cs : List Checks} (h : Stay R checks path) (hs : Stay R (inTurn cs) path) :
    Stay R (inTurn (checks :: cs)) path := by
  intro value c hc
  rcases List.mem_append.mp hc with hc | hc
  · exact h value c hc
  · exact hs value c hc

theorem stay_member {field : Field} (h : Stay R checks (path.field field)) : Stay R (member field checks) path :=
  fun _ => h _

theorem stay_memberIfAny {field : Field} (h : Stay R checks (path.field field)) :
    Stay R (memberIfAny field checks) path := by
  intro value c hc
  unfold memberIfAny at hc
  split at hc
  · cases hc
  · exact h _ c hc

theorem stay_arrayOf (hpath : R path) (h : ∀ i, Stay R checks (path.index i)) : Stay R (arrayOf checks) path := by
  have heach : Stay R (eachElement checks) path := by
    intro value c hc
    unfold eachElement at hc
    split at hc
    · obtain ⟨p, -, hc⟩ := List.mem_flatMap.mp hc
      exact h p.2 _ c hc
    · cases hc
  exact stay_cons (stay_one hpath) (stay_cons heach stay_nil)

theorem stay_recordOf (hpath : R path) (h : ∀ k, Stay R checks (path.key k)) : Stay R (recordOf checks) path := by
  have heach : Stay R (eachMember checks) path := by
    intro value c hc
    unfold eachMember at hc
    split at hc
    · obtain ⟨m, -, hc⟩ := List.mem_flatMap.mp hc
      exact h m.1 _ c hc
    · cases hc
  exact stay_cons (stay_one hpath) (stay_cons heach stay_nil)

theorem stay_areDistinct (h : ∀ i, R ((path.index i).field .id)) : Stay R areDistinct path := by
  intro value c hc
  unfold areDistinct at hc
  split at hc
  · obtain ⟨p, -, hc⟩ := List.mem_filterMap.mp hc
    obtain ⟨x, -, rfl⟩ := Option.map_eq_some_iff.mp hc
    exact h p.2
  · cases hc

end

theorem stay_position (i : ℕ) :
    Stay Path.IsLocation position (((Path.root.field .routers).index i).field .position) := by
  refine stay_cons (stay_one (.routerField i (by simp))) ?_
  refine stay_cons (stay_member (stay_one (.coordinate i (by simp)))) ?_
  exact stay_cons (stay_member (stay_one (.coordinate i (by simp)))) stay_nil

theorem stay_router (i : ℕ) : Stay Path.IsLocation router ((Path.root.field .routers).index i) := by
  refine stay_cons (stay_one (.router i)) ?_
  refine stay_cons (stay_member (stay_one (.routerField i (by simp)))) ?_
  refine stay_cons (stay_memberIfAny (stay_one (.routerField i (by simp)))) ?_
  refine stay_cons (stay_memberIfAny (stay_position i)) ?_
  exact stay_cons (stay_memberIfAny (stay_one (.routerField i (by simp)))) stay_nil

theorem stay_link (i : ℕ) : Stay Path.IsLocation link ((Path.root.field .links).index i) := by
  refine stay_cons (stay_one (.link i)) ?_
  refine stay_cons (stay_member (stay_one (.linkField i (by simp)))) ?_
  refine stay_cons (stay_member (stay_one (.linkField i (by simp)))) ?_
  refine stay_cons (stay_member (stay_one (.linkField i (by simp)))) ?_
  exact stay_cons (stay_memberIfAny (stay_one (.linkField i (by simp)))) stay_nil

theorem stay_session (i : ℕ) : Stay Path.IsLocation session ((Path.root.field .sessions).index i) := by
  have hkind : Stay Path.IsLocation (inTurn [isString, isKnownKind])
      (((Path.root.field .sessions).index i).field .kind) :=
    stay_cons (stay_one (.sessionField i (by simp)))
      (stay_cons (stay_isKnownKind (.sessionField i (by simp))) stay_nil)
  refine stay_cons (stay_one (.session i)) ?_
  refine stay_cons (stay_member hkind) ?_
  refine stay_cons (stay_member (stay_one (.sessionField i (by simp)))) ?_
  exact stay_cons (stay_member (stay_one (.sessionField i (by simp)))) stay_nil

theorem stay_propagation (key : Text) (i : ℕ) :
    Stay Path.IsLocation propagation (((Path.root.field .propagations).key key).index i) := by
  refine stay_cons (stay_one (.propagation key i)) ?_
  refine stay_cons (stay_member (stay_one (.propagationField key i (by simp)))) ?_
  exact stay_cons (stay_member (stay_one (.propagationField key i (by simp)))) stay_nil

theorem stay_nextHops :
    Stay Path.IsLocation (recordOf (recordOf (arrayOf isRouterId))) (Path.root.field .nextHops) := by
  refine stay_recordOf (.part (by simp)) fun key => ?_
  refine stay_recordOf (.hopTable key) fun router => ?_
  exact stay_arrayOf (.hopList key router) fun i => stay_one (.hop key router i)

/-- Every check of a snapshot belongs to one of the locations. -/
theorem stay_snapshot : Stay Path.IsLocation snapshot .root := by
  have hpart : ∀ f ∈ [Field.routers, .links, .prefixes, .nextHops, .sessions, .propagations],
      (Path.root.field f).IsLocation := fun _ => .part
  refine stay_cons (stay_one .document) ?_
  refine stay_cons (stay_member (stay_arrayOf (hpart _ (by simp)) stay_router)) ?_
  refine stay_cons (stay_member (stay_areDistinct fun i => .routerField i (by simp))) ?_
  refine stay_cons (stay_member (stay_arrayOf (hpart _ (by simp)) stay_link)) ?_
  refine stay_cons (stay_member (stay_arrayOf (hpart _ (by simp)) fun i => stay_one (.prefixText i))) ?_
  refine stay_cons (stay_memberIfAny stay_nextHops) ?_
  refine stay_cons (stay_memberIfAny (stay_arrayOf (hpart _ (by simp)) stay_session)) ?_
  refine stay_cons (stay_memberIfAny (stay_recordOf (hpart _ (by simp)) fun key => ?_)) stay_nil
  exact stay_arrayOf (.propagationList key) (stay_propagation key)

end Checks

theorem Snapshot.isLocation_of_error {text : Text} {e : SnapshotError} (h : Snapshot.parse text = .error e) :
    e.path.IsLocation := by
  unfold Snapshot.parse at h
  cases hparse : Json.parse? text with
  | none =>
    rw [hparse] at h
    obtain rfl := Except.error.inj h
    exact .document
  | some v =>
    rw [hparse] at h
    obtain ⟨before, c, after, heq, -, -, rfl⟩ := (Reader.performs_snapshot (some v) .root).error_iff.mp h
    exact Checks.stay_snapshot (some v) c (heq ▸ List.mem_append_right before List.mem_cons_self)

end NetDiagram
