import NetDiagram.Proofs.Json.Parsing

/-!
# Texts inside a text

The text of an object holds the texts of its values. Where a key is repeated its
last place counts, with nothing kept of the values at the places before. A path
of keys leads from the text of an object to the text of a value inside it.
-/

namespace NetDiagram

def Json.at? : Json → List Text → Option Json
  | v, [] => some v
  | v, key :: keys => (v.member? key).bind fun w => w.at? keys

namespace Grammar

/-! ## Entries -/

structure Entry where
  key : Text
  text : List CodeUnit
  value : Json

inductive Entries : List CodeUnit → List Entry → Prop
  | one {a ks b c cs d : List CodeUnit} {k : Text} {v : Json} : Blanks a → Literal ks k → Blanks b → Blanks c →
      Value cs v → Blanks d → Entries (a ++ ks ++ b ++ ':'.unit :: (c ++ cs ++ d)) [⟨k, cs, v⟩]
  | more {a ks b c cs d ds : List CodeUnit} {k : Text} {v : Json} {es : List Entry} : Blanks a →
      Literal ks k → Blanks b → Blanks c → Value cs v → Blanks d → Entries ds es →
      Entries (a ++ ks ++ b ++ ':'.unit :: (c ++ cs ++ d ++ ','.unit :: ds)) (⟨k, cs, v⟩ :: es)

def Entry.pair (e : Entry) : Text × Json :=
  (e.key, e.value)

/-- The text that stands under the key at its last place in the text of an object. -/
def Under (cs : List CodeUnit) (key : Text) (ds : List CodeUnit) : Prop :=
  ∃ body before e after, cs = '\x7b'.unit :: body ++ ['\x7d'.unit] ∧ Entries body (before ++ e :: after) ∧ e.key = key ∧
    e.text = ds ∧ ∀ later ∈ after, later.key ≠ key

inductive At : List CodeUnit → List Text → List CodeUnit → Prop
  | here {cs : List CodeUnit} : At cs [] cs
  | under {cs ds es : List CodeUnit} {key : Text} {keys : List Text} : Under cs key ds → At ds keys es →
      At cs (key :: keys) es

/-- The text at the end of a path into a text that may have blanks around it. -/
def DocumentAt (cs : List CodeUnit) (keys : List Text) (ds : List CodeUnit) : Prop :=
  ∃ a body b, cs = a ++ body ++ b ∧ Blanks a ∧ Blanks b ∧ At body keys ds

theorem Entries.pairs {cs : List CodeUnit} {es : List Entry} (h : Entries cs es) : Pairs cs (es.map Entry.pair) := by
  induction h with
  | one ha hk hb hc hv hd => exact .one ha hk hb hc hv hd
  | more ha hk hb hc hv hd _ ih => exact .more ha hk hb hc hv hd ih

theorem Entries.value {cs : List CodeUnit} {es : List Entry} (h : Entries cs es) : ∀ e ∈ es, Value e.text e.value := by
  induction h with
  | one _ _ _ _ hv _ => exact List.forall_mem_singleton.mpr hv
  | more _ _ _ _ hv _ _ ih => exact List.forall_mem_cons.mpr ⟨hv, ih⟩

theorem entries_of_pairs {cs : List CodeUnit} {pairs : List (Text × Json)} (h : Pairs cs pairs) :
    ∃ es, Entries cs es ∧ pairs = es.map Entry.pair := by
  induction pairs generalizing cs with
  | nil => cases h
  | cons p pairs ih =>
    cases h with
    | one ha hk hb hc hv hd => exact ⟨_, .one ha hk hb hc hv hd, rfl⟩
    | more ha hk hb hc hv hd hds =>
      obtain ⟨es, hes, rfl⟩ := ih hds
      exact ⟨_, .more ha hk hb hc hv hd hes, rfl⟩

/-! ## One value for a text -/

theorem Document.unique {cs : List CodeUnit} {v w : Json} (hv : Document cs v) (hw : Document cs w) : v = w := by
  have hread : ∀ {u : Json}, Document cs u → Json.parse? (.ofList cs) = some u := by
    intro u hu
    refine parse?_iff.mpr ?_
    rwa [Text.toList_ofList]
  exact Option.some.inj ((hread hv).symm.trans (hread hw))

theorem Value.document {a cs b : List CodeUnit} {v : Json} (h : Value cs v) (ha : Blanks a) (hb : Blanks b) :
    Document (a ++ cs ++ b) v :=
  .value ha h hb

theorem Value.unique {cs : List CodeUnit} {v w : Json} (hv : Value cs v) (hw : Value cs w) : v = w :=
  (hv.document blanks_nil blanks_nil).unique (hw.document blanks_nil blanks_nil)

theorem Value.nodup_keys {cs : List CodeUnit} {members : List (Text × Json)} (h : Value cs (.object members)) :
    (members.map Prod.fst).Nodup := by
  cases h with
  | emptyObject _ => exact List.nodup_nil
  | object _ hms => exact hms.nodup

/-! ## Values at the end of a path -/

theorem Under.value {cs ds : List CodeUnit} {key : Text} (h : Under cs key ds) :
    ∃ v w, Value cs v ∧ v.member? key = some w ∧ Value ds w := by
  obtain ⟨body, before, e, after, rfl, hes, rfl, rfl, hafter⟩ := h
  refine ⟨_, e.value, .object hes.pairs (Members.lastWins_ofList _), ?_, hes.value e (by simp)⟩
  rw [Json.member?, Members.get?_ofList, Members.get?_reverse_eq_some]
  refine ⟨before.map Entry.pair, after.map Entry.pair, by simp [Entry.pair], ?_⟩
  exact List.forall_mem_map.mpr hafter

theorem Value.under {cs : List CodeUnit} {v w : Json} {key : Text} (h : Value cs v) (hw : v.member? key = some w) :
    ∃ ds, Under cs key ds ∧ Value ds w := by
  cases h with
  | emptyObject _ => cases hw
  | object hpairs hms =>
    obtain ⟨es, hes, rfl⟩ := entries_of_pairs hpairs
    -- of the places of the key the last one counts
    rw [Json.member?, hms.values, Members.get?_reverse_eq_some] at hw
    obtain ⟨before, after, heq, hafter⟩ := hw
    obtain ⟨esBefore, rest, rfl, rfl, hrest⟩ := List.map_eq_append_iff.mp heq
    obtain ⟨e, esAfter, rfl, he, rfl⟩ := List.map_eq_cons_iff.mp hrest
    cases he
    refine ⟨e.text, ⟨_, esBefore, e, esAfter, rfl, hes, rfl, rfl, ?_⟩, hes.value e (by simp)⟩
    exact fun later hlater => hafter later.pair (List.mem_map_of_mem hlater)
  | _ => cases hw

theorem At.value {cs ds : List CodeUnit} {keys : List Text} (h : At cs keys ds) {v : Json} (hv : Value cs v) :
    ∃ w, v.at? keys = some w ∧ Value ds w := by
  induction h generalizing v with
  | here => exact ⟨v, rfl, hv⟩
  | under hunder _ ih =>
    obtain ⟨u, w, hu, hw, hds⟩ := hunder.value
    obtain rfl := hu.unique hv
    obtain ⟨x, hx, hes⟩ := ih hds
    exact ⟨x, by rw [Json.at?, hw]; exact hx, hes⟩

theorem Value.at {cs : List CodeUnit} {v w : Json} {keys : List Text} (h : Value cs v) (hw : v.at? keys = some w) :
    ∃ ds, At cs keys ds ∧ Value ds w := by
  induction keys generalizing cs v with
  | nil =>
    cases hw
    exact ⟨cs, .here, h⟩
  | cons key keys ih =>
    obtain ⟨u, hu, hw⟩ := Option.bind_eq_some_iff.mp hw
    obtain ⟨ds, hunder, hds⟩ := h.under hu
    obtain ⟨es, hes, hvalue⟩ := ih hds hw
    exact ⟨es, .under hunder hes, hvalue⟩

theorem DocumentAt.value {cs ds : List CodeUnit} {key : Text} {keys : List Text} (h : DocumentAt cs (key :: keys) ds)
    {v : Json} (hv : Document cs v) : ∃ w, v.at? (key :: keys) = some w ∧ Value ds w := by
  obtain ⟨a, body, b, rfl, ha, hb, hat⟩ := h
  cases hat with
  | under hunder hrest =>
    obtain ⟨u, -, hu, -⟩ := hunder.value
    obtain rfl := (hu.document ha hb).unique hv
    exact (At.under hunder hrest).value hu

theorem Document.at {cs : List CodeUnit} {v w : Json} {keys : List Text} (h : Document cs v)
    (hw : v.at? keys = some w) : ∃ ds, DocumentAt cs keys ds ∧ Value ds w := by
  obtain ⟨ha, hv, hb⟩ := h
  obtain ⟨ds, hat, hds⟩ := hv.at hw
  exact ⟨ds, ⟨_, _, _, rfl, ha, hb, hat⟩, hds⟩

end Grammar

end NetDiagram
