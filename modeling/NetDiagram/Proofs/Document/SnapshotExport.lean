import NetDiagram.Proofs.Document.Collisions
import NetDiagram.Proofs.Snapshot.Parts

/-!
# Exporting snapshots

Whatever numbers, names and keys a snapshot text holds, and whether or not its
parts refer to routers that are listed, the snapshot read from it is drawn. Only
prefixes that share a toggle can end its export, and only where that is asked
for.
-/

namespace NetDiagram

/-- What an export gives for prefixes with these texts once it can draw these sections. -/
def Sections.outcome (sections : Sections) (texts : List Text) (request : OptionRequest) (warnings : List Warning) :
    Outcome Sections :=
  let logged (lines : List LogLine) := if request.resolve.verbose then lines else []
  let log := logged [.prefixCount texts.length]
  let groups := collisions texts
  if groups ≠ [] ∧ request.resolve.prefixCollisions = .error then ⟨.error (.prefixCollision groups), warnings, log⟩
  else ⟨.ok sections, warnings ++ groups.map Collision.warning, log ++ logged sections.sizes⟩

namespace Model

variable {P : Type} {model : Model P}

theorem exists_of_sessionKind_mem {keys : List P} {name : Text} (h : .sessionKind name ∈ model.pictureCalls keys) :
    ∃ x ∈ answered model.sessions, x.kind = name := by
  simpa [pictureCalls, internalCalls, externalCalls, routerCalls, hopCalls, sessionCalls] using h

/-- A model that answers every query, and with sessions that can be drawn, has a picture. -/
theorem exists_picture (hanswers : ∀ q, ∃ a, model.answer q = .ok a)
    (hkinds : ∀ x ∈ answered model.sessions, ∃ kind, SessionKind.ofName? x.kind = some kind)
    (entries : List (PrefixEntry P)) : ∃ picture, model.picture entries = .ok picture := by
  have hnone : ∀ call ∈ model.pictureCalls (entries.map (·.key)), model.failure? .warn call = none := by
    intro call hcall
    cases call with
    | ask q =>
      rw [failure?, errorOf?_eq_none.mpr (hanswers q)]
      rfl
    | collisionCheck texts => exact if_neg fun h => by cases h.2
    | sessionKind name =>
      obtain ⟨x, hx, rfl⟩ := exists_of_sessionKind_mem hcall
      obtain ⟨kind, hkind⟩ := hkinds x hx
      rw [failure?, hkind]
      rfl
  have hfailure := (@follows_picture P model .warn entries).failure
  rw [List.findSome?_eq_none_iff.mpr hnone] at hfailure
  exact errorOf?_eq_none.mp (Option.map_eq_none_iff.mp hfailure)

theorem buildSections_of_picture {entries : List (PrefixEntry P)} {picture : Picture}
    (hentries : model.prefixEntries = .ok entries) (hpicture : model.picture entries = .ok picture)
    (request : OptionRequest) (warnings : List Warning) :
    model.buildSections request warnings = picture.sections.outcome (entries.map (·.text)) request warnings := by
  unfold buildSections Sections.outcome
  rw [hentries, List.length_map]
  dsimp only
  rw [hpicture]

end Model

namespace Snapshot

theorem prefixEntries_model (s : Snapshot) :
    s.model.prefixEntries = .ok (s.prefixes.map fun key => .ofText key key) :=
  Model.prefixEntries_eq rfl fun _ _ => rfl

/-- A snapshot that was read gives sections, unless it is stopped for its prefixes. -/
theorem buildSections_model {s : Snapshot} {v : Json} (h : s.IsReadFrom v) :
    ∃ picture, s.model.picture (s.prefixes.map fun key => .ofText key key) = .ok picture ∧
      s.model.buildSections = picture.sections.outcome s.prefixes := by
  have hanswers : ∀ q, ∃ a, s.model.answer q = .ok a := by
    intro q
    cases q <;> exact ⟨_, rfl⟩
  obtain ⟨picture, hpicture⟩ := Model.exists_picture hanswers (fun x hx => h.kind_of_mem hx) _
  refine ⟨picture, hpicture, funext fun request => funext fun warnings => ?_⟩
  rw [Model.buildSections_of_picture s.prefixEntries_model hpicture, List.map_map]
  exact congrArg (picture.sections.outcome · request warnings) (List.map_id _)

/-- A snapshot that was read is exported, unless two of its prefixes share a toggle and that is asked to be an error. -/
theorem exportDocument_of_parse {text : Text} {s : Snapshot} (h : Snapshot.parse text = .ok s)
    (request : OptionRequest) (warnings : List Warning) :
    ((∃ document, (s.model.exportDocument request warnings).result = .ok document) ↔
      ¬ ((∃ a ∈ s.prefixes, ∃ b ∈ s.prefixes, a ≠ b ∧ toggle a = toggle b) ∧
        request.resolve.prefixCollisions = .error)) ∧
    ∀ error, (s.model.exportDocument request warnings).result = .error error →
      error = .prefixCollision (collisions s.prefixes) := by
  obtain ⟨v, -, hread⟩ := isReadFrom_of_parse h
  obtain ⟨picture, -, hbuilt⟩ := buildSections_model hread
  have hgroups : collisions s.prefixes ≠ [] ↔ ∃ a ∈ s.prefixes, ∃ b ∈ s.prefixes, a ≠ b ∧ toggle a = toggle b := by
    constructor
    · exact exists_of_collisions_ne_nil
    · rintro ⟨a, ha, b, hb, hne, htoggle⟩ hnil
      exact toggle_ne_of_collisions_nil hnil ha hb hne htoggle
  rw [Model.exportDocument_eq, hbuilt, ← hgroups, Outcome.rendered, Sections.outcome]
  dsimp only
  split
  · rename_i hstops
    refine ⟨⟨fun hdocument => ?_, fun hpass => absurd hstops hpass⟩, fun error herror => (Except.error.inj herror).symm⟩
    obtain ⟨document, hdocument⟩ := hdocument
    cases hdocument
  · rename_i hpass
    refine ⟨⟨fun _ => hpass, fun _ => ⟨_, rfl⟩⟩, fun error herror => ?_⟩
    cases herror

end Snapshot

def strayText : Text :=
  "\x7b\"routers\":[\x7b\"id\":-0\x7d],\"links\":[\x7b\"a\":1,\"b\":0,\"weight\":1e400,\"reverseWeight\":5e-324\x7d," ++
    "\x7b\"a\":0,\"b\":1,\"weight\":-0\x7d],\"prefixes\":[\"10.0/8\",\"10/0.8\"]," ++
    "\"nextHops\":\x7b\"10.0/8\":\x7b\"0\":[1]\x7d\x7d," ++
    "\"sessions\":[\x7b\"source\":1,\"destination\":1,\"kind\":\"ebgp\"\x7d]\x7d"

def straySnapshot : Snapshot where
  routers := [⟨.zero true, none, none, none⟩]
  links := [⟨.one, .zero false, .infinity false, some (.finite false 1 0 (by decide))⟩,
    ⟨.zero false, .one, .zero true, none⟩]
  prefixes := ["10.0/8", "10/0.8"]
  nextHops := some [("10.0/8", [("0", [.one])])]
  sessions := some [⟨.one, .one, "ebgp"⟩]
  propagations := none

theorem exportDocument_of_parse_stray :
    Snapshot.parse strayText = .ok straySnapshot ∧
      (∃ document, (straySnapshot.model.exportDocument .empty []).result = .ok document) ∧
      (straySnapshot.model.exportDocument ⟨none, some .error⟩ []).result =
        .error (.prefixCollision [⟨"10_0_8", ["10.0/8", "10/0.8"]⟩]) := by
  have hparse : Snapshot.parse strayText = .ok straySnapshot := by decide +kernel
  have hgroups : collisions straySnapshot.prefixes = [⟨"10_0_8", ["10.0/8", "10/0.8"]⟩] := by decide +kernel
  refine ⟨hparse, (Snapshot.exportDocument_of_parse hparse .empty []).1.mpr fun h => ?_, ?_⟩
  · cases h.2
  · obtain ⟨hok, herror⟩ := Snapshot.exportDocument_of_parse hparse ⟨none, some .error⟩ []
    cases hresult : (straySnapshot.model.exportDocument ⟨none, some .error⟩ []).result with
    | ok document =>
      have hshared : ∃ a ∈ straySnapshot.prefixes, ∃ b ∈ straySnapshot.prefixes, a ≠ b ∧ toggle a = toggle b := by
        decide +kernel
      exact absurd ⟨hshared, rfl⟩ (hok.mp ⟨document, hresult⟩)
    | error e => rw [herror e hresult, hgroups]

end NetDiagram
