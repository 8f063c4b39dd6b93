import NetDiagram.Proofs.Document.Calls
import NetDiagram.Proofs.Document.Placement
import NetDiagram.Proofs.Network.Groups

/-!
# Collisions of toggles

Before anything is drawn an export looks for prefixes that share a toggle. Such
prefixes end it when collisions are errors; otherwise each group leaves one
warning, and the export goes on as if nothing had been checked.
-/

namespace NetDiagram

theorem toggle_of_mem_members {texts : List Text} {c : Collision} (hc : c ∈ collisions texts) {text : Text}
    (htext : text ∈ c.members) : toggle text = c.toggle :=
  congrArg (("prefix" : Text) ++ ·) ((mem_members hc).mp htext).2

/-! ## Exports with another check -/

namespace Model

section
variable {P : Type} (model : Model P)

/-- The export of the sections with groups of colliding prefixes that are found in another way. -/
def buildSectionsWith (find : List Text → List Collision) (request : OptionRequest) (warnings : List Warning) :
    Outcome Sections :=
  let options := request.resolve
  let logged (lines : List LogLine) := if options.verbose then lines else []
  match model.prefixEntries with
  | .error failure => ⟨.error (.drawing (.query failure)), warnings, []⟩
  | .ok entries =>
    let log := logged [.prefixCount entries.length]
    let groups := find (entries.map (·.text))
    if groups ≠ [] ∧ options.prefixCollisions = .error then ⟨.error (.prefixCollision groups), warnings, log⟩
    else
      let warnings := warnings ++ groups.map Collision.warning
      match model.picture entries with
      | .error error => ⟨.error (.drawing error), warnings, log⟩
      | .ok picture => ⟨.ok picture.sections, warnings, log ++ logged picture.sections.sizes⟩

theorem buildSectionsWith_collisions (request : OptionRequest) (warnings : List Warning) :
    model.buildSectionsWith collisions request warnings = model.buildSections request warnings := by
  unfold buildSectionsWith buildSections
  cases model.prefixEntries <;> rfl

def uncheckedSections (request : OptionRequest) (warnings : List Warning) : Outcome Sections :=
  model.buildSectionsWith (fun _ => []) request warnings

def uncheckedDocument (request : OptionRequest) (warnings : List Warning) : Outcome Text :=
  (model.uncheckedSections request warnings).rendered request

end

end Model

/-! ## Policies -/

/-- How an export treats the groups of colliding prefixes, compared with one that does not look for them. -/
structure TreatsCollisions {α : Type} (run unchecked : OptionRequest → List Warning → Outcome α) (count : Nat)
    (groups : List Collision) : Prop where
  rejects : groups ≠ [] → ∀ verbose warnings, run ⟨verbose, some .error⟩ warnings =
    ⟨.error (.prefixCollision groups), warnings, if verbose.getD false then [.prefixCount count] else []⟩
  agrees : groups = [] → ∀ verbose policy policy' warnings,
    run ⟨verbose, policy⟩ warnings = run ⟨verbose, policy'⟩ warnings ∧
      (run ⟨verbose, policy⟩ warnings).warnings = warnings
  warns : ∀ verbose policy warnings, policy ≠ some .error →
    (run ⟨verbose, policy⟩ warnings).warnings = warnings ++ groups.map Collision.warning
  goesOn : ∀ verbose policy warnings, policy ≠ some .error →
    (run ⟨verbose, policy⟩ warnings).result = (unchecked ⟨verbose, policy⟩ warnings).result ∧
      (run ⟨verbose, policy⟩ warnings).log = (unchecked ⟨verbose, policy⟩ warnings).log

/-- Rendering changes nothing here, as the template never fails. -/
theorem TreatsCollisions.rendered {run unchecked : OptionRequest → List Warning → Outcome Sections} {count : Nat}
    {groups : List Collision} (h : TreatsCollisions run unchecked count groups) :
    TreatsCollisions (fun request warnings => (run request warnings).rendered request)
      (fun request warnings => (unchecked request warnings).rendered request) count groups := by
  refine ⟨?_, ?_, ?_, ?_⟩
  · intro hgroups verbose warnings
    rw [h.rejects hgroups, Outcome.rendered, List.append_nil]
    rfl
  · intro hgroups verbose policy policy' warnings
    obtain ⟨hrun, hwarnings⟩ := h.agrees hgroups verbose policy policy' warnings
    rw [← hrun]
    exact ⟨rfl, hwarnings⟩
  · exact h.warns
  · intro verbose policy warnings hpolicy
    obtain ⟨hresult, hlog⟩ := h.goesOn verbose policy warnings hpolicy
    unfold Outcome.rendered
    dsimp only
    rw [hresult, hlog]
    exact ⟨rfl, rfl⟩

namespace Model

section
variable {P : Type} {model : Model P} {entries : List (PrefixEntry P)}

theorem policy_ne_error {verbose : Option Bool} {policy : Option CollisionPolicy} (h : policy ≠ some .error) :
    (OptionRequest.mk verbose policy).resolve.prefixCollisions ≠ .error := by
  have hwarn : CollisionPolicy.warn ≠ .error := by decide
  match policy with
  | none => exact hwarn
  | some .warn => exact hwarn
  | some .error => exact absurd rfl h

/-- An export that does not stop at the groups does what it does without them, but for the warnings. -/
theorem buildSections_of_pass (hentries : model.prefixEntries = .ok entries) {request : OptionRequest}
    (hpass : ¬ (collisions (entries.map (·.text)) ≠ [] ∧ request.resolve.prefixCollisions = .error))
    (warnings : List Warning) :
    model.buildSections request warnings =
      { model.uncheckedSections request warnings with
        warnings := warnings ++ (collisions (entries.map (·.text))).map Collision.warning } := by
  have hnone : ¬ (([] : List Collision) ≠ [] ∧ request.resolve.prefixCollisions = .error) := fun h => h.1 rfl
  rw [← buildSectionsWith_collisions, uncheckedSections]
  unfold buildSectionsWith
  rw [hentries]
  dsimp only
  rw [if_neg hpass, if_neg hnone]
  cases model.picture entries <;> rfl

theorem treats_buildSections (hentries : model.prefixEntries = .ok entries) :
    TreatsCollisions model.buildSections model.uncheckedSections entries.length
      (collisions (entries.map (·.text))) := by
  have hwarn : ∀ {verbose : Option Bool} {policy : Option CollisionPolicy} (warnings : List Warning),
      policy ≠ some .error → model.buildSections ⟨verbose, policy⟩ warnings =
        { model.uncheckedSections ⟨verbose, policy⟩ warnings with
          warnings := warnings ++ (collisions (entries.map (·.text))).map Collision.warning } :=
    fun warnings hpolicy => buildSections_of_pass hentries (fun h => policy_ne_error hpolicy h.2) warnings
  refine ⟨?_, ?_, ?_, ?_⟩
  · intro hgroups verbose warnings
    unfold buildSections
    rw [hentries]
    exact if_pos ⟨hgroups, rfl⟩
  · intro hgroups verbose policy policy' warnings
    -- without a group the policy is not looked at
    have hunchecked : model.uncheckedSections ⟨verbose, policy⟩ warnings =
        model.uncheckedSections ⟨verbose, policy'⟩ warnings := by
      unfold uncheckedSections buildSectionsWith
      rw [hentries]
      simp only [ne_eq, not_true_eq_false, false_and, if_false]
      rfl
    rw [buildSections_of_pass hentries (fun h => h.1 hgroups), buildSections_of_pass hentries (fun h => h.1 hgroups),
      hunchecked, hgroups]
    exact ⟨rfl, List.append_nil _⟩
  · intro verbose policy warnings hpolicy
    rw [hwarn warnings hpolicy]
  · intro verbose policy warnings hpolicy
    rw [hwarn warnings hpolicy]
    exact ⟨rfl, rfl⟩

theorem performed_of_collisions (hentries : model.prefixEntries = .ok entries)
    (hgroups : collisions (entries.map (·.text)) ≠ []) :
    model.performed .error model.calls = model.prefixCalls ++ [.collisionCheck (entries.map (·.text))] := by
  have hnone := findSome?_prefixCalls hentries .error
  have hcheck : model.failure? .error (.collisionCheck (entries.map (·.text))) ≠ none := by
    rw [failure?, if_pos ⟨hgroups, rfl⟩]
    exact Option.some_ne_none _
  rw [calls, performed_append_none (List.findSome?_eq_none_iff.mp hnone), ← (keys_of_entries hentries).2, performed,
    if_neg hcheck]

theorem prefixEntries_eq {keys : List P} {text : P → Text} (hkeys : model.knownPrefixes = .ok keys)
    (htexts : ∀ key ∈ keys, model.prefixString key = .ok (text key)) :
    model.prefixEntries = .ok (keys.map fun key => .ofText key (text key)) := by
  rw [prefixEntries, hkeys]
  refine mapM_eq_map fun key hkey => ?_
  rw [htexts key hkey]
  rfl

end

end Model

/-! ## Guards -/

structure Sections.Separate {P : Type} (sections : Sections) (keys : List P) (text : P → Text) : Prop where
  toggles : ∀ a ∈ keys, ∀ b ∈ keys, text a ≠ text b → toggle (text a) ≠ toggle (text b)
  nextHops : ∃ blocks, sections .nextHops = blockLines blocks ∧
    blocks.map (·.toggle) = keys.map fun key => toggle (text key)
  propagations : ∃ blocks, sections .bgpPropagations = blockLines blocks ∧
    blocks.map (·.toggle) = keys.map fun key => toggle (text key)

section
variable {P : Type} {model : Model P} {keys : List P} {text : P → Text}

/-- An export that succeeds where collisions are errors has found none. -/
theorem separate_of_buildSections {entries : List (PrefixEntry P)} (hentries : model.prefixEntries = .ok entries)
    (heq : entries = keys.map fun key => .ofText key (text key)) {verbose : Option Bool} {warnings : List Warning}
    {sections : Sections} (h : (model.buildSections ⟨verbose, some .error⟩ warnings).result = .ok sections) :
    sections.Separate keys text := by
  have hgroups : collisions (entries.map (·.text)) = [] := by
    by_contra hgroups
    rw [(Model.treats_buildSections hentries).rejects hgroups] at h
    cases h
  obtain ⟨entries', picture, hentries', hpicture, rfl⟩ := Model.picture_of_buildSections h
  obtain rfl : entries = entries' := by simpa [hentries] using hentries'
  have hdraws := Model.draws_of_picture hpicture
  have htoggles : entries.map (·.toggle) = keys.map fun key => toggle (text key) := by
    rw [heq, List.map_map]
    rfl
  refine ⟨fun a ha b hb hne => ?_, ⟨_, rfl, ?_⟩, ⟨_, rfl, ?_⟩⟩
  · refine toggle_ne_of_collisions_nil hgroups ?_ ?_ hne
    · rw [heq, List.map_map]
      exact List.mem_map_of_mem ha
    · rw [heq, List.map_map]
      exact List.mem_map_of_mem hb
  · rw [← htoggles]
    exact Model.toggles_of_entries hdraws.nextHops
  · rw [← htoggles]
    exact Model.toggles_of_entries hdraws.propagations

end

def collidingModel : Model Nat :=
  { repeatedModel with edges := .error ⟨"no edges"⟩ }

end NetDiagram
