import NetDiagram.Proofs.Document.Gaps

/-!
# Sections built alone

A document asks for its prefixes once and shares them among the sections. A
section built alone asks for them itself, so a prefix that cannot be resolved
fails three sections at once. Both ways end alike: with the same texts, or with
the error of the first section that cannot be built.
-/

namespace NetDiagram

theorem Placeholder.forall_mem_all {p : Placeholder → Prop} : (∀ q ∈ Placeholder.all, p q) ↔ ∀ q, p q :=
  ⟨fun h q => h q q.mem_all, fun h q _ => h q⟩

theorem Sections.map_all_injective : Function.Injective fun s : Sections => Placeholder.all.map s := by
  intro s t h
  exact funext (Placeholder.forall_mem_all.mp (List.map_inj_left.mp h))

namespace Model

section
variable {P : Type} {model : Model P} {request : OptionRequest} {warnings : List Warning}

theorem sectionTexts_of_entries {entries : List (PrefixEntry P)} (h : model.prefixEntries = .ok entries) :
    Placeholder.all.mapM model.sectionText =
      ((model.picture entries).map Picture.sections).map (Placeholder.all.map ·) := by
  have hask : ask model.prefixEntries = pure entries := by
    rw [h]
    rfl
  have hpicture : Placeholder.all.mapM model.sectionText =
      (fun picture => Placeholder.all.map picture.sections) <$> model.picture entries := by
    simp [Placeholder.all, sectionText, hask, picture, Picture.sections]
  rw [hpicture]
  cases model.picture entries <;> rfl

theorem sectionTexts_of_failure {failure : QueryFailure} (h : model.prefixEntries = .error failure) :
    Placeholder.all.mapM model.sectionText = .error (.query failure) := by
  have hfirst : model.sectionText .prefixes = .error (.query failure) := by
    rw [sectionText, h]
    rfl
  exact mapM_eq_error_iff.mpr ⟨[], _, _, rfl, hfirst, List.forall_mem_nil _⟩

def CollisionsPass (model : Model P) (policy : CollisionPolicy) : Prop :=
  policy = .warn ∨ ∀ entries, model.prefixEntries = .ok entries → collisions (entries.map (·.text)) = []

theorem CollisionsPass.not_stopped {policy : CollisionPolicy} (h : model.CollisionsPass policy)
    {entries : List (PrefixEntry P)} (hentries : model.prefixEntries = .ok entries) :
    ¬ (collisions (entries.map (·.text)) ≠ [] ∧ policy = .error) := by
  rintro ⟨hgroups, rfl⟩
  rcases h with h | h
  · cases h
  · exact hgroups (h entries hentries)

theorem buildSections_sectionTexts (h : model.CollisionsPass request.resolve.prefixCollisions) :
    (model.buildSections request warnings).result.map (Placeholder.all.map ·) =
      (Placeholder.all.mapM model.sectionText).mapError .drawing := by
  obtain ⟨loud, hrun, hbuilt⟩ := model.run_buildSections request warnings
  rw [hbuilt]
  cases hrun with
  | unresolved hfails =>
    rw [sectionTexts_of_failure hfails]
    rfl
  | stopped hentries hstops => exact absurd hstops (h.not_stopped hentries)
  | failed hentries _ hpicture | drawn hentries _ hpicture =>
    rw [sectionTexts_of_entries hentries, hpicture]
    rfl

theorem buildSections_ok_iff (h : model.CollisionsPass request.resolve.prefixCollisions) {sections : Sections} :
    (model.buildSections request warnings).result = .ok sections ↔ ∀ p, model.sectionText p = .ok (sections p) := by
  rw [eq_ok_iff_of_map (buildSections_sectionTexts h) Sections.map_all_injective, mapM_eq_ok_map_iff,
    Placeholder.forall_mem_all]

/-- Sections that were built are those built alone, also where a collision might have ended the export. -/
theorem sectionText_of_buildSections {sections : Sections}
    (h : (model.buildSections request warnings).result = .ok sections) (p : Placeholder) :
    model.sectionText p = .ok (sections p) := by
  obtain ⟨entries, picture, hentries, hpicture, rfl⟩ := picture_of_buildSections h
  have htexts := sectionTexts_of_entries hentries
  rw [hpicture] at htexts
  exact mapM_eq_ok_map_iff.mp htexts p p.mem_all

/-- The sections fail with the error of the first of them that fails alone. -/
theorem buildSections_error_iff (h : model.CollisionsPass request.resolve.prefixCollisions) {error : ExportError} :
    (model.buildSections request warnings).result = .error error ↔
      ∃ e, Placeholder.all.mapM model.sectionText = .error e ∧ error = .drawing e :=
  eq_error_iff_of_map (buildSections_sectionTexts h)

end

end Model

/-- Where no collision of toggles ends an export, its sections are those built alone, and its error is that of the first
section that cannot be built alone. -/
theorem buildSections_alone {P : Type} (model : Model P) (request : OptionRequest) (warnings : List Warning)
    (hpass : model.CollisionsPass request.resolve.prefixCollisions) :
    ((∃ sections, (model.buildSections request warnings).result = .ok sections) ↔
        ∀ p, ∃ text, model.sectionText p = .ok text) ∧
      (∀ sections, (model.buildSections request warnings).result = .ok sections ↔
        ∀ p, model.sectionText p = .ok (sections p)) ∧
      ∀ error, (model.buildSections request warnings).result = .error error ↔
        ∃ before p after e, Placeholder.all = before ++ p :: after ∧
          (∀ q ∈ before, ∃ text, model.sectionText q = .ok text) ∧
          model.sectionText p = .error e ∧ error = .drawing e := by
  refine ⟨?_, fun sections => Model.buildSections_ok_iff hpass, fun error => ?_⟩
  · rw [Classical.skolem]
    exact exists_congr fun sections => Model.buildSections_ok_iff hpass
  · rw [Model.buildSections_error_iff hpass]
    constructor
    · rintro ⟨e, halone, rfl⟩
      obtain ⟨before, p, after, hall, hp, hbefore⟩ := mapM_eq_error_iff.mp halone
      exact ⟨before, p, after, e, hall, hbefore, hp, rfl⟩
    · rintro ⟨before, p, after, e, hall, hbefore, hp, rfl⟩
      exact ⟨e, mapM_eq_error_iff.mpr ⟨before, p, after, hall, hp, hbefore⟩, rfl⟩

def placelessModel (texts : List (Query Text)) (routers : List RouterId) : Model (Query Text) where
  internalRouters := .ok routers
  externalRouters := .ok []
  routerName _ := .ok none
  routerPosition _ := .error ⟨"no position"⟩
  edges := .ok [⟨.one, .zero false, .half⟩]
  knownPrefixes := .ok texts
  prefixString text := text
  nextHops _ _ := .error ⟨"no route"⟩
  sessions := .ok []
  propagations _ := .ok []

/-- A prefix without a text comes before the missing position, the position before the missing route; under either
policy all sections are built where nothing is missing. -/
theorem buildSections_alone_placeless :
    ((placelessModel [.ok "10.0/8", .error ⟨"no text"⟩] [.one]).buildSections .empty []).result =
        .error (.drawing (.query ⟨"no text"⟩)) ∧
      ((placelessModel [.ok "10.0/8", .ok "10.0/9"] [.one]).buildSections ⟨none, some .error⟩ []).result =
        .error (.drawing (.query ⟨"no position"⟩)) ∧
      ∃ sections,
        ((placelessModel [.ok "10.0/8", .ok "10/0.8"] []).buildSections .empty []).result = .ok sections := by
  refine ⟨?_, ?_, ?_⟩
  · exact ((buildSections_alone _ .empty [] (.inl rfl)).2.2 _).mpr
      ⟨[], .prefixes, _, _, rfl, List.forall_mem_nil _, rfl, rfl⟩
  · have hpass : (placelessModel [.ok "10.0/8", .ok "10.0/9"] [.one]).CollisionsPass .error := by
      refine .inr fun entries hentries => ?_
      cases hentries
      decide
    exact ((buildSections_alone _ ⟨none, some .error⟩ [] hpass).2.2 _).mpr
      ⟨[.prefixes], .internalNodes, _, _, rfl, by simpa using ⟨_, rfl⟩, rfl, rfl⟩
  · refine (buildSections_alone _ .empty [] (.inl rfl)).1.mpr fun p => ?_
    rw [← errorOf?_eq_none]
    cases p <;> decide +kernel

end NetDiagram
