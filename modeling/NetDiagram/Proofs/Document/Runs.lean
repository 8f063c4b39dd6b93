import NetDiagram.Document.Export
import NetDiagram.Proofs.Document.Filling
import NetDiagram.Proofs.Results

/-!
# Runs of an export

An export resolves the prefixes, checks them for collisions and draws the
picture, and each of the three may end it. What it returns and what it adds to
the warnings depend on the model and the policy only: the warnings it finds are
kept in front, and whether it is verbose decides no more than whether its log is
kept. A document is made of finished sections, and making it never fails.
-/

namespace NetDiagram

/-! ## Sections -/

def OptionRequest.logged (request : OptionRequest) (lines : List LogLine) : List LogLine :=
  if request.resolve.verbose then lines else []

def Outcome.under {α : Type} (loud : Outcome α) (request : OptionRequest) (warnings : List Warning) : Outcome α :=
  ⟨loud.result, warnings ++ loud.warnings, request.logged loud.log⟩

namespace Model

section
variable {P : Type}

def StoppedBy (policy : CollisionPolicy) (entries : List (PrefixEntry P)) : Prop :=
  collisions (entries.map (·.text)) ≠ [] ∧ policy = .error

/-- The four ways in which building the sections may go, each with its outcome when it is verbose. -/
inductive Run (model : Model P) (policy : CollisionPolicy) : Outcome Sections → Prop
  | unresolved {failure : QueryFailure} (fails : model.prefixEntries = .error failure) :
      Run model policy ⟨.error (.drawing (.query failure)), [], []⟩
  | stopped {entries : List (PrefixEntry P)} (resolved : model.prefixEntries = .ok entries)
      (stops : StoppedBy policy entries) :
      Run model policy
        ⟨.error (.prefixCollision (collisions (entries.map (·.text)))), [], [.prefixCount entries.length]⟩
  | failed {entries : List (PrefixEntry P)} {error : DrawingError} (resolved : model.prefixEntries = .ok entries)
      (passes : ¬ StoppedBy policy entries) (fails : model.picture entries = .error error) :
      Run model policy ⟨.error (.drawing error), (collisions (entries.map (·.text))).map Collision.warning,
        [.prefixCount entries.length]⟩
  | drawn {entries : List (PrefixEntry P)} {picture : Picture} (resolved : model.prefixEntries = .ok entries)
      (passes : ¬ StoppedBy policy entries) (draws : model.picture entries = .ok picture) :
      Run model policy ⟨.ok picture.sections, (collisions (entries.map (·.text))).map Collision.warning,
        .prefixCount entries.length :: picture.sections.sizes⟩

variable (model : Model P)

/-- One verbose run stands for all runs under its policy. -/
theorem exists_run (policy : CollisionPolicy) : ∃ loud, model.Run policy loud ∧
    ∀ request warnings, request.resolve.prefixCollisions = policy →
      model.buildSections request warnings = loud.under request warnings := by
  cases hentries : model.prefixEntries with
  | error failure =>
    refine ⟨_, .unresolved hentries, fun request warnings _ => ?_⟩
    rw [buildSections, hentries, Outcome.under, List.append_nil, OptionRequest.logged, ite_self]
  | ok entries =>
    by_cases hstops : StoppedBy policy entries
    · refine ⟨_, .stopped hentries hstops, ?_⟩
      rintro request warnings rfl
      rw [buildSections, hentries, Outcome.under, List.append_nil]
      exact if_pos hstops
    · cases hpicture : model.picture entries with
      | error error =>
        refine ⟨_, .failed hentries hstops hpicture, ?_⟩
        rintro request warnings rfl
        rw [buildSections, hentries]
        dsimp only
        rw [hpicture]
        exact if_neg hstops
      | ok picture =>
        refine ⟨_, .drawn hentries hstops hpicture, ?_⟩
        rintro request warnings rfl
        have hlog : ∀ lines, request.logged [.prefixCount entries.length] ++ request.logged lines =
            request.logged (.prefixCount entries.length :: lines) := by
          intro lines
          unfold OptionRequest.logged
          cases request.resolve.verbose <;> rfl
        rw [buildSections, hentries, Outcome.under, ← hlog]
        dsimp only
        rw [hpicture]
        exact if_neg hstops

theorem run_buildSections (request : OptionRequest) (warnings : List Warning) :
    ∃ loud, model.Run request.resolve.prefixCollisions loud ∧
      model.buildSections request warnings = loud.under request warnings := by
  obtain ⟨loud, hrun, hbuilt⟩ := model.exists_run request.resolve.prefixCollisions
  exact ⟨loud, hrun, hbuilt request warnings rfl⟩

end

end Model

/-! ## Documents -/

/-- The outcome with the document made of the sections: the template never fails. -/
def Outcome.rendered (built : Outcome Sections) (request : OptionRequest) : Outcome Text where
  result := built.result.map fun sections => Text.intercalate "\n" (skeletonWith sections)
  warnings := built.warnings
  log := built.log ++
    match built.result with
    | .error _ => []
    | .ok sections =>
      if request.resolve.verbose then [.exported (Text.intercalate "\n" (skeletonWith sections)).length] else []

theorem Outcome.errorOf?_rendered {built : Outcome Sections} {request : OptionRequest} :
    errorOf? (built.rendered request).result = errorOf? built.result := by
  unfold Outcome.rendered
  cases built.result <;> rfl

namespace Model

section
variable {P : Type} {model : Model P} {request : OptionRequest} {warnings : List Warning}

theorem exportDocument_eq :
    model.exportDocument request warnings = (model.buildSections request warnings).rendered request := by
  unfold exportDocument Outcome.rendered
  simp only [renderTemplate_skeleton]
  cases (model.buildSections request warnings).result with
  | error e => simp [Except.map]
  | ok sections => rfl

end

end Model

/-! ## Verbose runs -/

def OptionRequest.loud (request : OptionRequest) : OptionRequest :=
  ⟨some true, some request.resolve.prefixCollisions⟩

namespace Model

section
variable {P : Type} (model : Model P) (request : OptionRequest) (warnings : List Warning)

theorem buildSections_loud :
    model.buildSections request warnings = (model.buildSections request.loud []).under request warnings := by
  obtain ⟨loud, -, hbuilt⟩ := model.exists_run request.resolve.prefixCollisions
  rw [hbuilt request warnings rfl, hbuilt request.loud [] rfl]
  rfl

theorem exportDocument_loud :
    model.exportDocument request warnings = (model.exportDocument request.loud []).under request warnings := by
  rw [exportDocument_eq, exportDocument_eq, buildSections_loud]
  unfold Outcome.under Outcome.rendered OptionRequest.logged
  cases (model.buildSections request.loud []).result with
  | error error => simp
  | ok sections =>
    dsimp only
    cases request.resolve.verbose <;> rfl

end

end Model

end NetDiagram
