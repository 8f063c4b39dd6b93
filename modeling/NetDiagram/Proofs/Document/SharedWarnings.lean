import NetDiagram.Proofs.Document.Collisions

/-!
# Exports that share their warnings

A caller may hand one list of warnings to any number of exports, one after the
other. Each export puts its own warnings behind those it finds and does
otherwise what it does alone, so the list grows by the contributions of the
exports in their order, those that fail included.
-/

namespace NetDiagram

/-! ## Tasks -/

inductive Goal
  | sections
  | document

structure Task : Type 1 where
  {P : Type}
  model : Model P
  request : OptionRequest
  goal : Goal

inductive Product
  | sections (sections : Sections)
  | document (text : Text)

structure Reply where
  result : Except ExportError Product
  log : List LogLine

def Outcome.map {α β : Type} (f : α → β) (outcome : Outcome α) : Outcome β :=
  ⟨outcome.result.map f, outcome.warnings, outcome.log⟩

namespace Task

def run (task : Task) (warnings : List Warning) : Outcome Product :=
  match task.goal with
  | .sections => (task.model.buildSections task.request warnings).map .sections
  | .document => (task.model.exportDocument task.request warnings).map .document

/-- The warnings that the task leaves when it finds none. -/
def contribution (task : Task) : List Warning :=
  (task.run []).warnings

def reply (task : Task) : Reply :=
  ⟨(task.run []).result, (task.run []).log⟩

end Task

structure Series where
  warnings : List Warning
  replies : List Reply

def Series.step (s : Series) (task : Task) : Series :=
  let outcome := task.run s.warnings
  ⟨outcome.warnings, s.replies ++ [⟨outcome.result, outcome.log⟩]⟩

def runAll (tasks : List Task) (initial : List Warning) : Series :=
  tasks.foldl Series.step ⟨initial, []⟩

/-! ## One task -/

theorem Outcome.under_nil {α : Type} (loud : Outcome α) (request : OptionRequest) (warnings : List Warning) :
    loud.under request warnings =
      { loud.under request [] with warnings := warnings ++ (loud.under request []).warnings } :=
  rfl

namespace Task

/-- A task keeps the warnings that it finds in front of its own, and they change nothing else. -/
theorem run_eq (task : Task) (warnings : List Warning) :
    task.run warnings = { task.run [] with warnings := warnings ++ task.contribution } := by
  unfold contribution run
  cases task.goal with
  | sections =>
    dsimp only
    rw [Model.buildSections_loud, Model.buildSections_loud task.model task.request [], Outcome.under_nil]
    rfl
  | document =>
    dsimp only
    rw [Model.exportDocument_loud, Model.exportDocument_loud task.model task.request [], Outcome.under_nil]
    rfl

theorem contribution_eq (task : Task) : task.contribution = (task.model.buildSections task.request []).warnings := by
  unfold contribution run
  cases task.goal with
  | sections => rfl
  | document => exact congrArg Outcome.warnings Model.exportDocument_eq

end Task

/-- Nothing is added where the prefixes fail, where none of them collide, or where collisions are errors, and otherwise
one warning for each group of colliding prefixes, however the export ends. -/
structure Adds {P : Type} (model : Model P) (policy : CollisionPolicy) (added : List Warning) : Prop where
  unresolved : model.PrefixesFail → added = []
  separate : ∀ keys, model.Resolves keys → collisions (keys.map model.textOf) = [] → added = []
  rejected : policy = .error → added = []
  warned : policy = .warn → ∀ keys, model.Resolves keys →
    added = (collisions (keys.map model.textOf)).map Collision.warning

theorem adds_buildSections {P : Type} (model : Model P) (request : OptionRequest) :
    Adds model request.resolve.prefixCollisions (model.buildSections request []).warnings := by
  have htexts : ∀ {entries keys}, model.prefixEntries = .ok entries → model.Resolves keys →
      entries.map (·.text) = keys.map model.textOf := by
    intro entries keys hentries hkeys
    rw [(Model.keys_of_entries hentries).2, answered_ok hkeys.known]
  obtain ⟨loud, hrun, hbuilt⟩ := model.run_buildSections request []
  rw [hbuilt, Outcome.under, List.nil_append]
  cases hrun with
  | unresolved hfails =>
    have hfail := Model.prefixesFail_of_error hfails
    exact ⟨fun _ => rfl, fun _ _ _ => rfl, fun _ => rfl, fun _ _ hresolves => absurd hfail hresolves.not_fail⟩
  | stopped hentries hstops =>
    refine ⟨fun _ => rfl, fun _ _ _ => rfl, fun _ => rfl, fun hwarn => ?_⟩
    cases hwarn.symm.trans hstops.2
  | failed hentries hpasses | drawn hentries hpasses =>
    -- warnings stay whether or not the drawing fails behind them
    refine ⟨fun hfail => absurd hfail (Model.resolves_of_entries hentries).not_fail, fun keys hkeys hnone => ?_,
      fun herror => ?_, fun _ keys hkeys => ?_⟩
    · rw [htexts hentries hkeys, hnone]
      rfl
    · rw [not_not.mp fun hne => hpasses ⟨hne, herror⟩]
      rfl
    · rw [htexts hentries hkeys]

/-! ## Series of tasks -/

theorem Series.step_eq (s : Series) (task : Task) :
    s.step task = ⟨s.warnings ++ task.contribution, s.replies ++ [task.reply]⟩ := by
  rw [Series.step, task.run_eq]
  rfl

theorem Series.foldl_step (tasks : List Task) (s : Series) : tasks.foldl Series.step s =
    ⟨s.warnings ++ tasks.flatMap Task.contribution, s.replies ++ tasks.map Task.reply⟩ := by
  induction tasks generalizing s with
  | nil => simp
  | cons task tasks ih =>
    rw [List.foldl_cons, ih, Series.step_eq, List.flatMap_cons, List.map_cons, List.append_assoc, List.append_assoc]
    rfl

/-- The warnings grow by what each task adds when it is run alone, and each task gives back what it does alone. -/
theorem runAll_shared (tasks : List Task) (initial : List Warning) :
    runAll tasks initial = ⟨initial ++ tasks.flatMap Task.contribution, tasks.map Task.reply⟩ ∧
      (∀ earlier later, tasks = earlier ++ later →
        (runAll earlier initial).warnings <+: (runAll tasks initial).warnings) ∧
      ∀ task ∈ tasks, Adds task.model task.request.resolve.prefixCollisions task.contribution ∧
        ∀ warnings, task.run warnings = { task.run [] with warnings := warnings ++ task.contribution } := by
  have hrun : ∀ tasks, runAll tasks initial = ⟨initial ++ tasks.flatMap Task.contribution, tasks.map Task.reply⟩ :=
    fun tasks => Series.foldl_step tasks ⟨initial, []⟩
  refine ⟨hrun tasks, ?_, fun task _ => ⟨?_, task.run_eq⟩⟩
  · rintro earlier later rfl
    rw [hrun, hrun, List.flatMap_append, ← List.append_assoc]
    exact List.prefix_append _ _
  · rw [task.contribution_eq]
    exact adds_buildSections task.model task.request

def repeatedTasks : List Task := [
  ⟨collidingModel, ⟨some true, none⟩, .document⟩,
  ⟨repeatedModel, ⟨none, some .error⟩, .sections⟩,
  ⟨repeatedModel, .empty, .sections⟩]

def sharedWarning : Warning :=
  ⟨.warn, "exporter", "Prefixes 10.0/8, 10/0.8 share the toggle prefix10_0_8"⟩

/-- A warning stays when its export fails later, and the same warning may come again. -/
theorem runAll_shared_repeated :
    (runAll repeatedTasks [⟨.info, "caller", "start"⟩]).warnings =
        [⟨.info, "caller", "start"⟩, sharedWarning, sharedWarning] ∧
      (runAll (repeatedTasks.take 2) []).warnings <+: (runAll repeatedTasks []).warnings ∧
      (Task.mk collidingModel ⟨some true, none⟩ .document).contribution = [sharedWarning] := by
  obtain ⟨hrun, -, -⟩ := runAll_shared repeatedTasks [⟨.info, "caller", "start"⟩]
  obtain ⟨-, hprefix, htasks⟩ := runAll_shared repeatedTasks []
  refine ⟨?_, hprefix _ (repeatedTasks.drop 2) (List.take_append_drop 2 _).symm, ?_⟩
  · rw [hrun]
    decide +kernel
  · obtain ⟨hadds, -⟩ := htasks _ List.mem_cons_self
    rw [hadds.warned rfl [0, 1, 0] ⟨rfl, fun _ _ => ⟨_, rfl⟩⟩]
    decide +kernel

end NetDiagram
