import NetDiagram.Proofs.Document.Gaps

/-!
# The log of an export

A verbose export counts its prefixes as soon as they are resolved, and it says
nothing more until all sections are built. Its log has therefore one of three
forms, and how the export ends decides which. An export that is not verbose logs
nothing and is otherwise the same.
-/

namespace NetDiagram

/-! ## Lengths -/

theorem length_interleave {gaps texts : List Text} (h : gaps.length = texts.length + 1) :
    (interleave gaps texts).length = (gaps.map Text.length).sum + (texts.map Text.length).sum := by
  induction texts generalizing gaps with
  | nil =>
    obtain ⟨gap, rfl⟩ := List.length_eq_one_iff.mp h
    rfl
  | cons text texts ih =>
    obtain ⟨gap, gaps, rfl⟩ := List.exists_cons_of_length_eq_add_one h
    rw [interleave, Text.length_append, Text.length_append, ih (Nat.succ.inj h), List.map_cons, List.map_cons,
      List.sum_cons, List.sum_cons]
    omega

/-! ## Failures behind the prefixes -/

namespace Model

section
variable {P : Type} (model : Model P)

def callsBehind (keys : List P) : List (Call P) :=
  .collisionCheck (keys.map model.textOf) :: model.pictureCalls keys

/-- A query fails behind the prefixes, the kind of a session is unknown, or prefixes collide and may not. -/
def FailsBehind (policy : CollisionPolicy) (keys : List P) : Prop :=
  ∃ call ∈ model.callsBehind keys, ∃ error, model.failure? policy call = some error

variable {model}

/-- Once the prefixes are resolved, an export fails exactly if a call behind them does. -/
theorem failsBehind_iff {request : OptionRequest} {entries : List (PrefixEntry P)}
    (h : model.prefixEntries = .ok entries) (warnings : List Warning) :
    model.FailsBehind request.resolve.prefixCollisions (entries.map (·.key)) ↔
      ∃ error, (model.buildSections request warnings).result = .error error := by
  have hbehind : errorOf? (model.buildSections request warnings).result =
      (model.callsBehind (entries.map (·.key))).findSome? (model.failure? request.resolve.prefixCollisions) := by
    rw [errorOf?_buildSections, calls, List.findSome?_append, findSome?_prefixCalls h, (keys_of_entries h).1]
    rfl
  constructor
  · rintro ⟨call, hcall, error, herror⟩
    cases hresult : (model.buildSections request warnings).result with
    | error e => exact ⟨e, rfl⟩
    | ok sections =>
      rw [hresult] at hbehind
      have hnone := List.findSome?_eq_none_iff.mp hbehind.symm call hcall
      rw [hnone] at herror
      cases herror
  · rintro ⟨error, herror⟩
    rw [herror] at hbehind
    obtain ⟨call, hcall, hfails⟩ := List.exists_of_findSome?_eq_some hbehind.symm
    exact ⟨call, hcall, error, hfails⟩

end

end Model

/-! ## Logs of verbose runs -/

inductive LogsRun {P : Type} (model : Model P) (policy : CollisionPolicy) (lines : Sections → List LogLine) :
    Except ExportError Sections → List LogLine → Prop
  | unresolved {error : ExportError} (fails : model.PrefixesFail) : LogsRun model policy lines (.error error) []
  | stopped {error : ExportError} {keys : List P} (resolves : model.Resolves keys)
      (fails : model.FailsBehind policy keys) : LogsRun model policy lines (.error error) [.prefixCount keys.length]
  | finished {sections : Sections} {keys : List P} (resolves : model.Resolves keys)
      (passes : ¬ model.FailsBehind policy keys) :
      LogsRun model policy lines (.ok sections) (.prefixCount keys.length :: lines sections)

namespace LogsRun

section
variable {P : Type} {model : Model P} {policy : CollisionPolicy} {lines : Sections → List LogLine}
  {result : Except ExportError Sections} {log : List LogLine} (h : LogsRun model policy lines result log)
include h

theorem nil_iff : log = [] ↔ model.PrefixesFail := by
  cases h with
  | unresolved hfails => exact iff_of_true rfl hfails
  | stopped hresolves _ => exact iff_of_false (List.cons_ne_nil _ _) hresolves.not_fail
  | finished hresolves _ => exact iff_of_false (List.cons_ne_nil _ _) hresolves.not_fail

theorem count_iff (hlines : ∀ sections, lines sections ≠ []) (n : ℕ) : log = [.prefixCount n] ↔
    ∃ keys, model.Resolves keys ∧ keys.length = n ∧ model.FailsBehind policy keys := by
  cases h with
  | unresolved hfails =>
    exact iff_of_false (List.cons_ne_nil _ _).symm fun ⟨_, hresolves, _⟩ => hresolves.not_fail hfails
  | @stopped _ keys hresolves hfails =>
    rw [List.singleton_inj, LogLine.prefixCount.injEq]
    constructor
    · exact fun hn => ⟨keys, hresolves, hn, hfails⟩
    · rintro ⟨keys', hresolves', hn, -⟩
      rwa [hresolves.unique hresolves']
  | @finished sections _ hresolves hpasses =>
    refine iff_of_false (fun hlog => hlines sections (List.cons.inj hlog).2) ?_
    rintro ⟨keys', hresolves', -, hfails⟩
    exact hpasses (hresolves.unique hresolves' ▸ hfails)

theorem length_iff {n : ℕ} (hlines : ∀ sections, (lines sections).length = n + 1) :
    log.length = n + 2 ↔ ∃ sections, result = .ok sections := by
  cases h with
  | unresolved _ => exact iff_of_false (by simp) (by simp)
  | stopped _ _ => exact iff_of_false (by simp) (by simp)
  | @finished sections _ _ _ =>
    exact iff_of_true (by rw [List.length_cons, hlines]) ⟨sections, rfl⟩

theorem forms : log = [] ∨ (∃ n, log = [.prefixCount n]) ∨ ∃ sections, result = .ok sections := by
  cases h with
  | unresolved _ => exact .inl rfl
  | stopped _ _ => exact .inr (.inl ⟨_, rfl⟩)
  | finished _ _ => exact .inr (.inr ⟨_, rfl⟩)

theorem log_of_ok {sections : Sections} (hresult : result = .ok sections) :
    ∃ keys, model.Resolves keys ∧ log = .prefixCount keys.length :: lines sections := by
  cases h with
  | unresolved _ => cases hresult
  | stopped _ _ => cases hresult
  | finished hresolves _ =>
    obtain rfl := Except.ok.inj hresult
    exact ⟨_, hresolves, rfl⟩

end

end LogsRun

/-! ## Logs of documents -/

def Sections.document (sections : Sections) : Text :=
  Text.intercalate "\n" (skeletonWith sections)

def Sections.exportLines (sections : Sections) : List LogLine :=
  sections.sizes ++ [.exported sections.document.length]

theorem length_document (sections : Sections) : sections.document.length =
    ((templateGaps skeleton).map Text.length).sum + (Placeholder.all.map fun p => (sections p).length).sum := by
  have hlength : (templateGaps skeleton).length = (Placeholder.all.map sections).length + 1 := by
    rw [(isCutInto_gaps skeleton).length, tokenNames_skeleton_eq, List.length_map, List.length_map]
  have hdocument : sections.document = interleave (templateGaps skeleton) (Placeholder.all.map sections) :=
    Except.ok.inj ((renderTemplate_skeleton sections).symm.trans (renderTemplate_skeleton_gaps sections))
  rw [hdocument, length_interleave hlength, List.map_map]
  rfl

namespace Model

section
variable {P : Type} {model : Model P} {request : OptionRequest} (hverbose : request.resolve.verbose)
  (warnings : List Warning)
include hverbose

theorem logsRun_buildSections : LogsRun model request.resolve.prefixCollisions Sections.sizes
    (model.buildSections request warnings).result (model.buildSections request warnings).log := by
  have hlogged : ∀ lines, request.logged lines = lines := fun _ => if_pos hverbose
  have hlength : ∀ entries : List (PrefixEntry P), entries.length = (entries.map (·.key)).length :=
    fun _ => (List.length_map _).symm
  obtain ⟨loud, hrun, hbuilt⟩ := model.run_buildSections request warnings
  have hfails := fun entries hentries => @failsBehind_iff P model request entries hentries warnings
  rw [hbuilt] at hfails ⊢
  rw [Outcome.under, hlogged]
  -- two of the four ways end with the number of prefixes in the log
  cases hrun with
  | unresolved h => exact .unresolved (prefixesFail_of_error h)
  | stopped hentries | failed hentries =>
    rw [hlength]
    exact .stopped (resolves_of_entries hentries) ((hfails _ hentries).mpr ⟨_, rfl⟩)
  | drawn hentries =>
    rw [hlength]
    refine .finished (resolves_of_entries hentries) fun h => ?_
    obtain ⟨error, herror⟩ := (hfails _ hentries).mp h
    cases herror

theorem logsRun_exportDocument : LogsRun model request.resolve.prefixCollisions Sections.exportLines
    (model.buildSections request warnings).result (model.exportDocument request warnings).log := by
  have hlogs := @logsRun_buildSections P model request hverbose warnings
  rw [exportDocument_eq, Outcome.rendered, hverbose]
  generalize model.buildSections request warnings = built at hlogs
  obtain ⟨result, added, log⟩ := built
  cases hlogs with
  | unresolved hfails => exact .unresolved hfails
  | stopped hresolves hfails => exact .stopped hresolves hfails
  | finished hresolves hpasses => exact .finished hresolves hpasses

end

theorem exportDocument_quiet {P : Type} (model : Model P) {verbose : Option Bool} (h : verbose ≠ some true)
    (policy : Option CollisionPolicy) (warnings : List Warning) :
    model.exportDocument ⟨verbose, policy⟩ warnings =
      { model.exportDocument ⟨some true, policy⟩ warnings with log := [] } := by
  have hquiet : (OptionRequest.mk verbose policy).resolve.verbose = false := by
    match verbose with
    | none => rfl
    | some false => rfl
    | some true => exact absurd rfl h
  have hloud : (OptionRequest.mk verbose policy).loud = (OptionRequest.mk (some true) policy).loud := rfl
  rw [exportDocument_loud, exportDocument_loud model ⟨some true, policy⟩, hloud, Outcome.under, OptionRequest.logged,
    hquiet]
  rfl

end Model

theorem result_eq_ok_iff {P : Type} {model : Model P} {request : OptionRequest} {warnings : List Warning}
    {document : Text} : (model.exportDocument request warnings).result = .ok document ↔
      ∃ sections, (model.buildSections request warnings).result = .ok sections ∧ sections.document = document := by
  rw [Model.exportDocument_eq, Outcome.rendered]
  cases (model.buildSections request warnings).result with
  | error error => simp [Except.map]
  | ok sections => simp [Except.map, Sections.document]

/-- The log of a verbose export: nothing where the prefixes fail, their number where something behind them fails, and
ten lines where the export succeeds. -/
structure LogsExport {P : Type} (model : Model P) (policy : CollisionPolicy) (built : Outcome Sections)
    (loud : Outcome Text) : Prop where
  silent : loud.log = [] ↔ model.PrefixesFail
  counted : ∀ n, loud.log = [.prefixCount n] ↔
    ∃ keys, model.Resolves keys ∧ keys.length = n ∧ model.FailsBehind policy keys
  complete : loud.log.length = 10 ↔ ∃ document, loud.result = .ok document
  forms : loud.log = [] ∨ (∃ n, loud.log = [.prefixCount n]) ∨ loud.log.length = 10
  lines : ∀ document, loud.result = .ok document → ∃ keys sections, model.Resolves keys ∧ built.result = .ok sections ∧
    loud.log = .prefixCount keys.length :: (Placeholder.all.map fun p => .sectionSize p (lineCount (sections p))) ++
      [.exported document.length] ∧
    document.length = ((templateGaps skeleton).map Text.length).sum +
      (Placeholder.all.map fun p => (sections p).length).sum

end NetDiagram
