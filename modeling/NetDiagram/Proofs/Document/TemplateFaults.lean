import NetDiagram.Proofs.Document.Tokens
import NetDiagram.Proofs.Results

/-!
# Templates that cannot be filled

All eight sections have to be there, whatever the template uses, and only then
does a token without a placeholder count. What is reported is the first fault of
its sort: of the missing sections in the order of the placeholders, of the
unknown tokens by their places in the text. What the sections hold never counts.
-/

namespace NetDiagram

/-! ## First elements -/

section
variable {α β : Type} {R : α → Prop} {xs : List α}

def IsFirst (R : α → Prop) (xs : List α) (x : α) : Prop :=
  ∃ before after, xs = before ++ x :: after ∧ R x ∧ ∀ y ∈ before, ¬ R y

theorem find?_eq_some_iff_isFirst {p : α → Bool} {x : α} :
    xs.find? p = some x ↔ IsFirst (fun y => p y = true) xs x := by
  rw [List.find?_eq_some_iff_append]
  constructor
  · intro h
    obtain ⟨hx, before, after, hxs, hbefore⟩ := h
    exact ⟨before, after, hxs, hx, by simpa using hbefore⟩
  · intro h
    obtain ⟨before, after, hxs, hx, hbefore⟩ := h
    exact ⟨hx, before, after, hxs, by simpa using hbefore⟩

theorem exists_isFirst : (∃ x, IsFirst R xs x) ↔ ∃ x ∈ xs, R x := by
  classical
  have hfind : (xs.find? fun x => R x).isSome ↔ ∃ x ∈ xs, R x := by simp
  rw [← hfind, Option.isSome_iff_exists]
  simp [find?_eq_some_iff_isFirst]

theorem isFirst_map {R : β → Prop} {f : α → β} {y : β} :
    IsFirst R (xs.map f) y ↔ ∃ x, IsFirst (fun x => R (f x)) xs x ∧ f x = y := by
  constructor
  · intro h
    obtain ⟨before, after, hxs, hy, hbefore⟩ := h
    obtain ⟨front, rest, rfl, rfl, hrest⟩ := List.map_eq_append_iff.mp hxs
    obtain ⟨x, behind, rfl, rfl, rfl⟩ := List.map_eq_cons_iff.mp hrest
    exact ⟨x, ⟨front, behind, rfl, hy, fun z hz => hbefore (f z) (List.mem_map_of_mem hz)⟩, rfl⟩
  · intro h
    obtain ⟨x, ⟨before, after, rfl, hx, hbefore⟩, rfl⟩ := h
    exact ⟨before.map f, after.map f, by simp, hx, List.forall_mem_map.mpr hbefore⟩

end

/-! ## The leftmost token -/

def IsLeftmost (R : Text → Prop) (cs : List CodeUnit) (name : Text) : Prop :=
  ∃ i, TokenAt cs i name ∧ R name ∧ ∀ j m, j < i → TokenAt cs j m → ¬ R m

theorem mem_names_iff {ps : List Piece} {name : Text} : name ∈ ps.filterMap Piece.name? ↔ .token name ∈ ps := by
  rw [List.mem_filterMap]
  constructor
  · intro h
    obtain ⟨piece, hpiece, hname⟩ := h
    cases piece with
    | unit u => cases hname
    | token n =>
      cases hname
      exact hpiece
  · intro h
    exact ⟨.token name, h, rfl⟩

section
variable {cs : List CodeUnit} {before after : List Piece} {name m : Text} {j : ℕ}

/-- A token to the left of a piece is one of the pieces in front of it. -/
theorem IsCut.mem_before (h : IsCut cs (before ++ .token name :: after)) (hm : TokenAt cs j m)
    (hj : j < (before.flatMap Piece.units).length) : .token m ∈ before := by
  obtain ⟨front, behind, heq, rfl⟩ := (h.tokens j m).mp hm
  rcases List.append_eq_append_iff.mp heq with ⟨middle, rfl, -⟩ | ⟨middle, rfl, hrest⟩
  · rw [List.flatMap_append, List.length_append] at hj
    omega
  · cases middle with
    | nil =>
      rw [List.append_nil] at hj
      omega
    | cons piece middle =>
      obtain ⟨rfl, -⟩ := List.cons.inj hrest
      simp

theorem IsCut.exists_tokenAt (h : IsCut cs (before ++ .token name :: after)) (hm : .token m ∈ before) :
    ∃ j < (before.flatMap Piece.units).length, TokenAt cs j m := by
  obtain ⟨front, behind, rfl⟩ := List.append_of_mem hm
  refine ⟨(front.flatMap Piece.units).length, ?_, (h.tokens _ m).mpr ⟨front, _, List.append_assoc _ _ _, rfl⟩⟩
  rw [List.flatMap_append, List.flatMap_cons, List.length_append, List.length_append, Piece.units, length_tokenUnits]
  omega

end

/-- The first name in the list of tokens is that of the leftmost token in the text. -/
theorem isFirst_tokenNames {R : Text → Prop} {template name : Text} :
    IsFirst R (tokenNames template) name ↔ IsLeftmost R template.toList name := by
  have hcut : IsCut template.toList (pieces template) := isCut_piecesFrom _
  rw [tokenNames]
  generalize pieces template = ps at hcut
  constructor
  · intro h
    obtain ⟨names, rest, hnames, hname, hbefore⟩ := h
    obtain ⟨front, ps, rfl, rfl, hrest⟩ := List.filterMap_eq_append_iff.mp hnames
    obtain ⟨chars, piece, behind, rfl, hchars, hpiece, -⟩ := List.filterMap_eq_cons_iff.mp hrest
    obtain rfl : piece = .token name := by
      cases piece with
      | unit u => cases hpiece
      | token n => rw [Option.some.inj hpiece]
    rw [← List.append_assoc] at hcut
    refine ⟨_, (hcut.tokens _ name).mpr ⟨_, behind, rfl, rfl⟩, hname, fun j m hj hm => ?_⟩
    -- a token to the left is a piece in front, and the units skipped there have no name
    rcases List.mem_append.mp (hcut.mem_before hm hj) with hmem | hmem
    · exact hbefore m (mem_names_iff.mpr hmem)
    · cases hchars _ hmem
  · intro h
    obtain ⟨i, htoken, hname, hleft⟩ := h
    obtain ⟨before, after, rfl, rfl⟩ := (hcut.tokens i name).mp htoken
    refine ⟨before.filterMap Piece.name?, after.filterMap Piece.name?, ?_, hname, fun m hm => ?_⟩
    · rw [List.filterMap_append]
      rfl
    · obtain ⟨j, hj, hat⟩ := hcut.exists_tokenAt (mem_names_iff.mp hm)
      exact hleft j m hj hat

/-! ## Faults -/

def placeholderNames : List Text :=
  Placeholder.all.map Placeholder.name

theorem forall_mem_placeholderNames {R : Text → Prop} :
    (∀ name ∈ placeholderNames, R name) ↔ ∀ p : Placeholder, R p.name := by
  constructor
  · intro h p
    exact h p.name (List.mem_map_of_mem p.mem_all)
  · intro h
    exact List.forall_mem_map.mpr fun p _ => h p

theorem ofName?_eq_none_iff {name : Text} : Placeholder.ofName? name = none ↔ name ∉ placeholderNames := by
  simp [Placeholder.ofName?, placeholderNames]

/-- The fault of these sections and this template is found at that name. -/
def IsFaultyAt (sections : Text → Option Text) (template name : Text) : Prop :=
  IsFirst (fun n => sections n = none) placeholderNames name ∨
    (∀ n ∈ placeholderNames, sections n ≠ none) ∧ IsFirst (· ∉ placeholderNames) (tokenNames template) name

section
variable {sections : Text → Option Text} {template : Text}

theorem renderTemplate_eq_error_iff {e : TemplateError} : renderTemplate sections template = .error e ↔
    (∃ p, IsFirst (fun p => sections p.name = none) Placeholder.all p ∧ .missingSection p = e) ∨
      (∀ n ∈ placeholderNames, sections n ≠ none) ∧
        ∃ name, IsFirst (· ∉ placeholderNames) (tokenNames template) name ∧ .unknownPlaceholder name = e := by
  have hmissing : ∀ {p}, (Placeholder.all.find? fun p => (sections p.name).isNone) = some p ↔
      IsFirst (fun p => sections p.name = none) Placeholder.all p := by
    simp [find?_eq_some_iff_isFirst]
  have hcomplete : (Placeholder.all.find? fun p => (sections p.name).isNone) = none ↔
      ∀ n ∈ placeholderNames, sections n ≠ none := by
    simp [placeholderNames]
  have hunknown : ∀ {name}, ((tokenNames template).find? fun n => (Placeholder.ofName? n).isNone) = some name ↔
      IsFirst (· ∉ placeholderNames) (tokenNames template) name := by
    simp [find?_eq_some_iff_isFirst, ofName?_eq_none_iff]
  simp only [← hmissing, ← hcomplete, ← hunknown]
  unfold renderTemplate
  cases Placeholder.all.find? fun p => (sections p.name).isNone with
  | some p => simp
  | none => cases (tokenNames template).find? fun n => (Placeholder.ofName? n).isNone <;> simp

theorem exists_error_at_iff {name : Text} :
    (∃ e, renderTemplate sections template = .error e ∧ e.placeholder = name) ↔ IsFaultyAt sections template name := by
  rw [IsFaultyAt, placeholderNames, isFirst_map, ← placeholderNames]
  constructor
  · intro h
    obtain ⟨e, herror, rfl⟩ := h
    rcases renderTemplate_eq_error_iff.mp herror with ⟨p, hp, rfl⟩ | ⟨hcomplete, unknown, hunknown, rfl⟩
    · exact .inl ⟨p, hp, rfl⟩
    · exact .inr ⟨hcomplete, hunknown⟩
  · intro h
    rcases h with ⟨p, hp, rfl⟩ | ⟨hcomplete, hunknown⟩
    · exact ⟨_, renderTemplate_eq_error_iff.mpr (.inl ⟨p, hp, rfl⟩), rfl⟩
    · exact ⟨_, renderTemplate_eq_error_iff.mpr (.inr ⟨hcomplete, name, hunknown, rfl⟩), rfl⟩

theorem errorOf?_renderTemplate_congr {others : Text → Option Text}
    (h : ∀ n ∈ placeholderNames, (others n).isSome = (sections n).isSome) :
    errorOf? (renderTemplate others template) = errorOf? (renderTemplate sections template) := by
  have hnone : ∀ p : Placeholder, (others p.name).isNone = (sections p.name).isNone := by
    intro p
    rw [← Option.not_isSome, ← Option.not_isSome, forall_mem_placeholderNames.mp h p]
  simp only [renderTemplate, hnone]
  cases Placeholder.all.find? fun p => (sections p.name).isNone with
  | some p => rfl
  | none => cases (tokenNames template).find? fun n => (Placeholder.ofName? n).isNone <;> rfl

end

/-- Filling fails exactly where a section is missing or a token is unknown. The fault is at the first missing section,
used or not, and without one at the leftmost unknown token, whether or not there is a section of its name. -/
theorem template_faults (sections : Text → Option Text) (template : Text) :
    ((∃ e, renderTemplate sections template = .error e) ↔
      (∃ name ∈ placeholderNames, sections name = none) ∨ ∃ name ∈ tokenNames template, name ∉ placeholderNames) ∧
    (∀ name, (∃ e, renderTemplate sections template = .error e ∧ e.placeholder = name) ↔
      IsFaultyAt sections template name) ∧
    (∀ name, IsFirst (· ∉ placeholderNames) (tokenNames template) name ↔
      IsLeftmost (· ∉ placeholderNames) template.toList name) ∧
    ∀ others : Text → Option Text, (∀ n ∈ placeholderNames, (others n).isSome = (sections n).isSome) →
      errorOf? (renderTemplate others template) = errorOf? (renderTemplate sections template) := by
  refine ⟨?_, fun _ => exists_error_at_iff, fun _ => isFirst_tokenNames, fun _ => errorOf?_renderTemplate_congr⟩
  have hfault : (∃ e, renderTemplate sections template = .error e) ↔ ∃ name, IsFaultyAt sections template name := by
    simp only [← exists_error_at_iff]
    exact ⟨fun ⟨e, he⟩ => ⟨_, e, he, rfl⟩, fun ⟨_, e, he, _⟩ => ⟨e, he⟩⟩
  rw [hfault]
  simp only [IsFaultyAt, exists_or, exists_and_left, exists_isFirst]
  by_cases hmissing : ∃ name ∈ placeholderNames, sections name = none
  · exact iff_of_true (.inl hmissing) (.inl hmissing)
  · have hcomplete : ∀ n ∈ placeholderNames, sections n ≠ none := fun n hn hnone => hmissing ⟨n, hn, hnone⟩
    exact or_congr_right (and_iff_right hcomplete)

/-- A section that the template does not use is missing, or the template has known tokens, a text that is no token and
two unknown tokens, with a section for each of its names. -/
theorem template_faults_legend :
    let legend : Text := "\x7b\x7bEDGES\x7d\x7d\x7b\x7blegend\x7d\x7d\x7b\x7bLEGEND\x7d\x7d\x7b\x7bOTHER\x7d\x7d"
    let other : Text → Option Text := fun _ => some "\x7b\x7bOTHER\x7d\x7d"
    let blank : Text → Option Text := fun name => if name ∈ placeholderNames then some "" else none
    (∃ e, renderTemplate (fun name => if name = "LINK_WEIGHTS" then none else some "") legend = .error e ∧
        e.placeholder = "LINK_WEIGHTS") ∧
      (∃ e, renderTemplate other legend = .error e ∧ e.placeholder = "LEGEND") ∧
      errorOf? (renderTemplate blank legend) = errorOf? (renderTemplate other legend) := by
  intro legend other blank
  have hnames : tokenNames legend = ["EDGES", "LEGEND", "OTHER"] := by decide +kernel
  refine ⟨((template_faults _ legend).2.1 _).mpr (.inl ?_), ((template_faults other legend).2.1 _).mpr (.inr ?_),
    (template_faults other legend).2.2.2 blank ?_⟩
  · exact ⟨["PREFIXES", "INTERNAL_NODES", "EXTERNAL_NODES", "EDGES", "NEXT_HOPS"], ["BGP_SESSIONS", "BGP_PROPAGATIONS"],
      rfl, rfl, by decide⟩
  · rw [hnames]
    exact ⟨fun _ _ => Option.some_ne_none _, ["EDGES"], ["OTHER"], rfl, by decide, by decide⟩
  · intro name hname
    have hblank : blank name = some "" := if_pos hname
    rw [hblank]
    rfl

end NetDiagram
