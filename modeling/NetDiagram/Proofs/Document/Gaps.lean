import NetDiagram.Proofs.Document.Calls

/-!
# Gaps between tokens

The tokens of a template leave gaps between them, one more than there are
tokens, and no token stands inside a gap. Filling a template puts the sections
between its gaps. A document is therefore the nine gaps of the skeleton with the
eight sections between them, each of them once and as it is.
-/

namespace NetDiagram

/-! ## Gaps -/

/-- The units before the first token, between two tokens, and behind the last token. -/
def gaps : List Piece → List (List CodeUnit)
  | [] => [[]]
  | .unit c :: ps => (gaps ps).modifyHead (c :: ·)
  | .token _ :: ps => [] :: gaps ps

def templateGaps (template : Text) : List Text :=
  (gaps (pieces template)).map .ofList

def interleave : List Text → List Text → Text
  | [], _ => ""
  | gap :: _, [] => gap
  | gap :: gaps, text :: texts => gap ++ text ++ interleave gaps texts

/-- The template is the gaps with the tokens of these names between them, and no token stands inside a gap. -/
structure IsCutInto (template : Text) (gaps : List Text) (names : List Text) : Prop where
  length : gaps.length = names.length + 1
  spelled : template = interleave gaps (names.map fun name => .ofList (tokenUnits name))
  free : ∀ gap ∈ gaps, ∀ i name, ¬ TokenAt gap.toList i name

theorem names_token (name : Text) (ps : List Piece) :
    (Piece.token name :: ps).filterMap Piece.name? = name :: ps.filterMap Piece.name? :=
  List.filterMap_cons_some rfl

theorem length_gaps (ps : List Piece) : (gaps ps).length = (ps.filterMap Piece.name?).length + 1 := by
  induction ps with
  | nil => rfl
  | cons p ps ih =>
    cases p with
    | unit u => rw [gaps, List.length_modifyHead, ih, List.filterMap_cons_none rfl]
    | token name => rw [gaps, List.length_cons, ih, names_token, List.length_cons]

theorem gaps_ne_nil (ps : List Piece) : gaps ps ≠ [] := by
  intro h
  have hlength := length_gaps ps
  rw [h] at hlength
  cases hlength

theorem interleave_append (a gap : Text) (gaps texts : List Text) :
    interleave ((a ++ gap) :: gaps) texts = a ++ interleave (gap :: gaps) texts := by
  cases texts with
  | nil => rfl
  | cons text texts => simp only [interleave, Text.append_assoc]

/-- Filling the pieces puts the texts between the gaps. -/
theorem interleave_gaps (text : Text → Text) (ps : List Piece) :
    interleave ((gaps ps).map .ofList) ((ps.filterMap Piece.name?).map text) =
      .ofList (ps.flatMap (Piece.fill text)) := by
  induction ps with
  | nil => rfl
  | cons p ps ih =>
    cases p with
    | unit u =>
      obtain ⟨gap, rest, hgaps⟩ := List.exists_cons_of_ne_nil (gaps_ne_nil ps)
      have hcons : Text.ofList (u :: gap) = .ofList [u] ++ .ofList gap :=
        Text.ofList_append [u] gap
      rw [hgaps, List.map_cons] at ih
      rw [gaps, hgaps, List.modifyHead_cons, List.map_cons, List.filterMap_cons_none rfl, hcons, interleave_append, ih,
        List.flatMap_cons, Text.ofList_append]
      rfl
    | token name =>
      rw [gaps, List.map_cons, names_token, List.map_cons, interleave, ih, List.flatMap_cons, Text.ofList_append,
        Piece.fill, Text.ofList_toList]
      rfl

/-! ## No token in a gap -/

theorem exists_of_head_gap {ps : List Piece} {gap : List CodeUnit} {rest : List (List CodeUnit)}
    (h : gaps ps = gap :: rest) : ∃ after, ps = gap.map .unit ++ after := by
  induction ps generalizing gap rest with
  | nil =>
    cases h
    exact ⟨[], rfl⟩
  | cons p ps ih =>
    cases p with
    | token name =>
      cases h
      exact ⟨_, rfl⟩
    | unit u =>
      obtain ⟨head, tail, hgaps⟩ := List.exists_cons_of_ne_nil (gaps_ne_nil ps)
      rw [gaps, hgaps] at h
      cases h
      obtain ⟨after, rfl⟩ := ih hgaps
      exact ⟨after, rfl⟩

/-- The units of a gap stand in a row among the pieces. -/
theorem exists_of_mem_gaps {ps : List Piece} {gap : List CodeUnit} (h : gap ∈ gaps ps) :
    ∃ before after, ps = before ++ (gap.map .unit ++ after) := by
  induction ps with
  | nil =>
    obtain rfl := List.mem_singleton.mp h
    exact ⟨[], [], rfl⟩
  | cons p ps ih =>
    cases p with
    | token name =>
      rcases List.mem_cons.mp h with rfl | h
      · exact ⟨[], _, rfl⟩
      · obtain ⟨before, after, rfl⟩ := ih h
        exact ⟨.token name :: before, after, rfl⟩
    | unit u =>
      obtain ⟨head, tail, hgaps⟩ := List.exists_cons_of_ne_nil (gaps_ne_nil ps)
      rw [gaps, hgaps] at h
      rcases List.mem_cons.mp h with rfl | h
      · obtain ⟨after, rfl⟩ := exists_of_head_gap hgaps
        exact ⟨[], after, rfl⟩
      · obtain ⟨before, after, rfl⟩ := ih (hgaps ▸ List.mem_cons_of_mem _ h)
        exact ⟨.unit u :: before, after, rfl⟩

theorem Piece.units_length_pos (p : Piece) : 0 < p.units.length := by
  cases p <;> exact Nat.succ_pos _

/-- Where equally long parts of one text are spelled by the front pieces, these are the same pieces. -/
theorem front_eq {as bs xs ys : List Piece} (h : as ++ xs = bs ++ ys)
    (hlength : (as.flatMap Piece.units).length = (bs.flatMap Piece.units).length) : as = bs ∧ xs = ys := by
  induction as generalizing bs with
  | nil =>
    cases bs with
    | nil => exact ⟨rfl, h⟩
    | cons b bs =>
      have hpos := b.units_length_pos
      rw [List.flatMap_nil, List.length_nil, List.flatMap_cons, List.length_append] at hlength
      omega
  | cons a as ih =>
    cases bs with
    | nil =>
      have hpos := a.units_length_pos
      rw [List.flatMap_nil, List.length_nil, List.flatMap_cons, List.length_append] at hlength
      omega
    | cons b bs =>
      obtain ⟨rfl, htail⟩ := List.cons.inj h
      obtain ⟨rfl, hrest⟩ := ih htail (by simpa using hlength)
      exact ⟨rfl, hrest⟩

theorem flatMap_units_map (cs : List CodeUnit) : (cs.map Piece.unit).flatMap Piece.units = cs := by
  rw [List.flatMap_map]
  exact List.flatMap_singleton' cs

theorem TokenAt.lt_length {cs : List CodeUnit} {i : ℕ} {name : Text} (h : TokenAt cs i name) : i < cs.length := by
  have hle := h.spelled.length_le
  rw [length_tokenUnits, List.length_drop] at hle
  omega

theorem TokenAt.append_right {cs : List CodeUnit} {i : ℕ} {name : Text} (h : TokenAt cs i name) (ds : List CodeUnit) :
    TokenAt (cs ++ ds) i name := by
  refine ⟨h.nonempty, h.nameUnits, ?_⟩
  rw [List.drop_append_of_le_length h.lt_length.le]
  exact h.spelled.trans (List.prefix_append _ _)

theorem IsCut.no_token_in_gap {cs : List CodeUnit} {ps : List Piece} (h : IsCut cs ps) {gap : List CodeUnit}
    (hgap : gap ∈ gaps ps) (i : ℕ) (name : Text) : ¬ TokenAt gap i name := by
  intro htoken
  obtain ⟨before, after, rfl⟩ := exists_of_mem_gaps hgap
  -- the token stands in the whole text too, so it is a piece, and yet the piece at its place is a unit of the gap
  have hwhole : TokenAt cs ((before.flatMap Piece.units).length + i) name := by
    rw [h.units, List.flatMap_append, List.flatMap_append, flatMap_units_map, tokenAt_append]
    exact htoken.append_right _
  obtain ⟨front, back, hpieces, hplace⟩ := (h.tokens _ name).mp hwhole
  have hgapPieces : gap.map Piece.unit = (gap.take i).map .unit ++ (gap.drop i).map .unit := by
    rw [← List.map_append, List.take_append_drop]
  rw [hgapPieces, List.append_assoc, ← List.append_assoc] at hpieces
  -- the pieces in front of the token are those in front of that unit
  obtain ⟨-, hrest⟩ := front_eq hpieces (by
    rw [List.flatMap_append, flatMap_units_map, List.length_append, List.length_take, ← hplace]
    have hlt := htoken.lt_length
    omega)
  rw [List.drop_eq_getElem_cons htoken.lt_length] at hrest
  cases hrest

theorem isCutInto_gaps (template : Text) : IsCutInto template (templateGaps template) (tokenNames template) := by
  have hcut := isCut_piecesFrom template.toList
  refine ⟨?_, ?_, ?_⟩
  · rw [templateGaps, List.length_map, length_gaps, tokenNames]
  · rw [templateGaps, tokenNames, interleave_gaps, ← Text.toList_inj, Text.toList_ofList]
    refine hcut.units.trans (List.flatMap_congr fun piece _ => ?_)
    cases piece with
    | unit u => rfl
    | token name => rw [Piece.fill, Text.toList_ofList, Piece.units]
  · intro gap hgap i name
    obtain ⟨cs, hcs, rfl⟩ := List.mem_map.mp hgap
    rw [Text.toList_ofList]
    exact hcut.no_token_in_gap hcs i name

theorem renderTemplate_interleave {sections : Text → Option Text} (text : Text → Text) {template : Text}
    (hsections : ∀ p : Placeholder, sections p.name = some (text p.name))
    (hnames : ∀ name ∈ tokenNames template, ∃ p : Placeholder, p.name = name) :
    renderTemplate sections template =
      .ok (interleave (templateGaps template) ((tokenNames template).map text)) := by
  have hsome : ∀ p : Placeholder, (sections p.name).isSome := by
    intro p
    rw [hsections p]
    rfl
  have htexts : (tokenNames template).map (fun name => (sections name).getD "") = (tokenNames template).map text := by
    refine List.map_congr_left fun name hname => ?_
    obtain ⟨p, rfl⟩ := hnames name hname
    rw [hsections p]
    rfl
  rw [renderTemplate_of_known hsome hnames, ← htexts, tokenNames, templateGaps, interleave_gaps]

/-! ## The gaps of the skeleton -/

theorem tokenNames_skeleton_eq : tokenNames skeleton = Placeholder.all.map (·.name) := by
  have hchoices : tokenNames (choicesHead ++ tokenLine .prefixes) = ["PREFIXES"] := by
    have hnone : choicesHead.toList.filterMap (Piece.name? ∘ Piece.unit) = [] := by simp [Piece.name?]
    rw [tokenNames, pieces_choices, List.filterMap_append, List.filterMap_map, hnone]
    rfl
  have htail : skeletonTail.flatMap (fun line => tokenNames (line.elim id tokenLine)) =
      skeletonTail.flatMap (Sum.elim (fun _ => []) fun p => [p.name]) := by
    refine List.flatMap_congr fun line hline => ?_
    cases line with
    | inl fixed => exact tokenNames_tail fixed (List.mem_filterMap.mpr ⟨_, hline, rfl⟩)
    | inr p =>
      rw [Sum.elim_inr, tokenNames, pieces_tokenLine]
      rfl
  rw [skeleton, tokenNames_lines, skeletonLines_eq, skeletonWith, List.flatMap_append,
    List.flatMap_eq_nil_iff.mpr tokenNames_head, List.flatMap_cons, hchoices, List.flatMap_map, htail]
  rfl

theorem renderTemplate_skeleton_gaps (sections : Sections) : renderTemplate sections.named skeleton =
    .ok (interleave (templateGaps skeleton) (Placeholder.all.map sections)) := by
  have hnamed : ∀ p : Placeholder, sections.named p.name = some ((sections.named p.name).getD "") := by
    intro p
    rw [Sections.named_name]
    rfl
  rw [renderTemplate_interleave (fun name => (sections.named name).getD "") hnamed tokenNames_skeleton,
    tokenNames_skeleton_eq, List.map_map]
  refine congrArg (fun texts => Except.ok (interleave (templateGaps skeleton) texts)) ?_
  exact List.map_congr_left fun p _ => congrArg (Option.getD · ("" : Text)) (sections.named_name p)

namespace Model

variable {P : Type} {model : Model P} {request : OptionRequest} {warnings : List Warning}

theorem buildSections_ne_template (error : TemplateError) :
    (model.buildSections request warnings).result ≠ .error (.template error) := by
  obtain ⟨loud, hrun, hbuilt⟩ := model.run_buildSections request warnings
  rw [hbuilt]
  cases hrun <;> exact fun h => by cases h

end Model

/-- An export ends as building its sections does, and its document is the gaps of the skeleton with the sections
between them. -/
theorem exportDocument_gaps {P : Type} (model : Model P) (request : OptionRequest) (warnings : List Warning) :
    IsCutInto skeleton (templateGaps skeleton) (Placeholder.all.map (·.name)) ∧
      (model.exportDocument request warnings).result = (model.buildSections request warnings).result.map
        (fun sections => interleave (templateGaps skeleton) (Placeholder.all.map sections)) ∧
      (model.exportDocument request warnings).warnings = (model.buildSections request warnings).warnings ∧
      ∀ error, (model.exportDocument request warnings).result ≠ .error (.template error) := by
  have hskeleton : ∀ sections : Sections,
      Text.intercalate "\n" (skeletonWith sections) =
        interleave (templateGaps skeleton) (Placeholder.all.map sections) :=
    fun sections =>
      Except.ok.inj ((renderTemplate_skeleton sections).symm.trans (renderTemplate_skeleton_gaps sections))
  rw [Model.exportDocument_eq]
  refine ⟨tokenNames_skeleton_eq ▸ isCutInto_gaps skeleton, ?_, rfl, fun error herror => ?_⟩
  · exact congrArg (Except.map · (model.buildSections request warnings).result) (funext hskeleton)
  · have hbuilt := errorOf?_eq_some.mpr herror
    rw [Outcome.errorOf?_rendered] at hbuilt
    exact Model.buildSections_ne_template error (errorOf?_eq_some.mp hbuilt)

end NetDiagram
