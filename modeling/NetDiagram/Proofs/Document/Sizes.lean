import NetDiagram.Proofs.Document.Logging
import NetDiagram.Proofs.Document.Nodes

/-!
# Sizes of sections

The sizes that a verbose export logs are counted in the finished texts. Where
names and prefixes do not break their line they can be told from the answers of
the model: a list has a line for each of its members, and a block one for each
command between its guard and its end, or an empty line when there is none.
-/

namespace NetDiagram

/-! ## Counting lines -/

theorem length_splitOn (sep : CodeUnit) (cs : List CodeUnit) : (cs.splitOn sep).length = cs.count sep + 1 := by
  rw [List.splitOn_eq_splitOnP]
  induction cs with
  | nil => rfl
  | cons c cs ih =>
    rw [List.splitOnP_cons_eq_if_modifyHead, List.count_cons]
    split
    · rw [List.length_cons, ih]
    · rw [List.length_modifyHead, ih]

theorem lineCount_eq (text : Text) : lineCount text = (linesOf text).length := by
  unfold lineCount linesOf
  split
  · rfl
  · rw [textLines, List.length_map, length_splitOn]

theorem lineCount_commandLines {commands : List Command} (h : ∀ c ∈ commands, c.IsSingleLine) :
    lineCount (commandLines commands) = commands.length := by
  rw [lineCount_eq, linesOf_commandLines h, List.length_map]

def blockSize (commands : ℕ) : ℕ :=
  2 + max 1 commands

theorem Block.length_rows (b : Block) : b.rows.length = blockSize b.commands.length := by
  have hrows : (NetDiagram.rows b.commands).length = max 1 b.commands.length := by
    unfold NetDiagram.rows
    split
    · rename_i hnil
      rw [hnil]
      rfl
    · rename_i hcons
      have hpos := List.length_pos_iff.mpr hcons
      rw [List.length_map]
      omega
  rw [rows, List.length_cons, List.length_append, hrows, List.length_singleton, blockSize]
  omega

theorem lineCount_blockLines {blocks : List Block} (htoggles : ∀ b ∈ blocks, '\n'.unit ∉ b.toggle.toList)
    (h : ∀ b ∈ blocks, ∀ c ∈ b.commands, c.IsSingleLine) :
    lineCount (blockLines blocks) = (blocks.map fun b => blockSize b.commands.length).sum := by
  rw [lineCount_eq, linesOf_blockLines htoggles h, List.length_flatMap]
  simp only [Block.length_rows]

theorem choices_eq_empty {toggles : List Text} (h : ∀ t ∈ toggles, t ≠ "") : choices toggles = "" ↔ toggles = [] := by
  refine ⟨fun hempty => ?_, fun hnil => hnil ▸ rfl⟩
  match toggles with
  | [] => rfl
  | [t] =>
    rw [choices, Text.intercalate_singleton] at hempty
    exact absurd hempty (h t List.mem_cons_self)
  | t :: t' :: ts =>
    rw [choices, Text.intercalate_cons_cons, Text.append_eq_empty_iff, Text.append_eq_empty_iff] at hempty
    exact absurd hempty.1.1 (h t List.mem_cons_self)

theorem lineCount_choices {toggles : List Text} (hne : ∀ t ∈ toggles, t ≠ "")
    (h : ∀ t ∈ toggles, '\n'.unit ∉ t.toList) :
    lineCount (choices toggles) = if toggles = [] then 0 else 1 := by
  rw [lineCount, List.count_eq_zero.mpr (View.newline_notMem_choices h)]
  simp only [choices_eq_empty hne]

namespace Picture

def size (picture : Picture) : Placeholder → ℕ
  | .prefixes => if picture.toggles = [] then 0 else 1
  | .internalNodes => picture.internalNodes.length
  | .externalNodes => picture.externalNodes.length
  | .edges => picture.links.length
  | .nextHops => (picture.nextHops.map fun b => blockSize b.commands.length).sum
  | .linkWeights => picture.weights.length
  | .bgpSessions => picture.sessions.length
  | .bgpPropagations => (picture.propagations.map fun b => blockSize b.commands.length).sum

theorem IsSingleLine.lineCount_sections {picture : Picture} (h : picture.IsSingleLine)
    (hne : ∀ t ∈ picture.toggles, t ≠ "") (p : Placeholder) : lineCount (picture.sections p) = picture.size p := by
  cases p with
  | prefixes => exact lineCount_choices hne h.toggles
  | internalNodes => exact lineCount_commandLines fun c hc => (h.internalNodes c hc).2
  | externalNodes => exact lineCount_commandLines fun c hc => (h.externalNodes c hc).2
  | edges => exact lineCount_commandLines fun c hc => (h.links c hc).2
  | linkWeights => exact lineCount_commandLines fun c hc => (h.weights c hc).2
  | bgpSessions => exact lineCount_commandLines fun c hc => (h.sessions c hc).2
  | nextHops =>
    exact lineCount_blockLines (h.newline_notMem_toggle h.hopToggles) fun b hb c hc => (h.nextHops b hb c hc).2
  | bgpPropagations =>
    exact lineCount_blockLines (h.newline_notMem_toggle h.propagationToggles)
      fun b hb c hc => (h.propagations b hb c hc).2

end Picture

/-! ## Answers -/

/-- What a model answers to the queries of an export; hops and propagations are listed prefix by prefix, and the hops
of a prefix router by router. -/
@[ext]
structure Answers (P : Type) where
  prefixes : List P
  internalRouters : List RouterId
  externalRouters : List RouterId
  edges : List Edge
  nextHops : List (List (List RouterId))
  sessions : List Session
  propagations : List (List Propagation)

def Answers.size {P : Type} (answers : Answers P) : Placeholder → ℕ
  | .prefixes => if answers.prefixes = [] then 0 else 1
  | .internalNodes => answers.internalRouters.length
  | .externalNodes => answers.externalRouters.length
  | .edges => answers.edges.countP fun e => e.a < e.b
  | .nextHops => (answers.nextHops.map fun hops => blockSize (hops.map List.length).sum).sum
  | .linkWeights => answers.edges.length
  | .bgpSessions => answers.sessions.length
  | .bgpPropagations => (answers.propagations.map fun propagations => blockSize propagations.length).sum

namespace Model

section
variable {P : Type} {model : Model P}

structure Gives (model : Model P) (answers : Answers P) : Prop where
  prefixes : model.knownPrefixes = .ok answers.prefixes
  internalRouters : model.internalRouters = .ok answers.internalRouters
  externalRouters : model.externalRouters = .ok answers.externalRouters
  edges : model.edges = .ok answers.edges
  nextHops : (answers.prefixes.mapM fun key => answers.internalRouters.mapM (model.nextHops key)) =
    .ok answers.nextHops
  sessions : model.sessions = .ok answers.sessions
  propagations : answers.prefixes.mapM model.propagations = .ok answers.propagations

theorem Gives.unique {answers answers' : Answers P} (h : model.Gives answers) (h' : model.Gives answers') :
    answers = answers' := by
  have hprefixes := Except.ok.inj (h.prefixes.symm.trans h'.prefixes)
  have hinternal := Except.ok.inj (h.internalRouters.symm.trans h'.internalRouters)
  have hexternal := Except.ok.inj (h.externalRouters.symm.trans h'.externalRouters)
  have hedges := Except.ok.inj (h.edges.symm.trans h'.edges)
  have hsessions := Except.ok.inj (h.sessions.symm.trans h'.sessions)
  have hhops := h.nextHops
  have hpropagations := h.propagations
  rw [hprefixes, hinternal] at hhops
  rw [hprefixes] at hpropagations
  exact Answers.ext hprefixes hinternal hexternal hedges (Except.ok.inj (hhops.symm.trans h'.nextHops)) hsessions
    (Except.ok.inj (hpropagations.symm.trans h'.propagations))

/-! ## Counting answers -/

theorem length_of_layer {α : Type} {query : Query (List α)} {line : α → Drawing Command} {commands : List Command}
    (h : (do (← ask query).mapM line) = .ok commands) : ∃ xs, query = .ok xs ∧ commands.length = xs.length := by
  obtain ⟨xs, hxs, hcommands⟩ := bind_eq_ok h
  exact ⟨xs, ask_eq_ok.mp hxs, length_of_mapM hcommands⟩

theorem length_of_linkLines {commands : List Command} (h : model.linkLines = .ok commands) :
    ∃ edges, model.edges = .ok edges ∧ commands.length = edges.countP fun e => e.a < e.b := by
  obtain ⟨edges, hedges, hcommands⟩ := bind_eq_ok h
  refine ⟨edges, ask_eq_ok.mp hedges, ?_⟩
  rw [← Except.ok.inj hcommands, List.length_map, List.countP_eq_length_filter]

theorem length_of_hopLines {routers : List RouterId} (hrouters : model.internalRouters = .ok routers) (key : P)
    (commands : List Command) (h : model.hopLines key = .ok commands) :
    ∃ hops, routers.mapM (model.nextHops key) = .ok hops ∧ commands.length = (hops.map List.length).sum := by
  obtain ⟨routers', hrouters', h⟩ := bind_eq_ok h
  obtain rfl := Except.ok.inj (hrouters.symm.trans (ask_eq_ok.mp hrouters'))
  obtain ⟨drawn, hdrawn, hcommands⟩ := bind_eq_ok h
  have hstep : ∀ router ∈ routers, ∀ lines,
      (do return (← ask (model.nextHops key router)).map (Command.nextHop router) : Drawing _) = .ok lines →
      ∃ hops, model.nextHops key router = .ok hops ∧ lines.length = hops.length := by
    intro router _ lines hlines
    obtain ⟨hops, hhops, hlines⟩ := bind_eq_ok hlines
    refine ⟨hops, ask_eq_ok.mp hhops, ?_⟩
    rw [← Except.ok.inj hlines, List.length_map]
  obtain ⟨hops, hhops, hlengths⟩ := mapM_transfer hstep hdrawn
  refine ⟨hops, hhops, ?_⟩
  rw [← Except.ok.inj hcommands, List.length_flatten, hlengths]

theorem length_of_propagationLines (key : P) (commands : List Command)
    (h : model.propagationLines key = .ok commands) :
    ∃ propagations, model.propagations key = .ok propagations ∧ commands.length = propagations.length := by
  obtain ⟨propagations, hpropagations, hcommands⟩ := bind_eq_ok h
  refine ⟨propagations, ask_eq_ok.mp hpropagations, ?_⟩
  rw [← Except.ok.inj hcommands, List.length_map]

/-- Where the number of lines in a block can be told from the answer for its prefix, so can the sizes of all blocks. -/
theorem lengths_of_blocks {α : Type} {lines : P → Drawing (List Command)} {query : P → Query α} {count : α → ℕ}
    (hlines : ∀ key commands, lines key = .ok commands → ∃ a, query key = .ok a ∧ commands.length = count a)
    {entries : List (PrefixEntry P)} {blocks : List Block}
    (h : entries.mapM (fun entry => return Block.mk entry.toggle (← lines entry.key)) = .ok blocks) :
    ∃ as, (entries.map (·.key)).mapM query = .ok as ∧
      (blocks.map fun b => blockSize b.commands.length).sum = (as.map fun a => blockSize (count a)).sum := by
  rw [List.mapM_map]
  have hstep : ∀ entry ∈ entries, ∀ b, (do return Block.mk entry.toggle (← lines entry.key) : Drawing Block) = .ok b →
      ∃ a, query entry.key = .ok a ∧ blockSize b.commands.length = blockSize (count a) := by
    intro entry _ b hb
    obtain ⟨commands, hcommands, hb⟩ := bind_eq_ok hb
    cases hb
    obtain ⟨a, ha, hcount⟩ := hlines entry.key commands hcommands
    exact ⟨a, ha, congrArg blockSize hcount⟩
  obtain ⟨as, has, hsizes⟩ := mapM_transfer hstep h
  exact ⟨as, has, congrArg List.sum hsizes⟩

theorem toggle_ne_empty_of_entries {entries : List (PrefixEntry P)} (h : model.prefixEntries = .ok entries) :
    ∀ entry ∈ entries, entry.toggle ≠ "" := by
  obtain ⟨keys, -, hentries⟩ := bind_eq_ok h
  refine forall_mem_mapM hentries fun key _ entry hentry => ?_
  obtain ⟨text, -, hentry⟩ := bind_eq_ok hentry
  cases hentry
  exact fun hempty => absurd (Text.append_eq_empty_iff.mp hempty).1 (by decide)

/-- A picture is drawn from answers, and its layers have their sizes. -/
theorem Draws.answers {entries : List (PrefixEntry P)} {picture : Picture} (h : model.Draws entries picture)
    (hentries : model.prefixEntries = .ok entries) :
    ∃ answers, model.Gives answers ∧ answers.prefixes = entries.map (·.key) ∧ picture.size = answers.size := by
  obtain ⟨internal, hinternal, hinternalSize⟩ := length_of_layer h.internalNodes
  obtain ⟨external, hexternal, hexternalSize⟩ := length_of_layer h.externalNodes
  obtain ⟨edges, hedges, hlinkSize⟩ := length_of_linkLines h.links
  obtain ⟨edges', hedges', hweightSize⟩ := length_of_layer h.weights
  obtain rfl := Except.ok.inj (hedges.symm.trans hedges')
  obtain ⟨sessions, hsessions, hsessionSize⟩ := length_of_layer h.sessions
  obtain ⟨hops, hhops, hhopSizes⟩ := lengths_of_blocks (length_of_hopLines hinternal) h.nextHops
  obtain ⟨propagations, hpropagations, hpropagationSizes⟩ := lengths_of_blocks length_of_propagationLines h.propagations
  refine ⟨⟨entries.map (·.key), internal, external, edges, hops, sessions, propagations⟩,
    ⟨(resolves_of_entries hentries).known, hinternal, hexternal, hedges, hhops, hsessions, hpropagations⟩, rfl,
    funext fun p => ?_⟩
  cases p with
  | prefixes =>
    rw [Picture.size, h.toggles, Answers.size]
    simp only [List.map_eq_nil_iff]
  | internalNodes => exact hinternalSize
  | externalNodes => exact hexternalSize
  | edges => exact hlinkSize
  | nextHops => exact hhopSizes
  | linkWeights => exact hweightSize
  | bgpSessions => exact hsessionSize
  | bgpPropagations => exact hpropagationSizes

end

end Model

/-- Where neither names nor prefixes break their line, an export that builds its sections has asked for the answers that
their sizes are counted in, and these sizes are the ones it logs. -/
theorem section_sizes {P : Type} {model : Model P} (h : model.IsSingleLine) {request : OptionRequest}
    {warnings : List Warning} {sections : Sections}
    (hsections : (model.buildSections request warnings).result = .ok sections) :
    ∃ answers, model.Gives answers ∧ (∀ p, lineCount (sections p) = answers.size p) ∧
      (model.buildSections request warnings).log = request.logged (.prefixCount answers.prefixes.length ::
        Placeholder.all.map fun p => .sectionSize p (answers.size p)) := by
  obtain ⟨loud, hrun, hbuilt⟩ := model.run_buildSections request warnings
  rw [hbuilt] at hsections ⊢
  cases hrun with
  | unresolved | stopped | failed => cases hsections
  | @drawn entries picture hentries _ hpicture =>
    obtain rfl := Except.ok.inj hsections
    have hdraws := Model.draws_of_picture hpicture
    obtain ⟨answers, hgives, hprefixes, hsize⟩ := hdraws.answers hentries
    have hne : ∀ t ∈ picture.toggles, t ≠ "" := by
      rw [hdraws.toggles]
      exact List.forall_mem_map.mpr (Model.toggle_ne_empty_of_entries hentries)
    have hsizes : ∀ p, lineCount (picture.sections p) = answers.size p := by
      intro p
      rw [(h.picture hentries hpicture).lineCount_sections hne, hsize]
    refine ⟨answers, hgives, hsizes, ?_⟩
    rw [Outcome.under, hprefixes, List.length_map, Sections.sizes]
    simp only [hsizes]

/-- A link in both directions, one from a router to itself and one to no number; the odd prefixes have no text, the hops
of a prefix are all alike, and there may be none. -/
def countedAnswers (keys : List ℕ) : Answers ℕ where
  prefixes := keys
  internalRouters := [.zero false, .one]
  externalRouters := []
  edges := [⟨.zero false, .one, .one⟩, ⟨.one, .zero true, .half⟩, ⟨.one, .one, .nan⟩, ⟨.zero true, .nan, .one⟩]
  nextHops := keys.map fun key => [[], List.replicate key .one]
  sessions := [⟨.one, .one, "ebgp"⟩]
  propagations := keys.map fun key => List.replicate (key / 2) ⟨.one, .zero false, none⟩

def countedModel (keys : List ℕ) : Model ℕ where
  internalRouters := .ok (countedAnswers keys).internalRouters
  externalRouters := .ok (countedAnswers keys).externalRouters
  routerName _ := .ok none
  routerPosition _ := .ok none
  edges := .ok (countedAnswers keys).edges
  knownPrefixes := .ok keys
  prefixString key := .ok (if key % 2 = 0 then "10.0/8" else "")
  nextHops key router := .ok (if router = .one then List.replicate key .one else [])
  sessions := .ok (countedAnswers keys).sessions
  propagations key := .ok (List.replicate (key / 2) ⟨.one, .zero false, none⟩)

theorem countedModel_gives (keys : List ℕ) : (countedModel keys).Gives (countedAnswers keys) :=
  ⟨rfl, rfl, rfl, rfl, mapM_eq_map fun _ _ => rfl, rfl, mapM_eq_map fun _ _ => rfl⟩

theorem countedModel_isSingleLine (keys : List ℕ) : (countedModel keys).IsSingleLine := by
  have hprefix : ∀ key : ℕ, '\n'.unit ∉ (if key % 2 = 0 then "10.0/8" else "" : Text).toList := by
    intro key
    split <;> decide
  refine ⟨fun _ _ _ _ _ hname => ?_, fun _ _ _ _ _ hname => ?_, fun _ _ key _ text htext => ?_⟩
  · cases hname
  · cases hname
  · cases htext
    exact hprefix key

theorem section_sizes_counted :
    ((countedModel []).buildSections ⟨some true, none⟩ []).log =
        .prefixCount 0 :: List.zipWith .sectionSize Placeholder.all [0, 2, 0, 1, 0, 4, 1, 0] ∧
      ((countedModel [4, 0, 1, 4]).buildSections ⟨some true, none⟩ []).log =
        .prefixCount 4 :: List.zipWith .sectionSize Placeholder.all [1, 2, 0, 1, 18, 4, 1, 14] := by
  have hlog : ∀ keys, errorOf? ((countedModel keys).buildSections ⟨some true, none⟩ []).result = none →
      ((countedModel keys).buildSections ⟨some true, none⟩ []).log = .prefixCount keys.length ::
        Placeholder.all.map fun p => .sectionSize p ((countedAnswers keys).size p) := by
    intro keys hnone
    obtain ⟨sections, hsections⟩ := errorOf?_eq_none.mp hnone
    obtain ⟨answers, hgives, -, hlog⟩ := section_sizes (countedModel_isSingleLine keys) hsections
    obtain rfl := hgives.unique (countedModel_gives keys)
    exact hlog
  refine ⟨(hlog [] ?_).trans ?_, (hlog [4, 0, 1, 4] ?_).trans ?_⟩
  · rw [Model.errorOf?_buildSections]
    decide +kernel
  · decide +kernel
  · rw [Model.errorOf?_buildSections]
    decide +kernel
  · decide +kernel

end NetDiagram
