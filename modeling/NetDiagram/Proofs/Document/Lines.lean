import NetDiagram.Proofs.Document.Decoding

/-!
# Lines of a document

A document has the lines of the skeleton, with those of its sections where the
tokens stand. This needs names and prefixes that do not break their line, and
then cutting the document at its newlines gives these lines back.
-/

namespace NetDiagram

def textLines (text : Text) : List Text :=
  (text.toList.splitOn '\n'.unit).map .ofList

/-- Lines that are joined come back when none holds a newline. -/
theorem textLines_intercalate {ls : List Text} (hne : ls ≠ []) (h : ∀ l ∈ ls, '\n'.unit ∉ l.toList) :
    textLines (Text.intercalate "\n" ls) = ls := by
  have hunits : (Text.intercalate "\n" ls).toList = ['\n'.unit].intercalate (ls.map Text.toList) := rfl
  have hlists : ∀ l ∈ ls.map Text.toList, '\n'.unit ∉ l := List.forall_mem_map.mpr h
  rw [textLines, hunits, List.splitOn_intercalate _ hlists (by simpa using hne), List.map_map]
  have hback : (Text.ofList ∘ Text.toList) = id := funext Text.ofList_toList
  rw [hback, List.map_id]

/-! ## How lines begin -/

def content (line : Text) : List CodeUnit :=
  line.toList.dropWhile (· = ' '.unit)

def Begins (word line : Text) : Prop :=
  word.toList <+: content line

instance (word line : Text) : Decidable (Begins word line) :=
  inferInstanceAs (Decidable (_ <+: _))

/-- How the commands, the guards and their ends begin, and no other line. -/
def commandStarts : List (List CodeUnit) :=
  [['\\'.unit, 'n'.unit, 'o'.unit], ['\\'.unit, 'd'.unit, 'r'.unit],
    ['\\'.unit, 'i'.unit, 'f'.unit], ['\\'.unit, 'f'.unit, 'i'.unit]]

def IsInert (line : Text) : Prop :=
  '\n'.unit ∉ line.toList ∧ (content line).take 3 ∉ commandStarts

instance (line : Text) : Decidable (IsInert line) :=
  inferInstanceAs (Decidable (_ ∧ _))

theorem IsInert.not_prefix {line : Text} (h : IsInert line) {cs : List CodeUnit} (hlength : 3 ≤ cs.length)
    (hcs : cs.take 3 ∈ commandStarts) : ¬ cs <+: content line := by
  intro hpre
  obtain ⟨rest, hrest⟩ := hpre
  apply h.2
  rw [← hrest, List.take_append_of_le_length hlength]
  exact hcs

theorem isInert_ofString {cs : List Char} (h : '\n'.unit ∉ Text.encode cs ∧
    ((Text.encode cs).dropWhile (· = ' '.unit)).take 3 ∉ commandStarts) : IsInert (Text.ofString (.ofList cs)) := by
  rw [Text.ofString_ofList]
  exact h

theorem isInert_empty : IsInert "" := by
  decide

theorem isInert_head : ∀ line ∈ skeletonHead, IsInert line := by
  simp only [skeletonHead, skeletonLines, List.map_cons, List.take_succ_cons, List.take_zero]
  repeat refine List.forall_mem_cons.mpr ⟨isInert_ofString (by decide +kernel), ?_⟩
  exact List.forall_mem_nil _

/-! ## Commands and blocks -/

namespace Command

def reading : Command → Reading
  | .node style router position name =>
    NodeView.reading style ⟨router.toPlain, position.x.toPlain, position.y.toPlain, name⟩
  | .link a b => linkReading (a.toPlain, b.toPlain)
  | .nextHop router hop => hopReading (router.toPlain, hop.toPlain)
  | .weight a b label => WeightView.reading ⟨(a.toPlain, b.toPlain), label.text⟩
  | .session kind source destination => SessionView.reading ⟨kind, source.toPlain, destination.toPlain⟩
  | .propagation source destination => propagationReading (source.toPlain, destination.toPlain)

theorem text_eq_line (c : Command) : c.text = c.reading.line := by
  cases c with
  | node style router position name => exact text_node style router position name
  | link a b => exact text_link a b
  | nextHop router hop => exact text_nextHop router hop
  | weight a b label => exact text_weight a b label
  | session kind source destination => exact text_session kind source destination
  | propagation source destination => exact text_propagation source destination

def IsSingleLine (c : Command) : Prop :=
  '\n'.unit ∉ c.reading.text.toList

end Command

/-- One line for each command, or an empty line when there is none. -/
def rows (commands : List Command) : List Text :=
  if commands = [] then [""] else commands.map Command.text

theorem layer_readings (commands : List Command) : layer (commands.map Command.reading) = rows commands := by
  unfold layer rows
  simp only [List.map_eq_nil_iff, List.map_map]
  split
  · rfl
  · exact List.map_congr_left fun c _ => c.text_eq_line.symm

theorem commandLines_rows (commands : List Command) :
    commandLines commands = Text.intercalate "\n" (rows commands) := by
  rw [← layer_readings]
  apply commandLines_eq
  rw [List.map_map]
  exact List.map_congr_left fun c _ => c.text_eq_line

namespace Block

def rows (b : Block) : List Text :=
  ("    \\ifdefined\\" ++ b.toggle) :: (NetDiagram.rows b.commands ++ [("  \\fi" : Text)])

def readings (b : Block) : Text × List Reading :=
  (b.toggle, b.commands.map Command.reading)

theorem blockOf_readings (b : Block) : blockOf b.readings.1 b.readings.2 = b.rows := by
  rw [blockOf, readings, line_guard, layer_readings, rows]

end Block

def blockRows (blocks : List Block) : List Text :=
  if blocks = [] then [""] else blocks.flatMap Block.rows

theorem blocksOf_readings (blocks : List Block) : blocksOf (blocks.map Block.readings) = blockRows blocks := by
  unfold blocksOf blockRows
  simp only [List.map_eq_nil_iff, List.flatMap_map, Block.blockOf_readings]

theorem blockLines_rows (blocks : List Block) : blockLines blocks = Text.intercalate "\n" (blockRows blocks) := by
  rw [← blocksOf_readings]
  apply blockLines_eq
  rw [List.map_map]
  refine List.map_congr_left fun b _ => ?_
  simp only [Function.comp_apply, Block.readings, List.map_map, Prod.mk.injEq, true_and]
  exact List.map_congr_left fun c _ => c.text_eq_line

theorem newline_notMem_rows {commands : List Command} (h : ∀ c ∈ commands, c.IsSingleLine) :
    ∀ l ∈ rows commands, '\n'.unit ∉ l.toList := by
  rw [← layer_readings]
  exact (Shows.layer (List.forall_mem_map.mpr h)).newline_notMem

theorem newline_notMem_blockRows {blocks : List Block} (htoggles : ∀ b ∈ blocks, '\n'.unit ∉ b.toggle.toList)
    (h : ∀ b ∈ blocks, ∀ c ∈ b.commands, c.IsSingleLine) : ∀ l ∈ blockRows blocks, '\n'.unit ∉ l.toList := by
  rw [← blocksOf_readings]
  refine (Shows.blocks (List.forall_mem_map.mpr htoggles) (List.forall_mem_map.mpr fun b hb => ?_)).newline_notMem
  exact List.forall_mem_map.mpr (h b hb)

/-! ## Sections -/

namespace Picture

def sectionRows (picture : Picture) : Placeholder → List Text
  | .prefixes => [choices picture.toggles]
  | .internalNodes => rows picture.internalNodes
  | .externalNodes => rows picture.externalNodes
  | .edges => rows picture.links
  | .nextHops => blockRows picture.nextHops
  | .linkWeights => rows picture.weights
  | .bgpSessions => rows picture.sessions
  | .bgpPropagations => blockRows picture.propagations

def lines (picture : Picture) : List Text :=
  skeletonHead ++ (choicesHead ++ choices picture.toggles) ::
    skeletonTail.flatMap (Sum.elim (fun fixed => [fixed]) picture.sectionRows)

structure IsSingleLine (picture : Picture) : Prop where
  toggles : ∀ t ∈ picture.toggles, '\n'.unit ∉ t.toList
  internalNodes : ∀ c ∈ picture.internalNodes, c.reading.kind = .node .router ∧ c.IsSingleLine
  externalNodes : ∀ c ∈ picture.externalNodes, c.reading.kind = .node .external ∧ c.IsSingleLine
  links : ∀ c ∈ picture.links, c.reading.kind = .link ∧ c.IsSingleLine
  weights : ∀ c ∈ picture.weights, c.reading.kind = .weight ∧ c.IsSingleLine
  sessions : ∀ c ∈ picture.sessions, (∃ kind, c.reading.kind = .session kind) ∧ c.IsSingleLine
  hopToggles : picture.nextHops.map (·.toggle) = picture.toggles
  nextHops : ∀ b ∈ picture.nextHops, ∀ c ∈ b.commands, c.reading.kind = .nextHop ∧ c.IsSingleLine
  propagationToggles : picture.propagations.map (·.toggle) = picture.toggles
  propagations : ∀ b ∈ picture.propagations, ∀ c ∈ b.commands, c.reading.kind = .propagation ∧ c.IsSingleLine

variable {picture : Picture}

theorem rows_ne_nil (commands : List Command) : rows commands ≠ [] := by
  rw [← layer_readings]
  exact layer_ne_nil _

theorem sectionRows_ne_nil (picture : Picture) (p : Placeholder) : picture.sectionRows p ≠ [] := by
  cases p with
  | prefixes => exact List.cons_ne_nil _ _
  | nextHops | bgpPropagations =>
    rw [sectionRows, ← blocksOf_readings]
    exact blocksOf_ne_nil _
  | _ => exact rows_ne_nil _

theorem sections_eq (picture : Picture) (p : Placeholder) :
    picture.sections p = Text.intercalate "\n" (picture.sectionRows p) := by
  cases p with
  | prefixes => exact Text.intercalate_singleton.symm
  | nextHops | bgpPropagations => exact blockLines_rows _
  | _ => exact commandLines_rows _

theorem skeletonWith_sections (picture : Picture) :
    Text.intercalate "\n" (skeletonWith picture.sections) = Text.intercalate "\n" picture.lines := by
  rw [Model.intercalate_skeletonWith picture.sectionRows_ne_nil picture.sections_eq, lines,
    Text.intercalate_append_of_ne_nil Model.skeletonHead_ne_nil (List.cons_ne_nil _ _)]
  rfl

theorem IsSingleLine.newline_notMem_toggle (h : picture.IsSingleLine) {blocks : List Block}
    (hblocks : blocks.map (·.toggle) = picture.toggles) : ∀ b ∈ blocks, '\n'.unit ∉ b.toggle.toList :=
  fun _ hb => h.toggles _ (hblocks ▸ List.mem_map_of_mem hb)

theorem IsSingleLine.newline_notMem_section (h : picture.IsSingleLine) (p : Placeholder) :
    ∀ l ∈ picture.sectionRows p, '\n'.unit ∉ l.toList := by
  cases p with
  | prefixes =>
    rw [sectionRows, List.forall_mem_singleton]
    exact View.newline_notMem_choices h.toggles
  | internalNodes => exact newline_notMem_rows fun c hc => (h.internalNodes c hc).2
  | externalNodes => exact newline_notMem_rows fun c hc => (h.externalNodes c hc).2
  | edges => exact newline_notMem_rows fun c hc => (h.links c hc).2
  | linkWeights => exact newline_notMem_rows fun c hc => (h.weights c hc).2
  | bgpSessions => exact newline_notMem_rows fun c hc => (h.sessions c hc).2
  | nextHops =>
    exact newline_notMem_blockRows (h.newline_notMem_toggle h.hopToggles) fun b hb c hc => (h.nextHops b hb c hc).2
  | bgpPropagations =>
    exact newline_notMem_blockRows (h.newline_notMem_toggle h.propagationToggles)
      fun b hb c hc => (h.propagations b hb c hc).2

theorem IsSingleLine.newline_notMem_lines (h : picture.IsSingleLine) : ∀ l ∈ picture.lines, '\n'.unit ∉ l.toList := by
  intro l hl
  rcases List.mem_append.mp hl with hl | hl
  · exact (isInert_head l hl).1
  rcases List.mem_cons.mp hl with rfl | hl
  · exact (View.isPlain_choices h.toggles).1
  obtain ⟨line, hline, hl⟩ := List.mem_flatMap.mp hl
  cases line with
  | inl fixed =>
    obtain rfl := List.mem_singleton.mp hl
    exact (View.isPlain_fixed hline).1
  | inr p => exact h.newline_notMem_section p l hl

theorem IsSingleLine.textLines (h : picture.IsSingleLine) :
    textLines (Text.intercalate "\n" (skeletonWith picture.sections)) = picture.lines := by
  rw [skeletonWith_sections]
  exact textLines_intercalate (by simp [lines]) h.newline_notMem_lines

end Picture

/-! ## The picture of a model -/

namespace Model

variable {P : Type} {model : Model P}

theorem node_isSingleLine {style : NodeStyle} {router : RouterId} {c : Command} (hc : model.node style router = .ok c)
    (h : ∀ name, model.routerName router = .ok (some name) → '\n'.unit ∉ name.toList) :
    c.reading.kind = .node style ∧ c.IsSingleLine := by
  obtain ⟨position, -, hc⟩ := bind_eq_ok hc
  obtain ⟨name, hname, hc⟩ := bind_eq_ok hc
  cases hc
  refine ⟨rfl, ?_⟩
  cases name with
  | none => simp [Command.IsSingleLine, Command.reading, NodeView.reading]
  | some name => exact h name (ask_eq_ok.mp hname)

theorem label_isSingleLine {e : Edge} {c : Command} (hc : e.label = .ok c) :
    c.reading.kind = .weight ∧ c.IsSingleLine := by
  obtain ⟨label, -, rfl⟩ := Edge.label_eq_ok.mp hc
  exact ⟨rfl, newline_notMem_label label⟩

theorem line_isSingleLine {s : Session} {c : Command} (hc : s.line = .ok c) :
    (∃ kind, c.reading.kind = .session kind) ∧ c.IsSingleLine := by
  obtain ⟨kind, -, rfl⟩ := Session.line_eq_ok.mp hc
  exact ⟨⟨kind, rfl⟩, by simp [Command.IsSingleLine, Command.reading, SessionView.reading]⟩

theorem hopLines_isSingleLine {key : P} {cs : List Command} (hcs : model.hopLines key = .ok cs) :
    ∀ c ∈ cs, c.reading.kind = .nextHop ∧ c.IsSingleLine := by
  obtain ⟨routers, -, hcs⟩ := bind_eq_ok hcs
  obtain ⟨hops, hhops, hcs⟩ := bind_eq_ok hcs
  cases hcs
  intro c hc
  obtain ⟨commands, hcommands, hc⟩ := List.mem_flatten.mp hc
  obtain ⟨router, -, hrouter⟩ := exists_of_mem_mapM hhops hcommands
  obtain ⟨ids, -, hrouter⟩ := bind_eq_ok hrouter
  cases hrouter
  obtain ⟨hop, -, rfl⟩ := List.mem_map.mp hc
  exact ⟨rfl, by simp [Command.IsSingleLine, Command.reading, hopReading]⟩

theorem propagationLines_isSingleLine {key : P} {cs : List Command} (hcs : model.propagationLines key = .ok cs) :
    ∀ c ∈ cs, c.reading.kind = .propagation ∧ c.IsSingleLine := by
  obtain ⟨ps, -, hcs⟩ := bind_eq_ok hcs
  cases hcs
  intro c hc
  obtain ⟨p, -, rfl⟩ := List.mem_map.mp hc
  exact ⟨rfl, by simp [Command.IsSingleLine, Command.reading, propagationReading]⟩

/-- Blocks made entry by entry have the toggles of the entries, in their order. -/
theorem blocks_of_entries {lines : P → Drawing (List Command)} {entries : List (PrefixEntry P)} {blocks : List Block}
    (h : entries.mapM (fun entry => return Block.mk entry.toggle (← lines entry.key)) = .ok blocks) :
    List.Forall₂ (fun entry block => entry.toggle = block.toggle ∧ lines entry.key = .ok block.commands) entries
      blocks := by
  induction entries generalizing blocks with
  | nil =>
    rw [mapM_nil_eq_ok h]
    exact .nil
  | cons entry entries ih =>
    obtain ⟨block, rest, hblock, hrest, rfl⟩ := mapM_cons_eq_ok h
    obtain ⟨commands, hcommands, hblock⟩ := bind_eq_ok hblock
    cases hblock
    exact .cons ⟨rfl, hcommands⟩ (ih hrest)

theorem forall_mem_blocks {lines : P → Drawing (List Command)} {entries : List (PrefixEntry P)} {blocks : List Block}
    {R : Command → Prop} (h : entries.mapM (fun entry => return Block.mk entry.toggle (← lines entry.key)) = .ok blocks)
    (hlines : ∀ key cs, lines key = .ok cs → ∀ c ∈ cs, R c) : ∀ b ∈ blocks, ∀ c ∈ b.commands, R c := by
  refine forall_mem_mapM h fun entry _ b hb => ?_
  obtain ⟨commands, hcommands, hb⟩ := bind_eq_ok hb
  cases hb
  exact hlines entry.key commands hcommands

theorem newline_notMem_entries (h : model.IsSingleLine) {entries : List (PrefixEntry P)}
    (hentries : model.prefixEntries = .ok entries) : ∀ entry ∈ entries, '\n'.unit ∉ entry.toggle.toList := by
  obtain ⟨keys, hkeys, hentries⟩ := bind_eq_ok hentries
  refine forall_mem_mapM hentries fun key hkey entry hentry => ?_
  obtain ⟨text, htext, hentry⟩ := bind_eq_ok hentry
  cases hentry
  exact newline_notMem_toggle (h.prefixStrings keys hkeys key hkey text htext)

theorem toggles_of_entries {lines : P → Drawing (List Command)} {entries : List (PrefixEntry P)} {blocks : List Block}
    (h : entries.mapM (fun entry => return Block.mk entry.toggle (← lines entry.key)) = .ok blocks) :
    blocks.map (·.toggle) = entries.map (·.toggle) := by
  have hblocks := blocks_of_entries h
  clear h
  induction hblocks with
  | nil => rfl
  | cons hblock _ ih => rw [List.map_cons, List.map_cons, hblock.1, ih]

theorem block_of_entry {lines : P → Drawing (List Command)} {entries : List (PrefixEntry P)} {blocks : List Block}
    (h : entries.mapM (fun entry => return Block.mk entry.toggle (← lines entry.key)) = .ok blocks) {k : Nat}
    {entry : PrefixEntry P} (hk : entries[k]? = some entry) :
    ∃ commands, blocks[k]? = some ⟨entry.toggle, commands⟩ ∧ lines entry.key = .ok commands := by
  have hblocks := blocks_of_entries h
  obtain ⟨hlt, rfl⟩ := List.getElem?_eq_some_iff.mp hk
  have hlt' : k < blocks.length := hblocks.length_eq ▸ hlt
  obtain ⟨htoggle, hcommands⟩ := hblocks.get hlt hlt'
  refine ⟨blocks[k].commands, ?_, hcommands⟩
  rw [List.getElem?_eq_getElem hlt', Option.some.injEq]
  exact congrArg (Block.mk · blocks[k].commands) htoggle.symm

/-- Where no name and no prefix text breaks its line, nothing in the picture does. -/
theorem IsSingleLine.picture (h : model.IsSingleLine) {entries : List (PrefixEntry P)} {picture : Picture}
    (hentries : model.prefixEntries = .ok entries) (hpicture : model.picture entries = .ok picture) :
    picture.IsSingleLine := by
  have hdraws := draws_of_picture hpicture
  obtain ⟨internal, hinternalRouters, hinternal⟩ := bind_eq_ok hdraws.internalNodes
  obtain ⟨external, hexternalRouters, hexternal⟩ := bind_eq_ok hdraws.externalNodes
  obtain ⟨edges, -, hlinks⟩ := bind_eq_ok hdraws.links
  obtain ⟨edges', -, hweights⟩ := bind_eq_ok hdraws.weights
  obtain ⟨stored, -, hsessions⟩ := bind_eq_ok hdraws.sessions
  refine ⟨?_, ?_, ?_, ?_, ?_, ?_, ?_, ?_, ?_, ?_⟩
  · rw [hdraws.toggles]
    exact List.forall_mem_map.mpr (newline_notMem_entries h hentries)
  · refine forall_mem_mapM hinternal fun router hrouter c hc => ?_
    exact node_isSingleLine hc (h.internalNames internal (ask_eq_ok.mp hinternalRouters) router hrouter)
  · refine forall_mem_mapM hexternal fun router hrouter c hc => ?_
    exact node_isSingleLine hc (h.externalNames external (ask_eq_ok.mp hexternalRouters) router hrouter)
  · rw [← Except.ok.inj hlinks]
    refine List.forall_mem_map.mpr fun e _ => ?_
    exact ⟨rfl, by simp [Command.IsSingleLine, Command.reading, linkReading]⟩
  · exact forall_mem_mapM hweights fun _ _ _ => label_isSingleLine
  · exact forall_mem_mapM hsessions fun _ _ _ => line_isSingleLine
  · rw [hdraws.toggles]
    exact toggles_of_entries hdraws.nextHops
  · exact forall_mem_blocks hdraws.nextHops fun _ _ => hopLines_isSingleLine
  · rw [hdraws.toggles]
    exact toggles_of_entries hdraws.propagations
  · exact forall_mem_blocks hdraws.propagations fun _ _ => propagationLines_isSingleLine

theorem lines_of_exportDocument (h : model.IsSingleLine) {request : OptionRequest} {warnings : List Warning}
    {document : Text} (hdocument : (model.exportDocument request warnings).result = .ok document) :
    ∃ entries picture, model.prefixEntries = .ok entries ∧ model.picture entries = .ok picture ∧
      picture.IsSingleLine ∧ textLines document = picture.lines := by
  obtain ⟨sections, hsections, rfl⟩ := sections_of_exportDocument hdocument
  obtain ⟨entries, picture, hentries, hpicture, rfl⟩ := picture_of_buildSections hsections
  have hsingle := h.picture hentries hpicture
  exact ⟨entries, picture, hentries, hpicture, hsingle, hsingle.textLines⟩

end Model

end NetDiagram
