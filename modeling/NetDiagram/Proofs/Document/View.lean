import NetDiagram.Proofs.Document.Runs
import NetDiagram.Proofs.Picture.Readings

/-!
# What a document shows

The view of a model holds what the model answers as far as it can be drawn: no
sign of zero, no position or name where there is none, weights as they are
written. A document is made of the lines of the view of its model.
-/

namespace NetDiagram

abbrev NumberPair := PlainNumber × PlainNumber

structure NodeView where
  router : PlainNumber
  x : PlainNumber
  y : PlainNumber
  name : Text

structure WeightView where
  ends : NumberPair
  label : Text

structure SessionView where
  kind : SessionKind
  ends : NumberPair

structure PrefixView where
  toggle : Text
  hops : List NumberPair
  propagations : List NumberPair

structure View where
  internalNodes : List NodeView
  externalNodes : List NodeView
  links : List NumberPair
  weights : List WeightView
  sessions : List SessionView
  prefixes : List PrefixView

/-! ## The view of a model -/

def Edge.ends (e : Edge) : NumberPair :=
  (e.a.toPlain, e.b.toPlain)

def Edge.view (e : Edge) : Drawing WeightView :=
  match WeightLabel.ofWeight? e.weight with
  | some label => .ok ⟨e.ends, label.text⟩
  | none => .error (.fractionalWeight e.weight)

def Session.view (s : Session) : Drawing SessionView :=
  match SessionKind.ofName? s.kind with
  | some kind => .ok ⟨kind, s.source.toPlain, s.destination.toPlain⟩
  | none => .error (.unknownSessionKind s.kind)

namespace Model

variable {P : Type} (model : Model P)

def nodeView (router : RouterId) : Drawing NodeView := do
  let position ← ask (model.routerPosition router)
  let name ← ask (model.routerName router)
  return ⟨router.toPlain, (position.getD .origin).x.toPlain, (position.getD .origin).y.toPlain, name.getD ""⟩

def hopViews (key : P) : Drawing (List NumberPair) := do
  let hops ← (← ask model.internalRouters).mapM fun router =>
    return (← ask (model.nextHops key router)).map fun hop => (router.toPlain, hop.toPlain)
  return hops.flatten

def prefixView (key : P) : Drawing PrefixView := do
  let text ← ask (model.prefixString key)
  let hops ← model.hopViews key
  let propagations ← ask (model.propagations key)
  return ⟨toggle text, hops, propagations.map fun p => (p.source.toPlain, p.destination.toPlain)⟩

def view : Drawing View := do
  let edges ← ask model.edges
  return {
    internalNodes := ← (← ask model.internalRouters).mapM model.nodeView
    externalNodes := ← (← ask model.externalRouters).mapM model.nodeView
    links := (edges.filter fun e => e.a < e.b).map Edge.ends
    weights := ← edges.mapM Edge.view
    sessions := ← (← ask model.sessions).mapM Session.view
    prefixes := ← (← ask model.knownPrefixes).mapM model.prefixView }

end Model

/-! ## Readings of a view -/

def NodeView.reading (style : NodeStyle) (v : NodeView) : Reading :=
  ⟨.node style, [v.x, v.y, v.router], v.name, rfl⟩

def linkReading (ends : NumberPair) : Reading :=
  ⟨.link, [ends.1, ends.2], "", rfl⟩

def hopReading (ends : NumberPair) : Reading :=
  ⟨.nextHop, [ends.1, ends.2], "", rfl⟩

def propagationReading (ends : NumberPair) : Reading :=
  ⟨.propagation, [ends.1, ends.2], "", rfl⟩

def WeightView.reading (v : WeightView) : Reading :=
  ⟨.weight, [v.ends.1, v.ends.2], v.label, rfl⟩

def SessionView.reading (v : SessionView) : Reading :=
  ⟨.session v.kind, [v.ends.1, v.ends.2], "", rfl⟩

def guardReading (toggle : Text) : Reading :=
  ⟨.guard, [], toggle, rfl⟩

/-! ## Lines of a view -/

def layer (rs : List Reading) : List Text :=
  if rs = [] then [""] else rs.map Reading.line

def blockOf (toggle : Text) (rs : List Reading) : List Text :=
  (guardReading toggle).line :: (layer rs ++ [("  \\fi" : Text)])

def blocksOf (bs : List (Text × List Reading)) : List Text :=
  if bs = [] then [""] else bs.flatMap fun b => blockOf b.1 b.2

namespace View

variable (v : View)

def hopBlocks : List (Text × List Reading) :=
  v.prefixes.map fun p => (p.toggle, p.hops.map hopReading)

def propagationBlocks : List (Text × List Reading) :=
  v.prefixes.map fun p => (p.toggle, p.propagations.map propagationReading)

def sectionLines : Placeholder → List Text
  | .prefixes => [choices (v.prefixes.map (·.toggle))]
  | .internalNodes => layer (v.internalNodes.map (NodeView.reading .router))
  | .externalNodes => layer (v.externalNodes.map (NodeView.reading .external))
  | .edges => layer (v.links.map linkReading)
  | .nextHops => blocksOf v.hopBlocks
  | .linkWeights => layer (v.weights.map WeightView.reading)
  | .bgpSessions => layer (v.sessions.map SessionView.reading)
  | .bgpPropagations => blocksOf v.propagationBlocks

def lines : List Text :=
  (choicesHead ++ choices (v.prefixes.map (·.toggle))) ::
    skeletonTail.flatMap (Sum.elim (fun fixed => [fixed]) v.sectionLines)

end View

/-! ## Commands as lines -/

theorem spell_two (a b : RouterId) (v w : Text) :
    spell [a.toPlain, b.toPlain] [v, w] = a.text ++ (v ++ (b.text ++ w)) := by
  rw [spell, spell, spell, text_toPlain, text_toPlain, Text.append_empty]
  simp

namespace Command

theorem text_node (style : NodeStyle) (router : RouterId) (position : Position) (name : Text) :
    (node style router position name).text =
      (NodeView.reading style ⟨router.toPlain, position.x.toPlain, position.y.toPlain, name⟩).line := by
  have hspell :
      spell [position.x.toPlain, position.y.toPlain, router.toPlain] [", ", ") (" ++ "r", ") \x7b\x7d; % "] =
      position.x.text ++ (", " ++ (position.y.text ++ (") (" ++ "r" ++ (router.text ++ ") \x7b\x7d; % ")))) := by
    rw [spell, text_toPlain, spell_two]
  show "  \\node[" ++ style.name ++ "] at (" ++ position.x.text ++ ", " ++ position.y.text ++ ") (" ++
      ("r" ++ router.text) ++ ") \x7b\x7d; % " ++ name =
    "  \\node[" ++ style.name ++ "] at (" ++
      (spell [position.x.toPlain, position.y.toPlain, router.toPlain] [", ", ") (" ++ "r", ") \x7b\x7d; % "] ++
        (name ++ ""))
  rw [hspell]
  simp only [Text.append_assoc, Text.append_empty]

theorem text_link (a b : RouterId) : (link a b).text = (linkReading (a.toPlain, b.toPlain)).line := by
  show "  \\draw[link] (" ++ ("r" ++ a.text) ++ ") -- (" ++ ("r" ++ b.text) ++ ");" =
    "  \\draw[link] (" ++ "r" ++ (spell [a.toPlain, b.toPlain] [") -- (" ++ "r", ");"] ++ ("" ++ ""))
  rw [spell_two]
  simp only [Text.append_assoc, Text.append_empty]

theorem text_nextHop (a b : RouterId) : (nextHop a b).text = (hopReading (a.toPlain, b.toPlain)).line := by
  show "      \\draw[next hop] (" ++ ("r" ++ a.text) ++ ") -- (" ++ ("r" ++ b.text) ++ ");" =
    "      \\draw[next hop] (" ++ "r" ++ (spell [a.toPlain, b.toPlain] [") -- (" ++ "r", ");"] ++ ("" ++ ""))
  rw [spell_two]
  simp only [Text.append_assoc, Text.append_empty]

theorem text_weight (a b : RouterId) (label : WeightLabel) :
    (weight a b label).text = (WeightView.reading ⟨(a.toPlain, b.toPlain), label.text⟩).line := by
  show "    \\draw ($(" ++ ("r" ++ a.text) ++ ")!\\linkweightdist!(" ++ ("r" ++ b.text) ++
      ")$) node[link weight] \x7b " ++ label.text ++ " \x7d;" =
    "    \\draw ($(" ++ "r" ++
      (spell [a.toPlain, b.toPlain] [")!\\linkweightdist!(" ++ "r", ")$) node[link weight] \x7b "] ++
        (label.text ++ " \x7d;"))
  rw [spell_two]
  simp only [Text.append_assoc]

theorem text_session (kind : SessionKind) (a b : RouterId) :
    (session kind a b).text = (SessionView.reading ⟨kind, (a.toPlain, b.toPlain)⟩).line := by
  show "    \\draw[" ++ kind.style ++ "] " ++
      ("(" ++ ("r" ++ a.text) ++ ") to[bend left=20] (" ++ ("r" ++ b.text) ++ ");") =
    "    \\draw[" ++ kind.style ++ "] " ++ "(" ++ "r" ++
      (spell [a.toPlain, b.toPlain] [") to[bend left=20] (" ++ "r", ");"] ++ ("" ++ ""))
  rw [spell_two]
  simp only [Text.append_assoc, Text.append_empty]

theorem text_propagation (a b : RouterId) :
    (propagation a b).text = (propagationReading (a.toPlain, b.toPlain)).line := by
  show "      \\draw[bgp propagation] " ++
      ("(" ++ ("r" ++ a.text) ++ ") to[bend left=20] (" ++ ("r" ++ b.text) ++ ");") =
    "      \\draw[bgp propagation] " ++ "(" ++ "r" ++
      (spell [a.toPlain, b.toPlain] [") to[bend left=20] (" ++ "r", ");"] ++ ("" ++ ""))
  rw [spell_two]
  simp only [Text.append_assoc, Text.append_empty]

end Command

theorem line_guard (toggle : Text) : (guardReading toggle).line = "    \\ifdefined\\" ++ toggle := by
  show "    \\ifdefined\\" ++ (spell [] [] ++ (toggle ++ "")) = _
  rw [spell, Text.append_empty, Text.empty_append]
  simp

/-! ## Sections as lines -/

theorem layer_ne_nil (rs : List Reading) : layer rs ≠ [] := by
  unfold layer
  split
  · simp
  · simpa using ‹¬ rs = []›

theorem blocksOf_ne_nil (bs : List (Text × List Reading)) : blocksOf bs ≠ [] := by
  unfold blocksOf
  split
  · simp
  · rename_i hne
    obtain ⟨b, bs, rfl⟩ := List.exists_cons_of_ne_nil hne
    simp [blockOf]

theorem commandLines_eq {commands : List Command} {rs : List Reading}
    (h : commands.map Command.text = rs.map Reading.line) :
    commandLines commands = Text.intercalate "\n" (layer rs) := by
  unfold commandLines layer
  rw [h]
  split
  · rename_i hnil
    simp [hnil]
  · rfl

theorem Block.text_eq {block : Block} {rs : List Reading} (h : block.commands.map Command.text = rs.map Reading.line) :
    block.text = Text.intercalate "\n" (blockOf block.toggle rs) := by
  have hend : ("\n  \\fi" : Text) = "\n" ++ "  \\fi" := rfl
  have hne : layer rs ++ [("  \\fi" : Text)] ≠ [] := by simp
  unfold Block.text blockOf
  rw [commandLines_eq h, ← line_guard, hend, Text.intercalate_cons_of_ne_nil hne,
    Text.intercalate_append_of_ne_nil (layer_ne_nil rs) (List.cons_ne_nil _ _), Text.intercalate_singleton]
  simp only [Text.append_assoc]

theorem intercalate_flatMap {α : Type} {f : α → List Text} {xs : List α} (h : ∀ x ∈ xs, f x ≠ []) :
    Text.intercalate "\n" (xs.flatMap f) = Text.intercalate "\n" (xs.map fun x => Text.intercalate "\n" (f x)) := by
  induction xs with
  | nil => rfl
  | cons x xs ih =>
    have htail := ih fun x hx => h x (by simp [hx])
    cases xs with
    | nil => simp
    | cons y ys =>
      have hne : (y :: ys).flatMap f ≠ [] := by
        rw [List.flatMap_cons]
        exact List.append_ne_nil_of_left_ne_nil (h y (by simp)) _
      rw [List.flatMap_cons, List.map_cons, Text.intercalate_append_of_ne_nil (h x (by simp)) hne, htail,
        Text.intercalate_cons_of_ne_nil (by simp)]

theorem blockLines_eq {blocks : List Block} {bs : List (Text × List Reading)}
    (h : blocks.map (fun b => (b.toggle, b.commands.map Command.text)) = bs.map fun b => (b.1, b.2.map Reading.line)) :
    blockLines blocks = Text.intercalate "\n" (blocksOf bs) := by
  have htexts : blocks.map Block.text = bs.map fun b => Text.intercalate "\n" (blockOf b.1 b.2) := by
    induction blocks generalizing bs with
    | nil =>
      obtain rfl := List.map_eq_nil_iff.mp h.symm
      rfl
    | cons block blocks ih =>
      obtain ⟨b, bs, rfl⟩ := List.exists_cons_of_ne_nil (l := bs) (by rintro rfl; simp at h)
      simp only [List.map_cons, List.cons.injEq, Prod.mk.injEq] at h
      obtain ⟨⟨htoggle, hcommands⟩, hrest⟩ := h
      rw [List.map_cons, List.map_cons, ih hrest, Block.text_eq hcommands, htoggle]
  unfold blockLines blocksOf
  rw [htexts]
  split
  · rename_i hnil
    simp [hnil]
  · exact (intercalate_flatMap fun b _ => List.cons_ne_nil _ _).symm

/-! ## The document of a model -/

theorem ask_eq_ok {α : Type} {q : Query α} {a : α} : ask q = .ok a ↔ q = .ok a := by
  cases q <;> simp [ask, Except.mapError]

theorem Edge.label_eq_ok {e : Edge} {c : Command} :
    e.label = .ok c ↔ ∃ label, WeightLabel.ofWeight? e.weight = some label ∧ .weight e.a e.b label = c := by
  unfold Edge.label
  cases WeightLabel.ofWeight? e.weight <;> simp

theorem Session.line_eq_ok {s : Session} {c : Command} :
    s.line = .ok c ↔ ∃ kind, SessionKind.ofName? s.kind = some kind ∧ .session kind s.source s.destination = c := by
  unfold Session.line
  cases SessionKind.ofName? s.kind <;> simp

namespace Model

variable {P : Type} {model : Model P}

theorem nodeView_of_node {style : NodeStyle} {router : RouterId} {c : Command} (h : model.node style router = .ok c) :
    ∃ v, model.nodeView router = .ok v ∧ c.text = (v.reading style).line := by
  obtain ⟨position, hposition, h⟩ := bind_eq_ok h
  obtain ⟨name, hname, h⟩ := bind_eq_ok h
  cases h
  refine ⟨_, ?_, Command.text_node _ _ _ _⟩
  rw [nodeView, hposition, hname]
  rfl

theorem weightView_of_label {e : Edge} {c : Command} (h : e.label = .ok c) :
    ∃ v, e.view = .ok v ∧ c.text = v.reading.line := by
  obtain ⟨label, hlabel, rfl⟩ := Edge.label_eq_ok.mp h
  refine ⟨_, ?_, Command.text_weight _ _ _⟩
  rw [Edge.view, hlabel]
  rfl

theorem sessionView_of_line {s : Session} {c : Command} (h : s.line = .ok c) :
    ∃ v, s.view = .ok v ∧ c.text = v.reading.line := by
  obtain ⟨kind, hkind, rfl⟩ := Session.line_eq_ok.mp h
  refine ⟨_, ?_, Command.text_session _ _ _⟩
  rw [Session.view, hkind]

theorem hopViews_of_hopLines {key : P} {cs : List Command} (h : model.hopLines key = .ok cs) :
    ∃ vs, model.hopViews key = .ok vs ∧ cs.map Command.text = (vs.map hopReading).map Reading.line := by
  obtain ⟨routers, hrouters, h⟩ := bind_eq_ok h
  obtain ⟨hops, hhops, h⟩ := bind_eq_ok h
  cases h
  have hstep : ∀ router ∈ routers, ∀ commands,
      (do return (← ask (model.nextHops key router)).map (Command.nextHop router) : Drawing _) = .ok commands →
      ∃ vs, (do return (← ask (model.nextHops key router)).map fun hop => (router.toPlain, hop.toPlain) : Drawing _) =
        .ok vs ∧ commands.map Command.text = (vs.map hopReading).map Reading.line := by
    intro router _ commands hcommands
    obtain ⟨ids, hids, hcommands⟩ := bind_eq_ok hcommands
    cases hcommands
    refine ⟨ids.map fun hop => (router.toPlain, hop.toPlain), ?_, ?_⟩
    · rw [hids]
      rfl
    · rw [List.map_map, List.map_map, List.map_map]
      exact List.map_congr_left fun hop _ => Command.text_nextHop router hop
  obtain ⟨vs, hvs, hmap⟩ := mapM_transfer hstep hhops
  refine ⟨vs.flatten, ?_, ?_⟩
  · rw [hopViews, hrouters]
    show (do return (← routers.mapM _).flatten : Drawing _) = _
    rw [hvs]
    rfl
  · rw [List.map_flatten, hmap, List.map_flatten, List.map_flatten, List.map_map]
    rfl

theorem prefixView_of_blocks {key : P} {text : Text} {hops : List Command} {propagations : List Command}
    (htext : model.prefixString key = .ok text) (hhops : model.hopLines key = .ok hops)
    (hpropagations : model.propagationLines key = .ok propagations) :
    ∃ v, model.prefixView key = .ok v ∧ v.toggle = toggle text ∧
      hops.map Command.text = (v.hops.map hopReading).map Reading.line ∧
      propagations.map Command.text = (v.propagations.map propagationReading).map Reading.line := by
  obtain ⟨vs, hvs, hmap⟩ := hopViews_of_hopLines hhops
  obtain ⟨ps, hps, h⟩ := bind_eq_ok hpropagations
  cases h
  refine ⟨⟨toggle text, vs, ps.map fun p => (p.source.toPlain, p.destination.toPlain)⟩, ?_, rfl, hmap, ?_⟩
  · rw [prefixView, ask_eq_ok.mpr htext, hvs, hps]
    rfl
  · rw [List.map_map, List.map_map, List.map_map]
    exact List.map_congr_left fun p _ => Command.text_propagation p.source p.destination

theorem prefixViews_of_blocks {keys : List P} {entries : List (PrefixEntry P)} {hops propagations : List Block}
    (hentries : keys.mapM (fun key => return PrefixEntry.ofText key (← model.prefixString key)) = .ok entries)
    (hhops : model.nextHopBlocks entries = .ok hops)
    (hpropagations : model.propagationBlocks entries = .ok propagations) :
    ∃ vs, keys.mapM model.prefixView = .ok vs ∧ entries.map (·.toggle) = vs.map (·.toggle) ∧
      hops.map (fun b => (b.toggle, b.commands.map Command.text)) =
        vs.map (fun v => (v.toggle, (v.hops.map hopReading).map Reading.line)) ∧
      propagations.map (fun b => (b.toggle, b.commands.map Command.text)) =
        vs.map fun v => (v.toggle, (v.propagations.map propagationReading).map Reading.line) := by
  induction keys generalizing entries hops propagations with
  | nil =>
    obtain rfl := mapM_nil_eq_ok hentries
    obtain rfl := mapM_nil_eq_ok hhops
    obtain rfl := mapM_nil_eq_ok hpropagations
    exact ⟨[], rfl, rfl, rfl, rfl⟩
  | cons key keys ih =>
    obtain ⟨entry, rest, hentry, hrest, rfl⟩ := mapM_cons_eq_ok hentries
    obtain ⟨text, htext, hentry⟩ := bind_eq_ok hentry
    cases hentry
    obtain ⟨_, hops, hhop, hhopsTail, rfl⟩ := mapM_cons_eq_ok hhops
    obtain ⟨cs, hcs, hhop⟩ := bind_eq_ok hhop
    cases hhop
    obtain ⟨_, propagations, hpropagation, hpropagationsTail, rfl⟩ := mapM_cons_eq_ok hpropagations
    obtain ⟨ds, hds, hpropagation⟩ := bind_eq_ok hpropagation
    cases hpropagation
    obtain ⟨v, hv, htoggle, hhopTexts, hpropagationTexts⟩ := prefixView_of_blocks htext hcs hds
    obtain ⟨vs, hvs, htoggles, hblocks, hblocks'⟩ := ih hrest hhopsTail hpropagationsTail
    refine ⟨v :: vs, mapM_cons_ok hv hvs, ?_, ?_, ?_⟩
    · rw [List.map_cons, List.map_cons, htoggles, htoggle]
      rfl
    · rw [List.map_cons, List.map_cons, hblocks, htoggle, ← hhopTexts]
      rfl
    · rw [List.map_cons, List.map_cons, hblocks', htoggle, ← hpropagationTexts]
      rfl

structure Draws (model : Model P) (entries : List (PrefixEntry P)) (picture : Picture) : Prop where
  toggles : picture.toggles = entries.map (·.toggle)
  internalNodes : model.internalNodes = .ok picture.internalNodes
  externalNodes : model.externalNodes = .ok picture.externalNodes
  links : model.linkLines = .ok picture.links
  nextHops : model.nextHopBlocks entries = .ok picture.nextHops
  weights : model.weightLabels = .ok picture.weights
  sessions : model.sessionLines = .ok picture.sessions
  propagations : model.propagationBlocks entries = .ok picture.propagations

theorem draws_of_picture {entries : List (PrefixEntry P)} {picture : Picture}
    (h : model.picture entries = .ok picture) : model.Draws entries picture := by
  obtain ⟨internalNodes, hinternal, h⟩ := bind_eq_ok h
  obtain ⟨externalNodes, hexternal, h⟩ := bind_eq_ok h
  obtain ⟨links, hlinks, h⟩ := bind_eq_ok h
  obtain ⟨nextHops, hnextHops, h⟩ := bind_eq_ok h
  obtain ⟨weights, hweights, h⟩ := bind_eq_ok h
  obtain ⟨sessions, hsessions, h⟩ := bind_eq_ok h
  obtain ⟨propagations, hpropagations, h⟩ := bind_eq_ok h
  cases h
  exact ⟨rfl, hinternal, hexternal, hlinks, hnextHops, hweights, hsessions, hpropagations⟩

theorem commandLines_of_layer {α β : Type} {f : α → Drawing Command} {g : α → Drawing β} {reading : β → Reading}
    {xs : List α} {commands : List Command}
    (h : ∀ x c, f x = .ok c → ∃ v, g x = .ok v ∧ c.text = (reading v).line) (hxs : xs.mapM f = .ok commands) :
    ∃ vs, xs.mapM g = .ok vs ∧ commandLines commands = Text.intercalate "\n" (layer (vs.map reading)) := by
  obtain ⟨vs, hvs, hmap⟩ := mapM_transfer (fun x _ => h x) hxs
  refine ⟨vs, hvs, commandLines_eq ?_⟩
  rw [hmap, List.map_map]
  rfl

theorem commandLines_links (edges : List Edge) :
    commandLines (edges.map fun e => Command.link e.a e.b) =
      Text.intercalate "\n" (layer ((edges.map Edge.ends).map linkReading)) := by
  apply commandLines_eq
  rw [List.map_map, List.map_map, List.map_map]
  exact List.map_congr_left fun e _ => Command.text_link e.a e.b

/-- The sections of a picture are the lines of the view that the same answers give. -/
theorem view_of_picture {entries : List (PrefixEntry P)} {picture : Picture}
    (hentries : model.prefixEntries = .ok entries) (h : model.picture entries = .ok picture) :
    ∃ v, model.view = .ok v ∧ ∀ p, picture.sections p = Text.intercalate "\n" (v.sectionLines p) := by
  have hdraws := draws_of_picture h
  obtain ⟨keys, hkeys, hentries⟩ := bind_eq_ok hentries
  obtain ⟨internal, hinternalRouters, hinternal⟩ := bind_eq_ok hdraws.internalNodes
  obtain ⟨external, hexternalRouters, hexternal⟩ := bind_eq_ok hdraws.externalNodes
  obtain ⟨edges, hedges, hlinks⟩ := bind_eq_ok hdraws.links
  obtain ⟨edges', hedges', hweights⟩ := bind_eq_ok hdraws.weights
  -- the edges are asked for twice, for the links and for their weights
  obtain rfl : edges = edges' := by simpa [hedges] using hedges'
  obtain ⟨stored, hstored, hsessions⟩ := bind_eq_ok hdraws.sessions
  obtain ⟨internalViews, hinternalViews, hinternalText⟩ :=
    commandLines_of_layer (fun _ _ => nodeView_of_node) hinternal
  obtain ⟨externalViews, hexternalViews, hexternalText⟩ :=
    commandLines_of_layer (fun _ _ => nodeView_of_node) hexternal
  obtain ⟨weightViews, hweightViews, hweightText⟩ := commandLines_of_layer (fun _ _ => weightView_of_label) hweights
  obtain ⟨sessionViews, hsessionViews, hsessionText⟩ :=
    commandLines_of_layer (fun _ _ => sessionView_of_line) hsessions
  obtain ⟨prefixViews, hprefixViews, htoggles, hhopText, hpropagationText⟩ :=
    prefixViews_of_blocks hentries hdraws.nextHops hdraws.propagations
  refine ⟨⟨internalViews, externalViews, (edges.filter fun e => e.a < e.b).map Edge.ends, weightViews, sessionViews,
    prefixViews⟩, ?_, ?_⟩
  · rw [view, hedges, hinternalRouters, hexternalRouters, hstored, ask_eq_ok.mpr hkeys]
    show (do
      return View.mk (← internal.mapM model.nodeView) (← external.mapM model.nodeView) _ (← edges.mapM Edge.view)
        (← stored.mapM Session.view) (← keys.mapM model.prefixView) : Drawing View) = _
    rw [hinternalViews, hexternalViews, hweightViews, hsessionViews, hprefixViews]
    rfl
  · intro p
    cases p with
    | prefixes => exact (congrArg choices (hdraws.toggles.trans htoggles)).trans Text.intercalate_singleton.symm
    | internalNodes => exact hinternalText
    | externalNodes => exact hexternalText
    | edges =>
      rw [Picture.sections, ← Except.ok.inj hlinks]
      exact commandLines_links _
    | nextHops => exact blockLines_eq (by rw [hhopText, View.hopBlocks, List.map_map]; rfl)
    | linkWeights => exact hweightText
    | bgpSessions => exact hsessionText
    | bgpPropagations => exact blockLines_eq (by rw [hpropagationText, View.propagationBlocks, List.map_map]; rfl)

theorem sections_of_exportDocument {request : OptionRequest} {warnings : List Warning} {document : Text}
    (h : (model.exportDocument request warnings).result = .ok document) :
    ∃ sections, (model.buildSections request warnings).result = .ok sections ∧
      document = Text.intercalate "\n" (skeletonWith sections) := by
  rw [exportDocument_eq, Outcome.rendered] at h
  cases hsections : (model.buildSections request warnings).result with
  | error e =>
    rw [hsections] at h
    cases h
  | ok sections =>
    rw [hsections] at h
    exact ⟨sections, rfl, (Except.ok.inj h).symm⟩

theorem picture_of_buildSections {request : OptionRequest} {warnings : List Warning} {sections : Sections}
    (h : (model.buildSections request warnings).result = .ok sections) :
    ∃ entries picture, model.prefixEntries = .ok entries ∧ model.picture entries = .ok picture ∧
      sections = picture.sections := by
  obtain ⟨loud, hrun, hbuilt⟩ := model.run_buildSections request warnings
  rw [hbuilt] at h
  cases hrun with
  | unresolved | stopped | failed => cases h
  | drawn hentries _ hpicture => exact ⟨_, _, hentries, hpicture, (Except.ok.inj h).symm⟩

theorem exportDocument_of_picture {entries : List (PrefixEntry P)} {picture : Picture}
    {request : OptionRequest} (warnings : List Warning) (hentries : model.prefixEntries = .ok entries)
    (hpolicy : request.resolve.prefixCollisions = .warn) (hpicture : model.picture entries = .ok picture) :
    (model.exportDocument request warnings).result = .ok (Text.intercalate "\n" (skeletonWith picture.sections)) := by
  unfold exportDocument
  simp only [renderTemplate_skeleton]
  simp [buildSections, hentries, hpolicy, hpicture]

theorem skeletonHead_ne_nil : skeletonHead ≠ [] := by
  simp [skeletonHead, skeletonLines]

/-- Sections that are joined lines make one list of lines with the skeleton. -/
theorem intercalate_skeletonWith {sections : Sections} {lines : Placeholder → List Text}
    (hne : ∀ p, lines p ≠ []) (h : ∀ p, sections p = Text.intercalate "\n" (lines p)) :
    Text.intercalate "\n" (skeletonWith sections) = Text.intercalate "\n" skeletonHead ++ "\n" ++
      Text.intercalate "\n" ((choicesHead ++ sections .prefixes) ::
        skeletonTail.flatMap (Sum.elim (fun fixed => [fixed]) lines)) := by
  have htail : skeletonTail.map (Sum.elim id sections) =
      skeletonTail.map fun line => Text.intercalate "\n" (line.elim (fun fixed => [fixed]) lines) := by
    apply List.map_congr_left
    intro line _
    cases line with
    | inl fixed => exact Text.intercalate_singleton.symm
    | inr p => exact h p
  have hlines : ∀ line ∈ skeletonTail, line.elim (fun fixed => [fixed]) lines ≠ [] := by
    intro line _
    cases line with
    | inl fixed => exact List.cons_ne_nil _ _
    | inr p => exact hne p
  have hfirst : .inl "" ∈ skeletonTail := by simp [skeletonTail]
  have hrest : skeletonTail.flatMap (Sum.elim (fun fixed => [fixed]) lines) ≠ [] := by
    intro hnil
    exact hlines _ hfirst (List.flatMap_eq_nil_iff.mp hnil _ hfirst)
  rw [skeletonWith, Text.intercalate_append_of_ne_nil skeletonHead_ne_nil (List.cons_ne_nil _ _), htail,
    Text.intercalate_cons_of_ne_nil hrest, intercalate_flatMap hlines, Text.intercalate_cons_of_ne_nil]
  intro hnil
  exact absurd (List.map_eq_nil_iff.mp hnil ▸ hfirst) (by simp)

/-- A document is made of the head of the skeleton and the lines of the view. -/
theorem view_of_exportDocument {request : OptionRequest} {warnings : List Warning} {document : Text}
    (h : (model.exportDocument request warnings).result = .ok document) :
    ∃ v, model.view = .ok v ∧
      document = Text.intercalate "\n" skeletonHead ++ "\n" ++ Text.intercalate "\n" v.lines := by
  obtain ⟨sections, hsections, rfl⟩ := sections_of_exportDocument h
  obtain ⟨entries, picture, hentries, hpicture, rfl⟩ := picture_of_buildSections hsections
  obtain ⟨v, hv, hlines⟩ := view_of_picture hentries hpicture
  refine ⟨v, hv, ?_⟩
  have hne : ∀ p, v.sectionLines p ≠ [] := by
    intro p
    cases p with
    | prefixes => exact List.cons_ne_nil _ _
    | nextHops | bgpPropagations => exact blocksOf_ne_nil _
    | _ => exact layer_ne_nil _
  rw [intercalate_skeletonWith hne hlines, hlines .prefixes, View.sectionLines, Text.intercalate_singleton]
  rfl

end Model

end NetDiagram
