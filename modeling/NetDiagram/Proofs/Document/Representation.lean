import NetDiagram.Proofs.Document.Standalone
import NetDiagram.Proofs.Document.Nodes

/-!
# Models that answer alike

Two models may know their prefixes by keys of different kinds. Where they answer
alike as far as their answers can be drawn, prefix by prefix in the order of
their lists, no export tells them apart: nothing looks at the keys themselves.
-/

namespace NetDiagram

/-! ## Answers that look alike -/

theorem Binary64.Same.toPlain {x y : Binary64} (h : x.Same y) : x.toPlain = y.toPlain :=
  toPlain_eq_iff.mpr h

theorem Binary64.Same.lt_iff {a b c d : Binary64} (h : a.Same c) (h' : b.Same d) : a < b ↔ c < d := by
  rw [Binary64.lt_iff, Binary64.lt_iff, same_iff.mp h, same_iff.mp h']

structure Position.Alike (p q : Position) : Prop where
  x : p.x.Same q.x
  y : p.y.Same q.y

structure Edge.Alike (e f : Edge) : Prop where
  a : e.a.Same f.a
  b : e.b.Same f.b
  weight : (WeightLabel.ofWeight? e.weight).map (·.text) = (WeightLabel.ofWeight? f.weight).map (·.text)

structure Session.Alike (s t : Session) : Prop where
  source : s.source.Same t.source
  destination : s.destination.Same t.destination
  kind : s.kind = t.kind

structure Propagation.Alike (p q : Propagation) : Prop where
  source : p.source.Same q.source
  destination : p.destination.Same q.destination

structure RouterAlike {P Q : Type} (model : Model P) (other : Model Q) (router otherRouter : RouterId) : Prop where
  id : router.Same otherRouter
  name : Agree (fun a b => a.getD "" = b.getD "") (model.routerName router) (other.routerName otherRouter)
  position : Agree (fun p q => (p.getD .origin).Alike (q.getD .origin)) (model.routerPosition router)
    (other.routerPosition otherRouter)

/-- One text, the same next hops of every internal router and the same ends of propagations. -/
structure PrefixAlike {P Q : Type} (model : Model P) (other : Model Q) (key : P) (otherKey : Q) : Prop where
  text : model.prefixString key = other.prefixString otherKey
  hops : Agree (List.Forall₂ fun x y => x.Same y ∧
      Agree (List.Forall₂ Binary64.Same) (model.nextHops key x) (other.nextHops otherKey y))
    model.internalRouters other.internalRouters
  propagations : Agree (List.Forall₂ Propagation.Alike) (model.propagations key) (other.propagations otherKey)

structure Model.Alike {P Q : Type} (model : Model P) (other : Model Q) : Prop where
  internalRouters : Agree (List.Forall₂ (RouterAlike model other)) model.internalRouters other.internalRouters
  externalRouters : Agree (List.Forall₂ (RouterAlike model other)) model.externalRouters other.externalRouters
  edges : Agree (List.Forall₂ Edge.Alike) model.edges other.edges
  sessions : Agree (List.Forall₂ Session.Alike) model.sessions other.sessions
  prefixes : Agree (List.Forall₂ (PrefixAlike model other)) model.knownPrefixes other.knownPrefixes

/-! ## Commands and blocks that look alike -/

def Command.Alike (c d : Command) : Prop :=
  c.text = d.text

structure Block.Alike (b c : Block) : Prop where
  toggle : b.toggle = c.toggle
  commands : List.Forall₂ Command.Alike b.commands c.commands

theorem commandLines_alike {cs ds : List Command} (h : List.Forall₂ Command.Alike cs ds) :
    commandLines cs = commandLines ds := by
  rw [commandLines, commandLines, map_eq_of_forall₂ h fun _ _ => id]

theorem Block.Alike.text {b c : Block} (h : b.Alike c) : b.text = c.text := by
  unfold Block.text
  rw [h.toggle, commandLines_alike h.commands]

theorem blockLines_alike {bs cs : List Block} (h : List.Forall₂ Block.Alike bs cs) : blockLines bs = blockLines cs := by
  rw [blockLines, blockLines, map_eq_of_forall₂ h fun _ _ => Block.Alike.text]

section
variable {a b c d : RouterId} (h : a.Same c) (h' : b.Same d)
include h h'

theorem link_alike : (Command.link a b).Alike (.link c d) := by
  rw [Command.Alike, Command.text_link, Command.text_link, h.toPlain, h'.toPlain]

theorem nextHop_alike : (Command.nextHop a b).Alike (.nextHop c d) := by
  rw [Command.Alike, Command.text_nextHop, Command.text_nextHop, h.toPlain, h'.toPlain]

theorem session_alike (kind : SessionKind) : (Command.session kind a b).Alike (.session kind c d) := by
  rw [Command.Alike, Command.text_session, Command.text_session, h.toPlain, h'.toPlain]

theorem propagation_alike : (Command.propagation a b).Alike (.propagation c d) := by
  rw [Command.Alike, Command.text_propagation, Command.text_propagation, h.toPlain, h'.toPlain]

end

theorem Edge.Alike.label {e f : Edge} (h : e.Alike f) : Agree Command.Alike e.label f.label := by
  obtain ⟨l, hl⟩ := WeightLabel.exists_ofWeight? e.weight
  obtain ⟨m, hm⟩ := WeightLabel.exists_ofWeight? f.weight
  have htext : l.text = m.text := by simpa [hl, hm] using h.weight
  rw [Edge.label, Edge.label, hl, hm]
  refine .ok ?_
  rw [Command.Alike, Command.text_weight, Command.text_weight, h.a.toPlain, h.b.toPlain, htext]

theorem Session.Alike.line {s t : Session} (h : s.Alike t) : Agree Command.Alike s.line t.line := by
  rw [Session.line, Session.line, h.kind]
  cases SessionKind.ofName? t.kind with
  | none => exact .error _
  | some kind => exact .ok (session_alike h.source h.destination kind)

theorem Agree.ask {α β : Type} {R : α → β → Prop} {q : Query α} {r : Query β} (h : Agree R q r) :
    Agree R (NetDiagram.ask q) (NetDiagram.ask r) := by
  cases h with
  | ok h => exact .ok h
  | error e => exact .error _

/-! ## Layers that look alike -/

section
variable {P Q : Type} {model : Model P} {other : Model Q}

theorem RouterAlike.node {x y : RouterId} (h : RouterAlike model other x y) (style : NodeStyle) :
    Agree Command.Alike (model.node style x) (other.node style y) := by
  refine h.position.ask.bind fun p q hposition => h.name.ask.map fun a b hname => ?_
  rw [Command.Alike, Command.text_node, Command.text_node, hposition.x.toPlain, hposition.y.toPlain, h.id.toPlain,
    hname]

theorem PrefixAlike.hopLines {key : P} {otherKey : Q} (h : PrefixAlike model other key otherKey) :
    Agree (List.Forall₂ Command.Alike) (model.hopLines key) (other.hopLines otherKey) := by
  refine h.hops.ask.bind fun xs ys hrouters => ?_
  have hlines : ∀ x y,
      x.Same y ∧ Agree (List.Forall₂ Binary64.Same) (model.nextHops key x) (other.nextHops otherKey y) →
      Agree (List.Forall₂ Command.Alike) (do return (← ask (model.nextHops key x)).map (Command.nextHop x))
        (do return (← ask (other.nextHops otherKey y)).map (Command.nextHop y)) :=
    fun x y hrouter => hrouter.2.ask.map fun _ _ hhops =>
      List.rel_map (fun _ _ hhop => nextHop_alike hrouter.1 hhop) hhops
  exact (Agree.mapM hrouters hlines).map fun _ _ hblocks => List.rel_flatten hblocks

theorem PrefixAlike.propagationLines {key : P} {otherKey : Q} (h : PrefixAlike model other key otherKey) :
    Agree (List.Forall₂ Command.Alike) (model.propagationLines key) (other.propagationLines otherKey) :=
  h.propagations.ask.map fun _ _ hpropagations =>
    List.rel_map (fun _ _ hp => propagation_alike hp.source hp.destination) hpropagations

structure PrefixEntry.Alike (model : Model P) (other : Model Q) (e : PrefixEntry P) (f : PrefixEntry Q) : Prop where
  text : e.text = f.text
  toggle : e.toggle = f.toggle
  key : PrefixAlike model other e.key f.key

theorem blocks_alike {lines : P → Drawing (List Command)} {otherLines : Q → Drawing (List Command)}
    (hlines : ∀ key otherKey, PrefixAlike model other key otherKey →
      Agree (List.Forall₂ Command.Alike) (lines key) (otherLines otherKey))
    {es : List (PrefixEntry P)} {fs : List (PrefixEntry Q)} (h : List.Forall₂ (PrefixEntry.Alike model other) es fs) :
    Agree (List.Forall₂ Block.Alike) (es.mapM fun e => return Block.mk e.toggle (← lines e.key))
      (fs.mapM fun f => return Block.mk f.toggle (← otherLines f.key)) :=
  Agree.mapM h fun _ _ hentry => (hlines _ _ hentry.key).map fun _ _ hcommands => ⟨hentry.toggle, hcommands⟩

namespace Model.Alike

theorem prefixEntries (h : model.Alike other) :
    Agree (List.Forall₂ (PrefixEntry.Alike model other)) model.prefixEntries other.prefixEntries := by
  refine h.prefixes.bind fun keys otherKeys hkeys => Agree.mapM hkeys fun key otherKey hkey => ?_
  have htext := hkey.text
  rw [htext]
  cases other.prefixString otherKey with
  | error failure => exact .error _
  | ok text => exact .ok ⟨rfl, rfl, hkey⟩

theorem nodes {style : NodeStyle} {q : Query (List RouterId)} {r : Query (List RouterId)}
    (h : Agree (List.Forall₂ (RouterAlike model other)) q r) :
    Agree (List.Forall₂ Command.Alike) (do (← ask q).mapM (model.node style)) (do (← ask r).mapM (other.node style)) :=
  h.ask.bind fun _ _ hrouters => Agree.mapM hrouters fun _ _ hrouter => hrouter.node style

theorem linkLines (h : model.Alike other) : Agree (List.Forall₂ Command.Alike) model.linkLines other.linkLines := by
  refine h.edges.ask.map fun es fs hedges => ?_
  have hkept : List.Forall₂ Edge.Alike (es.filter fun e => e.a < e.b) (fs.filter fun f => f.a < f.b) :=
    List.rel_filter (fun e f hedge => by simpa using hedge.a.lt_iff hedge.b) hedges
  exact List.rel_map (fun e f hedge => link_alike hedge.a hedge.b) hkept

theorem weightLabels (h : model.Alike other) :
    Agree (List.Forall₂ Command.Alike) model.weightLabels other.weightLabels :=
  h.edges.ask.bind fun _ _ hedges => Agree.mapM hedges fun _ _ => Edge.Alike.label

theorem sessionLines (h : model.Alike other) :
    Agree (List.Forall₂ Command.Alike) model.sessionLines other.sessionLines :=
  h.sessions.ask.bind fun _ _ hsessions => Agree.mapM hsessions fun _ _ => Session.Alike.line

theorem nextHopBlocks {es : List (PrefixEntry P)} {fs : List (PrefixEntry Q)}
    (h : List.Forall₂ (PrefixEntry.Alike model other) es fs) :
    Agree (List.Forall₂ Block.Alike) (model.nextHopBlocks es) (other.nextHopBlocks fs) :=
  blocks_alike (fun _ _ => PrefixAlike.hopLines) h

theorem propagationBlocks {es : List (PrefixEntry P)} {fs : List (PrefixEntry Q)}
    (h : List.Forall₂ (PrefixEntry.Alike model other) es fs) :
    Agree (List.Forall₂ Block.Alike) (model.propagationBlocks es) (other.propagationBlocks fs) :=
  blocks_alike (fun _ _ => PrefixAlike.propagationLines) h

theorem sectionText (h : model.Alike other) (p : Placeholder) : model.sectionText p = other.sectionText p := by
  cases p with
  | prefixes =>
    exact h.prefixEntries.ask.map_eq fun _ _ hentries =>
      congrArg choices (map_eq_of_forall₂ hentries fun _ _ => PrefixEntry.Alike.toggle)
  | internalNodes => exact (nodes h.internalRouters).map_eq fun _ _ => commandLines_alike
  | externalNodes => exact (nodes h.externalRouters).map_eq fun _ _ => commandLines_alike
  | edges => exact h.linkLines.map_eq fun _ _ => commandLines_alike
  | nextHops =>
    rw [Model.sectionText, Model.sectionText]
    have hblocks := h.prefixEntries.ask.bind fun _ _ => nextHopBlocks
    simpa using hblocks.map_eq fun _ _ => blockLines_alike
  | linkWeights => exact h.weightLabels.map_eq fun _ _ => commandLines_alike
  | bgpSessions => exact h.sessionLines.map_eq fun _ _ => commandLines_alike
  | bgpPropagations =>
    rw [Model.sectionText, Model.sectionText]
    have hblocks := h.prefixEntries.ask.bind fun _ _ => propagationBlocks
    simpa using hblocks.map_eq fun _ _ => blockLines_alike

end Model.Alike

/-! ## Exports that look alike -/

theorem Model.agree_picture {es : List (PrefixEntry P)} {fs : List (PrefixEntry Q)}
    (hes : model.prefixEntries = .ok es) (hfs : other.prefixEntries = .ok fs)
    (h : ∀ p, model.sectionText p = other.sectionText p) :
    Agree (fun a b => a.sections = b.sections) (model.picture es) (other.picture fs) := by
  refine Agree.of_map (map_injective Sections.map_all_injective ?_)
  rw [← sectionTexts_of_entries hes, ← sectionTexts_of_entries hfs, funext h]

/-- Models that answer alike build the same sections, with the same warnings and log. -/
theorem Model.Alike.buildSections (h : model.Alike other) (request : OptionRequest) (warnings : List Warning) :
    model.buildSections request warnings = other.buildSections request warnings := by
  unfold Model.buildSections
  obtain ⟨failure, hes, hfs⟩ | ⟨es, fs, hes, hfs, hentries⟩ := h.prefixEntries.results
  · rw [hes, hfs]
  · have htexts : es.map (·.text) = fs.map (·.text) := map_eq_of_forall₂ hentries fun _ _ => PrefixEntry.Alike.text
    rw [hes, hfs]
    dsimp only
    rw [htexts, hentries.length_eq]
    obtain ⟨e, hpicture, hother⟩ | ⟨a, b, hpicture, hother, hsections⟩ :=
      (Model.agree_picture hes hfs h.sectionText).results
    · simp only [hpicture, hother]
    · simp only [hpicture, hother, hsections]

theorem Model.Alike.exportDocument (h : model.Alike other) (request : OptionRequest) (warnings : List Warning) :
    model.exportDocument request warnings = other.exportDocument request warnings := by
  rw [exportDocument_eq, exportDocument_eq, h.buildSections]

end

/-! ## Tables -/

structure RouterRow where
  id : RouterId
  name : Option Text
  position : Option Position

structure PrefixRow where
  text : Text
  hops : List (RouterId × List RouterId)
  propagations : List Propagation

structure Table where
  internalRouters : List RouterId
  externalRouters : List RouterId
  routers : List RouterRow
  edges : List Edge
  prefixes : List PrefixRow
  sessions : List Session

namespace Table

variable (t : Table)

def router? (id : RouterId) : Option RouterRow :=
  t.routers.find? fun row => row.id.Same id

def hopsAt (k : Nat) (id : RouterId) : List RouterId :=
  ((t.prefixes[k]?.bind fun row => row.hops.find? fun entry => entry.1.Same id).map (·.2)).getD []

/-- Prefixes are known by their places; of several rows the first one counts. -/
def model : Model Nat where
  internalRouters := .ok t.internalRouters
  externalRouters := .ok t.externalRouters
  routerName id := .ok ((t.router? id).bind (·.name))
  routerPosition id := .ok ((t.router? id).bind (·.position))
  edges := .ok t.edges
  knownPrefixes := .ok (List.range t.prefixes.length)
  prefixString k := .ok ((t.prefixes[k]?.map (·.text)).getD "")
  nextHops k id := .ok (t.hopsAt k id)
  sessions := .ok t.sessions
  propagations k := .ok ((t.prefixes[k]?.map (·.propagations)).getD [])

end Table

namespace Snapshot

variable (s : Snapshot)

def routerRow (id : RouterId) : RouterRow :=
  ⟨id, (s.router? id).bind (·.name), (s.router? id).bind (·.position)⟩

def prefixRow (key : Text) : PrefixRow :=
  ⟨key, s.internalRouters.map fun id => (id, s.nextHopsAt key id), s.propagationsAt key⟩

/-- All answers of the snapshot that an export asks for; a prefix that is listed twice has two rows. -/
def table : Table where
  internalRouters := s.internalRouters
  externalRouters := s.externalRouters
  routers := (s.internalRouters ++ s.externalRouters).map s.routerRow
  edges := s.edges
  prefixes := s.prefixes.map s.prefixRow
  sessions := s.sessions.getD []

variable {s}

theorem router?_congr {x y : RouterId} (h : x.Same y) : s.router? x = s.router? y := by
  have hsame : ∀ r : Router, r.id.Same x ↔ r.id.Same y := fun r => ⟨(·.trans h), (·.trans h.symm)⟩
  simp only [router?, hsame]

theorem nextHopsAt_congr {x y : RouterId} (h : x.Same y) (key : Text) : s.nextHopsAt key x = s.nextHopsAt key y := by
  rw [nextHopsAt, nextHopsAt, ← text_toPlain x, h.toPlain, text_toPlain]

theorem find?_same {ids : List RouterId} {id : RouterId} (h : id ∈ ids) :
    ∃ x, ids.find? (fun x => x.Same id) = some x ∧ x.Same id := by
  cases hfind : ids.find? fun x => x.Same id with
  | none => exact absurd (Binary64.Same.refl id) (by simpa using List.find?_eq_none.mp hfind id h)
  | some x => exact ⟨x, rfl, by simpa using List.find?_some hfind⟩

theorem router?_table {id : RouterId} (h : id ∈ s.internalRouters ++ s.externalRouters) :
    ∃ x, x.Same id ∧ s.table.router? id = some (s.routerRow x) := by
  obtain ⟨x, hx, hsame⟩ := find?_same h
  refine ⟨x, hsame, ?_⟩
  rw [Table.router?, table, List.find?_map]
  exact congrArg (Option.map s.routerRow) hx

theorem hopsAt_table {k : Nat} {key : Text} (hkey : s.prefixes[k]? = some key) {id : RouterId}
    (h : id ∈ s.internalRouters) : s.table.hopsAt k id = s.nextHopsAt key id := by
  obtain ⟨x, hx, hsame⟩ := find?_same h
  have hrow : s.table.prefixes[k]? = some (s.prefixRow key) := by
    rw [table, List.getElem?_map, hkey]
    rfl
  have hentry : (s.prefixRow key).hops.find? (fun entry => entry.1.Same id) = some (x, s.nextHopsAt key x) := by
    rw [prefixRow, List.find?_map]
    exact congrArg (Option.map _) hx
  rw [Table.hopsAt, hrow, Option.bind_some, hentry, ← nextHopsAt_congr hsame]
  rfl

theorem routerAlike_table {id : RouterId} (h : id ∈ s.internalRouters ++ s.externalRouters) :
    RouterAlike s.model s.table.model id id := by
  obtain ⟨x, hsame, hrow⟩ := router?_table h
  refine ⟨.refl id, .ok ?_, .ok ?_⟩
  · rw [hrow, ← router?_congr hsame]
    rfl
  · rw [hrow, ← router?_congr hsame]
    exact ⟨.refl _, .refl _⟩

theorem prefixAlike_table {k : Nat} {key : Text} (hkey : s.prefixes[k]? = some key) :
    PrefixAlike s.model s.table.model key k := by
  have hrow : s.table.prefixes[k]? = some (s.prefixRow key) := by
    rw [table, List.getElem?_map, hkey]
    rfl
  refine ⟨?_, .ok ?_, .ok ?_⟩
  · simp [model, Table.model, hrow, prefixRow]
  · refine List.forall₂_same.mpr fun id hid => ⟨.refl id, .ok ?_⟩
    rw [hopsAt_table hkey hid]
    exact List.forall₂_same.mpr fun hop _ => .refl hop
  · rw [hrow]
    exact List.forall₂_same.mpr fun p _ => ⟨.refl _, .refl _⟩

theorem alike_table : s.model.Alike s.table.model where
  internalRouters := .ok (List.forall₂_same.mpr fun _ hid => routerAlike_table (List.mem_append_left _ hid))
  externalRouters := .ok (List.forall₂_same.mpr fun _ hid => routerAlike_table (List.mem_append_right _ hid))
  edges := .ok (List.forall₂_same.mpr fun _ _ => ⟨.refl _, .refl _, rfl⟩)
  sessions := .ok (List.forall₂_same.mpr fun _ _ => ⟨.refl _, .refl _, rfl⟩)
  prefixes := by
    refine .ok (List.forall₂_iff_get.mpr ⟨by simp [table], fun k hk _ => ?_⟩)
    simpa using prefixAlike_table (List.getElem?_eq_getElem hk)

end Snapshot

/-- Models that answer alike have the same outcomes, whatever their keys are: the sections, the document or the error,
the warnings and the log. A snapshot and the table of its answers are such models. -/
theorem exports_of_alike :
    (∀ (P Q : Type) (model : Model P) (other : Model Q), model.Alike other →
      ∀ (request : OptionRequest) (warnings : List Warning),
        model.buildSections request warnings = other.buildSections request warnings ∧
          model.exportDocument request warnings = other.exportDocument request warnings) ∧
      ∀ (s : Snapshot) (request : OptionRequest) (warnings : List Warning),
        s.model.buildSections request warnings = s.table.model.buildSections request warnings ∧
          s.model.exportDocument request warnings = s.table.model.exportDocument request warnings := by
  have hexports : ∀ (P Q : Type) (model : Model P) (other : Model Q), model.Alike other →
      ∀ (request : OptionRequest) (warnings : List Warning),
        model.buildSections request warnings = other.buildSections request warnings ∧
          model.exportDocument request warnings = other.exportDocument request warnings :=
    fun _ _ _ _ h request warnings => ⟨h.buildSections request warnings, h.exportDocument request warnings⟩
  exact ⟨hexports, fun s => hexports _ _ _ _ s.alike_table⟩

def numberedModel : Model Nat where
  internalRouters := .ok [.zero true]
  externalRouters := .ok []
  routerName _ := .ok none
  routerPosition _ := .ok none
  edges := .ok [⟨.zero true, .one, .half⟩]
  knownPrefixes := .ok [0, 1]
  prefixString _ := .ok "10.0/8"
  nextHops key _ := .ok (if key = 0 then [.one] else [])
  sessions := .ok [⟨.one, .zero true, "odd"⟩]
  propagations _ := .ok [⟨.one, .zero true, some .null⟩]

def wordedModel : Model Text where
  internalRouters := .ok [.zero false]
  externalRouters := .ok []
  routerName _ := .ok (some "")
  routerPosition _ := .ok (some ⟨.zero true, .zero false⟩)
  edges := .ok [⟨.zero false, .one, .zero false⟩]
  knownPrefixes := .ok ["first", "second"]
  prefixString _ := .ok "10.0/8"
  nextHops key _ := .ok (if key = "first" then [.one] else [])
  sessions := .ok [⟨.one, .zero false, "odd"⟩]
  propagations _ := .ok [⟨.one, .zero false, none⟩]

theorem exports_of_alike_numbered :
    (∀ request warnings, numberedModel.exportDocument request warnings = wordedModel.exportDocument request warnings) ∧
      (numberedModel.exportDocument .empty []).result = .error (.drawing (.unknownSessionKind "odd")) := by
  have hrouter : RouterAlike numberedModel wordedModel (.zero true) (.zero false) :=
    ⟨rfl, .ok rfl, .ok ⟨rfl, rfl⟩⟩
  have hkeys : ∀ key word hops, numberedModel.nextHops key (.zero true) = .ok hops →
      wordedModel.nextHops word (.zero false) = .ok hops → PrefixAlike numberedModel wordedModel key word := by
    intro key word hops hkey hword
    have hhops : Agree (List.Forall₂ Binary64.Same) (numberedModel.nextHops key (.zero true))
        (wordedModel.nextHops word (.zero false)) := by
      rw [hkey, hword]
      exact .ok (List.forall₂_same.mpr fun hop _ => .refl hop)
    exact ⟨rfl, .ok (.cons ⟨rfl, hhops⟩ .nil), .ok (.cons ⟨rfl, rfl⟩ .nil)⟩
  have halike : numberedModel.Alike wordedModel := by
    refine ⟨.ok (.cons hrouter .nil), .ok .nil, .ok (.cons ⟨rfl, rfl, ?_⟩ .nil), .ok (.cons ⟨rfl, rfl, rfl⟩ .nil), ?_⟩
    · decide +kernel
    · exact .ok (.cons (hkeys 0 "first" [.one] rfl rfl) (.cons (hkeys 1 "second" [] rfl rfl) .nil))
  exact ⟨fun request warnings => (exports_of_alike.1 Nat Text _ _ halike request warnings).2, by decide +kernel⟩

end NetDiagram
