import NetDiagram.Proofs.Document.SnapshotExport
import NetDiagram.Proofs.Snapshot.Contents

/-!
# Visible contents decide the document

What a model of a snapshot shows is a function of the contents of the text. Two
texts with the same contents therefore have the same export in every respect,
however they are written and whatever else they hold.
-/

namespace NetDiagram

/-! ## The view of contents -/

def RouterContents.view (r : RouterContents) : NodeView where
  router := r.id
  x := r.x
  y := r.y
  name := r.name

def LinkContents.link (l : LinkContents) : Link where
  a := l.a.number
  b := l.b.number
  weight := l.weight.number
  reverseWeight := some l.reverseWeight.number

def SessionContents.session (s : SessionContents) : Session where
  source := s.source.number
  destination := s.destination.number
  kind := s.kind

def PrefixContents.view (p : PrefixContents) : PrefixView where
  toggle := toggle p.text
  hops := p.hops.flatMap fun h => h.2.map fun hop => (h.1, hop)
  propagations := p.propagations

namespace Contents

variable (c : Contents)

def internalNodes : List NodeView :=
  (c.routers.filter fun r => ¬ r.external).map RouterContents.view

def externalNodes : List NodeView :=
  (c.routers.filter fun r => r.external).map RouterContents.view

def edges : List Edge :=
  c.links.flatMap fun l => l.link.edges

def view : Drawing View := do
  return {
    internalNodes := c.internalNodes
    externalNodes := c.externalNodes
    links := (c.edges.filter fun e => e.a < e.b).map Edge.ends
    weights := ← c.edges.mapM Edge.view
    sessions := ← c.sessions.mapM fun x => x.session.view
    prefixes := c.prefixes.map PrefixContents.view }

end Contents

/-! ## Signs of zeros -/

theorem Binary64.unsignedZero_lt {a b : Binary64} : a.unsignedZero < b.unsignedZero ↔ a < b := by
  rw [lt_iff, lt_iff, units?_unsignedZero, units?_unsignedZero]

theorem WeightLabel.ofWeight?_unsignedZero (weight : Binary64) : ofWeight? weight.unsignedZero = ofWeight? weight := by
  cases weight with
  | nan => rfl
  | infinity negative => rfl
  | finite negative sig exp fits =>
    by_cases h : sig = 0
    · subst h
      obtain rfl := fits.exp_eq_zero
      have hzero : ofWeight? (.zero negative) = ofWeight? (.zero false) := by cases negative <;> decide +kernel
      exact hzero.symm
    · simp [Binary64.unsignedZero, h]

def Edge.unsigned (e : Edge) : Edge :=
  ⟨e.a.unsignedZero, e.b.unsignedZero, e.weight.unsignedZero⟩

theorem Edge.ends_unsigned (e : Edge) : e.unsigned.ends = e.ends := by
  simp [ends, unsigned, Binary64.toPlain, Binary64.unsignedZero_unsignedZero]

theorem Edge.view_unsigned (e : Edge) : e.unsigned.view = e.view := by
  obtain ⟨label, hlabel⟩ := WeightLabel.exists_ofWeight? e.weight
  have hunsigned : WeightLabel.ofWeight? e.unsigned.weight = some label := by
    rw [← hlabel]
    exact WeightLabel.ofWeight?_unsignedZero e.weight
  rw [view, view, hlabel, hunsigned, e.ends_unsigned]

theorem Link.edges_contents (l : Link) : l.contents.link.edges = l.edges.map Edge.unsigned := by
  simp only [edges, List.map_cons, List.map_nil]
  rfl

theorem Session.view_contents (s : Session) : s.contents.session.view = s.view := by
  simp [view, contents, SessionContents.session, Binary64.toPlain, Binary64.unsignedZero_unsignedZero]

/-! ## The view of a snapshot -/

namespace Snapshot

variable {s : Snapshot} {v : Json}

theorem edges_contents (s : Snapshot) : s.contents.edges = s.edges.map Edge.unsigned := by
  rw [Contents.edges, contents, edges, List.flatMap_map, List.map_flatMap]
  exact List.flatMap_congr fun l _ => l.edges_contents

theorem linkEnds_contents (s : Snapshot) :
    (s.contents.edges.filter fun e => e.a < e.b).map Edge.ends = (s.edges.filter fun e => e.a < e.b).map Edge.ends := by
  have hless : ∀ e : Edge, e.unsigned.a < e.unsigned.b ↔ e.a < e.b := fun e => Binary64.unsignedZero_lt
  simp [edges_contents, List.filter_map, Function.comp_def, hless, Edge.ends_unsigned]

theorem IsReadFrom.mapM_nodeView (h : s.IsReadFrom v) (keep : Router → Bool) :
    ((s.routers.filter keep).map (·.id)).mapM s.model.nodeView =
      .ok ((s.routers.filter keep).map fun r => r.contents.view) := by
  rw [List.mapM_map]
  refine mapM_eq_map fun r hr => ?_
  have hmem := (List.mem_filter.mp hr).1
  simp [Model.nodeView, h.routerName_of_mem hmem, h.routerPosition_of_mem hmem]
  rfl

theorem hopViews_model (s : Snapshot) (key : Text) :
    s.model.hopViews key =
      .ok (s.internalRouters.map fun id => (s.nextHopsAt key id).map fun hop => (id.toPlain, hop.toPlain)).flatten := by
  have hhops : s.internalRouters.mapM (fun id =>
      return (← ask (s.model.nextHops key id)).map fun hop => (id.toPlain, hop.toPlain) : _ → Drawing _) =
      .ok (s.internalRouters.map fun id => (s.nextHopsAt key id).map fun hop => (id.toPlain, hop.toPlain)) :=
    mapM_eq_map fun id _ => rfl
  rw [Model.hopViews]
  show (do return (← s.internalRouters.mapM _).flatten : Drawing _) = _
  rw [hhops]
  rfl

theorem prefixView_contents (s : Snapshot) (key : Text) :
    s.model.prefixView key = .ok (s.prefixContents key).view := by
  have hhops : (s.prefixContents key).view.hops =
      (s.internalRouters.map fun id => (s.nextHopsAt key id).map fun hop => (id.toPlain, hop.toPlain)).flatten := by
    simp [PrefixContents.view, prefixContents, List.flatMap_def, Function.comp_def]
  rw [Model.prefixView, hopViews_model, ← hhops]
  rfl

/-- What the model of a snapshot shows is told by the contents of the snapshot. -/
theorem IsReadFrom.view (h : s.IsReadFrom v) : s.model.view = s.contents.view := by
  have hinternal : s.internalRouters.mapM s.model.nodeView = .ok s.contents.internalNodes := by
    rw [internalRouters, h.mapM_nodeView, Contents.internalNodes, Snapshot.contents, List.filter_map, List.map_map]
    simp [Function.comp_def, Router.contents]
  have hexternal : s.externalRouters.mapM s.model.nodeView = .ok s.contents.externalNodes := by
    rw [externalRouters, h.mapM_nodeView, Contents.externalNodes, Snapshot.contents, List.filter_map, List.map_map]
    simp [Function.comp_def, Router.contents]
  -- the contents have no negative zero, and a label does not show one
  have hweights : s.contents.edges.mapM Edge.view = s.edges.mapM Edge.view := by
    rw [edges_contents, List.mapM_map]
    exact congrArg (s.edges.mapM ·) (funext Edge.view_unsigned)
  have hsessions : (s.contents.sessions.mapM fun x => x.session.view) = (s.sessions.getD []).mapM Session.view := by
    rw [Snapshot.contents, List.mapM_map]
    exact congrArg ((s.sessions.getD []).mapM ·) (funext Session.view_contents)
  have hprefixes : s.prefixes.mapM s.model.prefixView = .ok (s.contents.prefixes.map PrefixContents.view) := by
    rw [Snapshot.contents, List.map_map]
    exact mapM_eq_map fun key _ => s.prefixView_contents key
  show (do
    return View.mk (← s.internalRouters.mapM s.model.nodeView) (← s.externalRouters.mapM s.model.nodeView)
      ((s.edges.filter fun e => e.a < e.b).map Edge.ends) (← s.edges.mapM Edge.view)
      (← (s.sessions.getD []).mapM Session.view) (← s.prefixes.mapM s.model.prefixView) : Drawing View) = _
  rw [Contents.view, hinternal, hexternal, hprefixes, hweights, hsessions, linkEnds_contents]
  rfl

/-- A snapshot gives the sections that are made of the lines of its view, unless it is stopped for its prefixes. -/
theorem IsReadFrom.buildSections (h : s.IsReadFrom v) :
    ∃ view, s.contents.view = .ok view ∧ s.model.buildSections =
      Sections.outcome (fun p => Text.intercalate "\n" (view.sectionLines p)) (s.contents.prefixes.map (·.text)) := by
  obtain ⟨picture, hpicture, hbuilt⟩ := buildSections_model h
  obtain ⟨view, hview, hlines⟩ := Model.view_of_picture s.prefixEntries_model hpicture
  have hsections : picture.sections = fun p => Text.intercalate "\n" (view.sectionLines p) := funext hlines
  have htexts : s.contents.prefixes.map (·.text) = s.prefixes := by
    rw [Snapshot.contents, List.map_map]
    exact List.map_id _
  exact ⟨view, h.view ▸ hview, by rw [hbuilt, hsections, htexts]⟩

/-- Texts with the same contents have the same export: the document or the error, the warnings and the log. -/
theorem exportDocument_of_contents {text text' : Text} {s s' : Snapshot} {v v' : Json}
    (h : Snapshot.parse text = .ok s) (h' : Snapshot.parse text' = .ok s') (hv : Grammar.Document text.toList v)
    (hv' : Grammar.Document text'.toList v') (hcontents : v.contents = v'.contents) (request : OptionRequest)
    (warnings : List Warning) :
    s.model.exportDocument request warnings = s'.model.exportDocument request warnings := by
  obtain ⟨w, hw, hread⟩ := isReadFrom_of_parse h
  obtain ⟨w', hw', hread'⟩ := isReadFrom_of_parse h'
  obtain rfl := hw.unique hv
  obtain rfl := hw'.unique hv'
  have hsame : s.contents = s'.contents := calc s.contents
    _ = w.contents := hread.contents.symm
    _ = w'.contents := hcontents
    _ = s'.contents := hread'.contents
  obtain ⟨view, hview, hbuilt⟩ := hread.buildSections
  obtain ⟨view', hview', hbuilt'⟩ := hread'.buildSections
  rw [hsame] at hview hbuilt
  obtain rfl := Except.ok.inj (hview.symm.trans hview')
  rw [Model.exportDocument_eq, Model.exportDocument_eq, hbuilt, hbuilt']

end Snapshot

def briefText : Text :=
  "\x7b\"routers\":[\x7b\"id\":0\x7d],\"links\":[\x7b\"a\":0,\"b\":1,\"weight\":1\x7d],\"prefixes\":[\"p\"]," ++
    "\"propagations\":\x7b\"p\":[\x7b\"source\":1,\"destination\":0\x7d]\x7d\x7d"

def wordyText : Text :=
  "\x7b \"note\":1," ++
    "\"propagations\":\x7b\"q\":[],\"p\":[\x7b\"detail\":null,\"destination\":-0,\"source\":1\x7d]\x7d," ++
    "\"nextHops\":\x7b\"p\":\x7b\"-0\":[1],\"1\":[0]\x7d\x7d,\"prefixes\":[\"\\u0070\"]," ++
    "\"links\":[\x7b\"weight\":1.0,\"b\":1,\"a\":-0,\"reverseWeight\":1\x7d]," ++
    "\"routers\":[\x7b\"name\":\"\",\"id\":0\x7d]\x7d"

def briefSnapshot : Snapshot where
  routers := [⟨.zero false, none, none, none⟩]
  links := [⟨.zero false, .one, .one, none⟩]
  prefixes := ["p"]
  nextHops := none
  sessions := none
  propagations := some [("p", [⟨.one, .zero false, none⟩])]

def wordySnapshot : Snapshot where
  routers := [⟨.zero false, some "", none, none⟩]
  links := [⟨.zero true, .one, .one, some .one⟩]
  prefixes := ["p"]
  nextHops := some [("p", [("1", [.zero false]), ("-0", [.one])])]
  sessions := none
  propagations := some [("q", []), ("p", [⟨.one, .zero true, some .null⟩])]

theorem exportDocument_of_contents_wordy :
    Snapshot.parse briefText = .ok briefSnapshot ∧ Snapshot.parse wordyText = .ok wordySnapshot ∧
      briefSnapshot ≠ wordySnapshot ∧ ∀ request warnings,
        briefSnapshot.model.exportDocument request warnings = wordySnapshot.model.exportDocument request warnings := by
  have hbrief : Snapshot.parse briefText = .ok briefSnapshot := by decide +kernel
  have hwordy : Snapshot.parse wordyText = .ok wordySnapshot := by decide +kernel
  have hcontents : briefSnapshot.contents = wordySnapshot.contents := by decide +kernel
  obtain ⟨v, hv, hread⟩ := Snapshot.isReadFrom_of_parse hbrief
  obtain ⟨v', hv', hread'⟩ := Snapshot.isReadFrom_of_parse hwordy
  have hsame : v.contents = v'.contents := by rw [hread.contents, hread'.contents, hcontents]
  exact ⟨hbrief, hwordy, by decide +kernel, Snapshot.exportDocument_of_contents hbrief hwordy hv hv' hsame⟩

end NetDiagram
