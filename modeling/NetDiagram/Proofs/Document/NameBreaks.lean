import NetDiagram.Proofs.Document.Sizes
import NetDiagram.Proofs.Document.Standalone

/-!
# Names that break their line

The name of a router closes the line of its node and is not escaped. A newline
in it ends the comment, and what follows stands on lines of its own. So a node
section has one line for each router exactly when none of their names has a
newline, and one more for each newline that they have.
-/

namespace NetDiagram

/-! ## Lines of a text that holds newlines -/

theorem splitOn_append_of_notMem {sep : CodeUnit} {cs : List CodeUnit} (h : sep ∉ cs) (ds : List CodeUnit) :
    (cs ++ ds).splitOn sep = (ds.splitOn sep).modifyHead (cs ++ ·) := by
  simp only [List.splitOn_eq_splitOnP]
  induction cs with
  | nil => exact (congrFun List.modifyHead_id _).symm
  | cons c cs ih =>
    have hc : ¬ (c == sep) = true := fun heq => h (eq_of_beq heq ▸ List.mem_cons_self)
    have hcs : sep ∉ cs := fun hmem => h (List.mem_cons_of_mem c hmem)
    rw [List.cons_append, List.splitOnP_cons_eq_if_modifyHead, if_neg hc, ih hcs, List.modifyHead_modifyHead]
    rfl

/-- A text without newlines goes in front of the first line. -/
theorem textLines_append {front : Text} (h : '\n'.unit ∉ front.toList) (text : Text) :
    textLines (front ++ text) = (textLines text).modifyHead (front ++ ·) := by
  unfold textLines
  rw [Text.toList_append, splitOn_append_of_notMem h]
  cases text.toList.splitOn '\n'.unit with
  | nil => rfl
  | cons line lines => rw [List.map_cons, List.modifyHead_cons, List.modifyHead_cons, List.map_cons, Text.ofList_append]

theorem textLines_joined {texts : List Text} (h : texts ≠ []) :
    textLines (Text.intercalate "\n" texts) = texts.flatMap textLines := by
  induction texts with
  | nil => exact absurd rfl h
  | cons text texts ih =>
    cases texts with
    | nil => simp
    | cons next texts =>
      have hunits : (Text.intercalate "\n" (text :: next :: texts)).toList =
          text.toList ++ '\n'.unit :: (Text.intercalate "\n" (next :: texts)).toList := by
        rw [Text.intercalate_cons_cons, Text.toList_append, Text.toList_append, List.append_assoc]
        rfl
      rw [textLines, hunits, List.splitOn_append_cons_self, List.map_append, List.flatMap_cons,
        ← ih (List.cons_ne_nil _ _)]
      rfl

theorem linesOf_joined {texts : List Text} (h : ∀ text ∈ texts, text ≠ "") :
    linesOf (Text.intercalate "\n" texts) = texts.flatMap textLines := by
  cases texts with
  | nil => rfl
  | cons text texts =>
    have hne : Text.intercalate "\n" (text :: texts) ≠ "" := by
      have htext := h text List.mem_cons_self
      cases texts with
      | nil => simpa using htext
      | cons next texts =>
        rw [Text.intercalate_cons_cons, Text.append_assoc]
        exact fun hempty => htext (Text.append_eq_empty_iff.mp hempty).1
    rw [linesOf, if_neg hne, textLines_joined (List.cons_ne_nil _ _)]

theorem infix_textLines (text : Text) : linesOf text <:+: textLines text := by
  unfold linesOf
  split
  · exact List.nil_infix
  · exact List.infix_rfl

/-- The lines of a section that takes whole lines stand together in the document. -/
theorem linesOf_infix_document {P : Type} {model : Model P} {request : OptionRequest} {warnings : List Warning}
    {document : Text} (h : (model.exportDocument request warnings).result = .ok document) {p : Placeholder}
    (hp : p ≠ .prefixes) {text : Text} (halone : model.sectionText p = .ok text) :
    linesOf text <:+: textLines document := by
  obtain ⟨sections, hbuilt, rfl⟩ := Model.sections_of_exportDocument h
  obtain rfl := Except.ok.inj (halone.symm.trans (Model.sectionText_of_buildSections hbuilt p))
  have htail : .inr p ∈ skeletonTail := by
    cases p with
    | prefixes => exact absurd rfl hp
    | _ => simp [skeletonTail]
  have hmem : sections p ∈ skeletonWith sections :=
    List.mem_append_right _ (List.mem_cons_of_mem _ (List.mem_map.mpr ⟨_, htail, rfl⟩))
  rw [textLines_joined (List.ne_nil_of_mem hmem)]
  exact (infix_textLines _).trans (List.infix_flatMap_of_mem hmem _)

/-! ## Lines of a router -/

namespace Router

def style (r : Router) : NodeStyle :=
  if r.IsExternal then .external else .router

def named (r : Router) (name : Text) : Router :=
  { r with name }

/-- The lines of the name; the node stands in front of the first one, and the others have nothing in front. -/
def lines (r : Router) : List Text :=
  (textLines (r.name.getD "")).modifyHead fun name => (r.named name).node.text

def newlines (r : Router) : ℕ :=
  (r.name.getD "").toList.count '\n'.unit

theorem text_node_named (r : Router) (name : Text) : (r.named name).node.text = (r.named "").node.text ++ name :=
  congrArg (· ++ name) (Text.append_empty _).symm

theorem text_node_eq (r : Router) : r.node.text = (r.named "").node.text ++ r.name.getD "" := by
  rw [← text_node_named, named, node, node, Option.getD_some]
  rfl

theorem newline_notMem_front (r : Router) : '\n'.unit ∉ (r.named "").node.text.toList := by
  have hsingle : (r.named "").node.IsSingleLine := List.not_mem_nil
  exact hsingle.newline_notMem

theorem textLines_node (r : Router) : textLines r.node.text = r.lines := by
  rw [text_node_eq, textLines_append r.newline_notMem_front, lines]
  exact congrArg (List.modifyHead · _) (funext fun name => (r.text_node_named name).symm)

theorem length_lines (r : Router) : r.lines.length = r.newlines + 1 := by
  rw [lines, List.length_modifyHead, textLines, List.length_map, length_splitOn, newlines]

theorem lines_of_newlines {r : Router} (h : r.newlines = 0) : r.lines = [r.node.text] := by
  have hsingle : r.node.IsSingleLine := List.count_eq_zero.mp h
  rw [← textLines_node, textLines, List.splitOn_eq_singleton hsingle.newline_notMem, List.map_singleton,
    Text.ofList_toList]

end Router

/-! ## Lines of a section -/

theorem length_flatMap_lines (routers : List Router) :
    (routers.flatMap Router.lines).length = routers.length + (routers.map Router.newlines).sum := by
  induction routers with
  | nil => rfl
  | cons r routers ih =>
    rw [List.flatMap_cons, List.length_append, ih, r.length_lines, List.length_cons, List.map_cons, List.sum_cons]
    omega

theorem flatMap_lines_of_newlines {routers : List Router} (h : ∀ r ∈ routers, r.newlines = 0) :
    routers.flatMap Router.lines = routers.map fun r => r.node.text := by
  rw [← List.flatMap_pure_eq_map]
  exact List.flatMap_congr fun r hr => Router.lines_of_newlines (h r hr)

structure SpreadsOver (nodes : Text) (routers : List Router) : Prop where
  lines : linesOf nodes = routers.flatMap Router.lines
  count : (linesOf nodes).length = routers.length + (routers.map Router.newlines).sum
  single : linesOf nodes = routers.map (fun r => r.node.text) ↔ ∀ r ∈ routers, r.newlines = 0

theorem spreadsOver_nodes (routers : List Router) : SpreadsOver (commandLines (routers.map Router.node)) routers := by
  have hlines : linesOf (commandLines (routers.map Router.node)) = routers.flatMap Router.lines := by
    have hne : ∀ text ∈ (routers.map Router.node).map Command.text, text ≠ "" :=
      List.forall_mem_map.mpr fun c _ => c.text_ne_empty
    rw [commandLines, linesOf_joined hne, List.map_map, List.flatMap_map]
    exact List.flatMap_congr fun r _ => r.textLines_node
  refine ⟨hlines, hlines ▸ length_flatMap_lines routers, ?_⟩
  rw [hlines]
  refine ⟨fun heq => ?_, flatMap_lines_of_newlines⟩
  have hlength := congrArg List.length heq
  rw [length_flatMap_lines, List.length_map] at hlength
  have hsum : (routers.map Router.newlines).sum = 0 := by omega
  exact List.forall_mem_map.mp (List.sum_eq_zero_iff.mp hsum)

/-! ## Node sections -/

def NodeStyle.placeholder : NodeStyle → Placeholder
  | .router => .internalNodes
  | .external => .externalNodes

theorem NodeStyle.placeholder_ne (style : NodeStyle) : style.placeholder ≠ .prefixes := by
  cases style <;> decide

namespace Snapshot

def routersOf (s : Snapshot) (style : NodeStyle) : List Router :=
  s.routers.filter fun r => r.style = style

theorem IsReadFrom.sectionText_nodes {s : Snapshot} {v : Json} (h : s.IsReadFrom v) (style : NodeStyle) :
    s.model.sectionText style.placeholder = .ok (commandLines ((s.routersOf style).map Router.node)) := by
  cases style with
  | router =>
    have hkeep : s.routersOf .router = s.routers.filter fun r => ¬ r.IsExternal :=
      List.filter_congr fun r _ => by simp [Router.style]
    rw [NodeStyle.placeholder, Model.sectionText, h.internalNodes, hkeep]
    rfl
  | external =>
    have hkeep : s.routersOf .external = s.routers.filter fun r => r.IsExternal :=
      List.filter_congr fun r _ => by simp [Router.style]
    rw [NodeStyle.placeholder, Model.sectionText, h.externalNodes, hkeep]
    rfl

end Snapshot

/-- A node section of a snapshot that was read stands in the document as it is built, and has one line for each of its
routers just when none of their names has a newline. -/
theorem node_lines {text : Text} {s : Snapshot} (h : Snapshot.parse text = .ok s) (style : NodeStyle) :
    ∃ nodes, s.model.sectionText style.placeholder = .ok nodes ∧ SpreadsOver nodes (s.routersOf style) ∧
      ∀ request warnings document, (s.model.exportDocument request warnings).result = .ok document →
        linesOf nodes <:+: textLines document := by
  obtain ⟨v, -, hread⟩ := Snapshot.isReadFrom_of_parse h
  have halone := hread.sectionText_nodes style
  refine ⟨_, halone, spreadsOver_nodes _, fun request warnings document hdocument => ?_⟩
  exact linesOf_infix_document hdocument style.placeholder_ne halone

/-- Of the characters that end a line somewhere only the newline ends one here. -/
def spreadText : Text :=
  "\x7b\"routers\":[\x7b\"id\":1,\"name\":\"a\\n\\nb\"\x7d," ++
    "\x7b\"id\":0,\"name\":\"c\\r\\u2028d\",\"external\":true\x7d],\"links\":[],\"prefixes\":[]\x7d"

def spreadSnapshot : Snapshot where
  routers := [⟨.one, some "a\n\nb", none, none⟩, ⟨.zero false, some "c\r\u2028d", none, some true⟩]
  links := []
  prefixes := []
  nextHops := none
  sessions := none
  propagations := none

theorem node_lines_spread :
    Snapshot.parse spreadText = .ok spreadSnapshot ∧
      (∃ nodes, spreadSnapshot.model.sectionText .internalNodes = .ok nodes ∧ (linesOf nodes).length = 3) ∧
      ∃ nodes, spreadSnapshot.model.sectionText .externalNodes = .ok nodes ∧
        linesOf nodes = ["  \\node[external] at (0, 0) (r0) \x7b\x7d; % c\r\u2028d"] := by
  have hparse : Snapshot.parse spreadText = .ok spreadSnapshot := by decide +kernel
  refine ⟨hparse, ?_, ?_⟩
  · obtain ⟨nodes, halone, hspreads, -⟩ := node_lines hparse .router
    refine ⟨nodes, halone, hspreads.count.trans ?_⟩
    decide +kernel
  · obtain ⟨nodes, halone, hspreads, -⟩ := node_lines hparse .external
    have hplain : ∀ r ∈ spreadSnapshot.routersOf .external, r.newlines = 0 := by decide +kernel
    refine ⟨nodes, halone, (hspreads.single.mpr hplain).trans ?_⟩
    decide +kernel

def injectedText : Text :=
  "\x7b\"routers\":[\x7b\"id\":0,\"name\":\"core\\n\\\\draw (r0) circle (9);\"\x7d],\"links\":[],\"prefixes\":[]\x7d"

def injectedSnapshot : Snapshot where
  routers := [⟨.zero false, some "core\n\\draw (r0) circle (9);", none, none⟩]
  links := []
  prefixes := []
  nextHops := none
  sessions := none
  propagations := none

/-- One router takes two lines, and the second one is a drawing command of the name's own. -/
theorem node_lines_injected :
    Snapshot.parse injectedText = .ok injectedSnapshot ∧ (injectedSnapshot.routersOf .router).length = 1 ∧
      (∃ nodes, injectedSnapshot.model.sectionText .internalNodes = .ok nodes ∧
        linesOf nodes = ["  \\node[router] at (0, 0) (r0) \x7b\x7d; % core", "\\draw (r0) circle (9);"]) ∧
      ∃ document, (injectedSnapshot.model.exportDocument .empty []).result = .ok document ∧
        ("\\draw (r0) circle (9);" : Text) ∈ textLines document := by
  have hparse : Snapshot.parse injectedText = .ok injectedSnapshot := by decide +kernel
  have hlines : ∃ nodes, injectedSnapshot.model.sectionText .internalNodes = .ok nodes ∧
      linesOf nodes = ["  \\node[router] at (0, 0) (r0) \x7b\x7d; % core", "\\draw (r0) circle (9);"] :=
    ⟨_, rfl, by decide +kernel⟩
  refine ⟨hparse, by decide +kernel, hlines, ?_⟩
  obtain ⟨nodes, halone, hlines⟩ := hlines
  obtain ⟨v, -, hread⟩ := Snapshot.isReadFrom_of_parse hparse
  obtain ⟨picture, hpicture, -⟩ := Snapshot.buildSections_model hread
  have hdocument : (injectedSnapshot.model.exportDocument .empty []).result = .ok _ :=
    Model.exportDocument_of_picture [] (Snapshot.prefixEntries_model _) rfl hpicture
  refine ⟨_, hdocument, (linesOf_infix_document hdocument (by decide) halone).subset ?_⟩
  rw [hlines]
  exact List.mem_cons_of_mem _ List.mem_cons_self

end NetDiagram
