import NetDiagram.Proofs.Document.Lines
import NetDiagram.Proofs.Document.SnapshotExport
import NetDiagram.Proofs.Snapshot.Acceptance

/-!
# Nodes of a snapshot

The node sections of a snapshot have one line for each of its routers. The name
that a line declares is made from the router's id alone and is as good as the
id: ids with one name are one number, and no snapshot is read in which a number
stands for two routers.
-/

namespace NetDiagram

/-! ## Names of nodes -/

/-- Ids have one name exactly when they are one number. -/
theorem nodeName_eq_iff {x y : RouterId} : nodeName x = nodeName y ↔ x.Same y := by
  constructor
  · intro h
    have htext : x.text = y.text := (Text.append_right_inj "r").mp h
    exact Binary64.unsignedZero_of_chars (Text.encode_inj.mp (Text.ofList_inj.mp htext))
  · intro h
    rw [nodeName, nodeName, ← text_toPlain x, ← text_toPlain y, Binary64.toPlain_eq_iff.mpr h]

theorem takeWhile_notMem {c : CodeUnit} {cs : List CodeUnit} (h : c ∉ cs) (ds : List CodeUnit) :
    (cs ++ c :: ds).takeWhile (· ≠ c) = cs := by
  have hcs : ∀ d ∈ cs, decide (d ≠ c) = true := fun d hd => decide_eq_true fun heq => h (heq ▸ hd)
  rw [List.takeWhile_append_of_pos hcs, List.takeWhile_cons_of_neg (by simp), List.append_nil]

theorem dropWhile_notMem {c : CodeUnit} {cs : List CodeUnit} (h : c ∉ cs) (ds : List CodeUnit) :
    (cs ++ c :: ds).dropWhile (· ≠ c) = c :: ds := by
  have hcs : ∀ d ∈ cs, decide (d ≠ c) = true := fun d hd => decide_eq_true fun heq => h (heq ▸ hd)
  rw [List.dropWhile_append_of_pos hcs, List.dropWhile_cons_of_neg (by simp)]

def declaredName (line : Text) : Text :=
  .ofList (((line.toList.dropWhile (· ≠ ')'.unit)).drop 3).takeWhile (· ≠ ')'.unit))

theorem declaredName_eq {front name : Text} (rest : Text) (hfront : ')'.unit ∉ front.toList)
    (hname : ')'.unit ∉ name.toList) : declaredName (front ++ (") (" ++ (name ++ (")" ++ rest)))) = name := by
  have hunits : (front ++ (") (" ++ (name ++ (")" ++ rest)))).toList =
      front.toList ++ ')'.unit :: ' '.unit :: '('.unit :: (name.toList ++ ')'.unit :: rest.toList) := rfl
  rw [declaredName, hunits, dropWhile_notMem hfront]
  show Text.ofList ((name.toList ++ ')'.unit :: rest.toList).takeWhile _) = name
  rw [takeWhile_notMem hname, Text.ofList_toList]

theorem close_notMem_text (x : Binary64) : ')'.unit ∉ x.text.toList :=
  notMem_of_bare (bare_text x) (by decide)

theorem declaredName_node (style : NodeStyle) (router : RouterId) (position : Position) (name : Text) :
    declaredName (Command.node style router position name).text = nodeName router := by
  have hclose : (") \x7b\x7d; % " : Text) = ")" ++ " \x7b\x7d; % " := by decide
  have htext : (Command.node style router position name).text =
      ("  \\node[" ++ style.name ++ "] at (" ++ (position.x.text ++ (", " ++ position.y.text))) ++
        (") (" ++ (nodeName router ++ (")" ++ (" \x7b\x7d; % " ++ name)))) := by
    show "  \\node[" ++ style.name ++ "] at (" ++ position.x.text ++ ", " ++ position.y.text ++ ") (" ++
      nodeName router ++ ") \x7b\x7d; % " ++ name = _
    rw [hclose]
    simp only [Text.append_assoc]
  have hhead : ')'.unit ∉ ("  \\node[" ++ style.name ++ "] at (").toList := by cases style <;> decide +kernel
  have hposition : ')'.unit ∉ (position.x.text ++ (", " ++ position.y.text)).toList :=
    notMem_append (close_notMem_text _) (notMem_append (by decide) (close_notMem_text _))
  rw [htext]
  exact declaredName_eq _ (notMem_append hhead hposition)
    (notMem_append (by decide) (close_notMem_text router))

/-! ## Lines of a section -/

def linesOf (text : Text) : List Text :=
  if text = "" then [] else textLines text

theorem Command.text_ne_empty (c : Command) : c.text ≠ "" := by
  have hheads : ∀ k ∈ LineKind.all, k.head.toList ≠ [] := by decide +kernel
  intro h
  have hline := c.reading.toList_line
  rw [← c.text_eq_line, h] at hline
  exact hheads _ c.reading.kind.mem_all (List.append_eq_nil_iff.mp hline.symm).1

theorem linesOf_intercalate {ls : List Text} (h : ∀ l ∈ ls, '\n'.unit ∉ l.toList) (hne : ls ≠ [""]) :
    linesOf (Text.intercalate "\n" ls) = ls := by
  cases ls with
  | nil => rfl
  | cons l ls =>
    have hlines : textLines (Text.intercalate "\n" (l :: ls)) = l :: ls :=
      textLines_intercalate (List.cons_ne_nil _ _) h
    have htext : Text.intercalate "\n" (l :: ls) ≠ "" := by
      intro hempty
      rw [hempty] at hlines
      exact hne hlines.symm
    rw [linesOf, if_neg htext, hlines]

theorem Command.IsSingleLine.newline_notMem {c : Command} (h : c.IsSingleLine) : '\n'.unit ∉ c.text.toList := by
  rw [c.text_eq_line]
  exact Reading.newline_notMem_line h

theorem linesOf_commandLines {commands : List Command} (h : ∀ c ∈ commands, c.IsSingleLine) :
    linesOf (commandLines commands) = commands.map Command.text := by
  refine linesOf_intercalate (List.forall_mem_map.mpr fun c hc => (h c hc).newline_notMem) fun hblank => ?_
  have hmem : ("" : Text) ∈ commands.map Command.text := by simp [hblank]
  obtain ⟨c, -, hc⟩ := List.mem_map.mp hmem
  exact c.text_ne_empty hc

theorem linesOf_blockLines {blocks : List Block} (htoggles : ∀ b ∈ blocks, '\n'.unit ∉ b.toggle.toList)
    (h : ∀ b ∈ blocks, ∀ c ∈ b.commands, c.IsSingleLine) : linesOf (blockLines blocks) = blocks.flatMap Block.rows := by
  cases blocks with
  | nil => rfl
  | cons b bs =>
    have hrows : blockRows (b :: bs) = (b :: bs).flatMap Block.rows := if_neg (List.cons_ne_nil _ _)
    rw [blockLines_rows, hrows]
    exact linesOf_intercalate (hrows ▸ newline_notMem_blockRows htoggles h) (by simp [Block.rows])

/-! ## Node sections -/

/-- The line of a router: without a position it is at the origin, without a name it has the empty name. -/
def Router.node (r : Router) : Command :=
  .node (if r.IsExternal then .external else .router) r.id (r.position.getD .origin) (r.name.getD "")

def declaredNames (sections : Sections) : List Text :=
  (linesOf (sections .internalNodes) ++ linesOf (sections .externalNodes)).map declaredName

namespace Snapshot

def NamesAreSingleLines (s : Snapshot) : Prop :=
  ∀ r ∈ s.routers, ∀ name, r.name = some name → '\n'.unit ∉ name.toList

/-- The two sections have the lines of the routers of their own kind, in the order of the snapshot, and the names that
these lines declare are one for each router. -/
structure DeclaresNodes (s : Snapshot) (sections : Sections) : Prop where
  internal : linesOf (sections .internalNodes) = (s.routers.filter fun r => ¬ r.IsExternal).map fun r => r.node.text
  external : linesOf (sections .externalNodes) = (s.routers.filter fun r => r.IsExternal).map fun r => r.node.text
  different : (declaredNames sections).Nodup
  complete : (declaredNames sections).Perm (s.routers.map fun r => nodeName r.id)

variable {s : Snapshot} {v : Json}

theorem IsReadFrom.mapM_node (h : s.IsReadFrom v) {style : NodeStyle} {keep : Router → Bool}
    (hstyle : ∀ r, keep r → (if r.IsExternal then .external else .router) = style) :
    ((s.routers.filter keep).map (·.id)).mapM (s.model.node style) =
      .ok ((s.routers.filter keep).map Router.node) := by
  rw [List.mapM_map]
  refine mapM_eq_map fun r hr => ?_
  obtain ⟨hmem, hkeep⟩ := List.mem_filter.mp hr
  simp [Model.node, h.routerName_of_mem hmem, h.routerPosition_of_mem hmem, Router.node, hstyle r hkeep]
  rfl

theorem IsReadFrom.internalNodes (h : s.IsReadFrom v) :
    s.model.internalNodes = .ok ((s.routers.filter fun r => ¬ r.IsExternal).map Router.node) :=
  h.mapM_node fun _ hr => if_neg (of_decide_eq_true hr)

theorem IsReadFrom.externalNodes (h : s.IsReadFrom v) :
    s.model.externalNodes = .ok ((s.routers.filter fun r => r.IsExternal).map Router.node) :=
  h.mapM_node fun _ hr => if_pos (of_decide_eq_true hr)

theorem NamesAreSingleLines.node (h : s.NamesAreSingleLines) {r : Router} (hr : r ∈ s.routers) :
    r.node.IsSingleLine := by
  show '\n'.unit ∉ (r.name.getD "").toList
  cases hname : r.name with
  | none => simp
  | some name => exact h r hr name hname

theorem NamesAreSingleLines.linesOf_nodes (h : s.NamesAreSingleLines) (keep : Router → Bool) :
    linesOf (commandLines ((s.routers.filter keep).map Router.node)) =
      (s.routers.filter keep).map fun r => r.node.text := by
  have hsingle : ∀ c ∈ (s.routers.filter keep).map Router.node, c.IsSingleLine :=
    List.forall_mem_map.mpr fun r hr => h.node (List.mem_filter.mp hr).1
  rw [linesOf_commandLines hsingle, List.map_map]
  rfl

theorem IsReadFrom.declaresNodes (h : s.IsReadFrom v) (hnames : s.NamesAreSingleLines) {sections : Sections}
    (hinternal : s.model.sectionText .internalNodes = .ok (sections .internalNodes))
    (hexternal : s.model.sectionText .externalNodes = .ok (sections .externalNodes)) : s.DeclaresNodes sections := by
  obtain ⟨internal, hnodes, hinternal⟩ := bind_eq_ok hinternal
  obtain ⟨external, hnodes', hexternal⟩ := bind_eq_ok hexternal
  obtain rfl := Except.ok.inj (h.internalNodes.symm.trans hnodes)
  obtain rfl := Except.ok.inj (h.externalNodes.symm.trans hnodes')
  have hinternalLines : linesOf (sections .internalNodes) = _ :=
    Except.ok.inj hinternal ▸ hnames.linesOf_nodes fun r => ¬ r.IsExternal
  have hexternalLines : linesOf (sections .externalNodes) = _ :=
    Except.ok.inj hexternal ▸ hnames.linesOf_nodes fun r => r.IsExternal
  have hperm : (declaredNames sections).Perm (s.routers.map fun r => nodeName r.id) := by
    have hsplit := List.filter_append_perm (fun r : Router => ¬ r.IsExternal) s.routers
    have hname : ∀ r : Router, declaredName r.node.text = nodeName r.id := fun r => declaredName_node _ _ _ _
    rw [declaredNames, hinternalLines, hexternalLines, ← List.map_append, List.map_map, Function.comp_def]
    simpa [hname] using hsplit.map fun r => nodeName r.id
  refine ⟨hinternalLines, hexternalLines, hperm.nodup_iff.mpr ?_, hperm⟩
  exact List.pairwise_map.mpr (h.distinct.imp fun hne heq => hne (nodeName_eq_iff.mp heq))

end Snapshot

/-! ## Refused ids -/

def PrintAlike (routers : List Json) (i k : Nat) : Prop :=
  ∃ x y, routers[i]?.bind Json.routerNumber? = some x ∧ routers[k]?.bind Json.routerNumber? = some y ∧
    nodeName x = nodeName y

structure IsFirstAlike (routers : List Json) (k : Nat) : Prop where
  alike : ∃ i < k, PrintAlike routers i k
  first : ∀ l < k, ∀ i < l, ¬ PrintAlike routers i l

def ReportsAlike (routers : List Json) (e : SnapshotError) : Prop :=
  ∃ k x, IsFirstAlike routers k ∧ routers[k]?.bind Json.routerNumber? = some x ∧
    e = ⟨((Path.root.field .routers).index k).field .id, .duplicateRouterId x⟩

theorem routerNumber?_at {routers : List Json} {i : Nat} {x : Binary64} :
    routers[i]?.bind Json.routerNumber? = some x ↔ ∃ h : i < routers.length, routers[i].routerNumber? = some x := by
  constructor
  · intro hx
    obtain ⟨a, ha, hx⟩ := Option.bind_eq_some_iff.mp hx
    obtain ⟨hi, rfl⟩ := List.getElem?_eq_some_iff.mp ha
    exact ⟨hi, hx⟩
  · rintro ⟨hi, hx⟩
    rw [List.getElem?_eq_getElem hi, Option.bind_some, hx]

theorem exists_isFirstAlike {routers : List Json} {i k : Nat} (hik : i < k) (h : PrintAlike routers i k) :
    ∃ k, IsFirstAlike routers k := by
  classical
  have hexists : ∃ k, ∃ i < k, PrintAlike routers i k := ⟨k, i, hik, h⟩
  exact ⟨Nat.find hexists, Nat.find_spec hexists, fun l hl i hil halike => Nat.find_min hexists hl ⟨i, hil, halike⟩⟩

theorem not_hasDistinctIds {routers : List Json} {i k : Nat} (hik : i < k) (h : PrintAlike routers i k) :
    ¬ Json.HasDistinctIds (.array routers) := by
  rintro ⟨vs, hvs, hdistinct⟩
  cases hvs
  obtain ⟨x, y, hx, hy, hname⟩ := h
  obtain ⟨hi, hx⟩ := routerNumber?_at.mp hx
  obtain ⟨hk, hy⟩ := routerNumber?_at.mp hy
  exact List.pairwise_iff_getElem.mp hdistinct i k hi hk hik x y hx hy (nodeName_eq_iff.mp hname)

namespace Checks

theorem mem_numbersBefore {routers : List Json} {k : Nat} {x : Binary64} :
    x ∈ (routers.take k).filterMap Json.routerNumber? ↔ ∃ i < k, routers[i]?.bind Json.routerNumber? = some x := by
  rw [List.mem_filterMap]
  constructor
  · rintro ⟨a, ha, hx⟩
    obtain ⟨i, hi, rfl⟩ := List.mem_take_iff_getElem.mp ha
    exact ⟨i, by omega, routerNumber?_at.mpr ⟨by omega, hx⟩⟩
  · rintro ⟨i, hik, hx⟩
    obtain ⟨hi, hx⟩ := routerNumber?_at.mp hx
    exact ⟨routers[i], List.mem_take_iff_getElem.mpr ⟨i, by omega, rfl⟩, hx⟩

/-- Ids differ as numbers exactly where the nodes differ in their names. -/
theorem differs_iff {routers : List Json} {k : Nat} {y : Binary64}
    (hy : routers[k]?.bind Json.routerNumber? = some y) :
    (∀ x ∈ (routers.take k).filterMap Json.routerNumber?, ¬ x.Same y) ↔ ∀ i < k, ¬ PrintAlike routers i k := by
  constructor
  · rintro h i hik ⟨x, y', hx, hy', hname⟩
    obtain rfl := Option.some.inj (hy.symm.trans hy')
    exact h x (mem_numbersBefore.mpr ⟨i, hik, hx⟩) (nodeName_eq_iff.mp hname)
  · intro h x hx hsame
    obtain ⟨i, hik, hx⟩ := mem_numbersBefore.mp hx
    exact h i hik ⟨x, y, hx, hy, nodeName_eq_iff.mpr hsame⟩

theorem firstViolation_areDistinct {routers : List Json} {k : Nat} (h : IsFirstAlike routers k) (path : Path) :
    ∃ y, routers[k]?.bind Json.routerNumber? = some y ∧
      FirstViolation (areDistinct (some (.array routers)) path) ⟨(path.index k).field .id, .duplicateRouterId y⟩ := by
  obtain ⟨i, hik, x, y, hx, hy, hname⟩ := h.alike
  obtain ⟨hk, hyk⟩ := routerNumber?_at.mp hy
  have hviolated : ¬ ∀ other ∈ (routers.take k).filterMap Json.routerNumber?, ¬ other.Same y :=
    fun hdiffers => (differs_iff hy).mp hdiffers i hik ⟨x, y, hx, hy, hname⟩
  -- the check of place `k` exists since its router has a number; those before it hold as `k` is the first
  have hcut : routers.zipIdx = routers.zipIdx.take k ++ (routers[k], k) :: routers.zipIdx.drop (k + 1) := by
    have hlt : k < routers.zipIdx.length := by simpa using hk
    have hat : routers.zipIdx[k] = (routers[k], k) := by simp
    rw [← hat, ← List.drop_eq_getElem_cons hlt, List.take_append_drop]
  refine ⟨y, hy, ?_⟩
  simp only [areDistinct]
  rw [hcut, List.filterMap_append, List.filterMap_cons_some (by rw [hyk]; rfl)]
  refine FirstViolation.append_left (fun c hc => ?_) (.head hviolated)
  obtain ⟨p, hp, hc⟩ := List.mem_filterMap.mp hc
  obtain ⟨z, hz, rfl⟩ := Option.map_eq_some_iff.mp hc
  obtain ⟨l, hl, rfl⟩ := List.mem_take_iff_getElem.mp hp
  rw [List.length_zipIdx] at hl
  simp only [List.getElem_zipIdx, Nat.zero_add] at hz ⊢
  exact (differs_iff (routerNumber?_at.mpr ⟨by omega, hz⟩)).mpr (h.first l (by omega))

/-- Once every router is in shape, the next check is that of their ids. -/
theorem firstViolation_snapshot {v : Json} {routers : List Json} {e : SnapshotError}
    (hrouters : v.member? "routers" = some (.array routers)) (hvalid : ∀ w ∈ routers, w.IsRouter)
    (h : FirstViolation (areDistinct (some (.array routers)) (Path.root.field .routers)) e) :
    FirstViolation (snapshot (some v) .root) e := by
  have hobject : v.IsObject := by
    cases v <;> simp [Json.member?] at hrouters
    exact ⟨_, rfl⟩
  have hshape : Hold (member .routers (arrayOf router) (some v) .root) :=
    (demand_arrayOf demand_router).member.mpr ⟨_, hrouters, routers, rfl, hvalid⟩
  have hdistinct : FirstViolation (member .routers areDistinct (some v) .root) e := by
    rw [member, Option.bind_some, Field.key, hrouters]
    exact h
  exact .append_left ((demand_one _ _).some.mpr hobject) (.append_left hshape (hdistinct.append_right _))

end Checks

/-- A text in which two routers have ids that print alike is refused, and for the first such id unless a router is
malformed. -/
theorem Snapshot.parse_alike {text : Text} {v : Json} {routers : List Json} (hv : Grammar.Document text.toList v)
    (hrouters : v.member? "routers" = some (.array routers)) {i k : Nat} (hik : i < k) (h : PrintAlike routers i k) :
    ∃ e, Snapshot.parse text = .error e ∧ ((∀ w ∈ routers, w.IsRouter) → ReportsAlike routers e) := by
  have hparse : Snapshot.parse text = Reader.snapshot (some v) .root := by
    rw [Snapshot.parse, Grammar.parse?_iff.mpr hv]
  have hreports := Reader.performs_snapshot (some v) .root
  rw [hparse]
  cases hresult : Reader.snapshot (some v) .root with
  | ok s =>
    obtain ⟨w, hw, hdistinct⟩ := (Checks.demand_snapshot.some.mp (hreports.ok_iff.mp ⟨s, hresult⟩)).distinct
    obtain rfl := Option.some.inj (hrouters.symm.trans hw)
    exact absurd hdistinct (not_hasDistinctIds hik h)
  | error e =>
    refine ⟨e, rfl, fun hvalid => ?_⟩
    obtain ⟨first, hfirst⟩ := exists_isFirstAlike hik h
    obtain ⟨x, hx, hviolation⟩ := Checks.firstViolation_areDistinct hfirst (Path.root.field .routers)
    have hsnapshot := Checks.firstViolation_snapshot hrouters hvalid hviolation
    exact ⟨first, x, hfirst, hx, (hreports.error_iff.mp hresult).unique hsnapshot⟩

/-! ## Texts -/

/-- Every snapshot that is read declares each of its routers by a name of its own, whatever is asked of the export;
texts with ids that print alike are refused; and ids that print alike are one number. -/
theorem snapshot_nodes (text : Text) :
    (∀ s, Snapshot.parse text = .ok s → s.NamesAreSingleLines → ∃ sections : Sections,
      s.model.sectionText .internalNodes = .ok (sections .internalNodes) ∧
      s.model.sectionText .externalNodes = .ok (sections .externalNodes) ∧
      (∀ request warnings, (s.model.buildSections request warnings).result = .ok sections ∨
        request.resolve.prefixCollisions = .error ∧
          (s.model.buildSections request warnings).result = .error (.prefixCollision (collisions s.prefixes))) ∧
      s.DeclaresNodes sections) ∧
    (∀ v routers, Grammar.Document text.toList v → v.member? "routers" = some (.array routers) →
      ∀ i k, i < k → PrintAlike routers i k →
      ∃ e, Snapshot.parse text = .error e ∧ ((∀ w ∈ routers, w.IsRouter) → ReportsAlike routers e)) ∧
    ∀ x y : RouterId, nodeName x = nodeName y ↔ x.Same y := by
  refine ⟨fun s hs hnames => ?_, fun v routers hv hrouters i k => Snapshot.parse_alike hv hrouters,
    fun x y => nodeName_eq_iff⟩
  obtain ⟨v, -, hread⟩ := Snapshot.isReadFrom_of_parse hs
  obtain ⟨picture, hpicture, hbuilt⟩ := Snapshot.buildSections_model hread
  have hdraws := Model.draws_of_picture hpicture
  have hinternal : s.model.sectionText .internalNodes = .ok (picture.sections .internalNodes) := by
    rw [Model.sectionText, hdraws.internalNodes]
    rfl
  have hexternal : s.model.sectionText .externalNodes = .ok (picture.sections .externalNodes) := by
    rw [Model.sectionText, hdraws.externalNodes]
    rfl
  refine ⟨picture.sections, hinternal, hexternal, fun request warnings => ?_,
    hread.declaresNodes hnames hinternal hexternal⟩
  rw [hbuilt, Sections.outcome]
  dsimp only
  split
  · rename_i hstops
    exact .inr ⟨hstops.2, rfl⟩
  · exact .inl rfl

def largeText : Text :=
  "\x7b\"routers\":[\x7b\"id\":9007199254740993,\"name\":\"a) \\udc00\"\x7d," ++
    "\x7b\"id\":1000000000000000000000,\"external\":true\x7d," ++
    "\x7b\"id\":-0,\"position\":\x7b\"x\":1,\"y\":0.5\x7d\x7d],\"links\":[],\"prefixes\":[]\x7d"

def largeSnapshot : Snapshot where
  routers := [⟨.finite false 0x10000000000000 1075 (by decide), some ("a) " ++ .surrogate 0x400), none, none⟩,
    ⟨largeId, none, none, some true⟩,
    ⟨.zero true, none, some ⟨.one, .half⟩, none⟩]
  links := []
  prefixes := []
  nextHops := none
  sessions := none
  propagations := none

/-- An id behind the last exact integer is read as the number before it, and the zeros differ only in sign. -/
def alikeText : Text :=
  "\x7b\"routers\":[\x7b\"id\":9007199254740992\x7d,\x7b\"id\":0\x7d," ++
    "\x7b\"id\":9007199254740993\x7d,\x7b\"id\":-0\x7d]\x7d"

def alikeIds : List RouterId :=
  [.finite false 0x10000000000000 1075 (by decide), .zero false, .finite false 0x10000000000000 1075 (by decide),
    .zero true]

def alikeRouters : List Json :=
  alikeIds.map fun id => .object [("id", .number id)]

theorem snapshot_nodes_large :
    (∃ sections : Sections, (largeSnapshot.model.buildSections .empty []).result = .ok sections ∧
      linesOf (sections .internalNodes) =
        ["  \\node[router] at (0, 0) (r9007199254740992) \x7b\x7d; % a) " ++ Text.surrogate 0x400,
          "  \\node[router] at (1, 0.5) (r0) \x7b\x7d; % "] ∧
      linesOf (sections .externalNodes) = ["  \\node[external] at (0, 0) (r1e+21) \x7b\x7d; % "] ∧
      (declaredNames sections).Nodup) ∧
    ∃ e, Snapshot.parse alikeText = .error e ∧ ReportsAlike alikeRouters e := by
  have hparse : Snapshot.parse largeText = .ok largeSnapshot := by decide +kernel
  have hnames : largeSnapshot.NamesAreSingleLines := by
    simp +decide [Snapshot.NamesAreSingleLines]
  obtain ⟨sections, -, -, hbuilt, hnodes⟩ := (snapshot_nodes largeText).1 _ hparse hnames
  refine ⟨⟨sections, ?_, ?_, ?_, hnodes.different⟩, ?_⟩
  · rcases hbuilt .empty [] with hbuilt | ⟨hpolicy, -⟩
    · exact hbuilt
    · cases hpolicy
  · rw [hnodes.internal]
    decide +kernel
  · rw [hnodes.external]
    decide +kernel
  have hdocument : Grammar.Document alikeText.toList (.object [("routers", .array alikeRouters)]) :=
    Grammar.parse?_iff.mp (by decide +kernel)
  have hrouters : ∀ w ∈ alikeRouters, w.IsRouter := by
    have hread : Reader.elements Reader.router (some (.array alikeRouters)) .root =
        .ok (alikeIds.map fun id => ⟨id, none, none, none⟩) := by decide +kernel
    have hchecks := (Reader.performs_elements Reader.performs_router _ _).ok_iff.mp ⟨_, hread⟩
    obtain ⟨vs, hvs, hshape⟩ := (Checks.demand_arrayOf Checks.demand_router).some.mp hchecks
    cases hvs
    exact hshape
  have halike : PrintAlike alikeRouters 1 3 := ⟨.zero false, .zero true, rfl, rfl, by decide +kernel⟩
  obtain ⟨e, herror, hfirst⟩ := (snapshot_nodes alikeText).2.1 _ _ hdocument rfl 1 3 (by decide) halike
  exact ⟨e, herror, hfirst hrouters⟩

end NetDiagram
