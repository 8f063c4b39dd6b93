import NetDiagram.Proofs.Document.Nodes
import NetDiagram.Proofs.Document.Placement

/-!
# Endpoints are declared

A drawing line names two nodes in parentheses. The sections that declare nodes
stand in front of those that draw, and no node is declared twice. So where all
ids that a snapshot refers to are those of its routers, each endpoint of a line
is declared once, and in front of the line.
-/

namespace NetDiagram

/-! ## Endpoints of a line -/

def behindOpen? (cs : List CodeUnit) : Option Text :=
  if '('.unit ∈ cs then some (.ofList (cs.rtakeWhile (· ≠ '('.unit))) else none

/-- The innermost texts in parentheses, from left to right. -/
def endpoints (line : Text) : List Text :=
  (line.toList.splitOn ')'.unit).dropLast.filterMap behindOpen?

theorem behindOpen?_append {front name : List CodeUnit} (h : '('.unit ∉ name) :
    behindOpen? (front ++ '('.unit :: name) = some (.ofList name) := by
  have hname : ∀ c ∈ name, decide (c ≠ '('.unit) = true := by
    intro c hc
    simpa using fun heq : c = '('.unit => h (heq ▸ hc)
  have htake : (front ++ '('.unit :: name).rtakeWhile (· ≠ '('.unit) = name := by
    rw [List.append_cons, List.rtakeWhile, List.reverse_append, List.takeWhile_append_of_pos (by simpa using hname)]
    simp
  rw [behindOpen?, if_pos (by simp), htake]

theorem endpoints_open {line : Text} (h : ')'.unit ∉ line.toList) : endpoints line = [] := by
  rw [endpoints, List.splitOn_eq_singleton h]
  rfl

theorem endpoints_close {front : Text} (rest : Text) (h : ')'.unit ∉ front.toList) :
    endpoints (front ++ (")" ++ rest)) = (behindOpen? front.toList).toList ++ endpoints rest := by
  have hunits : (front ++ (")" ++ rest)).toList = front.toList ++ ')'.unit :: rest.toList := rfl
  rw [endpoints, hunits, List.splitOn_append_cons_self_of_not_mem h,
    List.dropLast_cons_of_ne_nil (List.splitOn_ne_nil _ _), List.filterMap_cons]
  cases behindOpen? front.toList <;> rfl

theorem endpoints_name {front name : Text} (rest : Text) (hfront : ')'.unit ∉ front.toList)
    (hopen : '('.unit ∉ name.toList) (hclose : ')'.unit ∉ name.toList) :
    endpoints (front ++ ("(" ++ (name ++ (")" ++ rest)))) = name :: endpoints rest := by
  have hpiece : front ++ ("(" ++ (name ++ (")" ++ rest))) = front ++ ("(" ++ name) ++ (")" ++ rest) := by
    simp only [Text.append_assoc]
  have hunits : (front ++ ("(" ++ name)).toList = front.toList ++ '('.unit :: name.toList := rfl
  rw [hpiece, endpoints_close rest (notMem_append hfront (notMem_append (by decide) hclose)), hunits,
    behindOpen?_append hopen, Text.ofList_toList]
  rfl

theorem bare_nodeName (router : RouterId) : ∀ c ∈ (nodeName router).toList, Json.IsBare c := by
  have hletter : ∀ c ∈ ("r" : Text).toList, Json.IsBare c := by decide
  rw [nodeName, Text.toList_append]
  exact List.forall_mem_append.mpr ⟨hletter, bare_text router⟩

section
variable (a b : RouterId)

theorem endpoints_pair {front middle rest : Text} (hfront : ')'.unit ∉ front.toList)
    (hmiddle : ')'.unit ∉ middle.toList) (hrest : endpoints rest = []) :
    endpoints (front ++ ("(" ++ (nodeName a ++ (")" ++ (middle ++ ("(" ++ (nodeName b ++ (")" ++ rest)))))))) =
      [nodeName a, nodeName b] := by
  have hopen router : '('.unit ∉ (nodeName router).toList := notMem_of_bare (bare_nodeName router) (by decide)
  have hclose router : ')'.unit ∉ (nodeName router).toList := notMem_of_bare (bare_nodeName router) (by decide)
  rw [endpoints_name _ hfront (hopen a) (hclose a), endpoints_name _ hmiddle (hopen b) (hclose b), hrest]

theorem endpoints_straight {front : Text} (hfront : ')'.unit ∉ front.toList) :
    endpoints (front ++ "(" ++ nodeName a ++ ") -- (" ++ nodeName b ++ ");") = [nodeName a, nodeName b] := by
  have hmiddle : (") -- (" : Text) = ")" ++ (" -- " ++ "(") := by decide
  have hrest : (");" : Text) = ")" ++ ";" := by decide
  rw [hmiddle, hrest]
  simp only [Text.append_assoc]
  exact endpoints_pair a b hfront (by decide) (endpoints_open (by decide))

theorem endpoints_bend {front : Text} (hfront : ')'.unit ∉ front.toList) :
    endpoints (front ++ Command.bend a b) = [nodeName a, nodeName b] := by
  have hmiddle : (") to[bend left=20] (" : Text) = ")" ++ (" to[bend left=20] " ++ "(") := by decide
  have hrest : (");" : Text) = ")" ++ ";" := by decide
  rw [Command.bend, hmiddle, hrest]
  simp only [Text.append_assoc]
  exact endpoints_pair a b hfront (by decide) (endpoints_open (by decide))

theorem endpoints_weight (label : WeightLabel) :
    endpoints (Command.weight a b label).text = [nodeName a, nodeName b] := by
  have hlabel : ')'.unit ∉ label.text.toList := notMem_of_bare (bare_label label) (by decide)
  have hrest : endpoints ("$" ++ (")" ++ (" node[link weight] \x7b " ++ (label.text ++ " \x7d;")))) = [] := by
    rw [endpoints_close _ (by decide), endpoints_open (notMem_append (by decide) (notMem_append hlabel (by decide)))]
    rfl
  have htext : (Command.weight a b label).text = "    \\draw ($" ++ ("(" ++ (nodeName a ++ (")" ++
      ("!\\linkweightdist!" ++ ("(" ++ (nodeName b ++ (")" ++
        ("$" ++ (")" ++ (" node[link weight] \x7b " ++ (label.text ++ " \x7d;"))))))))))) := by
    have hfront : ("    \\draw ($(" : Text) = "    \\draw ($" ++ "(" := by decide
    have hmiddle : (")!\\linkweightdist!(" : Text) = ")" ++ ("!\\linkweightdist!" ++ "(") := by decide
    have hbehind : (")$) node[link weight] \x7b " : Text) = ")" ++ ("$" ++ (")" ++ " node[link weight] \x7b ")) :=
      by decide
    show "    \\draw ($(" ++ nodeName a ++ ")!\\linkweightdist!(" ++ nodeName b ++ ")$) node[link weight] \x7b " ++
      label.text ++ " \x7d;" = _
    rw [hfront, hmiddle, hbehind]
    simp only [Text.append_assoc]
  rw [htext]
  exact endpoints_pair a b (by decide) (by decide) hrest

end

def Command.ends? : Command → Option (RouterId × RouterId)
  | .node _ _ _ _ => none
  | .link a b | .nextHop a b | .weight a b _ | .session _ a b | .propagation a b => some (a, b)

theorem Command.endpoints_text {c : Command} {a b : RouterId} (h : c.ends? = some (a, b)) :
    endpoints c.text = [nodeName a, nodeName b] := by
  cases c with
  | node style router position name => cases h
  | link x y =>
    cases h
    have hfront : ("  \\draw[link] (" : Text) = "  \\draw[link] " ++ "(" := by decide
    show endpoints ("  \\draw[link] (" ++ nodeName a ++ ") -- (" ++ nodeName b ++ ");") = _
    rw [hfront]
    exact endpoints_straight a b (by decide)
  | nextHop x y =>
    cases h
    have hfront : ("      \\draw[next hop] (" : Text) = "      \\draw[next hop] " ++ "(" := by decide
    show endpoints ("      \\draw[next hop] (" ++ nodeName a ++ ") -- (" ++ nodeName b ++ ");") = _
    rw [hfront]
    exact endpoints_straight a b (by decide)
  | weight x y label =>
    cases h
    exact endpoints_weight a b label
  | session kind x y =>
    cases h
    have hstyle : ')'.unit ∉ ("    \\draw[" ++ kind.style ++ "] ").toList := by cases kind <;> decide
    show endpoints ("    \\draw[" ++ kind.style ++ "] " ++ bend a b) = _
    exact endpoints_bend a b hstyle
  | propagation x y =>
    cases h
    show endpoints ("      \\draw[bgp propagation] " ++ bend a b) = _
    exact endpoints_bend a b (by decide)

/-! ## Declarations -/

def declared? (line : Text) : Option Text :=
  if Begins "\\node" line then some (declaredName line) else none

/-- One line, in front of place `j`, declares the name, and no other line does. -/
def DeclaredBefore (lines : List Text) (j : Nat) (name : Text) : Prop :=
  ∃ i < j, ∀ k, lines[k]?.bind declared? = some name ↔ k = i

/-- A name that is declared once has one place. -/
theorem place_unique {lines : List Text} (h : (lines.filterMap declared?).Nodup) {name : Text} {i k : Nat}
    (hi : lines[i]?.bind declared? = some name) (hk : lines[k]?.bind declared? = some name) : i = k := by
  obtain ⟨line, hline, hname⟩ := Option.bind_eq_some_iff.mp hi
  obtain ⟨line', hline', hname'⟩ := Option.bind_eq_some_iff.mp hk
  obtain ⟨hi, rfl⟩ := List.getElem?_eq_some_iff.mp hline
  obtain ⟨hk, rfl⟩ := List.getElem?_eq_some_iff.mp hline'
  have hdiffer := List.pairwise_iff_getElem.mp (List.pairwise_filterMap.mp h)
  rcases Nat.lt_trichotomy i k with hlt | heq | hlt
  · exact absurd rfl (hdiffer i k hi hk hlt name hname name hname')
  · exact heq
  · exact absurd rfl (hdiffer k i hk hi hlt name hname' name hname)

theorem DeclaredBefore.of_front {front behind : List Text} (hnodup : (front.filterMap declared?).Nodup)
    (hbehind : ∀ line ∈ behind, declared? line = none) {name : Text} (hname : name ∈ front.filterMap declared?)
    {j : Nat} (hj : front.length ≤ j) : DeclaredBefore (front ++ behind) j name := by
  have hall : ((front ++ behind).filterMap declared?).Nodup := by
    rwa [List.filterMap_append, List.filterMap_eq_nil_iff.mpr hbehind, List.append_nil]
  obtain ⟨line, hline, hdeclared⟩ := List.mem_filterMap.mp hname
  obtain ⟨i, hi, rfl⟩ := List.getElem_of_mem hline
  have hplace : (front ++ behind)[i]?.bind declared? = some name := by
    rwa [List.getElem?_append_left hi, List.getElem?_eq_getElem hi, Option.bind_some]
  exact ⟨i, by omega, fun k => ⟨fun hk => place_unique hall hk hplace, fun hk => hk ▸ hplace⟩⟩

/-! ## Lines that declare and lines that draw -/

theorem IsInert.declared? {line : Text} (h : IsInert line) : declared? line = none :=
  if_neg (h.not_begins (.node .router))

theorem IsInert.not_draws {line : Text} (h : IsInert line) : ¬ Begins "\\draw" line := by
  have hstart : 3 ≤ ("\\draw" : Text).toList.length ∧ ("\\draw" : Text).toList.take 3 ∈ commandStarts := by decide
  exact h.not_prefix hstart.1 hstart.2

theorem declared?_line {r : Reading} (h : r.kind.word ≠ "\\node") : declared? r.line = none :=
  if_neg fun hbegins => h (word_of_begins (k := .node .router) hbegins).symm

theorem begins_line {word : Text} {r : Reading} (h : word.toList <+: content r.kind.head) : Begins word r.line := by
  obtain ⟨rest, hrest⟩ := content_line r
  rw [Begins, hrest]
  exact h.trans (List.prefix_append _ _)

theorem draws_line_iff {r : Reading} : Begins "\\draw" r.line ↔ ("\\draw" : Text).toList <+: r.kind.word.toList := by
  have hheads : ∀ k ∈ LineKind.all,
      (("\\draw" : Text).toList <+: content k.head ∨ content k.head <+: ("\\draw" : Text).toList →
          ("\\draw" : Text).toList <+: k.word.toList) ∧
        (("\\draw" : Text).toList <+: k.word.toList → ("\\draw" : Text).toList <+: content k.head) := by
    decide +kernel
  obtain ⟨hword, hhead⟩ := hheads _ r.kind.mem_all
  exact ⟨fun hbegins => hword (prefix_or_prefix_of_content hbegins), fun h => begins_line (hhead h)⟩

theorem declared?_node (r : Router) : declared? r.node.text = some (nodeName r.id) := by
  have hbegins : Begins "\\node" r.node.text := by
    have hheads : ∀ k ∈ LineKind.all, k.word = "\\node" →
        ("\\node" : Text).toList <+: content k.head := by decide +kernel
    rw [r.node.text_eq_line]
    exact begins_line (hheads _ (LineKind.mem_all _) rfl)
  rw [declared?, if_pos hbegins]
  exact congrArg some (declaredName_node _ _ _ _)

theorem not_draws_node (r : Router) : ¬ Begins "\\draw" r.node.text := by
  have hword : ¬ ("\\draw" : Text).toList <+: ("\\node" : Text).toList := by decide
  rw [r.node.text_eq_line, draws_line_iff]
  exact hword

namespace Command

theorem word_of_ends {c : Command} (h : c.ends?.isSome) : ("\\draw" : Text).toList <+: c.reading.kind.word.toList := by
  have hwords : ∀ k ∈ [LineKind.link, .nextHop, .weight, .session .ebgp, .session .ibgpPeer, .session .ibgpClient,
      .propagation], ("\\draw" : Text).toList <+: k.word.toList := by decide +kernel
  cases c with
  | node style router position name => cases h
  | link a b => exact hwords .link (by decide)
  | nextHop router hop => exact hwords .nextHop (by decide)
  | weight a b label => exact hwords .weight (by decide)
  | session kind source destination => exact hwords (.session kind) (by cases kind <;> decide)
  | propagation source destination => exact hwords .propagation (by decide)

theorem draws_text {c : Command} (h : c.ends?.isSome) : Begins "\\draw" c.text := by
  rw [c.text_eq_line, draws_line_iff]
  exact c.word_of_ends h

theorem declared?_text {c : Command} (h : c.ends?.isSome) : declared? c.text = none := by
  have hnode : ¬ ("\\draw" : Text).toList <+: ("\\node" : Text).toList := by decide
  rw [c.text_eq_line]
  exact declared?_line fun hword => hnode (hword ▸ c.word_of_ends h)

end Command

def DrawsOnly (drawn : List Command) (line : Text) : Prop :=
  declared? line = none ∧ (Begins "\\draw" line → ∃ c ∈ drawn, line = c.text)

section
variable {drawn commands : List Command} {blocks : List Block}

theorem IsInert.drawsOnly {line : Text} (h : IsInert line) : DrawsOnly drawn line :=
  ⟨h.declared?, fun hdraws => absurd hdraws h.not_draws⟩

theorem drawsOnly_guard (toggle : Text) : DrawsOnly drawn ("    \\ifdefined\\" ++ toggle) := by
  have hword : LineKind.guard.word ≠ "\\node" ∧ ¬ ("\\draw" : Text).toList <+: LineKind.guard.word.toList := by decide
  rw [← line_guard]
  exact ⟨declared?_line hword.1, fun hdraws => absurd (draws_line_iff.mp hdraws) hword.2⟩

theorem drawsOnly_end : DrawsOnly drawn "  \\fi" := by
  have hneither : declared? "  \\fi" = none ∧ ¬ Begins "\\draw" "  \\fi" := by decide +kernel
  exact ⟨hneither.1, fun hdraws => absurd hdraws hneither.2⟩

theorem drawsOnly_rows (hends : ∀ c ∈ drawn, c.ends?.isSome) (h : commands ⊆ drawn) :
    ∀ line ∈ rows commands, DrawsOnly drawn line := by
  unfold rows
  split
  · exact List.forall_mem_singleton.mpr isInert_empty.drawsOnly
  · exact List.forall_mem_map.mpr fun c hc => ⟨c.declared?_text (hends c (h hc)), fun _ => ⟨c, h hc, rfl⟩⟩

theorem drawsOnly_blockRows (hends : ∀ c ∈ drawn, c.ends?.isSome) (h : ∀ b ∈ blocks, b.commands ⊆ drawn) :
    ∀ line ∈ blockRows blocks, DrawsOnly drawn line := by
  unfold blockRows
  split
  · exact List.forall_mem_singleton.mpr isInert_empty.drawsOnly
  · refine List.forall_mem_flatMap.mpr fun b hb => List.forall_mem_cons.mpr ⟨drawsOnly_guard b.toggle, ?_⟩
    exact List.forall_mem_append.mpr ⟨drawsOnly_rows hends (h b hb), List.forall_mem_singleton.mpr drawsOnly_end⟩

theorem mem_rows {c : Command} (h : c ∈ commands) : c.text ∈ rows commands := by
  rw [rows, if_neg (List.ne_nil_of_mem h)]
  exact List.mem_map_of_mem h

theorem mem_blockRows {c : Command} (h : c ∈ blocks.flatMap (·.commands)) : c.text ∈ blockRows blocks := by
  obtain ⟨b, hb, hc⟩ := List.mem_flatMap.mp h
  rw [blockRows, if_neg (List.ne_nil_of_mem hb)]
  exact List.mem_flatMap.mpr ⟨b, hb, List.mem_cons_of_mem _ (List.mem_append_left _ (mem_rows hc))⟩

end

theorem declared_rows (routers : List Router) :
    (rows (routers.map Router.node)).filterMap declared? = routers.map fun r => nodeName r.id := by
  cases routers with
  | nil => simp [rows, isInert_empty.declared?]
  | cons r rs =>
    rw [rows, if_neg (by simp), List.map_map, List.filterMap_map, ← List.filterMap_eq_map']
    refine List.filterMap_congr fun r _ => ?_
    rw [Function.comp_apply, Function.comp_apply, declared?_node]

theorem not_draws_rows (routers : List Router) : ∀ line ∈ rows (routers.map Router.node), ¬ Begins "\\draw" line := by
  unfold rows
  split
  · exact List.forall_mem_singleton.mpr isInert_empty.not_draws
  · rw [List.map_map]
    exact List.forall_mem_map.mpr fun r _ => not_draws_node r

/-! ## The picture up to its last node and behind it -/

namespace Picture

def opening (picture : Picture) : List Text :=
  skeletonHead ++ (choicesHead ++ choices picture.toggles) ::
    (skeletonTail.take 3).flatMap (Sum.elim (fun fixed => [fixed]) picture.sectionRows)

def front (picture : Picture) : List Text :=
  picture.opening ++ (rows picture.internalNodes ++ rows picture.externalNodes)

def behind (picture : Picture) : List Text :=
  (skeletonTail.drop 5).flatMap (Sum.elim (fun fixed => [fixed]) picture.sectionRows)

def drawn (picture : Picture) : List Command :=
  picture.links ++ picture.nextHops.flatMap (·.commands) ++ picture.weights ++ picture.sessions ++
    picture.propagations.flatMap (·.commands)

variable {picture : Picture}

theorem lines_eq (picture : Picture) : picture.lines = picture.front ++ picture.behind := by
  simp only [lines, front, opening, behind, List.append_assoc, List.cons_append]
  rfl

theorem IsSingleLine.isInert_opening (h : picture.IsSingleLine) : ∀ line ∈ picture.opening, IsInert line := by
  have hfixed : ∀ line ∈ [("" : Text), "\\begin\x7bdocument\x7d",
      "\\begin\x7btikzpicture\x7d[xscale=\\width, yscale=\\height]"], IsInert line := by decide +kernel
  exact List.forall_mem_append.mpr ⟨isInert_head, List.forall_mem_cons.mpr ⟨isInert_choices h.toggles, hfixed⟩⟩

theorem drawsOnly_behind (hends : ∀ c ∈ picture.drawn, c.ends?.isSome) :
    ∀ line ∈ picture.behind, DrawsOnly picture.drawn line := by
  have hblocks : ∀ {blocks : List Block}, blocks.flatMap (·.commands) ⊆ picture.drawn →
      ∀ line ∈ blockRows blocks, DrawsOnly picture.drawn line := fun h =>
    drawsOnly_blockRows hends fun b hb c hc => h (List.mem_flatMap.mpr ⟨b, hb, hc⟩)
  refine List.forall_mem_flatMap.mpr fun item hitem => ?_
  cases item with
  | inl fixed =>
    have hfixed : ∀ line ∈ (skeletonTail.drop 5).filterMap Sum.getLeft?,
        declared? line = none ∧ ¬ Begins "\\draw" line := by decide +kernel
    obtain ⟨hdeclared, hdraws⟩ := hfixed fixed (List.mem_filterMap.mpr ⟨_, hitem, rfl⟩)
    exact List.forall_mem_singleton.mpr ⟨hdeclared, fun hbegins => absurd hbegins hdraws⟩
  | inr p =>
    have hsections : ∀ p ∈ (skeletonTail.drop 5).filterMap Sum.getRight?,
        p ∉ [.prefixes, .internalNodes, .externalNodes] := by decide
    have hp := hsections p (List.mem_filterMap.mpr ⟨_, hitem, rfl⟩)
    cases p with
    | prefixes | internalNodes | externalNodes => simp at hp
    | edges => exact drawsOnly_rows hends fun c hc => by simp [drawn, hc]
    | nextHops => exact hblocks fun c hc => by simp only [drawn, List.mem_append, hc, or_true, true_or]
    | linkWeights => exact drawsOnly_rows hends fun c hc => by simp [drawn, hc]
    | bgpSessions => exact drawsOnly_rows hends fun c hc => by simp [drawn, hc]
    | bgpPropagations => exact hblocks fun c hc => by simp only [drawn, List.mem_append, hc, or_true]

theorem mem_behind {c : Command} (h : c ∈ picture.drawn) : c.text ∈ picture.behind := by
  have hsection : ∀ p, .inr p ∈ skeletonTail.drop 5 → c.text ∈ picture.sectionRows p → c.text ∈ picture.behind :=
    fun p hp hc => List.mem_flatMap.mpr ⟨_, hp, hc⟩
  simp only [drawn, List.mem_append, or_assoc] at h
  rcases h with h | h | h | h | h
  · exact hsection .edges (by simp [skeletonTail]) (mem_rows h)
  · exact hsection .nextHops (by simp [skeletonTail]) (mem_blockRows h)
  · exact hsection .linkWeights (by simp [skeletonTail]) (mem_rows h)
  · exact hsection .bgpSessions (by simp [skeletonTail]) (mem_rows h)
  · exact hsection .bgpPropagations (by simp [skeletonTail]) (mem_blockRows h)

end Picture

/-! ## What a snapshot draws -/

namespace Snapshot

/-- The commands that draw: links once, weights in either direction, and what is stored for the listed prefixes. -/
inductive IsDrawn (s : Snapshot) : Command → Prop
  | link {e : Edge} : e ∈ s.edges → e.a < e.b → IsDrawn s (.link e.a e.b)
  | nextHop {key : Text} {router hop : RouterId} :
      key ∈ s.prefixes → router ∈ s.internalRouters → hop ∈ s.nextHopsAt key router → IsDrawn s (.nextHop router hop)
  | weight {e : Edge} {label : WeightLabel} :
      e ∈ s.edges → WeightLabel.ofWeight? e.weight = some label → IsDrawn s (.weight e.a e.b label)
  | session {x : Session} {kind : SessionKind} :
      x ∈ s.sessions.getD [] → SessionKind.ofName? x.kind = some kind → IsDrawn s (.session kind x.source x.destination)
  | propagation {key : Text} {p : Propagation} :
      key ∈ s.prefixes → p ∈ s.propagationsAt key → IsDrawn s (.propagation p.source p.destination)

def Lists (s : Snapshot) (id : RouterId) : Prop :=
  ∃ r ∈ s.routers, r.id.Same id

instance (s : Snapshot) (id : RouterId) : Decidable (s.Lists id) :=
  inferInstanceAs (Decidable (∃ _ ∈ _, _))

/-- What is stored for other prefixes and under other ids is not drawn. -/
structure RefersToListed (s : Snapshot) : Prop where
  links : ∀ l ∈ s.links, s.Lists l.a ∧ s.Lists l.b
  nextHops : ∀ key ∈ s.prefixes, ∀ router ∈ s.internalRouters, ∀ hop ∈ s.nextHopsAt key router, s.Lists hop
  sessions : ∀ x ∈ s.sessions.getD [], s.Lists x.source ∧ s.Lists x.destination
  propagations : ∀ key ∈ s.prefixes, ∀ p ∈ s.propagationsAt key, s.Lists p.source ∧ s.Lists p.destination

variable {s : Snapshot} {v : Json} {c : Command} {entries : List (PrefixEntry Text)} {picture : Picture}

theorem IsDrawn.ends (h : s.IsDrawn c) : c.ends?.isSome := by
  cases h <;> rfl

theorem RefersToListed.edges (h : s.RefersToListed) : ∀ e ∈ s.edges, s.Lists e.a ∧ s.Lists e.b := by
  refine List.forall_mem_flatMap.mpr fun l hl => ?_
  obtain ⟨ha, hb⟩ := h.links l hl
  simpa [Link.edges] using ⟨⟨ha, hb⟩, hb, ha⟩

theorem lists_of_internal {id : RouterId} (h : id ∈ s.internalRouters) : s.Lists id := by
  obtain ⟨r, hr, rfl⟩ := List.mem_map.mp h
  exact ⟨r, (List.mem_filter.mp hr).1, .refl _⟩

theorem RefersToListed.ends (h : s.RefersToListed) (hc : s.IsDrawn c) :
    ∃ a b, c.ends? = some (a, b) ∧ s.Lists a ∧ s.Lists b := by
  cases hc with
  | link he _ => exact ⟨_, _, rfl, h.edges _ he⟩
  | nextHop hkey hrouter hhop => exact ⟨_, _, rfl, lists_of_internal hrouter, h.nextHops _ hkey _ hrouter _ hhop⟩
  | weight he _ => exact ⟨_, _, rfl, h.edges _ he⟩
  | session hx _ => exact ⟨_, _, rfl, h.sessions _ hx⟩
  | propagation hkey hp => exact ⟨_, _, rfl, h.propagations _ hkey _ hp⟩

theorem hopLines_model (s : Snapshot) (key : Text) :
    s.model.hopLines key =
      .ok (s.internalRouters.flatMap fun router => (s.nextHopsAt key router).map (.nextHop router)) := by
  have hhops : s.internalRouters.mapM
      (fun router => return (← ask (s.model.nextHops key router)).map (Command.nextHop router)) =
        .ok (s.internalRouters.map fun router => (s.nextHopsAt key router).map (Command.nextHop router)) :=
    mapM_eq_map fun _ _ => rfl
  exact congrArg (fun r => r >>= fun hops => pure hops.flatten) hhops

theorem propagationLines_model (s : Snapshot) (key : Text) :
    s.model.propagationLines key = .ok ((s.propagationsAt key).map fun p => .propagation p.source p.destination) :=
  rfl

theorem blocks_of_texts {lines : Text → Drawing (List Command)} {commands : Text → List Command}
    (hlines : ∀ key, lines key = .ok (commands key)) (keys : List Text) :
    (keys.map fun key => PrefixEntry.ofText key key).mapM
      (fun entry => return Block.mk entry.toggle (← lines entry.key)) =
        .ok (keys.map fun key => ⟨toggle key, commands key⟩) := by
  rw [List.mapM_map]
  refine mapM_eq_map fun key _ => ?_
  rw [Function.comp_apply, PrefixEntry.ofText, hlines]
  rfl

theorem mem_blocks_iff {lines : Text → Drawing (List Command)} {commands : Text → List Command}
    (hlines : ∀ key, lines key = .ok (commands key)) {keys : List Text} {blocks : List Block}
    (h : (keys.map fun key => PrefixEntry.ofText key key).mapM
      (fun entry => return Block.mk entry.toggle (← lines entry.key)) = .ok blocks) :
    c ∈ blocks.flatMap (·.commands) ↔ ∃ key ∈ keys, c ∈ commands key := by
  obtain rfl := Except.ok.inj ((blocks_of_texts hlines keys).symm.trans h)
  simp

theorem mem_drawn_iff (hdraws : s.model.Draws (s.prefixes.map fun key => .ofText key key) picture) :
    c ∈ picture.drawn ↔ s.IsDrawn c := by
  have hlinks : picture.links = (s.edges.filter fun e => e.a < e.b).map fun e => .link e.a e.b :=
    (Except.ok.inj hdraws.links).symm
  have hhops := mem_blocks_iff (c := c) s.hopLines_model hdraws.nextHops
  have hpropagations := mem_blocks_iff (c := c) s.propagationLines_model hdraws.propagations
  have hweights : c ∈ picture.weights ↔ ∃ e ∈ s.edges, e.label = .ok c := mem_mapM_iff hdraws.weights
  have hsessions : c ∈ picture.sessions ↔ ∃ x ∈ s.sessions.getD [], x.line = .ok c := mem_mapM_iff hdraws.sessions
  simp only [Picture.drawn, List.mem_append, or_assoc, hlinks, hhops, hpropagations, hweights, hsessions,
    List.mem_flatMap, List.mem_map, List.mem_filter, decide_eq_true_eq, Edge.label_eq_ok, Session.line_eq_ok]
  constructor
  · rintro (⟨e, ⟨he, hlt⟩, rfl⟩ | ⟨key, hkey, router, hrouter, hop, hhop, rfl⟩ | ⟨e, he, label, hlabel, rfl⟩ |
      ⟨x, hx, kind, hkind, rfl⟩ | ⟨key, hkey, p, hp, rfl⟩)
    · exact .link he hlt
    · exact .nextHop hkey hrouter hhop
    · exact .weight he hlabel
    · exact .session hx hkind
    · exact .propagation hkey hp
  · intro h
    cases h with
    | link he hlt => exact .inl ⟨_, ⟨he, hlt⟩, rfl⟩
    | nextHop hkey hrouter hhop => exact .inr (.inl ⟨_, hkey, _, hrouter, _, hhop, rfl⟩)
    | weight he hlabel => exact .inr (.inr (.inl ⟨_, he, _, hlabel, rfl⟩))
    | session hx hkind => exact .inr (.inr (.inr (.inl ⟨_, hx, _, hkind, rfl⟩)))
    | propagation hkey hp => exact .inr (.inr (.inr (.inr ⟨_, hkey, _, hp, rfl⟩)))

/-! ## Documents of snapshots -/

theorem IsReadFrom.front (h : s.IsReadFrom v) (hdraws : s.model.Draws entries picture) :
    ∃ internal external : List Router, (internal ++ external).Perm s.routers ∧
      picture.front = picture.opening ++ (rows (internal.map Router.node) ++ rows (external.map Router.node)) := by
  have hperm := List.filter_append_perm (fun r : Router => ¬ r.IsExternal) s.routers
  refine ⟨s.routers.filter fun r => ¬ r.IsExternal, s.routers.filter fun r => r.IsExternal, by simpa using hperm, ?_⟩
  rw [Picture.front, Except.ok.inj (h.internalNodes.symm.trans hdraws.internalNodes),
    Except.ok.inj (h.externalNodes.symm.trans hdraws.externalNodes)]

/-- In front of the drawing lines stand the declarations of all routers. -/
theorem IsReadFrom.declared_front (h : s.IsReadFrom v) (hsingle : picture.IsSingleLine)
    (hdraws : s.model.Draws entries picture) :
    (picture.front.filterMap declared?).Perm (s.routers.map fun r => nodeName r.id) := by
  obtain ⟨internal, external, hperm, hfront⟩ := h.front hdraws
  have hopening : picture.opening.filterMap declared? = [] :=
    List.filterMap_eq_nil_iff.mpr fun line hline => (hsingle.isInert_opening line hline).declared?
  rw [hfront, List.filterMap_append, hopening, List.nil_append, List.filterMap_append, declared_rows, declared_rows,
    ← List.map_append]
  exact hperm.map _

theorem IsReadFrom.not_draws_front (h : s.IsReadFrom v) (hsingle : picture.IsSingleLine)
    (hdraws : s.model.Draws entries picture) : ∀ line ∈ picture.front, ¬ Begins "\\draw" line := by
  obtain ⟨internal, external, -, hfront⟩ := h.front hdraws
  rw [hfront]
  refine List.forall_mem_append.mpr ⟨fun line hline => (hsingle.isInert_opening line hline).not_draws, ?_⟩
  exact List.forall_mem_append.mpr ⟨not_draws_rows internal, not_draws_rows external⟩

theorem isSingleLine_model (hnames : s.NamesAreSingleLines) (hprefixes : ∀ key ∈ s.prefixes, '\n'.unit ∉ key.toList) :
    s.model.IsSingleLine := by
  have hname : ∀ id name, s.model.routerName id = .ok (some name) → '\n'.unit ∉ name.toList := by
    intro id name h
    obtain ⟨r, hr, hname⟩ := Option.bind_eq_some_iff.mp (Except.ok.inj h)
    exact hnames r (List.mem_reverse.mp (List.mem_of_find?_eq_some hr)) name hname
  refine ⟨fun _ _ id _ => hname id, fun _ _ id _ => hname id, fun keys hkeys key hkey text htext => ?_⟩
  cases hkeys
  cases htext
  exact hprefixes key hkey

section
variable (h : s.IsReadFrom v) (hsingle : picture.IsSingleLine)
  (hdraws : s.model.Draws (s.prefixes.map fun key => .ofText key key) picture)
include h hsingle hdraws

theorem IsReadFrom.draws_iff {line : Text} :
    line ∈ picture.lines ∧ Begins "\\draw" line ↔ ∃ c, s.IsDrawn c ∧ c.text = line := by
  have hdrawn : ∀ {c}, c ∈ picture.drawn ↔ s.IsDrawn c := mem_drawn_iff hdraws
  rw [picture.lines_eq]
  constructor
  · rintro ⟨hline, hbegins⟩
    rcases List.mem_append.mp hline with hline | hline
    · exact absurd hbegins (h.not_draws_front hsingle hdraws line hline)
    · obtain ⟨c, hc, rfl⟩ := (Picture.drawsOnly_behind (fun c hc => (hdrawn.mp hc).ends) line hline).2 hbegins
      exact ⟨c, hdrawn.mp hc, rfl⟩
  · rintro ⟨c, hc, rfl⟩
    exact ⟨List.mem_append_right _ (Picture.mem_behind (hdrawn.mpr hc)), c.draws_text hc.ends⟩

/-- No line draws before the last node is declared. -/
theorem IsReadFrom.length_front_le {j : Nat} {line : Text} (hline : picture.lines[j]? = some line)
    (hbegins : Begins "\\draw" line) : picture.front.length ≤ j := by
  by_contra hlt
  rw [picture.lines_eq, List.getElem?_append_left (by omega)] at hline
  exact h.not_draws_front hsingle hdraws line (List.mem_of_getElem? hline) hbegins

theorem IsReadFrom.declaredBefore {id : RouterId} (hid : s.Lists id) {j : Nat} (hj : picture.front.length ≤ j) :
    DeclaredBefore picture.lines j (nodeName id) := by
  have hdeclared := h.declared_front hsingle hdraws
  have hnodup : (picture.front.filterMap declared?).Nodup :=
    hdeclared.nodup_iff.mpr (List.pairwise_map.mpr (h.distinct.imp fun hne heq => hne (nodeName_eq_iff.mp heq)))
  -- a line behind the nodes draws, so it declares nothing
  have hbehind := Picture.drawsOnly_behind fun c hc => ((mem_drawn_iff hdraws).mp hc).ends
  obtain ⟨r, hr, hsame⟩ := hid
  rw [picture.lines_eq, ← nodeName_eq_iff.mpr hsame]
  exact .of_front hnodup (fun line hline => (hbehind line hline).1) (hdeclared.mem_iff.mpr (List.mem_map_of_mem hr)) hj

end

/-- Where a snapshot refers to listed routers only, the drawing lines of its document are those of what it draws, each
has two endpoints, and each endpoint is declared by one line, which stands in front of it. -/
theorem endpoints_declared {text : Text} (hs : Snapshot.parse text = .ok s) (hnames : s.NamesAreSingleLines)
    (hprefixes : ∀ key ∈ s.prefixes, '\n'.unit ∉ key.toList) (hlisted : s.RefersToListed) :
    ∃ document, (∀ request warnings, (s.model.exportDocument request warnings).result = .ok document ∨
        collisions s.prefixes ≠ [] ∧ request.resolve.prefixCollisions = .error ∧
          (s.model.exportDocument request warnings).result = .error (.prefixCollision (collisions s.prefixes))) ∧
      (∀ line, line ∈ textLines document ∧ Begins "\\draw" line ↔ ∃ c, s.IsDrawn c ∧ c.text = line) ∧
      ∀ j line, (textLines document)[j]? = some line → Begins "\\draw" line →
        ∃ a b, endpoints line = [a, b] ∧ ∀ name ∈ [a, b], DeclaredBefore (textLines document) j name := by
  obtain ⟨v, -, hread⟩ := isReadFrom_of_parse hs
  obtain ⟨picture, hpicture, hbuilt⟩ := buildSections_model hread
  have hdraws := Model.draws_of_picture hpicture
  have hsingle := (isSingleLine_model hnames hprefixes).picture s.prefixEntries_model hpicture
  refine ⟨Text.intercalate "\n" (skeletonWith picture.sections), fun request warnings => ?_, ?_⟩
  · rw [Model.exportDocument_eq, hbuilt, Outcome.rendered, Sections.outcome]
    dsimp only
    split
    · rename_i hstops
      exact .inr ⟨hstops.1, hstops.2, rfl⟩
    · exact .inl rfl
  rw [hsingle.textLines]
  refine ⟨fun line => hread.draws_iff hsingle hdraws, fun j line hline hbegins => ?_⟩
  have hj := hread.length_front_le hsingle hdraws hline hbegins
  obtain ⟨c, hc, rfl⟩ := (hread.draws_iff hsingle hdraws).mp ⟨List.mem_of_getElem? hline, hbegins⟩
  obtain ⟨a, b, hends, ha, hb⟩ := hlisted.ends hc
  have hbefore : ∀ id, s.Lists id → DeclaredBefore picture.lines j (nodeName id) :=
    fun id hid => hread.declaredBefore hsingle hdraws hid hj
  exact ⟨_, _, c.endpoints_text hends, by simpa using ⟨hbefore a ha, hbefore b hb⟩⟩

end Snapshot

/-- A network with drawing lines of all five sorts. The name of a router looks like one more of them, and the next hop
that is stored for a router that is not listed is not drawn. -/
def crossedText : Text :=
  "\x7b\"routers\":[\x7b\"id\":-0,\"name\":\"\\\\draw (r9)\"\x7d,\x7b\"id\":1,\"external\":true\x7d]," ++
    "\"links\":[\x7b\"a\":0,\"b\":1,\"weight\":0.5\x7d],\"prefixes\":[\"p\"]," ++
    "\"nextHops\":\x7b\"p\":\x7b\"0\":[1],\"7\":[8]\x7d\x7d," ++
    "\"sessions\":[\x7b\"source\":1,\"destination\":0,\"kind\":\"ebgp\"\x7d]," ++
    "\"propagations\":\x7b\"p\":[\x7b\"source\":1,\"destination\":-0\x7d]\x7d\x7d"

def crossedSnapshot : Snapshot where
  routers := [⟨.zero true, some "\\draw (r9)", none, none⟩, ⟨.one, none, none, some true⟩]
  links := [⟨.zero false, .one, .half, none⟩]
  prefixes := ["p"]
  nextHops := some [("p", [("0", [.one]), ("7", [.finite false 0x10000000000000 1025 (by decide)])])]
  sessions := some [⟨.one, .zero false, "ebgp"⟩]
  propagations := some [("p", [⟨.one, .zero true, none⟩])]

def crossedCommands : List Command :=
  [.link (.zero false) .one, .nextHop (.zero true) .one, .weight (.zero false) .one (.whole 0),
    .session .ebgp .one (.zero false), .propagation .one (.zero true)]

def crossedLines : List Text :=
  ["  \\draw[link] (r0) -- (r1);", "      \\draw[next hop] (r0) -- (r1);",
    "    \\draw ($(r0)!\\linkweightdist!(r1)$) node[link weight] \x7b 0 \x7d;",
    "    \\draw[ebgp session] (r1) to[bend left=20] (r0);", "      \\draw[bgp propagation] (r1) to[bend left=20] (r0);"]

theorem endpoints_declared_crossed :
    Snapshot.parse crossedText = .ok crossedSnapshot ∧ crossedSnapshot.RefersToListed ∧
      ∃ document, (crossedSnapshot.model.exportDocument .empty []).result = .ok document ∧
        ∀ line ∈ crossedLines, ∃ j : Nat, (textLines document)[j]? = some line ∧
          ∃ a b, endpoints line = [a, b] ∧ ∀ name ∈ [a, b], DeclaredBefore (textLines document) j name := by
  have hparse : Snapshot.parse crossedText = .ok crossedSnapshot := by decide +kernel
  have hnames : crossedSnapshot.NamesAreSingleLines := by simp +decide [Snapshot.NamesAreSingleLines]
  have hprefixes : ∀ key ∈ crossedSnapshot.prefixes, '\n'.unit ∉ key.toList := by decide
  have hlisted : crossedSnapshot.RefersToListed :=
    ⟨by decide +kernel, by decide +kernel, by decide +kernel, by decide +kernel⟩
  have hdrawn : ∀ c ∈ crossedCommands, crossedSnapshot.IsDrawn c := by
    have hkey : ("p" : Text) ∈ crossedSnapshot.prefixes := by decide
    have hedge : ⟨.zero false, .one, .half⟩ ∈ crossedSnapshot.edges := by decide +kernel
    have hrouter : .zero true ∈ crossedSnapshot.internalRouters := by decide +kernel
    have hhop : .one ∈ crossedSnapshot.nextHopsAt "p" (.zero true) := by decide +kernel
    have hsession : ⟨.one, .zero false, "ebgp"⟩ ∈ crossedSnapshot.sessions.getD [] := by decide +kernel
    have hpropagation : ⟨.one, .zero true, none⟩ ∈ crossedSnapshot.propagationsAt "p" := by decide +kernel
    simp only [crossedCommands, List.forall_mem_cons]
    exact ⟨.link hedge (by decide +kernel), .nextHop hkey hrouter hhop, .weight hedge (by decide +kernel),
      .session hsession (by decide), .propagation hkey hpropagation, List.forall_mem_nil _⟩
  have htexts : crossedLines = crossedCommands.map Command.text := by decide +kernel
  obtain ⟨document, hdocument, hlines, hends⟩ := Snapshot.endpoints_declared hparse hnames hprefixes hlisted
  have hok := (hdocument .empty []).resolve_right fun h => by cases h.2.1
  rw [htexts]
  refine ⟨hparse, hlisted, document, hok, List.forall_mem_map.mpr fun c hc => ?_⟩
  obtain ⟨hmem, hbegins⟩ := (hlines c.text).mpr ⟨c, hdrawn c hc, rfl⟩
  obtain ⟨j, hj⟩ := List.mem_iff_getElem?.mp hmem
  exact ⟨j, hj, hends j c.text hj hbegins⟩

end NetDiagram
