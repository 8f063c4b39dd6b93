import NetDiagram.Proofs.Document.Endpoints
import NetDiagram.Proofs.Document.Representation

/-!
# Lines of links

A link is offered in both directions. The link section keeps the direction from
the smaller end to the larger one and so has one line for each link, and the
weight section has a label for each direction. Both follow the order of the
links and not that of their ends: a link that is turned round keeps its line and
only has its two labels exchanged.
-/

namespace NetDiagram

/-! ## Order of ids -/

/-- One of them is below the other. NaN is not a number and differs from none. -/
def Differ (a b : Binary64) : Prop :=
  a < b ∨ b < a

namespace Binary64

variable {a b : Binary64}

theorem units?_eq_none_iff : a.units? = none ↔ a = .nan := by
  cases a <;> simp [units?]

theorem not_lt_of_lt (h : a < b) : ¬ b < a := by
  intro h'
  obtain ⟨m, n, hm, hn, hlt⟩ := lt_iff.mp h
  obtain ⟨n', m', hn', hm', hlt'⟩ := lt_iff.mp h'
  obtain rfl := Option.some.inj (hm.symm.trans hm')
  obtain rfl := Option.some.inj (hn.symm.trans hn')
  omega

theorem Same.not_lt (h : a.Same b) : ¬ a < b := by
  intro hlt
  exact not_lt_of_lt hlt ((Same.lt_iff h h.symm).mp hlt)

theorem differ_iff (ha : a ≠ .nan) (hb : b ≠ .nan) : Differ a b ↔ ¬ a.Same b := by
  obtain ⟨m, hm⟩ := Option.ne_none_iff_exists'.mp (mt units?_eq_none_iff.mp ha)
  obtain ⟨n, hn⟩ := Option.ne_none_iff_exists'.mp (mt units?_eq_none_iff.mp hb)
  rw [Differ, lt_iff, lt_iff, same_iff, hm, hn]
  simp only [Option.some.injEq, exists_and_left, exists_eq_left']
  omega

end Binary64

/-! ## Lines of one link -/

theorem WeightLabel.isSome_ofWeight? (weight : Binary64) : (ofWeight? weight).isSome :=
  Option.isSome_iff_exists.mpr (exists_ofWeight? weight)

def WeightLabel.ofWeight (weight : Binary64) : WeightLabel :=
  (ofWeight? weight).get (isSome_ofWeight? weight)

theorem Edge.label_eq (e : Edge) : e.label = .ok (.weight e.a e.b (.ofWeight e.weight)) :=
  Edge.label_eq_ok.mpr ⟨_, (Option.some_get _).symm, rfl⟩

namespace Link

def weightBack (l : Link) : Binary64 :=
  l.reverseWeight.getD l.weight

def line? (l : Link) : Option Command :=
  if l.a < l.b then some (.link l.a l.b) else if l.b < l.a then some (.link l.b l.a) else none

def labels (l : Link) : List Command :=
  [.weight l.a l.b (.ofWeight l.weight), .weight l.b l.a (.ofWeight l.weightBack)]

structure IsTurned (l l' : Link) : Prop where
  a : l'.a = l.b
  b : l'.b = l.a
  weight : l'.weight = l.weightBack
  weightBack : l'.weightBack = l.weight

def TurnsIf (marked : Link × Bool) (l' : Link) : Prop :=
  if marked.2 then marked.1.IsTurned l' else l' = marked.1

def Joins (x y : RouterId) (l : Link) : Prop :=
  l.a.Same x ∧ l.b.Same y ∨ l.b.Same x ∧ l.a.Same y

instance (x y : RouterId) (l : Link) : Decidable (l.Joins x y) :=
  inferInstanceAs (Decidable (_ ∨ _))

variable {l l' : Link} {x y : RouterId}

theorem isSome_line? (l : Link) : l.line?.isSome ↔ Differ l.a l.b := by
  rw [line?, Differ]
  by_cases hlt : l.a < l.b
  · simp [hlt]
  · by_cases hgt : l.b < l.a <;> simp [hlt, hgt]

theorem ends_of_line? {c : Command} (h : l.line? = some c) : c.ends?.isSome := by
  rw [line?] at h
  split at h
  · cases h
    rfl
  · split at h <;> cases h
    rfl

theorem edges_lines (l : Link) :
    (l.edges.filter fun e => e.a < e.b).map (fun e => Command.link e.a e.b) = l.line?.toList := by
  rw [edges, line?]
  by_cases hlt : l.a < l.b
  · simp [hlt, Binary64.not_lt_of_lt hlt]
  · by_cases hgt : l.b < l.a <;> simp [hlt, hgt]

theorem edges_labels (l : Link) : l.edges.map (fun e => Command.weight e.a e.b (.ofWeight e.weight)) = l.labels :=
  rfl

theorem IsTurned.line? (h : l.IsTurned l') : l'.line? = l.line? := by
  rw [Link.line?, Link.line?, h.a, h.b]
  by_cases hlt : l.a < l.b
  · rw [if_neg (Binary64.not_lt_of_lt hlt), if_pos hlt, if_pos hlt]
  · rw [if_neg hlt, if_neg hlt]

theorem IsTurned.labels (h : l.IsTurned l') : l'.labels = l.labels.reverse := by
  rw [Link.labels, Link.labels, h.a, h.b, h.weight, h.weightBack]
  rfl

theorem line?_of_turnsIf {marked : Link × Bool} (h : TurnsIf marked l') : l'.line? = marked.1.line? := by
  rw [TurnsIf] at h
  split at h
  · exact h.line?
  · rw [h]

theorem labels_of_turnsIf {marked : Link × Bool} (h : TurnsIf marked l') :
    l'.labels = if marked.2 then marked.1.labels.reverse else marked.1.labels := by
  rw [TurnsIf] at h
  split at h <;> rename_i hturned
  · rw [if_pos hturned, h.labels]
  · rw [if_neg hturned, h]

end Link

/-! ## Lines between two routers -/

def Leads (x y : RouterId) (line : Text) : Prop :=
  endpoints line = [nodeName x, nodeName y]

instance (x y : RouterId) (line : Text) : Decidable (Leads x y line) :=
  inferInstanceAs (Decidable (_ = _))

theorem leads_iff {c : Command} {a b x y : RouterId} (h : c.ends? = some (a, b)) :
    Leads x y c.text ↔ a.Same x ∧ b.Same y := by
  rw [Leads, c.endpoints_text h]
  simp [nodeName_eq_iff]

namespace Link

variable {x y : RouterId}

theorem joins_comm {l : Link} : l.Joins y x ↔ l.Joins x y := by
  rw [Joins, Joins, or_comm, and_comm, and_comm (a := l.a.Same y)]

theorem countP_line (hlt : x < y) (l : Link) :
    (l.line?.toList.map Command.text).countP (Leads x y ·) = if l.Joins x y then 1 else 0 := by
  have hlink : ∀ a b, Leads x y (Command.link a b).text ↔ a.Same x ∧ b.Same y := fun a b => leads_iff rfl
  have hends : ∀ {a b : RouterId}, a.Same x ∧ b.Same y → a < b := fun h => (h.1.lt_iff h.2).mpr hlt
  simp only [line?, Joins]
  by_cases hab : l.a < l.b
  · have hback : ¬ (l.b.Same x ∧ l.a.Same y) := fun h => Binary64.not_lt_of_lt hab (hends h)
    simp [hab, hlink, hback, List.countP_cons]
  · have hforth : ¬ (l.a.Same x ∧ l.b.Same y) := fun h => hab (hends h)
    by_cases hba : l.b < l.a
    · simp [hab, hba, hlink, hforth, List.countP_cons]
    · have hback : ¬ (l.b.Same x ∧ l.a.Same y) := fun h => hba (hends h)
      simp [hab, hba, hforth, hback]

theorem countP_labels (hne : ¬ x.Same y) (l : Link) :
    (l.labels.map Command.text).countP (Leads x y ·) = if l.Joins x y then 1 else 0 := by
  have hweight : ∀ a b label, Leads x y (Command.weight a b label).text ↔ a.Same x ∧ b.Same y :=
    fun a b label => leads_iff rfl
  simp only [labels, Joins]
  by_cases hforth : l.a.Same x ∧ l.b.Same y
  · have hback : ¬ (l.b.Same x ∧ l.a.Same y) := fun h => hne (hforth.1.symm.trans h.2)
    simp [hweight, hforth, hback]
  · simp [hweight, hforth, List.countP_cons]

end Link

theorem countP_flatMap_of_once {α β : Type} {p : β → Bool} {q : α → Prop} [DecidablePred q] {f : α → List β}
    (h : ∀ a, (f a).countP p = if q a then 1 else 0) (xs : List α) : (xs.flatMap f).countP p = xs.countP (q ·) := by
  induction xs with
  | nil => rfl
  | cons a xs ih =>
    rw [List.flatMap_cons, List.countP_append, ih, h, List.countP_cons, Nat.add_comm]
    simp

/-! ## The two sections -/

theorem Command.isSingleLine_of_ends {c : Command} (h : c.ends?.isSome) : c.IsSingleLine := by
  cases c with
  | node style router position name => cases h
  | weight a b label => exact newline_notMem_label label
  | _ => exact List.not_mem_nil

namespace Snapshot

variable (s : Snapshot)

theorem linkLines_model : s.model.linkLines = .ok (s.links.filterMap Link.line?) := by
  have hlines : (s.edges.filter fun e => e.a < e.b).map (fun e => Command.link e.a e.b) =
      s.links.filterMap Link.line? := by
    rw [edges, List.filter_flatMap, List.map_flatMap, List.filterMap_eq_flatMap_toList]
    exact List.flatMap_congr fun l _ => l.edges_lines
  rw [← hlines]
  rfl

theorem weightLabels_model : s.model.weightLabels = .ok (s.links.flatMap Link.labels) := by
  have hlabels : s.edges.map (fun e => Command.weight e.a e.b (.ofWeight e.weight)) = s.links.flatMap Link.labels := by
    rw [edges, List.map_flatMap]
    exact List.flatMap_congr fun l _ => l.edges_labels
  rw [← hlabels]
  exact mapM_eq_map fun e _ => e.label_eq

theorem linesOf_links : linesOf (commandLines (s.links.filterMap Link.line?)) =
    (s.links.filterMap Link.line?).map Command.text := by
  refine linesOf_commandLines fun c hc => Command.isSingleLine_of_ends ?_
  obtain ⟨l, -, hl⟩ := List.mem_filterMap.mp hc
  exact Link.ends_of_line? hl

theorem linesOf_labels : linesOf (commandLines (s.links.flatMap Link.labels)) =
    (s.links.flatMap Link.labels).map Command.text := by
  refine linesOf_commandLines (List.forall_mem_flatMap.mpr fun l _ => ?_)
  refine List.forall_mem_cons.mpr ⟨Command.isSingleLine_of_ends rfl, ?_⟩
  exact List.forall_mem_singleton.mpr (Command.isSingleLine_of_ends rfl)

/-- The two sections of the links: one line for each link with different ends, from the smaller end to the larger one,
and two labels for every link. Between two different ids there is one line and one label each way for each link that
joins them. -/
structure DrawsLinks (s : Snapshot) (edges weights : Text) : Prop where
  lines : linesOf edges = (s.links.filterMap Link.line?).map Command.text
  drawn : ∀ l ∈ s.links, (l.line?.isSome ↔ Differ l.a l.b) ∧
    (l.a ≠ .nan → l.b ≠ .nan → (Differ l.a l.b ↔ ¬ l.a.Same l.b))
  labels : linesOf weights = s.links.flatMap fun l =>
    [(Command.weight l.a l.b (.ofWeight l.weight)).text, (Command.weight l.b l.a (.ofWeight l.weightBack)).text]
  linesBetween : ∀ x y, x < y → (linesOf edges).countP (Leads x y ·) = s.links.countP (Link.Joins x y ·)
  labelsForth : ∀ x y, x < y → (linesOf weights).countP (Leads x y ·) = s.links.countP (Link.Joins x y ·)
  labelsBack : ∀ x y, x < y → (linesOf weights).countP (Leads y x ·) = s.links.countP (Link.Joins x y ·)

theorem drawsLinks : s.DrawsLinks (commandLines (s.links.filterMap Link.line?))
    (commandLines (s.links.flatMap Link.labels)) := by
  have hlines : linesOf (commandLines (s.links.filterMap Link.line?)) =
      s.links.flatMap fun l => l.line?.toList.map Command.text := by
    rw [linesOf_links, List.filterMap_eq_flatMap_toList, List.map_flatMap]
  have hlabels : linesOf (commandLines (s.links.flatMap Link.labels)) =
      s.links.flatMap fun l => l.labels.map Command.text := by
    rw [linesOf_labels, List.map_flatMap]
  refine ⟨s.linesOf_links, fun l _ => ⟨l.isSome_line?, Binary64.differ_iff⟩, hlabels,
    fun x y hlt => ?_, fun x y hlt => ?_, fun x y hlt => ?_⟩
  · rw [hlines]
    exact countP_flatMap_of_once (Link.countP_line hlt) _
  · rw [hlabels]
    exact countP_flatMap_of_once (Link.countP_labels fun hsame => hsame.not_lt hlt) _
  · rw [hlabels]
    -- the labels back are the labels forth between the exchanged ids
    refine countP_flatMap_of_once (fun l => ?_) _
    rw [Link.countP_labels (fun hsame => hsame.symm.not_lt hlt)]
    simp only [Link.joins_comm]

end Snapshot

/-! ## Links turned round -/

section
variable {marked : List (Link × Bool)} {links : List Link} (h : List.Forall₂ Link.TurnsIf marked links)
include h

theorem lines_of_turnsIf : links.filterMap Link.line? = (marked.map Prod.fst).filterMap Link.line? := by
  induction h with
  | nil => rfl
  | cons hl _ ih => rw [List.map_cons, List.filterMap_cons, List.filterMap_cons, Link.line?_of_turnsIf hl, ih]

theorem labels_of_turnsIf :
    links.flatMap Link.labels = marked.flatMap fun m => if m.2 then m.1.labels.reverse else m.1.labels := by
  induction h with
  | nil => rfl
  | cons hl _ ih => rw [List.flatMap_cons, List.flatMap_cons, Link.labels_of_turnsIf hl, ih]

end

/-- The link sections of every snapshot follow its links, and turning some of the links round changes nothing but the
order of the two labels of each of these links. -/
theorem snapshot_links (s : Snapshot) : ∃ edges weights, s.model.sectionText .edges = .ok edges ∧
    s.model.sectionText .linkWeights = .ok weights ∧ s.DrawsLinks edges weights ∧
    ∀ (marked : List (Link × Bool)) (s' : Snapshot), s.links = marked.map Prod.fst →
      List.Forall₂ Link.TurnsIf marked s'.links → s'.model.sectionText .edges = .ok edges ∧
        ∃ weights', s'.model.sectionText .linkWeights = .ok weights' ∧ linesOf weights' =
          marked.flatMap fun m => (if m.2 then m.1.labels.reverse else m.1.labels).map Command.text := by
  have hedges : ∀ s : Snapshot, s.model.sectionText .edges = .ok (commandLines (s.links.filterMap Link.line?)) := by
    intro s
    rw [Model.sectionText, s.linkLines_model]
    rfl
  have hweights : ∀ s : Snapshot,
      s.model.sectionText .linkWeights = .ok (commandLines (s.links.flatMap Link.labels)) := by
    intro s
    rw [Model.sectionText, s.weightLabels_model]
    rfl
  refine ⟨_, _, hedges s, hweights s, s.drawsLinks, fun marked s' hlinks hturned => ⟨?_, _, hweights s', ?_⟩⟩
  · rw [hedges s', lines_of_turnsIf hturned, ← hlinks]
  · rw [s'.linesOf_labels, labels_of_turnsIf hturned, List.map_flatMap]

def linkedSnapshot (links : List Link) : Snapshot where
  routers := []
  links := links
  prefixes := []
  nextHops := none
  sessions := none
  propagations := none

def parallelLinks : List Link :=
  [⟨.zero true, .one, .half, none⟩, ⟨.one, .one, .half, none⟩, ⟨.one, .zero false, .one, some (.zero true)⟩]

def turnedLinks : List Link :=
  [⟨.zero true, .one, .half, none⟩, ⟨.one, .one, .half, some .half⟩, ⟨.zero false, .one, .zero true, some .one⟩]

theorem snapshot_links_parallel : Binary64.zero false < .one ∧
    List.Forall₂ Link.TurnsIf (parallelLinks.zip [false, true, true]) turnedLinks ∧
    ∃ edges weights, (linkedSnapshot parallelLinks).model.sectionText .edges = .ok edges ∧
      (linkedSnapshot parallelLinks).model.sectionText .linkWeights = .ok weights ∧
      linesOf edges = ["  \\draw[link] (r0) -- (r1);", "  \\draw[link] (r0) -- (r1);"] ∧
      (linesOf weights).countP (Leads (.zero false) .one ·) = 2 ∧
      (linesOf weights).countP (Leads .one (.zero false) ·) = 2 ∧
      (linkedSnapshot turnedLinks).model.sectionText .edges = .ok edges := by
  have hlt : Binary64.zero false < .one := by decide +kernel
  have hturned : List.Forall₂ Link.TurnsIf (parallelLinks.zip [false, true, true]) turnedLinks :=
    .cons rfl (.cons ⟨rfl, rfl, rfl, rfl⟩ (.cons ⟨rfl, rfl, rfl, rfl⟩ .nil))
  have hcommands : ((linkedSnapshot parallelLinks).links.filterMap Link.line?).map Command.text =
      ["  \\draw[link] (r0) -- (r1);", "  \\draw[link] (r0) -- (r1);"] := by decide +kernel
  have hjoins : (linkedSnapshot parallelLinks).links.countP (Link.Joins (.zero false) .one ·) = 2 := by decide +kernel
  obtain ⟨edges, weights, hedges, hweights, hdraws, hturns⟩ := snapshot_links (linkedSnapshot parallelLinks)
  refine ⟨hlt, hturned, edges, weights, hedges, hweights, hdraws.lines.trans hcommands,
    (hdraws.labelsForth _ _ hlt).trans hjoins, (hdraws.labelsBack _ _ hlt).trans hjoins, ?_⟩
  exact (hturns (parallelLinks.zip [false, true, true]) (linkedSnapshot turnedLinks) rfl hturned).1

end NetDiagram
