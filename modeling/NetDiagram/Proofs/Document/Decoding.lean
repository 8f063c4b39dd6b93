import NetDiagram.Proofs.Document.View

/-!
# Documents can be decoded

No line of the skeleton, no blank line and no end of a block reads like a line
of the picture. So the lines behind the head of a document have the readings of
the view and no others, and the order and the kinds of the readings give the
view back. Blocks need no mark where they end: a block goes on to the next guard.
-/

namespace NetDiagram

/-! ## What lines show -/

def IsPlain (line : Text) : Prop :=
  '\n'.unit ∉ line.toList ∧ ∀ k ∈ LineKind.all, ¬ k.head.toList <+: line.toList

instance (line : Text) : Decidable (IsPlain line) := by
  unfold IsPlain; infer_instance

inductive Shows : List Text → List Reading → Prop
  | nil : Shows [] []
  | plain {line : Text} {lines : List Text} {rs : List Reading} :
      IsPlain line → Shows lines rs → Shows (line :: lines) rs
  | entry {r : Reading} {lines : List Text} {rs : List Reading} :
      '\n'.unit ∉ r.text.toList → Shows lines rs → Shows (r.line :: lines) (r :: rs)

theorem IsPlain.ne_line {line : Text} (h : IsPlain line) (r : Reading) : line ≠ r.line := by
  intro hline
  exact h.2 _ r.kind.mem_all (hline ▸ r.head_prefix)

namespace Shows

variable {lines ls ms : List Text} {rs ss : List Reading}

theorem unique (h : Shows lines rs) (h' : Shows lines ss) : rs = ss := by
  induction h generalizing ss with
  | nil =>
    cases h'
    rfl
  | plain hplain _ ih =>
    cases h' with
    | plain _ htail => exact ih htail
    | entry _ _ => exact absurd rfl (hplain.ne_line _)
  | @entry r lines rs _ _ ih =>
    -- a line that is `r.line` does not match `Reading.line` of another reading, so it gets a name
    generalize hcons : r.line :: lines = all at h'
    cases h' with
    | nil => cases hcons
    | plain hplain _ =>
      obtain ⟨hline, -⟩ := List.cons.inj hcons
      exact absurd hline.symm (hplain.ne_line r)
    | entry _ htail =>
      obtain ⟨hline, rfl⟩ := List.cons.inj hcons
      rw [Reading.eq_of_line hline, ih htail]

theorem newline_notMem (h : Shows lines rs) : ∀ line ∈ lines, '\n'.unit ∉ line.toList := by
  induction h with
  | nil => simp
  | plain hplain _ ih => simpa using ⟨hplain.1, ih⟩
  | entry htext _ ih => simpa using ⟨Reading.newline_notMem_line htext, ih⟩

theorem append (h : Shows ls rs) (h' : Shows ms ss) : Shows (ls ++ ms) (rs ++ ss) := by
  induction h with
  | nil => exact h'
  | plain hplain _ ih => exact .plain hplain ih
  | entry htext _ ih => exact .entry htext ih

theorem flatMap {α : Type} {f : α → List Text} {g : α → List Reading} {xs : List α}
    (h : ∀ x ∈ xs, Shows (f x) (g x)) : Shows (xs.flatMap f) (xs.flatMap g) := by
  induction xs with
  | nil => exact .nil
  | cons x xs ih =>
    rw [List.flatMap_cons, List.flatMap_cons]
    exact (h x (by simp)).append (ih fun x hx => h x (by simp [hx]))

theorem single {line : Text} (h : IsPlain line) : Shows [line] [] :=
  .plain h .nil

/-! ## Layers and blocks -/

theorem layer (h : ∀ r ∈ rs, '\n'.unit ∉ r.text.toList) : Shows (NetDiagram.layer rs) rs := by
  by_cases hnil : rs = []
  · subst hnil
    exact .single (by decide +kernel)
  · rw [NetDiagram.layer, if_neg hnil]
    clear hnil
    induction rs with
    | nil => exact .nil
    | cons r rs ih => exact .entry (h r (by simp)) (ih fun r hr => h r (by simp [hr]))

theorem block {toggle : Text} (htoggle : '\n'.unit ∉ toggle.toList) (h : ∀ r ∈ rs, '\n'.unit ∉ r.text.toList) :
    Shows (blockOf toggle rs) (guardReading toggle :: rs) := by
  have hend : Shows ["  \\fi"] [] := .single (by decide +kernel)
  have hbody := (layer h).append hend
  rw [List.append_nil] at hbody
  exact .entry htoggle hbody

end Shows

def blockReadings (b : Text × List Reading) : List Reading :=
  guardReading b.1 :: b.2

theorem Shows.blocks {bs : List (Text × List Reading)} (htoggles : ∀ b ∈ bs, '\n'.unit ∉ b.1.toList)
    (h : ∀ b ∈ bs, ∀ r ∈ b.2, '\n'.unit ∉ r.text.toList) : Shows (blocksOf bs) (bs.flatMap blockReadings) := by
  by_cases hnil : bs = []
  · subst hnil
    exact .single (by decide +kernel)
  · rw [blocksOf, if_neg hnil]
    exact .flatMap fun b hb => .block (htoggles b hb) (h b hb)

/-! ## Readings of a document -/

structure View.IsSingleLine (v : View) : Prop where
  internalNames : ∀ n ∈ v.internalNodes, '\n'.unit ∉ n.name.toList
  externalNames : ∀ n ∈ v.externalNodes, '\n'.unit ∉ n.name.toList
  labels : ∀ w ∈ v.weights, '\n'.unit ∉ w.label.toList
  toggles : ∀ p ∈ v.prefixes, '\n'.unit ∉ p.toggle.toList

namespace View

variable {v w : View}

def sectionReadings (v : View) : Placeholder → List Reading
  | .prefixes => []
  | .internalNodes => v.internalNodes.map (NodeView.reading .router)
  | .externalNodes => v.externalNodes.map (NodeView.reading .external)
  | .edges => v.links.map linkReading
  | .nextHops => v.hopBlocks.flatMap blockReadings
  | .linkWeights => v.weights.map WeightView.reading
  | .bgpSessions => v.sessions.map SessionView.reading
  | .bgpPropagations => v.propagationBlocks.flatMap blockReadings

def readings (v : View) : List Reading :=
  skeletonTail.flatMap (Sum.elim (fun _ => []) v.sectionReadings)

theorem newline_notMem_choices {toggles : List Text} (h : ∀ t ∈ toggles, '\n'.unit ∉ t.toList) :
    '\n'.unit ∉ (choices toggles).toList := by
  have hcomma : '\n'.unit ∉ (", " : Text).toList := by decide
  unfold choices
  induction toggles with
  | nil => simp
  | cons t ts ih =>
    have htail := ih fun t ht => h t (by simp [ht])
    cases ts with
    | nil => simpa using h t (by simp)
    | cons t' ts =>
      rw [Text.intercalate_cons_cons, Text.toList_append, Text.toList_append]
      simp only [List.mem_append, not_or]
      exact ⟨⟨h t (by simp), hcomma⟩, htail⟩

theorem isPlain_choices {toggles : List Text} (h : ∀ t ∈ toggles, '\n'.unit ∉ t.toList) :
    IsPlain (choicesHead ++ choices toggles) := by
  have hfirst : choicesHead.toList.head? = some '\\'.unit ∧ '\n'.unit ∉ choicesHead.toList := by decide +kernel
  have hheads : ∀ k ∈ LineKind.all, k.head.toList.head? = some ' '.unit := by decide +kernel
  unfold IsPlain
  rw [Text.toList_append]
  refine ⟨?_, ?_⟩
  · rw [List.mem_append, not_or]
    exact ⟨hfirst.2, newline_notMem_choices h⟩
  · intro k hk hpre
    obtain ⟨cs, hcs⟩ := List.head?_eq_some_iff.mp hfirst.1
    obtain ⟨ds, hds⟩ := List.head?_eq_some_iff.mp (hheads k hk)
    rw [hcs, hds, List.cons_append, List.cons_prefix_cons] at hpre
    exact absurd hpre.1 (by decide)

theorem isPlain_fixed {line : Text} (h : .inl line ∈ skeletonTail) : IsPlain line := by
  have hall : ∀ line ∈ skeletonTail.filterMap Sum.getLeft?, IsPlain line := by decide +kernel
  exact hall line (List.mem_filterMap.mpr ⟨_, h, rfl⟩)

theorem shows_section (h : v.IsSingleLine) {p : Placeholder} (hp : p ≠ .prefixes) :
    Shows (v.sectionLines p) (v.sectionReadings p) := by
  cases p with
  | prefixes => exact absurd rfl hp
  | internalNodes => exact .layer (List.forall_mem_map.mpr h.internalNames)
  | externalNodes => exact .layer (List.forall_mem_map.mpr h.externalNames)
  | edges => exact .layer (List.forall_mem_map.mpr (by simp [linkReading]))
  | linkWeights => exact .layer (List.forall_mem_map.mpr h.labels)
  | bgpSessions => exact .layer (List.forall_mem_map.mpr (by simp [SessionView.reading]))
  | nextHops =>
    refine .blocks (List.forall_mem_map.mpr h.toggles) (List.forall_mem_map.mpr fun p _ => ?_)
    exact List.forall_mem_map.mpr (by simp [hopReading])
  | bgpPropagations =>
    refine .blocks (List.forall_mem_map.mpr h.toggles) (List.forall_mem_map.mpr fun p _ => ?_)
    exact List.forall_mem_map.mpr (by simp [propagationReading])

theorem shows_lines (h : v.IsSingleLine) : Shows v.lines v.readings := by
  have hprefixes : .inr .prefixes ∉ skeletonTail := by simp [skeletonTail]
  refine .plain (isPlain_choices (by simpa using h.toggles)) (.flatMap fun line hline => ?_)
  cases line with
  | inl fixed => exact .single (isPlain_fixed hline)
  | inr p => exact shows_section h fun hp => hprefixes (hp ▸ hline)

end View

/-! ## Readings tell the view -/

def LineKind.place : LineKind → Placeholder
  | .node .router => .internalNodes
  | .node .external => .externalNodes
  | .link => .edges
  | .weight => .linkWeights
  | .session _ => .bgpSessions
  | .nextHop | .propagation | .guard => .nextHops

def readingsAt (p : Placeholder) (rs : List Reading) : List Reading :=
  rs.filter fun r => r.kind.place = p

theorem readingsAt_all {p q : Placeholder} {rs : List Reading} (h : ∀ r ∈ rs, r.kind.place = q) :
    readingsAt p rs = if q = p then rs else [] := by
  unfold readingsAt
  split
  · rename_i hqp
    rw [List.filter_eq_self]
    intro r hr
    simp [h r hr, hqp]
  · rename_i hqp
    rw [List.filter_eq_nil_iff]
    intro r hr
    simp [h r hr, hqp]

/-- Cuts readings at the guards; what stands before the first guard is kept apart. -/
def regroup : List Reading → List Reading × List (Text × List Reading)
  | [] => ([], [])
  | r :: rs =>
    let rest := regroup rs
    if r.kind = .guard then ([], (r.text, rest.1) :: rest.2) else (r :: rest.1, rest.2)

theorem regroup_append {rs ss : List Reading} (h : ∀ r ∈ rs, r.kind ≠ .guard) :
    regroup (rs ++ ss) = (rs ++ (regroup ss).1, (regroup ss).2) := by
  induction rs with
  | nil => rfl
  | cons r rs ih =>
    rw [List.cons_append, regroup, if_neg (h r (by simp)), ih fun r hr => h r (by simp [hr])]
    rfl

theorem regroup_blocks {bs : List (Text × List Reading)} (h : ∀ b ∈ bs, ∀ r ∈ b.2, r.kind ≠ .guard) :
    regroup (bs.flatMap blockReadings) = ([], bs) := by
  induction bs with
  | nil => rfl
  | cons b bs ih =>
    have hblock : regroup (b.2 ++ bs.flatMap blockReadings) = (b.2, bs) := by
      rw [regroup_append (h b (by simp)), ih fun b hb => h b (by simp [hb]), List.append_nil]
    rw [List.flatMap_cons, blockReadings, List.cons_append, regroup, hblock]
    rfl

section
open Function

theorem NodeView.reading_injective (style : NodeStyle) : Injective (NodeView.reading style) := by
  rintro ⟨router, x, y, name⟩ ⟨router', x', y', name'⟩ h
  cases h
  rfl

theorem WeightView.reading_injective : Injective WeightView.reading := by
  rintro ⟨⟨a, b⟩, label⟩ ⟨⟨a', b'⟩, label'⟩ h
  cases h
  rfl

theorem SessionView.reading_injective : Injective SessionView.reading := by
  rintro ⟨kind, a, b⟩ ⟨kind', a', b'⟩ h
  cases h
  rfl

theorem linkReading_injective : Injective linkReading := by
  rintro ⟨a, b⟩ ⟨a', b'⟩ h
  cases h
  rfl

theorem hopReading_injective : Injective hopReading := by
  rintro ⟨a, b⟩ ⟨a', b'⟩ h
  cases h
  rfl

theorem propagationReading_injective : Injective propagationReading := by
  rintro ⟨a, b⟩ ⟨a', b'⟩ h
  cases h
  rfl

end

def Placeholder.place : Placeholder → Placeholder
  | .bgpPropagations => .nextHops
  | p => p

namespace View

variable {v w : View}

theorem place_blocks {bs : List (Text × List Reading)} (h : ∀ b ∈ bs, ∀ r ∈ b.2, r.kind.place = .nextHops) :
    ∀ r ∈ bs.flatMap blockReadings, r.kind.place = .nextHops := by
  intro r hr
  obtain ⟨b, hb, hr⟩ := List.mem_flatMap.mp hr
  rcases List.mem_cons.mp hr with rfl | hr
  · rfl
  · exact h b hb r hr

theorem place_section (v : View) (p : Placeholder) : ∀ r ∈ v.sectionReadings p, r.kind.place = p.place := by
  cases p with
  | prefixes => simp [sectionReadings]
  | nextHops | bgpPropagations =>
    refine place_blocks (List.forall_mem_map.mpr fun p _ r hr => ?_)
    obtain ⟨x, -, rfl⟩ := List.mem_map.mp hr
    rfl
  | _ =>
    intro r hr
    obtain ⟨x, -, rfl⟩ := List.mem_map.mp hr
    rfl

theorem readingsAt_readings (p : Placeholder) :
    readingsAt p v.readings =
      skeletonTail.flatMap (Sum.elim (fun _ => []) fun q => if q.place = p then v.sectionReadings q else []) := by
  unfold readings
  rw [readingsAt, List.filter_flatMap]
  apply List.flatMap_congr
  intro line _
  cases line with
  | inl fixed => rfl
  | inr q => exact readingsAt_all (v.place_section q)

def blocks (v : View) : List (Text × List Reading) :=
  v.hopBlocks ++ v.propagationBlocks

theorem readingsAt_single {p : Placeholder}
    (hp : p ∈ [.internalNodes, .externalNodes, .edges, .linkWeights, .bgpSessions]) :
    readingsAt p v.readings = v.sectionReadings p := by
  rw [readingsAt_readings]
  simp only [List.mem_cons, List.not_mem_nil, or_false] at hp
  rcases hp with rfl | rfl | rfl | rfl | rfl <;> simp [skeletonTail, Placeholder.place]

theorem readingsAt_nextHops : readingsAt .nextHops v.readings = v.blocks.flatMap blockReadings := by
  rw [readingsAt_readings, blocks, List.flatMap_append]
  simp [skeletonTail, Placeholder.place, sectionReadings]

theorem regroup_readings : regroup (readingsAt .nextHops v.readings) = ([], v.blocks) := by
  rw [readingsAt_nextHops]
  apply regroup_blocks
  intro b hb
  rcases List.mem_append.mp hb with hb | hb
  · obtain ⟨p, -, rfl⟩ := List.mem_map.mp hb
    exact List.forall_mem_map.mpr (by simp [hopReading])
  · obtain ⟨p, -, rfl⟩ := List.mem_map.mp hb
    exact List.forall_mem_map.mpr (by simp [propagationReading])

theorem blocks_inj (h : v.blocks = w.blocks) : v.prefixes = w.prefixes := by
  -- each prefix has one block of either sort, so the two halves have the same length
  have hlength : v.prefixes.length = w.prefixes.length := by
    have hall := congrArg List.length h
    simp only [blocks, hopBlocks, propagationBlocks, List.length_append, List.length_map] at hall
    omega
  obtain ⟨hhops, hpropagations⟩ := List.append_inj h (by simpa [hopBlocks] using hlength)
  have hzip := congrArg₂ List.zip hhops hpropagations
  simp only [hopBlocks, propagationBlocks, List.zip_map'] at hzip
  refine List.map_injective_iff.mpr ?_ hzip
  rintro ⟨toggle, hops, propagations⟩ ⟨toggle', hops', propagations'⟩ hp
  simp only [Prod.mk.injEq] at hp
  obtain ⟨⟨rfl, hh⟩, -, hq⟩ := hp
  obtain rfl := List.map_injective_iff.mpr hopReading_injective hh
  obtain rfl := List.map_injective_iff.mpr propagationReading_injective hq
  rfl

/-- A view can be told from its readings. -/
theorem eq_of_readings (h : v.readings = w.readings) : v = w := by
  -- the kinds of lines tell these sections apart wherever they end
  have hsection : ∀ p ∈ [.internalNodes, .externalNodes, .edges, .linkWeights, .bgpSessions],
      v.sectionReadings p = w.sectionReadings p := by
    intro p hp
    rw [← readingsAt_single hp, ← readingsAt_single hp, h]
  have hblocks : v.blocks = w.blocks := by
    have hv := regroup_readings (v := v)
    rw [h, regroup_readings] at hv
    exact (Prod.mk.inj hv).2.symm
  have hinternal := (NodeView.reading_injective .router).list_map (hsection .internalNodes (by simp))
  have hexternal := (NodeView.reading_injective .external).list_map (hsection .externalNodes (by simp))
  have hlinks := linkReading_injective.list_map (hsection .edges (by simp))
  have hweights := WeightView.reading_injective.list_map (hsection .linkWeights (by simp))
  have hsessions := SessionView.reading_injective.list_map (hsection .bgpSessions (by simp))
  have hprefixes := blocks_inj hblocks
  cases v
  cases w
  simp only [View.mk.injEq]
  exact ⟨hinternal, hexternal, hlinks, hweights, hsessions, hprefixes⟩

end View

/-! ## Units of texts -/

theorem notMem_append {c : CodeUnit} {a b : Text} (ha : c ∉ a.toList) (hb : c ∉ b.toList) : c ∉ (a ++ b).toList := by
  rw [Text.toList_append, List.mem_append, not_or]
  exact ⟨ha, hb⟩

section
open Json (IsBare)

theorem notMem_of_bare {text : Text} (h : ∀ c ∈ text.toList, IsBare c) {c : CodeUnit} (hc : ¬ IsBare c) :
    c ∉ text.toList :=
  fun hmem => hc (h c hmem)

theorem bare_text (x : Binary64) : ∀ c ∈ x.text.toList, IsBare c :=
  Grammar.bare_encode x.bare_chars

theorem bare_repr (n : Nat) : ∀ c ∈ (n.repr : Text).toList, IsBare c := by
  rw [Text.ofString, Nat.toList_repr]
  exact Grammar.bare_toDigits _

theorem bare_label (label : WeightLabel) : ∀ c ∈ label.text.toList, IsBare c := by
  have hminus : ∀ c ∈ ("-" : Text).toList, IsBare c := by decide
  cases label with
  | nan => decide
  | infinite negative => cases negative <;> decide
  | whole n =>
    unfold WeightLabel.text
    dsimp only
    split
    · rw [Text.toList_append]
      exact List.forall_mem_append.mpr ⟨hminus, bare_repr _⟩
    · exact bare_repr _

end

/-! ## Texts without newlines -/

theorem newline_notMem_label (label : WeightLabel) : '\n'.unit ∉ label.text.toList :=
  notMem_of_bare (bare_label label) (by decide)

theorem newline_notMem_toggle {text : Text} (h : '\n'.unit ∉ text.toList) : '\n'.unit ∉ (toggle text).toList := by
  have hstem : '\n'.unit ∉ ("prefix" : Text).toList := by decide
  refine notMem_append hstem ?_
  rw [identifier, Text.toList_ofList]
  intro hmem
  obtain ⟨c, hc, hnewline⟩ := List.mem_map.mp hmem
  unfold identifierUnit at hnewline
  split at hnewline
  · exact absurd hnewline (by decide)
  · exact h (hnewline ▸ hc)

namespace Model

/-- Neither the name of a listed router nor the text of a known prefix breaks its line. -/
structure IsSingleLine {P : Type} (model : Model P) : Prop where
  internalNames : ∀ routers, model.internalRouters = .ok routers → ∀ router ∈ routers, ∀ name,
    model.routerName router = .ok (some name) → '\n'.unit ∉ name.toList
  externalNames : ∀ routers, model.externalRouters = .ok routers → ∀ router ∈ routers, ∀ name,
    model.routerName router = .ok (some name) → '\n'.unit ∉ name.toList
  prefixStrings : ∀ keys, model.knownPrefixes = .ok keys → ∀ key ∈ keys, ∀ text,
    model.prefixString key = .ok text → '\n'.unit ∉ text.toList

variable {P : Type} {model : Model P}

theorem newline_notMem_name {router : RouterId} {v : NodeView} (hv : model.nodeView router = .ok v)
    (h : ∀ name, model.routerName router = .ok (some name) → '\n'.unit ∉ name.toList) : '\n'.unit ∉ v.name.toList := by
  obtain ⟨position, -, hv⟩ := bind_eq_ok hv
  obtain ⟨name, hname, hv⟩ := bind_eq_ok hv
  cases hv
  cases name with
  | none => simp
  | some name => exact h name (ask_eq_ok.mp hname)

theorem newline_notMem_prefix {key : P} {v : PrefixView} (hv : model.prefixView key = .ok v)
    (h : ∀ text, model.prefixString key = .ok text → '\n'.unit ∉ text.toList) : '\n'.unit ∉ v.toggle.toList := by
  obtain ⟨text, htext, hv⟩ := bind_eq_ok hv
  obtain ⟨hops, -, hv⟩ := bind_eq_ok hv
  obtain ⟨propagations, -, hv⟩ := bind_eq_ok hv
  cases hv
  exact newline_notMem_toggle (h text (ask_eq_ok.mp htext))

theorem newline_notMem_weight {e : Edge} {v : WeightView} (hv : e.view = .ok v) : '\n'.unit ∉ v.label.toList := by
  unfold Edge.view at hv
  split at hv
  · cases hv
    exact newline_notMem_label _
  · cases hv

theorem IsSingleLine.view {v : View} (h : model.IsSingleLine) (hv : model.view = .ok v) : v.IsSingleLine := by
  obtain ⟨edges, -, hv⟩ := bind_eq_ok hv
  obtain ⟨internal, hinternal, hv⟩ := bind_eq_ok hv
  obtain ⟨internalViews, hinternalViews, hv⟩ := bind_eq_ok hv
  obtain ⟨external, hexternal, hv⟩ := bind_eq_ok hv
  obtain ⟨externalViews, hexternalViews, hv⟩ := bind_eq_ok hv
  obtain ⟨weightViews, hweightViews, hv⟩ := bind_eq_ok hv
  obtain ⟨sessions, -, hv⟩ := bind_eq_ok hv
  obtain ⟨sessionViews, -, hv⟩ := bind_eq_ok hv
  obtain ⟨keys, hkeys, hv⟩ := bind_eq_ok hv
  obtain ⟨prefixViews, hprefixViews, hv⟩ := bind_eq_ok hv
  cases hv
  refine ⟨?_, ?_, ?_, ?_⟩
  · intro n hn
    obtain ⟨router, hrouter, hnode⟩ := exists_of_mem_mapM hinternalViews hn
    exact newline_notMem_name hnode (h.internalNames internal (ask_eq_ok.mp hinternal) router hrouter)
  · intro n hn
    obtain ⟨router, hrouter, hnode⟩ := exists_of_mem_mapM hexternalViews hn
    exact newline_notMem_name hnode (h.externalNames external (ask_eq_ok.mp hexternal) router hrouter)
  · intro w hw
    obtain ⟨e, -, he⟩ := exists_of_mem_mapM hweightViews hw
    exact newline_notMem_weight he
  · intro p hp
    obtain ⟨key, hkey, hprefix⟩ := exists_of_mem_mapM hprefixViews hp
    exact newline_notMem_prefix hprefix (h.prefixStrings keys (ask_eq_ok.mp hkeys) key hkey)

end Model

/-! ## Decoding -/

theorem lines_inj {ls ms : List Text} (hls : ∀ l ∈ ls, '\n'.unit ∉ l.toList) (hms : ∀ m ∈ ms, '\n'.unit ∉ m.toList)
    (hl : ls ≠ []) (hm : ms ≠ []) (h : Text.intercalate "\n" ls = Text.intercalate "\n" ms) : ls = ms := by
  have hchars : ['\n'.unit].intercalate (ls.map Text.toList) = ['\n'.unit].intercalate (ms.map Text.toList) := by
    have hlists := congrArg Text.toList h
    rwa [Text.toList_intercalate, Text.toList_intercalate] at hlists
  have hsplit := congrArg (List.splitOn '\n'.unit) hchars
  rw [List.splitOn_intercalate _ (List.forall_mem_map.mpr hls) (by simpa using hl),
    List.splitOn_intercalate _ (List.forall_mem_map.mpr hms) (by simpa using hm)] at hsplit
  exact List.map_injective_iff.mpr (fun _ _ => Text.toList_inj.mp) hsplit

theorem View.eq_of_lines {v w : View} (hv : v.IsSingleLine) (hw : w.IsSingleLine)
    (h : Text.intercalate "\n" v.lines = Text.intercalate "\n" w.lines) : v = w := by
  have hshown := View.shows_lines hv
  have hshown' := View.shows_lines hw
  have hlines : v.lines = w.lines :=
    lines_inj hshown.newline_notMem hshown'.newline_notMem (List.cons_ne_nil _ _) (List.cons_ne_nil _ _) h
  rw [← hlines] at hshown'
  exact View.eq_of_readings (hshown.unique hshown')

/-- Models with one document have one view. -/
theorem document_determines_view {P Q : Type} {model : Model P} {other : Model Q} (hmodel : model.IsSingleLine)
    (hother : other.IsSingleLine) {request request' : OptionRequest} {warnings warnings' : List Warning}
    {document : Text} (h : (model.exportDocument request warnings).result = .ok document)
    (h' : (other.exportDocument request' warnings').result = .ok document) :
    ∃ v, model.view = .ok v ∧ other.view = .ok v := by
  obtain ⟨v, hv, hdocument⟩ := Model.view_of_exportDocument h
  obtain ⟨w, hw, hdocument'⟩ := Model.view_of_exportDocument h'
  have htail : Text.intercalate "\n" v.lines = Text.intercalate "\n" w.lines :=
    (Text.append_right_inj _).mp (hdocument.symm.trans hdocument')
  obtain rfl := View.eq_of_lines (hmodel.view hv) (hother.view hw) htail
  exact ⟨v, hv, hw⟩

def fullModel : Model Text where
  internalRouters := .ok [.zero true]
  externalRouters := .ok [.one]
  routerName _ := .ok (some "")
  routerPosition _ := .ok (some .origin)
  edges := .ok [⟨.zero true, .one, .half⟩]
  knownPrefixes := .ok ["10.0/8"]
  prefixString := .ok
  nextHops _ _ := .ok [.one]
  sessions := .ok [⟨.zero true, .one, "ebgp"⟩]
  propagations _ := .ok [⟨.one, .zero true, some .null⟩]

/-- Has the document of `fullModel`, with other zeros, another weight, another prefix and nothing else said. -/
def sparseModel : Model Nat where
  internalRouters := .ok [.zero false]
  externalRouters := .ok [.one]
  routerName _ := .ok none
  routerPosition _ := .ok none
  edges := .ok [⟨.zero false, .one, .zero true⟩]
  knownPrefixes := .ok [0]
  prefixString _ := .ok "10/0.8"
  nextHops _ _ := .ok [.one]
  sessions := .ok [⟨.zero false, .one, "ebgp"⟩]
  propagations _ := .ok [⟨.one, .zero false, none⟩]

def commonPicture (negative : Bool) : Picture where
  toggles := ["prefix10_0_8"]
  internalNodes := [.node .router (.zero negative) .origin ""]
  externalNodes := [.node .external .one .origin ""]
  links := [.link (.zero negative) .one]
  nextHops := [⟨"prefix10_0_8", [.nextHop (.zero negative) .one]⟩]
  weights := [.weight (.zero negative) .one (.whole 0)]
  sessions := [.session .ebgp (.zero negative) .one]
  propagations := [⟨"prefix10_0_8", [.propagation .one (.zero negative)]⟩]

theorem sections_commonPicture (negative : Bool) :
    (commonPicture negative).sections = (commonPicture false).sections := by
  cases negative with
  | false => rfl
  | true =>
    funext p
    cases p <;> decide +kernel

theorem document_determines_view_sparse :
    fullModel.IsSingleLine ∧ sparseModel.IsSingleLine ∧ ∃ document,
      (fullModel.exportDocument .empty []).result = .ok document ∧
      (sparseModel.exportDocument .empty []).result = .ok document ∧
      ∃ v, fullModel.view = .ok v ∧ sparseModel.view = .ok v := by
  have hfull : fullModel.IsSingleLine := by
    refine ⟨?_, ?_, ?_⟩ <;> simp +decide [fullModel]
  have hsparse : sparseModel.IsSingleLine := by
    refine ⟨?_, ?_, ?_⟩ <;> simp +decide [sparseModel]
  have hentries : fullModel.prefixEntries = .ok [⟨"10.0/8", "10.0/8", "prefix10_0_8"⟩] := rfl
  have hentries' : sparseModel.prefixEntries = .ok [⟨0, "10/0.8", "prefix10_0_8"⟩] := rfl
  have hpicture : fullModel.picture [⟨"10.0/8", "10.0/8", "prefix10_0_8"⟩] = .ok (commonPicture true) := by
    decide +kernel
  have hpicture' : sparseModel.picture [⟨0, "10/0.8", "prefix10_0_8"⟩] = .ok (commonPicture false) := by
    decide +kernel
  have hpolicy : OptionRequest.empty.resolve.prefixCollisions = .warn := rfl
  have hdocument := Model.exportDocument_of_picture [] hentries hpolicy hpicture
  have hdocument' := Model.exportDocument_of_picture [] hentries' hpolicy hpicture'
  rw [sections_commonPicture] at hdocument
  exact ⟨hfull, hsparse, _, hdocument, hdocument', document_determines_view hfull hsparse hdocument hdocument'⟩

end NetDiagram
