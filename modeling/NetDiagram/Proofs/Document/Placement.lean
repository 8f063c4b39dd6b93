import NetDiagram.Proofs.Document.Guards

/-!
# Where the lines of a document stand

The skeleton opens one switch for each overlay and closes it behind the section,
and each block of a section opens and closes the toggle of its prefix. So the
guards around a line follow from its section and its block alone.
-/

namespace NetDiagram

/-! ## Parts of the skeleton -/

/-- The skeleton behind the line of choices, cut into fixed lines, sections in the open and sections behind a switch. -/
inductive Part
  | fixed (line : Text)
  | plain (p : Placeholder)
  | overlay (switch : Text) (p : Placeholder)

def overlays : List (Text × Placeholder) :=
  [("showNextHop", .nextHops), ("showLinkWeights", .linkWeights), ("showBgpSessions", .bgpSessions),
    ("showBgpPropagation", .bgpPropagations)]

def parts : List Part := [
  .fixed "",
  .fixed "\\begin\x7bdocument\x7d",
  .fixed "\\begin\x7btikzpicture\x7d[xscale=\\width, yscale=\\height]",
  .plain .internalNodes,
  .plain .externalNodes,
  .fixed "",
  .plain .edges,
  .fixed "",
  .overlay "showNextHop" .nextHops,
  .fixed "",
  .overlay "showLinkWeights" .linkWeights,
  .fixed "",
  .overlay "showBgpSessions" .bgpSessions,
  .fixed "",
  .overlay "showBgpPropagation" .bgpPropagations,
  .fixed "\\end\x7btikzpicture\x7d",
  .fixed "\\end\x7bdocument\x7d",
  .fixed ""]

namespace Part

def items : Part → List (Text ⊕ Placeholder)
  | .fixed line => [.inl line]
  | .plain p => [.inr p]
  | .overlay switch p => [.inl ("  \\ifdefined\\" ++ switch), .inr p, .inl "  \\fi"]

def IsKnown : Part → Prop
  | .fixed line => IsInert line
  | .plain p => p ∈ [.internalNodes, .externalNodes, .edges]
  | .overlay switch p => (switch, p) ∈ overlays

instance (part : Part) : Decidable part.IsKnown := by
  cases part <;> unfold IsKnown <;> infer_instance

end Part

theorem skeletonTail_eq : skeletonTail = parts.flatMap Part.items := by
  decide +kernel

theorem isKnown_parts : ∀ part ∈ parts, part.IsKnown := by
  decide +kernel

/-! ## Placed lines of a picture -/

def Block.placed (overlay : Text) (b : Block) : List Placed :=
  ⟨[overlay], "    \\ifdefined\\" ++ b.toggle⟩ ::
    (standing [overlay, b.toggle] (NetDiagram.rows b.commands) ++ [⟨[overlay, b.toggle], "  \\fi"⟩])

def placedBlocks (overlay : Text) (blocks : List Block) : List Placed :=
  if blocks = [] then standing [overlay] [""] else blocks.flatMap (Block.placed overlay)

namespace Picture

def placedIn (picture : Picture) (switch : Text) : Placeholder → List Placed
  | .nextHops => placedBlocks switch picture.nextHops
  | .bgpPropagations => placedBlocks switch picture.propagations
  | p => standing [switch] (picture.sectionRows p)

def placedPart (picture : Picture) : Part → List Placed
  | .fixed line => [⟨[], line⟩]
  | .plain p => standing [] (picture.sectionRows p)
  | .overlay switch p =>
    ⟨[], "  \\ifdefined\\" ++ switch⟩ :: (picture.placedIn switch p ++ [⟨[switch], "  \\fi"⟩])

def placed (picture : Picture) : List Placed :=
  standing [] skeletonHead ++ ⟨[], choicesHead ++ choices picture.toggles⟩ :: parts.flatMap picture.placedPart

end Picture

/-! ## Commands that fit their guards -/

def HasBlocks (switch : Text) : Prop :=
  switch = "showNextHop" ∨ switch = "showBgpPropagation"

instance (switch : Text) : Decidable (HasBlocks switch) :=
  inferInstanceAs (Decidable (_ ∨ _))

def Fit (toggles guards : List Text) (commands : List Command) : Prop :=
  ∀ c ∈ commands, c.reading.kind ≠ .guard ∧ c.reading.kind.Belongs toggles guards

namespace Picture

variable {picture : Picture}

theorem IsSingleLine.fit_plain (h : picture.IsSingleLine) {p : Placeholder}
    (hp : p ∈ [.internalNodes, .externalNodes, .edges]) :
    ∃ commands, picture.sectionRows p = rows commands ∧ Fit picture.toggles [] commands := by
  simp only [List.mem_cons, List.not_mem_nil, or_false] at hp
  rcases hp with rfl | rfl | rfl
  · exact ⟨_, rfl, fun c hc => by simp [(h.internalNodes c hc).1, LineKind.Belongs]⟩
  · exact ⟨_, rfl, fun c hc => by simp [(h.externalNodes c hc).1, LineKind.Belongs]⟩
  · exact ⟨_, rfl, fun c hc => by simp [(h.links c hc).1, LineKind.Belongs]⟩

theorem mem_toggles {blocks : List Block} (h : blocks.map (·.toggle) = picture.toggles) {b : Block} (hb : b ∈ blocks) :
    b.toggle ∈ picture.toggles :=
  h ▸ List.mem_map_of_mem hb

theorem IsSingleLine.fit_nextHops (h : picture.IsSingleLine) :
    ∀ b ∈ picture.nextHops, Fit picture.toggles ["showNextHop", b.toggle] b.commands := by
  intro b hb c hc
  simp [(h.nextHops b hb c hc).1, LineKind.Belongs, mem_toggles h.hopToggles hb]

theorem IsSingleLine.fit_propagations (h : picture.IsSingleLine) :
    ∀ b ∈ picture.propagations, Fit picture.toggles ["showBgpPropagation", b.toggle] b.commands := by
  intro b hb c hc
  simp [(h.propagations b hb c hc).1, LineKind.Belongs, mem_toggles h.propagationToggles hb]

/-- A section behind a switch has its commands directly under the switch or in blocks, one for each toggle. -/
theorem IsSingleLine.fit_overlay (h : picture.IsSingleLine) {switch : Text} {p : Placeholder}
    (hp : (switch, p) ∈ overlays) :
    (∃ commands, picture.sectionRows p = rows commands ∧
      picture.placedIn switch p = standing [switch] (rows commands) ∧ ¬ HasBlocks switch ∧
      Fit picture.toggles [switch] commands) ∨
    ∃ blocks, picture.sectionRows p = blockRows blocks ∧ picture.placedIn switch p = placedBlocks switch blocks ∧
      HasBlocks switch ∧ blocks.map (·.toggle) = picture.toggles ∧
      ∀ b ∈ blocks, Fit picture.toggles [switch, b.toggle] b.commands := by
  simp only [overlays, List.mem_cons, Prod.mk.injEq, List.not_mem_nil, or_false] at hp
  rcases hp with ⟨rfl, rfl⟩ | ⟨rfl, rfl⟩ | ⟨rfl, rfl⟩ | ⟨rfl, rfl⟩
  · exact .inr ⟨_, rfl, rfl, .inl rfl, h.hopToggles, h.fit_nextHops⟩
  · exact .inl ⟨_, rfl, rfl, by decide, fun c hc => by simp [(h.weights c hc).1, LineKind.Belongs]⟩
  · refine .inl ⟨_, rfl, rfl, by decide, fun c hc => ?_⟩
    obtain ⟨⟨kind, hkind⟩, -⟩ := h.sessions c hc
    simp [hkind, LineKind.Belongs]
  · exact .inr ⟨_, rfl, rfl, .inr rfl, h.propagationToggles, h.fit_propagations⟩

end Picture

/-! ## The stack -/

section
variable {toggles guards : List Text} {commands : List Command} {blocks : List Block}

theorem Fit.inert_rows (h : Fit toggles guards commands) : ∀ l ∈ rows commands, opened? l = none ∧ ¬ Closes l := by
  unfold rows
  split
  · rw [List.forall_mem_singleton]
    exact ⟨isInert_empty.opened?, isInert_empty.not_closes⟩
  · refine List.forall_mem_map.mpr fun c hc => ?_
    rw [c.text_eq_line]
    exact ⟨opened?_line (h c hc).1, not_closes_line _⟩

theorem Fit.balanced_rows (h : Fit toggles guards commands) :
    Balanced guards (rows commands) (standing guards (rows commands)) :=
  balanced_inert h.inert_rows

theorem balanced_blocks {overlay : Text} (h : ∀ b ∈ blocks, Fit toggles [overlay, b.toggle] b.commands) :
    Balanced [overlay] (blockRows blocks) (placedBlocks overlay blocks) := by
  unfold blockRows placedBlocks
  split
  · refine balanced_inert (List.forall_mem_singleton.mpr ?_)
    exact ⟨isInert_empty.opened?, isInert_empty.not_closes⟩
  · refine .flatMap fun b hb => ?_
    exact (balanced_inert (h b hb).inert_rows).guarded (opened?_guard b.toggle)

end

theorem isInert_choices {toggles : List Text} (h : ∀ t ∈ toggles, '\n'.unit ∉ t.toList) :
    IsInert (choicesHead ++ choices toggles) := by
  have hstart : (content choicesHead).take 3 ∉ commandStarts ∧ 3 ≤ (content choicesHead).length := by decide +kernel
  have hne : content choicesHead ≠ [] := by
    intro hnil
    simp [hnil] at hstart
  have hcontent : content (choicesHead ++ choices toggles) = content choicesHead ++ (choices toggles).toList := by
    rw [content, Text.toList_append, List.dropWhile_append, if_neg (by simpa [content] using hne), content]
  refine ⟨(View.isPlain_choices h).1, ?_⟩
  rw [hcontent, List.take_append_of_le_length hstart.2]
  exact hstart.1

namespace Picture

variable {picture : Picture}

/-- Each part of the skeleton closes what it opens, with its section filled in. -/
theorem IsSingleLine.balanced_part (h : picture.IsSingleLine) {part : Part} (hpart : part ∈ parts) :
    Balanced [] (part.items.flatMap (Sum.elim (fun fixed => [fixed]) picture.sectionRows))
      (picture.placedPart part) := by
  have hknown := isKnown_parts part hpart
  cases part with
  | fixed line =>
    refine balanced_inert (List.forall_mem_singleton.mpr ?_)
    exact ⟨hknown.opened?, hknown.not_closes⟩
  | plain p =>
    obtain ⟨commands, hrows, hfit⟩ := h.fit_plain hknown
    have hbalanced := hfit.balanced_rows
    rw [← hrows] at hbalanced
    simpa [Part.items, placedPart] using hbalanced
  | overlay switch p =>
    have hsection : Balanced [switch] (picture.sectionRows p) (picture.placedIn switch p) := by
      rcases h.fit_overlay hknown with ⟨commands, hrows, hplaced, -, hfit⟩ | ⟨blocks, hrows, hplaced, -, -, hfit⟩
      · rw [hrows, hplaced]
        exact hfit.balanced_rows
      · rw [hrows, hplaced]
        exact balanced_blocks hfit
    exact hsection.guarded (opened?_switch switch)

theorem IsSingleLine.balanced (h : picture.IsSingleLine) : Balanced [] picture.lines picture.placed := by
  have hinert : ∀ {line : Text}, IsInert line → opened? line = none ∧ ¬ Closes line := by
    intro line hline
    exact ⟨hline.opened?, hline.not_closes⟩
  have hhead : Balanced [] skeletonHead (standing [] skeletonHead) :=
    balanced_inert fun line hline => hinert (isInert_head line hline)
  have hchoices : Balanced [] [choicesHead ++ choices picture.toggles] [⟨[], choicesHead ++ choices picture.toggles⟩] :=
    balanced_inert (List.forall_mem_singleton.mpr (hinert (isInert_choices h.toggles)))
  have hparts : ∀ part ∈ parts, Balanced [] _ (picture.placedPart part) := fun _ hpart => h.balanced_part hpart
  have htail := Balanced.flatMap hparts
  rw [← List.flatMap_assoc, ← skeletonTail_eq] at htail
  exact hhead.append (hchoices.append htail)

end Picture

/-! ## Places -/

section
variable {toggles guards : List Text} {commands : List Command} {blocks : List Block}

theorem Fit.isProper_rows (h : Fit toggles guards commands) (hdepth : guards.length ≤ 2) :
    ∀ p ∈ standing guards (rows commands), p.IsProper toggles := by
  refine List.forall_mem_map.mpr ?_
  unfold rows
  split
  · rw [List.forall_mem_singleton]
    exact isProper_inert isInert_empty hdepth
  · refine List.forall_mem_map.mpr fun c hc => ?_
    rw [c.text_eq_line]
    exact isProper_line (h c hc).2 hdepth

theorem isProper_blocks {overlay : Text} (hoverlay : HasBlocks overlay)
    (h : ∀ b ∈ blocks, Fit toggles [overlay, b.toggle] b.commands) :
    ∀ p ∈ placedBlocks overlay blocks, p.IsProper toggles := by
  have hguard : LineKind.Belongs toggles [overlay] .guard := by
    rcases hoverlay with rfl | rfl <;> simp [LineKind.Belongs]
  unfold placedBlocks
  split
  · rw [standing, List.map_singleton, List.forall_mem_singleton]
    exact isProper_inert isInert_empty (by simp)
  · refine List.forall_mem_flatMap.mpr fun b hb => List.forall_mem_cons.mpr ⟨?_, ?_⟩
    · rw [← line_guard]
      exact isProper_line hguard (by simp)
    · refine List.forall_mem_append.mpr ⟨(h b hb).isProper_rows (by simp), ?_⟩
      rw [List.forall_mem_singleton]
      exact isProper_end (by simp)

theorem isProper_switch {switch : Text} {p : Placeholder} (h : (switch, p) ∈ overlays) :
    Placed.IsProper toggles ⟨[], "  \\ifdefined\\" ++ switch⟩ := by
  have hwords : ∀ o ∈ overlays, ∀ k ∈ LineKind.all, Begins k.word ("  \\ifdefined\\" ++ o.1) → k = .guard := by
    decide +kernel
  refine ⟨by simp, fun k hk => ?_⟩
  rw [hwords _ h k k.mem_all hk]
  exact .inl rfl

end

/-- Every line stands where its kind belongs. -/
theorem Picture.IsSingleLine.isProper {picture : Picture} (h : picture.IsSingleLine) :
    ∀ p ∈ picture.placed, p.IsProper picture.toggles := by
  refine List.forall_mem_append.mpr ⟨?_, List.forall_mem_cons.mpr ⟨?_, List.forall_mem_flatMap.mpr ?_⟩⟩
  · exact List.forall_mem_map.mpr fun line hline => isProper_inert (isInert_head line hline) (by simp)
  · exact isProper_inert (isInert_choices h.toggles) (by simp)
  intro part hpart
  have hknown := isKnown_parts part hpart
  cases part with
  | fixed line =>
    rw [Picture.placedPart, List.forall_mem_singleton]
    exact isProper_inert hknown (by simp)
  | plain p =>
    obtain ⟨commands, hrows, hfit⟩ := h.fit_plain hknown
    rw [Picture.placedPart, hrows]
    exact hfit.isProper_rows (by simp)
  | overlay switch p =>
    refine List.forall_mem_cons.mpr ⟨isProper_switch hknown, List.forall_mem_append.mpr ⟨?_, ?_⟩⟩
    · rcases h.fit_overlay hknown with ⟨commands, -, hplaced, -, hfit⟩ | ⟨blocks, -, hplaced, hswitch, -, hfit⟩
      · rw [hplaced]
        exact hfit.isProper_rows (by simp)
      · rw [hplaced]
        exact isProper_blocks hswitch hfit
    · rw [List.forall_mem_singleton]
      exact isProper_end (by simp)

/-! ## Blocks -/

section
variable {guards : List Text}

theorem openedIn_append (ps qs : List Placed) : openedIn guards (ps ++ qs) = openedIn guards ps ++ openedIn guards qs :=
  List.filterMap_append

theorem openedIn_flatMap {α : Type} (xs : List α) (f : α → List Placed) :
    openedIn guards (xs.flatMap f) = xs.flatMap fun x => openedIn guards (f x) :=
  List.filterMap_flatMap

theorem openedIn_standing {lines : List Text} {outer : List Text} (h : ∀ l ∈ lines, opened? l = none) :
    openedIn guards (standing outer lines) = [] := by
  rw [openedIn, List.filterMap_eq_nil_iff]
  refine List.forall_mem_map.mpr fun l hl => ?_
  rw [h l hl, ite_self]

theorem openedIn_cons {outer : List Text} {line : Text} (ps : List Placed) :
    openedIn guards (⟨outer, line⟩ :: ps) =
      ((if outer = guards then opened? line else none).toList ++ openedIn guards ps) := by
  rw [openedIn, List.filterMap_cons]
  split <;> simp_all [openedIn]

theorem openedIn_block {overlay outer : Text} {b : Block} {toggles : List Text}
    (h : Fit toggles [outer, b.toggle] b.commands) :
    openedIn [overlay] (b.placed outer) = if outer = overlay then [b.toggle] else [] := by
  rw [Block.placed, openedIn_cons, openedIn_append, openedIn_standing fun l hl => (h.inert_rows l hl).1,
    openedIn_cons, opened?_end, opened?_guard]
  by_cases houter : outer = overlay <;> simp [houter, openedIn]

theorem openedIn_blocks {overlay outer : Text} {blocks : List Block} {toggles : List Text}
    (h : ∀ b ∈ blocks, Fit toggles [outer, b.toggle] b.commands) :
    openedIn [overlay] (blocks.flatMap (Block.placed outer)) =
      if outer = overlay then blocks.map (·.toggle) else [] := by
  rw [openedIn_flatMap, List.flatMap_congr fun b hb => openedIn_block (h b hb)]
  by_cases houter : outer = overlay
  · simp only [houter, if_true]
    exact List.map_eq_flatMap.symm
  · simp [houter]

end

def Part.switch? : Part → Option Text
  | .overlay switch _ => some switch
  | _ => none

namespace Picture

variable {picture : Picture}

theorem IsSingleLine.openedIn_part (h : picture.IsSingleLine) {overlay : Text} (hoverlay : HasBlocks overlay)
    {part : Part} (hpart : part ∈ parts) :
    openedIn [overlay] (picture.placedPart part) = if part.switch? = some overlay then picture.toggles else [] := by
  have hknown := isKnown_parts part hpart
  cases part with
  | fixed line => simp [placedPart, openedIn, Part.switch?]
  | plain p =>
    obtain ⟨commands, hrows, hfit⟩ := h.fit_plain hknown
    rw [placedPart, hrows, openedIn_standing fun l hl => (hfit.inert_rows l hl).1]
    simp [Part.switch?]
  | overlay switch p =>
    have hsection : openedIn [overlay] (picture.placedIn switch p) =
        if switch = overlay then picture.toggles else [] := by
      rcases h.fit_overlay hknown with ⟨commands, -, hplaced, hswitch, hfit⟩ | ⟨blocks, -, hplaced, -, htoggles, hfit⟩
      · have hne : switch ≠ overlay := fun heq => hswitch (heq ▸ hoverlay)
        rw [hplaced, openedIn_standing fun l hl => (hfit.inert_rows l hl).1, if_neg hne]
      · rw [hplaced, ← htoggles, ← openedIn_blocks hfit]
        unfold placedBlocks
        split
        · rename_i hnil
          rw [hnil, openedIn_standing (List.forall_mem_singleton.mpr isInert_empty.opened?)]
          rfl
        · rfl
    rw [placedPart, openedIn_cons, openedIn_append, hsection, openedIn_cons, opened?_end]
    simp [openedIn, Part.switch?]

theorem openedIn_head {overlay : Text} :
    openedIn [overlay] (standing [] skeletonHead ++ [⟨[], choicesHead ++ choices picture.toggles⟩]) = [] := by
  rw [openedIn_append, openedIn_standing fun line hline => (isInert_head line hline).opened?]
  simp [openedIn]

theorem IsSingleLine.openedIn_placed (h : picture.IsSingleLine) {overlay : Text} (hoverlay : HasBlocks overlay) :
    openedIn [overlay] picture.placed = picture.toggles := by
  rw [placed, List.append_cons, openedIn_append, openedIn_head, openedIn_flatMap,
    List.flatMap_congr fun part hpart => h.openedIn_part hoverlay hpart]
  rcases hoverlay with rfl | rfl <;> simp [parts, Part.switch?]

theorem IsSingleLine.hasBlock (h : picture.IsSingleLine) {overlay : Text} {p : Placeholder} {blocks : List Block}
    (hoverlay : HasBlocks overlay) (hplaced : picture.placedIn overlay p = placedBlocks overlay blocks)
    (hfit : ∀ b ∈ blocks, Fit picture.toggles [overlay, b.toggle] b.commands) {before after : List Part}
    (hparts : parts = before ++ .overlay overlay p :: after)
    (hbefore : ∀ part ∈ before, part.switch? ≠ some overlay) {k : Nat} {b : Block} (hk : blocks[k]? = some b) :
    HasBlock picture.placed overlay k b.toggle (rows b.commands) := by
  obtain ⟨hlt, rfl⟩ := List.getElem?_eq_some_iff.mp hk
  have hblocks : placedBlocks overlay blocks = (blocks.take k).flatMap (Block.placed overlay) ++
      (blocks[k].placed overlay ++ (blocks.drop (k + 1)).flatMap (Block.placed overlay)) := by
    rw [placedBlocks, if_neg (List.ne_nil_of_length_pos (by omega)), ← List.flatMap_cons, ← List.flatMap_append,
      List.cons_getElem_drop_succ, List.take_append_drop]
  refine ⟨standing [] skeletonHead ++ [⟨[], choicesHead ++ choices picture.toggles⟩] ++
    (before.flatMap picture.placedPart ++ ⟨[], "  \\ifdefined\\" ++ overlay⟩ ::
      (blocks.take k).flatMap (Block.placed overlay)), ?_, ?_, ?_⟩
  · exact (blocks.drop (k + 1)).flatMap (Block.placed overlay) ++
      (⟨[overlay], "  \\fi"⟩ :: after.flatMap picture.placedPart)
  · rw [placed, hparts, List.flatMap_append, List.flatMap_cons, placedPart, hplaced, hblocks, Block.placed]
    simp [standing]
  · have hnone : before.flatMap (fun part => openedIn [overlay] (picture.placedPart part)) = [] := by
      refine List.flatMap_eq_nil_iff.mpr fun part hpart => ?_
      rw [h.openedIn_part hoverlay (by rw [hparts]; simp [hpart]), if_neg (hbefore part hpart)]
    have htake : ∀ b ∈ blocks.take k, Fit picture.toggles [overlay, b.toggle] b.commands :=
      fun b hb => hfit b (List.mem_of_mem_take hb)
    rw [openedIn_append, openedIn_head, openedIn_append, openedIn_flatMap, hnone, openedIn_cons,
      openedIn_blocks htake]
    simp
    omega

end Picture

/-! ## Documents -/

theorem Picture.infix_placed {picture : Picture} {part : Part} (hpart : part ∈ parts) :
    picture.placedPart part <:+: picture.placed := by
  have htail : picture.placedPart part <:+: parts.flatMap picture.placedPart :=
    List.infix_of_mem_flatten (List.mem_map_of_mem hpart)
  exact htail.trans ((List.suffix_cons _ _).trans (List.suffix_append _ _)).isInfix

theorem Picture.infix_plain {picture : Picture} {p : Placeholder} (hp : .plain p ∈ parts) :
    standing [] (picture.sectionRows p) <:+: picture.placed :=
  infix_placed hp

theorem Picture.infix_overlay {picture : Picture} {s : Text} {p : Placeholder} (hp : .overlay s p ∈ parts) :
    picture.placedIn s p <:+: picture.placed := by
  have hsection : picture.placedIn s p <:+: picture.placedPart (.overlay s p) :=
    List.infix_cons (List.infix_append [] _ _)
  exact hsection.trans (infix_placed hp)

structure HasBlockOfEach {P : Type} (placed : List Placed) (overlay : Text) (entries : List (PrefixEntry P))
    (lines : P → Drawing (List Command)) : Prop where
  guards : openedIn [overlay] placed = entries.map (·.toggle)
  block : ∀ k entry, entries[k]? = some entry →
    ∃ commands, lines entry.key = .ok commands ∧ HasBlock placed overlay k entry.toggle (rows commands)

/-- Every line stands where it belongs, and the line of choices names the guards of both overlays with blocks. -/
structure Model.Places {P : Type} (model : Model P) (entries : List (PrefixEntry P)) (picture : Picture)
    (placed : List Placed) : Prop where
  proper : ∀ p ∈ placed, p.IsProper (entries.map (·.toggle))
  choices : placed[skeletonHead.length]? = some ⟨[], choicesHead ++ Text.intercalate ", " (entries.map (·.toggle))⟩
  internalNodes : standing [] (rows picture.internalNodes) <:+: placed
  externalNodes : standing [] (rows picture.externalNodes) <:+: placed
  links : standing [] (rows picture.links) <:+: placed
  nextHops : HasBlockOfEach placed "showNextHop" entries model.hopLines
  weights : standing ["showLinkWeights"] (rows picture.weights) <:+: placed
  sessions : standing ["showBgpSessions"] (rows picture.sessions) <:+: placed
  propagations : HasBlockOfEach placed "showBgpPropagation" entries model.propagationLines

section
variable {P : Type} {model : Model P}

theorem Model.Draws.places {entries : List (PrefixEntry P)} {picture : Picture} (hdraws : model.Draws entries picture)
    (h : picture.IsSingleLine) : model.Places entries picture picture.placed := by
  have hhop : parts = parts.take 8 ++ .overlay "showNextHop" .nextHops :: parts.drop 9 := rfl
  have hpropagation : parts = parts.take 14 ++ .overlay "showBgpPropagation" .bgpPropagations :: parts.drop 15 := rfl
  refine ⟨?_, ?_, ?_, ?_, ?_, ⟨?_, ?_⟩, ?_, ?_, ⟨?_, ?_⟩⟩
  · exact hdraws.toggles ▸ h.isProper
  · rw [Picture.placed, List.getElem?_append_right (by simp [standing]), hdraws.toggles]
    simp [standing, NetDiagram.choices]
  · exact Picture.infix_plain (p := .internalNodes) (by simp [parts])
  · exact Picture.infix_plain (p := .externalNodes) (by simp [parts])
  · exact Picture.infix_plain (p := .edges) (by simp [parts])
  · exact hdraws.toggles ▸ h.openedIn_placed (.inl rfl)
  · intro k entry hk
    obtain ⟨commands, hblock, hcommands⟩ := Model.block_of_entry hdraws.nextHops hk
    exact ⟨commands, hcommands, h.hasBlock (.inl rfl) rfl h.fit_nextHops hhop (by decide) hblock⟩
  · exact Picture.infix_overlay (s := "showLinkWeights") (p := .linkWeights) (by simp [parts])
  · exact Picture.infix_overlay (s := "showBgpSessions") (p := .bgpSessions) (by simp [parts])
  · exact hdraws.toggles ▸ h.openedIn_placed (.inr rfl)
  · intro k entry hk
    obtain ⟨commands, hblock, hcommands⟩ := Model.block_of_entry hdraws.propagations hk
    exact ⟨commands, hcommands, h.hasBlock (.inr rfl) rfl h.fit_propagations hpropagation (by decide) hblock⟩

/-- Reading a document line by line closes every guard that was opened and no other. -/
theorem document_guards (h : model.IsSingleLine) {request : OptionRequest} {warnings : List Warning} {document : Text}
    (hdocument : (model.exportDocument request warnings).result = .ok document) :
    ∃ entries picture placed, model.prefixEntries = .ok entries ∧ model.picture entries = .ok picture ∧
      scan? [] (textLines document) = some (placed, []) ∧ model.Places entries picture placed := by
  obtain ⟨entries, picture, hentries, hpicture, hsingle, hlines⟩ := Model.lines_of_exportDocument h hdocument
  refine ⟨entries, picture, picture.placed, hentries, hpicture, ?_, ?_⟩
  · rw [hlines]
    exact hsingle.balanced
  · exact (Model.draws_of_picture hpicture).places hsingle

end

def repeatedModel : Model Nat where
  internalRouters := .ok [.zero false, .one]
  externalRouters := .ok []
  routerName router := .ok (if router = .one then some "\\fi" else none)
  routerPosition _ := .ok none
  edges := .ok [⟨.zero false, .one, .half⟩, ⟨.one, .zero false, .half⟩]
  knownPrefixes := .ok [0, 1, 0]
  prefixString key := .ok (if key = 0 then "10.0/8" else "10/0.8")
  nextHops key router := if router = .one then .ok [] else .ok (if key = 0 then [.one, .zero false] else [])
  sessions := .ok [⟨.zero false, .one, "ibgp-client"⟩]
  propagations key := .ok (if key = 0 then [] else [⟨.one, .zero false, none⟩])

def repeatedEntries : List (PrefixEntry Nat) :=
  [.ofText 0 "10.0/8", .ofText 1 "10/0.8", .ofText 0 "10.0/8"]

theorem document_guards_repeated :
    repeatedModel.IsSingleLine ∧ ∃ document, (repeatedModel.exportDocument .empty []).result = .ok document ∧
      ∃ entries picture placed, repeatedModel.prefixEntries = .ok entries ∧
        repeatedModel.picture entries = .ok picture ∧
        scan? [] (textLines document) = some (placed, []) ∧ repeatedModel.Places entries picture placed := by
  have hsingle : repeatedModel.IsSingleLine := by
    refine ⟨?_, ?_, ?_⟩
    · intro routers hrouters router _ name hname
      cases hrouters
      simp only [repeatedModel] at hname
      split at hname <;> cases hname
      decide
    · intro routers hrouters router hrouter
      cases hrouters
      cases hrouter
    · intro keys hkeys key _ text htext
      cases hkeys
      cases htext
      split <;> decide
  have hentries : repeatedModel.prefixEntries = .ok repeatedEntries := rfl
  have hok : (repeatedModel.picture repeatedEntries).isOk := by decide +kernel
  obtain ⟨picture, hpicture⟩ : ∃ picture, repeatedModel.picture repeatedEntries = .ok picture := by
    cases h : repeatedModel.picture repeatedEntries with
    | error e => simp [h, Except.isOk, Except.toBool] at hok
    | ok picture => exact ⟨picture, rfl⟩
  have hpolicy : OptionRequest.empty.resolve.prefixCollisions = .warn := rfl
  have hdocument := Model.exportDocument_of_picture [] hentries hpolicy hpicture
  exact ⟨hsingle, _, hdocument, document_guards hsingle hdocument⟩

end NetDiagram
