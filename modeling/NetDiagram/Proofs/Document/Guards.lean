import NetDiagram.Proofs.Document.Lines

/-!
# Guards of a document

A document is read line by line with a stack of the guards that are open. A
line that begins with `\ifdefined\` opens the guard named behind it, and `\fi`
closes the guard opened last. In a document every guard is closed, and each
drawing command stands under the switch of its overlay and, where it belongs to
a prefix, under the toggle of that prefix and nothing else.
-/

namespace NetDiagram

/-! ## Reading with a stack -/

def opened? (line : Text) : Option Text :=
  if Begins "\\ifdefined\\" line then some (.ofList ((content line).drop 11)) else none

def Closes (line : Text) : Prop :=
  content line = ("\\fi" : Text).toList

instance (line : Text) : Decidable (Closes line) :=
  inferInstanceAs (Decidable (_ = _))

/-- The open guards behind a line, the outermost first. No line closes a guard where none is open. -/
def guardsBehind? (guards : List Text) (line : Text) : Option (List Text) :=
  match opened? line with
  | some name => some (guards ++ [name])
  | none =>
    if Closes line then (if guards = [] then none else some guards.dropLast) else some guards

structure Placed where
  guards : List Text
  line : Text

/-- The lines with their guards, and the guards open at the end. -/
def scan? (guards : List Text) : List Text → Option (List Placed × List Text)
  | [] => some ([], guards)
  | line :: lines => do
    let behind ← guardsBehind? guards line
    let (placed, final) ← scan? behind lines
    return (⟨guards, line⟩ :: placed, final)

/-- The guards that are opened where exactly the given ones are open. -/
def openedIn (guards : List Text) (placed : List Placed) : List Text :=
  placed.filterMap fun p => if p.guards = guards then opened? p.line else none

/-! ## Where commands belong -/

namespace LineKind

def word : LineKind → Text
  | .node _ => "\\node"
  | .link => "\\draw[link]"
  | .nextHop => "\\draw[next hop]"
  | .weight => "\\draw ($("
  | .session kind => "\\draw[" ++ kind.style ++ "]"
  | .propagation => "\\draw[bgp propagation]"
  | .guard => "\\ifdefined\\"

def Belongs (toggles guards : List Text) : LineKind → Prop
  | .node _ | .link => guards = []
  | .nextHop => ∃ toggle ∈ toggles, guards = [("showNextHop" : Text), toggle]
  | .weight => guards = ["showLinkWeights"]
  | .session _ => guards = ["showBgpSessions"]
  | .propagation => ∃ toggle ∈ toggles, guards = [("showBgpPropagation" : Text), toggle]
  | .guard => guards = [] ∨ guards = ["showNextHop"] ∨ guards = ["showBgpPropagation"]

end LineKind

/-- Of the guards opened inside an overlay, the one with number `k` has the toggle and the lines given. -/
def HasBlock (placed : List Placed) (overlay : Text) (k : Nat) (toggle : Text) (lines : List Text) : Prop :=
  ∃ before after,
    placed = before ++ (⟨[overlay], "    \\ifdefined\\" ++ toggle⟩ :: (lines.map (Placed.mk [overlay, toggle]) ++
      ⟨[overlay, toggle], "  \\fi"⟩ :: after)) ∧
    (openedIn [overlay] before).length = k

/-! ## Balanced lines -/

def Balanced (guards lines : List Text) (placed : List Placed) : Prop :=
  scan? guards lines = some (placed, guards)

def standing (guards lines : List Text) : List Placed :=
  lines.map (Placed.mk guards)

theorem scan?_append {guards behind : List Text} {ls ms : List Text} {placed : List Placed}
    (h : scan? guards ls = some (placed, behind)) :
    scan? guards (ls ++ ms) = (scan? behind ms).map fun r => (placed ++ r.1, r.2) := by
  induction ls generalizing guards placed with
  | nil =>
    cases h
    simp
  | cons line ls ih =>
    rw [scan?] at h
    obtain ⟨next, hnext, h⟩ := Option.bind_eq_some_iff.mp h
    obtain ⟨⟨rest, final⟩, hrest, h⟩ := Option.bind_eq_some_iff.mp h
    cases h
    rw [List.cons_append, scan?, hnext, Option.bind_eq_bind, Option.bind_some, ih hrest]
    cases scan? behind ms <;> rfl

section
variable {guards ls ms : List Text} {ps qs : List Placed}

theorem balanced_nil : Balanced guards [] [] :=
  rfl

theorem Balanced.append (h : Balanced guards ls ps) (h' : Balanced guards ms qs) :
    Balanced guards (ls ++ ms) (ps ++ qs) := by
  rw [Balanced, scan?_append h, h']
  rfl

theorem Balanced.flatMap {α : Type} {xs : List α} {f : α → List Text} {g : α → List Placed}
    (h : ∀ x ∈ xs, Balanced guards (f x) (g x)) : Balanced guards (xs.flatMap f) (xs.flatMap g) := by
  induction xs with
  | nil => exact balanced_nil
  | cons x xs ih =>
    rw [List.flatMap_cons, List.flatMap_cons]
    exact (h x (by simp)).append (ih fun x hx => h x (by simp [hx]))

theorem guardsBehind?_inert {line : Text} (hopen : opened? line = none) (hclose : ¬ Closes line) :
    guardsBehind? guards line = some guards := by
  rw [guardsBehind?, hopen]
  exact if_neg hclose

/-- Lines that neither open nor close a guard all stand under the same ones. -/
theorem balanced_inert (h : ∀ l ∈ ls, opened? l = none ∧ ¬ Closes l) : Balanced guards ls (standing guards ls) := by
  induction ls with
  | nil => exact balanced_nil
  | cons l ls ih =>
    have hl := h l (by simp)
    have htail := ih fun l hl => h l (by simp [hl])
    rw [Balanced, scan?, guardsBehind?_inert hl.1 hl.2, Option.bind_eq_bind, Option.bind_some, htail]
    rfl

theorem opened?_end : opened? "  \\fi" = none := by
  decide +kernel

/-- A guard around balanced lines. -/
theorem Balanced.guarded {opening name : Text} (hopening : opened? opening = some name)
    (h : Balanced (guards ++ [name]) ls ps) :
    Balanced guards (opening :: (ls ++ [("  \\fi" : Text)]))
      (⟨guards, opening⟩ :: (ps ++ [⟨guards ++ [name], "  \\fi"⟩])) := by
  have hclose : Closes "  \\fi" := by decide +kernel
  have hbehind : guardsBehind? guards opening = some (guards ++ [name]) := by rw [guardsBehind?, hopening]
  have hend : guardsBehind? (guards ++ [name]) "  \\fi" = some guards := by
    rw [guardsBehind?, opened?_end]
    simp [hclose]
  have hlast : scan? (guards ++ [name]) ["  \\fi"] = some ([⟨guards ++ [name], "  \\fi"⟩], guards) := by
    rw [scan?, hend]
    rfl
  rw [Balanced, scan?, hbehind, Option.bind_eq_bind, Option.bind_some, scan?_append h, hlast]
  rfl

end

/-! ## Lines of the picture -/

theorem content_line (r : Reading) : ∃ rest, content r.line = content r.kind.head ++ rest := by
  have hheads : ∀ k ∈ LineKind.all, content k.head ≠ [] := by decide +kernel
  have hhead := hheads _ r.kind.mem_all
  refine ⟨(spell r.numbers r.kind.words).toList ++ (r.text.toList ++ r.kind.ending.toList), ?_⟩
  rw [content, Reading.toList_line, List.dropWhile_append, if_neg (by simpa [content] using hhead)]
  rfl

theorem prefix_or_prefix_of_content {cs : List CodeUnit} {r : Reading} (h : cs <+: content r.line) :
    cs <+: content r.kind.head ∨ content r.kind.head <+: cs := by
  obtain ⟨rest, hrest⟩ := content_line r
  rw [hrest] at h
  exact List.prefix_or_prefix_of_prefix h (List.prefix_append _ _)

theorem word_of_begins {k : LineKind} {r : Reading} (h : Begins k.word r.line) : k.word = r.kind.word := by
  have hwords : ∀ k ∈ LineKind.all, ∀ k' ∈ LineKind.all,
      k.word.toList <+: content k'.head ∨ content k'.head <+: k.word.toList → k.word = k'.word := by decide +kernel
  exact hwords k k.mem_all _ r.kind.mem_all (prefix_or_prefix_of_content h)

theorem not_closes_line (r : Reading) : ¬ Closes r.line := by
  have hheads : ∀ k ∈ LineKind.all, ¬ ("\\fi" : Text).toList <+: content k.head ∧
      ¬ content k.head <+: ("\\fi" : Text).toList := by decide +kernel
  have hhead := hheads _ r.kind.mem_all
  intro h
  have hpre : ("\\fi" : Text).toList <+: content r.line := by rw [h]
  rcases prefix_or_prefix_of_content hpre with hpre | hpre
  · exact hhead.1 hpre
  · exact hhead.2 hpre

theorem opened?_line {r : Reading} (h : r.kind ≠ .guard) : opened? r.line = none := by
  have hwords : ∀ k ∈ LineKind.all, k.word = LineKind.guard.word → k = .guard := by decide +kernel
  rw [opened?, if_neg]
  intro hbegins
  exact h (hwords _ r.kind.mem_all (word_of_begins (k := .guard) hbegins).symm)

theorem opened?_append {opening : Text} (h : content opening = ("\\ifdefined\\" : Text).toList) (name : Text) :
    opened? (opening ++ name) = some name := by
  have hcontent : content (opening ++ name) = ("\\ifdefined\\" : Text).toList ++ name.toList := by
    have hne : content opening ≠ [] := by
      rw [h]
      decide
    rw [content, Text.toList_append, List.dropWhile_append, if_neg (by simpa [content] using hne), ← h, content]
  have hbegins : Begins "\\ifdefined\\" (opening ++ name) := by
    rw [Begins, hcontent]
    exact List.prefix_append _ _
  have hdrop : (("\\ifdefined\\" : Text).toList ++ name.toList).drop 11 = name.toList := rfl
  rw [opened?, if_pos hbegins, hcontent, hdrop, Text.ofList_toList]

theorem opened?_guard (toggle : Text) : opened? ("    \\ifdefined\\" ++ toggle) = some toggle :=
  opened?_append (by decide +kernel) toggle

theorem opened?_switch (switch : Text) : opened? ("  \\ifdefined\\" ++ switch) = some switch :=
  opened?_append (by decide +kernel) switch

/-! ## Lines at their places -/

theorem belongs_of_word {k k' : LineKind} (h : k.word = k'.word) {toggles guards : List Text}
    (hk : k'.Belongs toggles guards) : k.Belongs toggles guards := by
  have hwords : ∀ k ∈ LineKind.all, ∀ k' ∈ LineKind.all, k.word = k'.word →
      k = k' ∨
        ∃ s ∈ [NodeStyle.router, .external], ∃ s' ∈ [NodeStyle.router, .external], k = .node s ∧ k' = .node s' := by
    decide +kernel
  rcases hwords k k.mem_all k' k'.mem_all h with rfl | ⟨s, -, s', -, rfl, rfl⟩
  · exact hk
  · exact hk

/-- A line stands no deeper than two guards, and where the lines of its kind belong. -/
structure Placed.IsProper (toggles : List Text) (p : Placed) : Prop where
  depth : p.guards.length ≤ 2
  belongs : ∀ k : LineKind, Begins k.word p.line → k.Belongs toggles p.guards

section
variable {toggles guards : List Text}

theorem IsInert.not_begins {line : Text} (h : IsInert line) (k : LineKind) : ¬ Begins k.word line := by
  have hstarts : ∀ k ∈ LineKind.all, 3 ≤ k.word.toList.length ∧ k.word.toList.take 3 ∈ commandStarts := by
    decide +kernel
  obtain ⟨hlength, hstart⟩ := hstarts k k.mem_all
  exact h.not_prefix hlength hstart

theorem IsInert.opened? {line : Text} (h : IsInert line) : opened? line = none :=
  if_neg (h.not_begins .guard)

theorem IsInert.not_closes {line : Text} (h : IsInert line) : ¬ Closes line := by
  intro hcloses
  have hend : 3 ≤ ("\\fi" : Text).toList.length ∧ ("\\fi" : Text).toList.take 3 ∈ commandStarts := by decide
  apply h.not_prefix hend.1 hend.2
  rw [hcloses]

theorem isProper_inert {line : Text} (h : IsInert line) (hdepth : guards.length ≤ 2) :
    Placed.IsProper toggles ⟨guards, line⟩ :=
  ⟨hdepth, fun k hk => absurd hk (h.not_begins k)⟩

theorem isProper_end (hdepth : guards.length ≤ 2) : Placed.IsProper toggles ⟨guards, "  \\fi"⟩ := by
  have hwords : ∀ k ∈ LineKind.all, ¬ Begins k.word "  \\fi" := by decide +kernel
  exact ⟨hdepth, fun k hk => absurd hk (hwords k k.mem_all)⟩

theorem isProper_line {r : Reading} (h : r.kind.Belongs toggles guards) (hdepth : guards.length ≤ 2) :
    Placed.IsProper toggles ⟨guards, r.line⟩ :=
  ⟨hdepth, fun _ hk => belongs_of_word (word_of_begins hk) h⟩

end

end NetDiagram
