import NetDiagram.Picture.Command
import NetDiagram.Proofs.Json.Lexing
import NetDiagram.Proofs.Numeric.ReadBack

/-!
# What a line tells

All lines of the picture are built alike: a head that tells the kind of the
line, numbers with fixed words behind each of them, a free text and an ending.
No head is the front of another one, and no number goes on into the words behind
it, so the line tells its kind, its numbers and its text.
-/

namespace NetDiagram

open Json (IsBare)

/-! ## Numbers on lines -/

structure PlainNumber where
  number : Binary64
  plain : number.unsignedZero = number
  deriving DecidableEq

namespace Binary64

theorem unsignedZero_unsignedZero (x : Binary64) : x.unsignedZero.unsignedZero = x.unsignedZero := by
  cases x with
  | nan => rfl
  | infinity negative => rfl
  | finite negative sig exp fits =>
    by_cases h : sig = 0
    · simp [unsignedZero, h, zero]
    · simp [unsignedZero, h]

def toPlain (x : Binary64) : PlainNumber :=
  ⟨x.unsignedZero, unsignedZero_unsignedZero x⟩

theorem toPlain_eq_iff {x y : Binary64} : x.toPlain = y.toPlain ↔ x.Same y := by
  simp [toPlain, Same]

theorem chars_unsignedZero (x : Binary64) : x.unsignedZero.chars = x.chars := by
  cases x with
  | nan => rfl
  | infinity negative => rfl
  | finite negative sig exp fits =>
    by_cases h : sig = 0
    · simp [unsignedZero, h, zero, chars]
    · simp [unsignedZero, h]

theorem bare_chars (x : Binary64) : ∀ c ∈ x.chars, IsBare c.unit := by
  cases x with
  | nan => simp [chars, IsBare]
  | infinity negative => cases negative <;> simp [chars, IsBare]
  | finite negative sig exp fits =>
    obtain ⟨n, hn, -⟩ := number_chars fits
    exact hn.bare

end Binary64

theorem text_toPlain (x : Binary64) : x.toPlain.number.text = x.text :=
  congrArg Text.ofChars x.chars_unsignedZero

namespace PlainNumber

def units (x : PlainNumber) : List CodeUnit :=
  Text.encode x.number.chars

theorem bare_units (x : PlainNumber) : ∀ u ∈ x.units, IsBare u :=
  Grammar.bare_encode x.number.bare_chars

theorem eq_of_units {x y : PlainNumber} (h : x.units = y.units) : x = y := by
  have hnumber := Binary64.unsignedZero_of_chars (Text.encode_inj.mp h)
  rw [x.plain, y.plain] at hnumber
  cases x
  cases y
  cases hnumber
  rfl

end PlainNumber

/-! ## Kinds of lines -/

inductive LineKind
  | node (style : NodeStyle)
  | link
  | nextHop
  | weight
  | session (kind : SessionKind)
  | propagation
  | guard
  deriving DecidableEq

namespace LineKind

def head : LineKind → Text
  | .node style => "  \\node[" ++ style.name ++ "] at ("
  | .link => "  \\draw[link] (" ++ "r"
  | .nextHop => "      \\draw[next hop] (" ++ "r"
  | .weight => "    \\draw ($(" ++ "r"
  | .session kind => "    \\draw[" ++ kind.style ++ "] " ++ "(" ++ "r"
  | .propagation => "      \\draw[bgp propagation] " ++ "(" ++ "r"
  | .guard => "    \\ifdefined\\"

def words : LineKind → List Text
  | .node _ => [", ", ") (" ++ "r", ") \x7b\x7d; % "]
  | .link | .nextHop => [") -- (" ++ "r", ");"]
  | .weight => [")!\\linkweightdist!(" ++ "r", ")$) node[link weight] \x7b "]
  | .session _ | .propagation => [") to[bend left=20] (" ++ "r", ");"]
  | .guard => []

def ending : LineKind → Text
  | .weight => " \x7d;"
  | _ => ""

def all : List LineKind :=
  [.node .router, .node .external, .link, .nextHop, .weight, .session .ebgp, .session .ibgpPeer, .session .ibgpClient,
    .propagation, .guard]

theorem mem_all (k : LineKind) : k ∈ all := by
  cases k with
  | node style => cases style <;> decide
  | session kind => cases kind <;> decide
  | _ => decide

theorem eq_of_head_prefix {k k' : LineKind} (h : k.head.toList <+: k'.head.toList) : k = k' := by
  have hall : ∀ k ∈ all, ∀ k' ∈ all, k.head.toList <+: k'.head.toList → k = k' := by decide +kernel
  exact hall k k.mem_all k' k'.mem_all h

theorem words_separate {k : LineKind} {w : Text} (h : w ∈ k.words) :
    (∃ c cs, w.toList = c :: cs ∧ ¬ IsBare c) ∧ '\n'.unit ∉ w.toList := by
  have hall : ∀ k ∈ all, ∀ w ∈ k.words,
      (w.toList.head? = some ','.unit ∨ w.toList.head? = some ')'.unit) ∧ '\n'.unit ∉ w.toList := by decide +kernel
  obtain ⟨hhead, hnewline⟩ := hall k k.mem_all w h
  refine ⟨?_, hnewline⟩
  rcases hhead with hhead | hhead
  · obtain ⟨cs, hcs⟩ := List.head?_eq_some_iff.mp hhead
    exact ⟨','.unit, cs, hcs, by decide⟩
  · obtain ⟨cs, hcs⟩ := List.head?_eq_some_iff.mp hhead
    exact ⟨')'.unit, cs, hcs, by decide⟩

theorem newline_notMem (k : LineKind) : '\n'.unit ∉ k.head.toList ∧ '\n'.unit ∉ k.ending.toList := by
  have hall : ∀ k ∈ all, '\n'.unit ∉ k.head.toList ∧ '\n'.unit ∉ k.ending.toList := by decide +kernel
  exact hall k k.mem_all

end LineKind

/-! ## Readings -/

structure Reading where
  kind : LineKind
  numbers : List PlainNumber
  text : Text
  fits : numbers.length = kind.words.length

def spell : List PlainNumber → List Text → Text
  | x :: xs, w :: ws => x.number.text ++ (w ++ spell xs ws)
  | _, _ => ""

theorem toList_spell_cons (x : PlainNumber) (xs : List PlainNumber) (w : Text) (ws : List Text) :
    (spell (x :: xs) (w :: ws)).toList = x.units ++ (w.toList ++ (spell xs ws).toList) := by
  rw [spell, Text.toList_append, Text.toList_append]
  rfl

/-- Units of one sort end where one of another sort stands. -/
theorem append_inj_of_head {P : CodeUnit → Prop} {as bs cs ds : List CodeUnit} (ha : ∀ a ∈ as, P a) (hb : ∀ b ∈ bs, P b)
    (hc : ∀ c ∈ cs.head?, ¬ P c) (hd : ∀ d ∈ ds.head?, ¬ P d) (h : as ++ cs = bs ++ ds) : as = bs ∧ cs = ds := by
  induction as generalizing bs with
  | nil =>
    cases bs with
    | nil => exact ⟨rfl, h⟩
    | cons b bs =>
      rw [List.nil_append] at h
      subst h
      exact absurd (hb b List.mem_cons_self) (hc b rfl)
  | cons a as ih =>
    cases bs with
    | nil =>
      rw [List.nil_append] at h
      subst h
      exact absurd (ha a List.mem_cons_self) (hd a rfl)
    | cons b bs =>
      rw [List.forall_mem_cons] at ha hb
      obtain ⟨rfl, htail⟩ := List.cons.inj h
      obtain ⟨rfl, hrest⟩ := ih ha.2 hb.2 htail
      exact ⟨rfl, hrest⟩

theorem append_cons_inj {P : CodeUnit → Prop} {as bs cs ds : List CodeUnit} {c d : CodeUnit} (ha : ∀ a ∈ as, P a)
    (hb : ∀ b ∈ bs, P b) (hc : ¬ P c) (hd : ¬ P d) (h : as ++ c :: cs = bs ++ d :: ds) :
    as = bs ∧ c :: cs = d :: ds :=
  append_inj_of_head ha hb (by simpa using hc) (by simpa using hd) h

theorem spell_inj {ws : List Text} (hws : ∀ w ∈ ws, ∃ c cs, w.toList = c :: cs ∧ ¬ IsBare c)
    {xs ys : List PlainNumber} {as bs : List CodeUnit} (hxs : xs.length = ws.length) (hys : ys.length = ws.length)
    (h : (spell xs ws).toList ++ as = (spell ys ws).toList ++ bs) : xs = ys ∧ as = bs := by
  induction ws generalizing xs ys with
  | nil =>
    obtain rfl := List.length_eq_zero_iff.mp hxs
    obtain rfl := List.length_eq_zero_iff.mp hys
    exact ⟨rfl, h⟩
  | cons w ws ih =>
    obtain ⟨x, xs, rfl⟩ := List.exists_cons_of_length_eq_add_one hxs
    obtain ⟨y, ys, rfl⟩ := List.exists_cons_of_length_eq_add_one hys
    obtain ⟨c, cs, hw, hc⟩ := hws w (by simp)
    simp only [toList_spell_cons, hw, List.append_assoc, List.cons_append] at h
    obtain ⟨hnumber, hrest⟩ := append_cons_inj x.bare_units y.bare_units hc hc h
    rw [List.cons.injEq, List.append_cancel_left_eq] at hrest
    obtain ⟨rfl, htail⟩ := ih (fun w hw => hws w (by simp [hw])) (by simpa using hxs) (by simpa using hys) hrest.2
    exact ⟨by rw [PlainNumber.eq_of_units hnumber], htail⟩

theorem newline_notMem_spell {xs : List PlainNumber} {ws : List Text} (hws : ∀ w ∈ ws, '\n'.unit ∉ w.toList) :
    '\n'.unit ∉ (spell xs ws).toList := by
  induction ws generalizing xs with
  | nil => cases xs <;> simp [spell]
  | cons w ws ih =>
    cases xs with
    | nil => simp [spell]
    | cons x xs =>
      have hnumber : '\n'.unit ∉ x.units := by
        intro hmem
        exact absurd (x.bare_units _ hmem) (by decide)
      simp only [toList_spell_cons, List.mem_append, not_or]
      exact ⟨hnumber, hws w (by simp), ih fun w hw => hws w (by simp [hw])⟩

namespace Reading

def line (r : Reading) : Text :=
  r.kind.head ++ (spell r.numbers r.kind.words ++ (r.text ++ r.kind.ending))

theorem toList_line (r : Reading) :
    r.line.toList =
      r.kind.head.toList ++ ((spell r.numbers r.kind.words).toList ++ (r.text.toList ++ r.kind.ending.toList)) := by
  rw [line, Text.toList_append, Text.toList_append, Text.toList_append]

theorem head_prefix (r : Reading) : r.kind.head.toList <+: r.line.toList := by
  rw [toList_line]
  exact List.prefix_append _ _

/-- A line has one reading. -/
theorem eq_of_line {r s : Reading} (h : r.line = s.line) : r = s := by
  have hchars : r.line.toList = s.line.toList := by rw [h]
  rw [toList_line, toList_line] at hchars
  have hkind : r.kind = s.kind := by
    have hr := r.head_prefix
    rw [h] at hr
    rcases List.prefix_or_prefix_of_prefix hr s.head_prefix with hpre | hpre
    · exact LineKind.eq_of_head_prefix hpre
    · exact (LineKind.eq_of_head_prefix hpre).symm
  obtain ⟨kind, xs, text, hxs⟩ := r
  obtain ⟨kind', ys, text', hys⟩ := s
  obtain rfl : kind = kind' := hkind
  have hbody := List.append_cancel_left hchars
  obtain ⟨hnumbers, htext⟩ := spell_inj (fun w hw => (LineKind.words_separate hw).1) hxs hys hbody
  have htexts : text = text' := Text.toList_inj.mp (List.append_cancel_right htext)
  simp [hnumbers, htexts]

theorem newline_notMem_line {r : Reading} (h : '\n'.unit ∉ r.text.toList) : '\n'.unit ∉ r.line.toList := by
  rw [toList_line]
  simp only [List.mem_append, not_or]
  have hfixed := r.kind.newline_notMem
  exact ⟨hfixed.1, newline_notMem_spell fun w hw => (LineKind.words_separate hw).2, h, hfixed.2⟩

end Reading

end NetDiagram
