import NetDiagram.Proofs.Document.Nodes
import NetDiagram.Proofs.Numeric.Forms

/-!
# Printed coordinates

The line of a node holds the texts of its two coordinates. Each is a shortest
numeral of its number, so it tells the number and is read as this number again.
-/

namespace NetDiagram

open Grammar

/-! ## Texts on the line -/

/-- What stands between the first parentheses of a line, in front of the comma and behind the blank. -/
def coordinateTexts (line : Text) : Text × Text :=
  let position := ((line.toList.dropWhile (· ≠ '('.unit)).drop 1).takeWhile (· ≠ ')'.unit)
  (.ofList (position.takeWhile (· ≠ ','.unit)), .ofList ((position.dropWhile (· ≠ ','.unit)).drop 2))

theorem coordinateTexts_eq {front x y : Text} (rest : Text) (hfront : '('.unit ∉ front.toList)
    (hcomma : ','.unit ∉ x.toList) (hx : ')'.unit ∉ x.toList) (hy : ')'.unit ∉ y.toList) :
    coordinateTexts (front ++ ("(" ++ ((x ++ (", " ++ y)) ++ (")" ++ rest)))) = (x, y) := by
  have hposition : (x ++ (", " ++ y)).toList = x.toList ++ ','.unit :: ' '.unit :: y.toList := rfl
  have hunits : (front ++ ("(" ++ ((x ++ (", " ++ y)) ++ (")" ++ rest)))).toList =
      front.toList ++ '('.unit :: ((x ++ (", " ++ y)).toList ++ ')'.unit :: rest.toList) := rfl
  have hclose : ')'.unit ∉ (x ++ (", " ++ y)).toList := notMem_append hx (notMem_append (by decide) hy)
  rw [coordinateTexts, hunits, dropWhile_notMem hfront, List.drop_succ_cons, List.drop_zero, takeWhile_notMem hclose,
    hposition, takeWhile_notMem hcomma, dropWhile_notMem hcomma, Text.ofList_toList]
  exact congrArg (Prod.mk x) (Text.ofList_toList y)

theorem coordinateTexts_node (style : NodeStyle) (router : RouterId) (position : Position) (name : Text) :
    coordinateTexts (Command.node style router position name).text = (position.x.text, position.y.text) := by
  have hopen : ("] at (" : Text) = "] at " ++ "(" := by decide
  have hclose : (") (" : Text) = ")" ++ " (" := by decide
  have htext : (Command.node style router position name).text =
      ("  \\node[" ++ style.name ++ "] at ") ++ ("(" ++ ((position.x.text ++ (", " ++ position.y.text)) ++
        (")" ++ (" (" ++ (nodeName router ++ (") \x7b\x7d; % " ++ name)))))) := by
    show "  \\node[" ++ style.name ++ "] at (" ++ position.x.text ++ ", " ++ position.y.text ++ ") (" ++
      nodeName router ++ ") \x7b\x7d; % " ++ name = _
    rw [hopen, hclose]
    simp only [Text.append_assoc]
  have hfront : '('.unit ∉ ("  \\node[" ++ style.name ++ "] at ").toList := by cases style <;> decide +kernel
  have hcomma : ','.unit ∉ position.x.text.toList := notMem_of_bare (bare_text _) (by decide)
  rw [htext]
  exact coordinateTexts_eq _ hfront hcomma (close_notMem_text _) (close_notMem_text _)

/-! ## Texts of finite numbers -/

/-- A numeral of the number with the fewest digits, in the form for its size, that is the text of no other number and
that is read as the number again. -/
structure IsShortestText (x : Binary64) (text : Text) : Prop where
  numeral : ∃ cs n, text = .ofChars cs ∧ Number cs n ∧ x.unsignedZero.IsNearest n.negative (Grammar.magnitude n) ∧
    ∀ m : Numeral, m.HasDigits → x.unsignedZero.IsNearest m.negative (Grammar.magnitude m) →
      n.significantDigits ≤ m.significantDigits
  positional : x.IsModerate → ∃ cs, text = .ofChars cs ∧ IsPositional cs
  scientific : ¬ x.IsModerate → ∃ cs, text = .ofChars cs ∧ IsScientific cs
  own : ∀ y : Binary64, y.text = text → y.Same x
  read : Json.parse? text = some (.number x.unsignedZero)

theorem isShortestText_text {x : Binary64} (hx : x.isFinite) : IsShortestText x x.text := by
  obtain ⟨n, hn, hread⟩ := Binary64.number_of_finite hx
  have hnearest := isNearest_iff.mpr hread
  constructor
  case numeral => exact ⟨x.chars, n, rfl, hn, hnearest, fun m => Binary64.significantDigits_le hx hn⟩
  case positional => exact fun hmoderate => ⟨x.chars, rfl, Binary64.isPositional_chars hx hmoderate⟩
  case scientific => exact fun hmoderate => ⟨x.chars, rfl, Binary64.isScientific_chars hx hmoderate⟩
  case own =>
    intro y hy
    exact Binary64.unsignedZero_of_chars (Text.encode_inj.mp (Text.ofList_inj.mp hy))
  case read =>
    have hdocument := Document.value blanks_nil (.number hn hnearest) blanks_nil
    rw [List.nil_append, List.append_nil] at hdocument
    exact parse?_iff.mpr hdocument

/-- Each finite coordinate on the line of a node is a shortest text of its number. -/
theorem node_coordinates (style : NodeStyle) (router : RouterId) (position : Position) (name : Text) :
    ∃ xs ys, coordinateTexts (Command.node style router position name).text = (xs, ys) ∧
      (position.x.isFinite → IsShortestText position.x xs) ∧ (position.y.isFinite → IsShortestText position.y ys) :=
  ⟨_, _, coordinateTexts_node style router position name, isShortestText_text, isShortestText_text⟩

def extremePosition : Position :=
  ⟨.finite false 3 0 (by decide), .finite true 0x10000000000000 1111 (by decide)⟩

theorem node_coordinates_extreme :
    coordinateTexts (Command.node .router .one extremePosition "a, b").text =
        (.ofString "1.5e-323", .ofString "-6.189700196426902e+26") ∧
      IsShortestText extremePosition.x "1.5e-323" ∧ IsShortestText extremePosition.y "-6.189700196426902e+26" := by
  have hline : coordinateTexts (Command.node .router .one extremePosition "a, b").text =
      (.ofString "1.5e-323", .ofString "-6.189700196426902e+26") := by decide +kernel
  obtain ⟨xs, ys, htexts, hx, hy⟩ := node_coordinates .router .one extremePosition "a, b"
  obtain ⟨rfl, rfl⟩ := Prod.mk.inj (htexts.symm.trans hline)
  exact ⟨hline, hx rfl, hy rfl⟩

end NetDiagram
