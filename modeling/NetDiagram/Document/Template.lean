import NetDiagram.Document.Placeholder

/-!
# Templates

A token is a name of capital letters and underscores between double braces. A
template is cut into its tokens and the units between them once, before
any section is put in, so that the text of a section is never scanned.
-/

namespace NetDiagram

def IsNameUnit (u : CodeUnit) : Prop :=
  ('A'.unit.code ≤ u.code ∧ u.code ≤ 'Z'.unit.code) ∨ u = '_'.unit

instance (u : CodeUnit) : Decidable (IsNameUnit u) :=
  inferInstanceAs (Decidable (_ ∨ _))

/-- The name in a token at the front of a text. -/
def tokenName? (us : List CodeUnit) : Option (List CodeUnit) :=
  let name := (us.drop 2).takeWhile fun u => IsNameUnit u
  if ['\x7b'.unit, '\x7b'.unit] <+: us ∧ name ≠ [] ∧ ['\x7d'.unit, '\x7d'.unit] <+: us.drop (name.length + 2) then
    some name
  else none

inductive Piece
  | unit (u : CodeUnit)
  | token (name : Text)
  deriving DecidableEq

/-- The pieces of a text behind the units to skip. -/
def piecesFrom : Nat → List CodeUnit → List Piece
  | _, [] => []
  | skip + 1, _ :: us => piecesFrom skip us
  | 0, u :: us =>
    match tokenName? (u :: us) with
    | some name => .token (.ofList name) :: piecesFrom (name.length + 3) us
    | none => .unit u :: piecesFrom 0 us

theorem piecesFrom_skip (skip : Nat) (us : List CodeUnit) : piecesFrom skip us = piecesFrom 0 (us.drop skip) := by
  induction skip generalizing us with
  | zero => rfl
  | succ skip ih => cases us <;> simp [piecesFrom, ih]

def pieces (template : Text) : List Piece :=
  piecesFrom 0 template.toList

def Piece.name? : Piece → Option Text
  | .unit _ => none
  | .token name => some name

def tokenNames (template : Text) : List Text :=
  (pieces template).filterMap Piece.name?

inductive TemplateError
  | missingSection (p : Placeholder)
  | unknownPlaceholder (name : Text)
  deriving DecidableEq

namespace TemplateError

def placeholder : TemplateError → Text
  | .missingSection p => p.name
  | .unknownPlaceholder name => name

def message : TemplateError → Text
  | .missingSection p => "Missing section for placeholder \x7b\x7b" ++ p.name ++ "\x7d\x7d"
  | .unknownPlaceholder name => "Unknown placeholder \x7b\x7b" ++ name ++ "\x7d\x7d in template"

end TemplateError

def Piece.fill (texts : Text → Text) : Piece → List CodeUnit
  | .unit u => [u]
  | .token name => (texts name).toList

/-- Puts the text of its section in place of each token. All sections have to be there, used or not. -/
def renderTemplate (sections : Text → Option Text) (template : Text) : Except TemplateError Text :=
  match Placeholder.all.find? fun p => (sections p.name).isNone with
  | some p => .error (.missingSection p)
  | none =>
    match (tokenNames template).find? fun name => (Placeholder.ofName? name).isNone with
    | some name => .error (.unknownPlaceholder name)
    | none => .ok (.ofList ((pieces template).flatMap (Piece.fill fun name => (sections name).getD "")))

/-- The sections by the names of their placeholders. -/
def Sections.named (sections : Sections) (name : Text) : Option Text :=
  (Placeholder.ofName? name).map sections

theorem Sections.named_name (sections : Sections) (p : Placeholder) : sections.named p.name = some (sections p) := by
  simp [Sections.named, Placeholder.ofName?_name]

end NetDiagram
