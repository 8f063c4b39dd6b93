import NetDiagram.Document.Options
import NetDiagram.Document.Skeleton
import NetDiagram.Document.Template

/-!
# Exporting documents

An export resolves the prefixes once, looks for collisions of their toggles,
and only then draws the picture. Its outcome holds the warnings with those of
earlier exports in front, and the log of this export, also when it fails.
-/

namespace NetDiagram

def version : Text := "0.1.0"

/-! ## Messages -/

inductive Level
  | info
  | warn
  | error
  deriving DecidableEq

def Level.name : Level → Text
  | .info => "info"
  | .warn => "warn"
  | .error => "error"

structure Warning where
  level : Level
  component : Text
  message : Text
  deriving DecidableEq

def Collision.memberList (c : Collision) : Text :=
  Text.intercalate ", " c.members

def Collision.toggle (c : Collision) : Text :=
  "prefix" ++ c.identifier

def Collision.warning (c : Collision) : Warning where
  level := .warn
  component := "exporter"
  message := "Prefixes " ++ c.memberList ++ " share the toggle " ++ c.toggle

inductive LogLine
  | prefixCount (n : Nat)
  | sectionSize (p : Placeholder) (lines : Nat)
  | exported (length : Nat)
  deriving DecidableEq

/-- The line with its line end; only the last line of an export tells the time that it took. -/
def LogLine.text (elapsed : Text) (line : LogLine) : Text :=
  let message :=
    match line with
    | .prefixCount n => "Known prefixes: " ++ n.repr
    | .sectionSize p lines => "  " ++ p.name ++ ": " ++ lines.repr ++ " line(s)"
    | .exported length => "Exported " ++ length.repr ++ " characters in " ++ elapsed
  "[INFO] " ++ message ++ "\n"

inductive ExportError
  | drawing (error : DrawingError)
  | prefixCollision (groups : List Collision)
  | template (error : TemplateError)
  deriving DecidableEq

def ExportError.message : ExportError → Text
  | .drawing error => error.message
  | .prefixCollision groups =>
    "Prefixes share a toggle identifier: " ++
      Text.intercalate "; " (groups.map fun c => c.memberList ++ " → " ++ c.toggle)
  | .template error => error.message

structure Outcome (α : Type) where
  result : Except ExportError α
  warnings : List Warning
  log : List LogLine

/-! ## Sizes -/

/-- No line in the empty text, otherwise one more than there are line ends. -/
def lineCount (text : Text) : Nat :=
  if text = "" then 0 else text.toList.count '\n'.unit + 1

def Sections.sizes (sections : Sections) : List LogLine :=
  Placeholder.all.map fun p => .sectionSize p (lineCount (sections p))

/-! ## Export -/

namespace Model

variable {P : Type} (model : Model P)

def buildSections (request : OptionRequest) (warnings : List Warning) : Outcome Sections :=
  let options := request.resolve
  let logged (lines : List LogLine) := if options.verbose then lines else []
  match model.prefixEntries with
  | .error failure => ⟨.error (.drawing (.query failure)), warnings, []⟩
  | .ok entries =>
    let log := logged [.prefixCount entries.length]
    let groups := collisions (entries.map (·.text))
    if groups ≠ [] ∧ options.prefixCollisions = .error then ⟨.error (.prefixCollision groups), warnings, log⟩
    else
      let warnings := warnings ++ groups.map Collision.warning
      match model.picture entries with
      | .error error => ⟨.error (.drawing error), warnings, log⟩
      | .ok picture => ⟨.ok picture.sections, warnings, log ++ logged picture.sections.sizes⟩

def exportDocument (request : OptionRequest) (warnings : List Warning) : Outcome Text :=
  let built := model.buildSections request warnings
  match built.result with
  | .error error => ⟨.error error, built.warnings, built.log⟩
  | .ok sections =>
    match renderTemplate sections.named skeleton with
    | .error error => ⟨.error (.template error), built.warnings, built.log⟩
    | .ok document =>
      ⟨.ok document, built.warnings,
        built.log ++ if request.resolve.verbose then [.exported document.length] else []⟩

end Model

end NetDiagram
