import NetDiagram.Json.Parser
import NetDiagram.Numeric.Arithmetic
import NetDiagram.Snapshot.Basic
import NetDiagram.Snapshot.Fault

/-!
# Reading snapshots

A reader takes a value that may be absent and the path to it, and reports the
first fault. Members are read in a fixed order, arrays from the front, and
objects with keys of their own in the order of visit. Members that a snapshot
does not have are ignored.
-/

namespace NetDiagram

abbrev Reader (α : Type) := Option Json → Path → Except SnapshotError α

namespace Reader

variable {α : Type}

def fail (fault : Fault) (path : Path) : Except SnapshotError α :=
  .error ⟨path, fault⟩

/-! ## Single values -/

def object : Reader (Members Json)
  | some (.object members), _ => .ok members
  | _, path => fail .notObject path

def array : Reader (List Json)
  | some (.array elements), _ => .ok elements
  | _, path => fail .notArray path

def string : Reader Text
  | some (.string value), _ => .ok value
  | _, path => fail .notString path

def number : Reader Binary64
  | some (.number value), _ => .ok value
  | _, path => fail .notNumber path

def boolean : Reader Bool
  | some (.bool value), _ => .ok value
  | _, path => fail .notBoolean path

def routerId : Reader RouterId
  | some (.number value), path => if value.IsNatural then .ok value else fail .notRouterId path
  | _, path => fail .notRouterId path

/-- The name of a kind that can be drawn. -/
def sessionKind : Reader Text := fun value path => do
  let name ← string value path
  if (SessionKind.ofName? name).isSome then return name else fail (.unknownSessionKind name) path

/-! ## Parts -/

def required (read : Reader α) (field : Field) (members : Members Json) (path : Path) : Except SnapshotError α :=
  read (members.get? field.key) (path.field field)

def optional (read : Reader α) (field : Field) (members : Members Json) (path : Path) :
    Except SnapshotError (Option α) :=
  match members.get? field.key with
  | none => .ok none
  | value => some <$> read value (path.field field)

def elements (read : Reader α) : Reader (List α) := fun value path => do
  (← array value path).zipIdx.mapM fun (element, i) => read (some element) (path.index i)

def entries (read : Reader α) : Reader (Members α) := fun value path => do
  (← object value path).inOrder.mapM fun (key, member) => return (key, ← read (some member) (path.key key))

/-! ## Snapshots -/

def position : Reader Position := fun value path => do
  let members ← object value path
  return { x := ← required number .x members path, y := ← required number .y members path }

def router : Reader Router := fun value path => do
  let members ← object value path
  return {
    id := ← required routerId .id members path
    name := ← optional string .name members path
    position := ← optional position .position members path
    external := ← optional boolean .external members path }

def link : Reader Link := fun value path => do
  let members ← object value path
  return {
    a := ← required routerId .a members path
    b := ← required routerId .b members path
    weight := ← required number .weight members path
    reverseWeight := ← optional number .reverseWeight members path }

def session : Reader Session := fun value path => do
  let members ← object value path
  let kind ← required sessionKind .kind members path
  return {
    source := ← required routerId .source members path
    destination := ← required routerId .destination members path
    kind }

def propagation : Reader Propagation := fun value path => do
  let members ← object value path
  return {
    source := ← required routerId .source members path
    destination := ← required routerId .destination members path
    detail := members.get? Field.detail.key }

/-- The place of the first id that an id before it equals, with the id. -/
def duplicate? (seen : List RouterId) (i : Nat) : List RouterId → Option (Nat × RouterId)
  | [] => none
  | id :: ids => if ∃ other ∈ seen, id.Same other then some (i, id) else duplicate? (id :: seen) (i + 1) ids

def distinctIds (routers : List Router) (path : Path) : Except SnapshotError Unit :=
  match duplicate? [] 0 (routers.map (·.id)) with
  | some (i, id) => fail (.duplicateRouterId id) ((path.index i).field .id)
  | none => .ok ()

def snapshot : Reader Snapshot := fun value path => do
  let members ← object value path
  let routers ← required (elements router) .routers members path
  distinctIds routers (path.field .routers)
  return {
    routers
    links := ← required (elements link) .links members path
    prefixes := ← required (elements string) .prefixes members path
    nextHops := ← optional (entries (entries (elements routerId))) .nextHops members path
    sessions := ← optional (elements session) .sessions members path
    propagations := ← optional (entries (elements propagation)) .propagations members path }

end Reader

def Snapshot.parse (text : Text) : Except SnapshotError Snapshot :=
  match Json.parse? text with
  | none => Reader.fail .notJson .root
  | some value => Reader.snapshot (some value) .root

end NetDiagram
