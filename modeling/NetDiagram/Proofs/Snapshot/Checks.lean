import NetDiagram.Proofs.Json.Members
import NetDiagram.Snapshot.Reader

/-!
# Checks of a snapshot

What is demanded of a snapshot, one check after the other. A check belongs to a
path and names the fault of a value that fails it. The list of checks depends on
the value alone and goes on past a check that fails.
-/

namespace NetDiagram

/-! ## Shapes of single values -/

namespace Json

def IsObject (v : Json) : Prop :=
  ∃ members, v = .object members

def IsArray (v : Json) : Prop :=
  ∃ elements, v = .array elements

def IsString (v : Json) : Prop :=
  ∃ s, v = .string s

def IsNumber (v : Json) : Prop :=
  ∃ x, v = .number x

def IsBoolean (v : Json) : Prop :=
  ∃ b, v = .bool b

def IsRouterId (v : Json) : Prop :=
  ∃ x : Binary64, v = .number x ∧ x.isFinite ∧ ∃ n : ℕ, x.absValue? = some (n : ℚ) ∧ (x.sign? = some false ∨ n = 0)

def IsKind (name : Text) : Prop :=
  name = "ebgp" ∨ name = "ibgp-peer" ∨ name = "ibgp-client"

def routerNumber? (router : Json) : Option Binary64 :=
  match router.member? "id" with
  | some (.number x) => some x
  | _ => none

end Json

structure Check where
  path : Path
  fault : Fault
  Holds : Prop

/-- The checks of a value that may be absent and of its parts, for the path to it. -/
abbrev Checks := Option Json → Path → List Check

namespace Checks

def one (fault : Fault) (Shape : Json → Prop) : Checks := fun value path =>
  [⟨path, fault, ∃ v, value = some v ∧ Shape v⟩]

def isObject : Checks :=
  one .notObject Json.IsObject

def isArray : Checks :=
  one .notArray Json.IsArray

def isString : Checks :=
  one .notString Json.IsString

def isNumber : Checks :=
  one .notNumber Json.IsNumber

def isBoolean : Checks :=
  one .notBoolean Json.IsBoolean

def isRouterId : Checks :=
  one .notRouterId Json.IsRouterId

def isKnownKind : Checks
  | some (.string name), path => [⟨path, .unknownSessionKind name, Json.IsKind name⟩]
  | _, _ => []

/-! ## Parts -/

def inTurn (checks : List Checks) : Checks := fun value path =>
  checks.flatMap fun c => c value path

def record (checks : List Checks) : Checks :=
  inTurn (isObject :: checks)

def member (field : Field) (checks : Checks) : Checks := fun value path =>
  checks (value.bind (Json.member? field.key)) (path.field field)

def memberIfAny (field : Field) (checks : Checks) : Checks := fun value path =>
  match value.bind (Json.member? field.key) with
  | none => []
  | some v => checks (some v) (path.field field)

def eachElement (checks : Checks) : Checks
  | some (.array vs), path => vs.zipIdx.flatMap fun (v, i) => checks (some v) (path.index i)
  | _, _ => []

def eachMember (checks : Checks) : Checks
  | some (.object members), path => (Members.visited members).flatMap fun (k, v) => checks (some v) (path.key k)
  | _, _ => []

def arrayOf (checks : Checks) : Checks :=
  inTurn [isArray, eachElement checks]

def recordOf (checks : Checks) : Checks :=
  inTurn [isObject, eachMember checks]

def areDistinct : Checks
  | some (.array routers), path => routers.zipIdx.filterMap fun (router, i) =>
      router.routerNumber?.map fun x =>
        ⟨(path.index i).field .id, .duplicateRouterId x,
          ∀ other ∈ (routers.take i).filterMap Json.routerNumber?, ¬ other.Same x⟩
  | _, _ => []

/-! ## Snapshots -/

def position : Checks :=
  record [member .x isNumber, member .y isNumber]

def router : Checks :=
  record [member .id isRouterId, memberIfAny .name isString, memberIfAny .position position,
    memberIfAny .external isBoolean]

def link : Checks :=
  record [member .a isRouterId, member .b isRouterId, member .weight isNumber, memberIfAny .reverseWeight isNumber]

def session : Checks :=
  record [member .kind (inTurn [isString, isKnownKind]), member .source isRouterId, member .destination isRouterId]

def propagation : Checks :=
  record [member .source isRouterId, member .destination isRouterId]

def snapshot : Checks :=
  record [
    member .routers (arrayOf router),
    member .routers areDistinct,
    member .links (arrayOf link),
    member .prefixes (arrayOf isString),
    memberIfAny .nextHops (recordOf (recordOf (arrayOf isRouterId))),
    memberIfAny .sessions (arrayOf session),
    memberIfAny .propagations (recordOf (arrayOf propagation))]

end Checks

/-- The error is that of a check that fails, and all checks before it hold. -/
def FirstViolation (checks : List Check) (e : SnapshotError) : Prop :=
  ∃ before c after, checks = before ++ c :: after ∧ (∀ d ∈ before, d.Holds) ∧ ¬ c.Holds ∧ e = ⟨c.path, c.fault⟩

end NetDiagram
