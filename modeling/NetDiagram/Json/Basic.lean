import NetDiagram.Json.Members
import NetDiagram.Numeric.Binary64

/-! # JSON values -/

namespace NetDiagram

inductive Json
  | null
  | bool (value : Bool)
  | number (value : Binary64)
  | string (value : Text)
  | array (elements : List Json)
  | object (members : List (Text × Json))

namespace Json

def member? (key : Text) : Json → Option Json
  | .object members => Members.get? key members
  | _ => none

/-! ## Decidable equality -/

mutual

def beq : Json → Json → Bool
  | .null, .null => true
  | .bool a, .bool b => a = b
  | .number a, .number b => a = b
  | .string a, .string b => a = b
  | .array as, .array bs => beqElements as bs
  | .object as, .object bs => beqMembers as bs
  | _, _ => false

def beqElements : List Json → List Json → Bool
  | [], [] => true
  | a :: as, b :: bs => beq a b && beqElements as bs
  | _, _ => false

def beqMembers : List (Text × Json) → List (Text × Json) → Bool
  | [], [] => true
  | (k, a) :: as, (l, b) :: bs => k = l && beq a b && beqMembers as bs
  | _, _ => false

end

mutual

theorem beq_iff : ∀ a b : Json, beq a b = true ↔ a = b
  | .array as, b => by cases b <;> simp [beq, beqElements_iff as]
  | .object as, b => by cases b <;> simp [beq, beqMembers_iff as]
  | .null, b | .bool _, b | .number _, b | .string _, b => by cases b <;> simp [beq]

theorem beqElements_iff : ∀ as bs : List Json, beqElements as bs = true ↔ as = bs
  | [], bs => by cases bs <;> simp [beqElements]
  | a :: as, bs => by cases bs <;> simp [beqElements, beq_iff a, beqElements_iff as]

theorem beqMembers_iff : ∀ as bs : List (Text × Json), beqMembers as bs = true ↔ as = bs
  | [], bs => by cases bs <;> simp [beqMembers]
  | (k, a) :: as, bs => by
    rcases bs with _ | ⟨⟨l, b⟩, bs⟩ <;> simp [beqMembers, beq_iff a, beqMembers_iff as]

end

instance : DecidableEq Json :=
  fun a b => decidable_of_iff _ (beq_iff a b)

end Json

end NetDiagram
