import NetDiagram.Text.Basic

/-!
# Members of an object

A member list holds each key once. Putting a key that is present keeps its
place and replaces its value, so a list built from a text holds every key at
its first place with its last value. Keys that spell an array index are visited
first, in ascending order; the other keys follow in the order of the list.
-/

namespace NetDiagram

abbrev Members (α : Type) := List (Text × α)

namespace Members

variable {α : Type}

def get? (key : Text) : Members α → Option α
  | [] => none
  | (k, v) :: ms => if k = key then some v else get? key ms

def put (key : Text) (value : α) : Members α → Members α
  | [] => [(key, value)]
  | (k, v) :: ms => if k = key then (key, value) :: ms else (k, v) :: put key value ms

def ofList (pairs : List (Text × α)) : Members α :=
  pairs.foldl (fun ms (key, value) => put key value ms) []

theorem get?_put (key k : Text) (value : α) (ms : Members α) :
    get? k (put key value ms) = if key = k then some value else get? k ms := by
  induction ms with
  | nil => simp [put, get?]
  | cons m ms ih =>
    obtain ⟨k', v⟩ := m
    by_cases h : k' = key <;> by_cases h' : key = k <;> simp_all [put, get?]

theorem get?_foldl_put (k : Text) (pairs : List (Text × α)) (ms : Members α) :
    get? k (pairs.foldl (fun ms (key, value) => put key value ms) ms) =
      ((get? k pairs.reverse).or (get? k ms)) := by
  have get?_append : ∀ l m : Members α, get? k (l ++ m) = (get? k l).or (get? k m) := by
    intro l m
    induction l with
    | nil => simp [get?]
    | cons p l ih => simp only [List.cons_append, get?, ih]; split <;> simp
  induction pairs generalizing ms with
  | nil => simp [get?]
  | cons p pairs ih =>
    simp only [List.foldl_cons, ih, List.reverse_cons, get?_append, get?_put, get?]
    cases get? k pairs.reverse <;> simp
    split <;> simp

/-- A key is found with the value of its last occurrence. -/
theorem get?_ofList (k : Text) (pairs : List (Text × α)) : get? k (ofList pairs) = get? k pairs.reverse := by
  simp [ofList, get?_foldl_put, get?]

/-! ## Order of visit -/

/-- The array index that a key spells: the decimal numeral of a number below `2 ^ 32 - 1`, without leading zeros. -/
def arrayIndex? (key : Text) : Option Nat :=
  let n := Nat.ofDigitChars 10 (key.toList.map CodeUnit.char) 0
  if n < 0xFFFFFFFF ∧ key = .ofChars (Nat.toDigits 10 n) then some n else none

def Precedes (a b : Text) : Prop :=
  match arrayIndex? a, arrayIndex? b with
  | some i, some j => i < j
  | some _, none => True
  | none, _ => False

instance (a b : Text) : Decidable (Precedes a b) := by
  unfold Precedes; split <;> infer_instance

/-- Puts a member in front of those whose keys do not precede its own. -/
def place (member : Text × α) : Members α → Members α
  | [] => [member]
  | m :: ms => if Precedes m.1 member.1 then m :: place member ms else member :: m :: ms

def inOrder (ms : Members α) : Members α :=
  ms.foldr place []

theorem place_perm (member : Text × α) (ms : Members α) : (place member ms).Perm (member :: ms) := by
  induction ms with
  | nil => simp [place]
  | cons m ms ih =>
    unfold place
    split
    · exact (ih.cons m).trans (.swap _ _ _)
    · exact .refl _

theorem inOrder_perm (ms : Members α) : (inOrder ms).Perm ms := by
  induction ms with
  | nil => exact .refl _
  | cons m ms ih => exact (place_perm m _).trans (ih.cons m)

end Members

end NetDiagram
