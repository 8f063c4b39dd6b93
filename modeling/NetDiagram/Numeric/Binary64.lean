import NetDiagram.Numeric.RoundDiv

/-!
# Binary64 numbers

A finite number is a sign, a significand and an exponent; its magnitude counts
units of `2 ^ -1074`, the least positive number. All comparisons and roundings
are exact arithmetic on these counts, so the infinities take the first place
past the largest finite magnitude and no other value needs a special case.
-/

namespace NetDiagram

def Binary64.maxExp : Nat := 2045

/-- The forms `sig * 2 ^ exp` of magnitudes, one for each: a significand has at most 53 bits, and fewer only at the
least exponent. -/
def Binary64.Fits (sig exp : Nat) : Prop :=
  sig < 0x20000000000000 ∧ (0x10000000000000 ≤ sig ∨ exp = 0) ∧ exp ≤ maxExp

instance (sig exp : Nat) : Decidable (Binary64.Fits sig exp) :=
  inferInstanceAs (Decidable (_ ∧ _ ∧ _))

inductive Binary64
  | nan
  | infinity (negative : Bool)
  | finite (negative : Bool) (sig exp : Nat) (fits : Binary64.Fits sig exp)
  deriving DecidableEq

namespace Binary64

/-! ## Forms of magnitudes -/

def magnitude (sig exp : Nat) : Nat :=
  sig * Nat.pow 2 exp

theorem magnitude_add (sig d e : Nat) : magnitude sig (d + e) = magnitude (magnitude sig d) e := by
  simp [magnitude, Nat.pow_add, Nat.mul_assoc]

theorem magnitude_inj {m n e : Nat} (h : magnitude m e = magnitude n e) : m = n :=
  Nat.eq_of_mul_eq_mul_right (Nat.two_pow_pos e) h

theorem magnitude_lt_magnitude {m n e : Nat} (h : m < n) : magnitude m e < magnitude n e :=
  Nat.mul_lt_mul_of_pos_right h (Nat.two_pow_pos e)

theorem magnitude_le_magnitude {e f : Nat} (m : Nat) (h : e ≤ f) : magnitude m e ≤ magnitude m f :=
  Nat.mul_le_mul_left m (Nat.pow_le_pow_right (by decide) h)

theorem magnitude_eq_zero {m e : Nat} : magnitude m e = 0 ↔ m = 0 :=
  Nat.mul_eq_zero.trans (or_iff_left (Nat.ne_of_gt (Nat.two_pow_pos e)))

def limit : Nat := magnitude 0x20000000000000 maxExp

theorem limit_ne_zero : limit ≠ 0 := by
  simp [limit, magnitude_eq_zero]

theorem Fits.lt_limit {m e : Nat} (h : Fits m e) : magnitude m e < limit :=
  Nat.lt_of_lt_of_le (magnitude_lt_magnitude h.1) (magnitude_le_magnitude _ h.2.2)

theorem Fits.exp_le {m n e f : Nat} (h : Fits m e) (h' : Fits n f) (hv : magnitude m e = magnitude n f) : f ≤ e := by
  refine Nat.le_of_not_lt fun hlt => ?_
  obtain ⟨d, rfl⟩ : ∃ d, f = d + 1 + e := ⟨f - e - 1, by omega⟩
  have hm : m = magnitude n (d + 1) := magnitude_inj (hv.trans (magnitude_add n (d + 1) e))
  have hn : 0x10000000000000 ≤ n := h'.2.1.resolve_right (by omega)
  have hd : magnitude n 1 ≤ magnitude n (d + 1) := magnitude_le_magnitude n (by omega)
  have h1 : magnitude n 1 = n * 2 := rfl
  have := h.1
  omega

/-- A magnitude has one form. -/
theorem Fits.unique {m n e f : Nat} (h : Fits m e) (h' : Fits n f) (hv : magnitude m e = magnitude n f) :
    m = n ∧ e = f := by
  have he : e = f := Nat.le_antisymm (h'.exp_le h hv.symm) (h.exp_le h' hv)
  subst he
  exact ⟨magnitude_inj hv, rfl⟩

theorem Fits.exp_eq_zero {e : Nat} (h : Fits 0 e) : e = 0 :=
  h.2.1.resolve_left (by decide)

/-! ## Values -/

/-- How many units make one. -/
def unitsPerOne : Nat := magnitude 1 1074

def signed (negative : Bool) (n : Nat) : Int :=
  if negative then -n else n

theorem signed_inj {s t : Bool} {m n : Nat} (h : signed s m = signed t n) : m = n ∧ (m = 0 ∨ s = t) := by
  cases s <;> cases t <;> simp [signed] at h ⊢ <;> omega

/-- The value in units, with the infinities next to the largest finite magnitude. -/
def units? : Binary64 → Option Int
  | .nan => none
  | .infinity negative => some (signed negative limit)
  | .finite negative sig exp _ => some (signed negative (magnitude sig exp))

def isFinite : Binary64 → Bool
  | .finite .. => true
  | _ => false

def zero (negative : Bool) : Binary64 :=
  .finite negative 0 0 (by decide)

def one : Binary64 :=
  .finite false 0x10000000000000 1022 (by decide)

def half : Binary64 :=
  .finite false 0x10000000000000 1021 (by decide)

/-! ## Comparison -/

def unsignedZero : Binary64 → Binary64
  | .finite negative sig exp fits => if sig = 0 then zero false else .finite negative sig exp fits
  | x => x

/-- Equality as numbers: the two zeros are equal, and so is NaN to itself. -/
def Same (a b : Binary64) : Prop :=
  a.unsignedZero = b.unsignedZero

instance (a b : Binary64) : Decidable (Same a b) :=
  inferInstanceAs (Decidable (_ = _))

/-- Order as numbers: NaN is neither below nor above anything. -/
def Less (a b : Binary64) : Prop :=
  match a.units?, b.units? with
  | some m, some n => m < n
  | _, _ => False

instance (a b : Binary64) : Decidable (Less a b) := by
  unfold Less; split <;> infer_instance

instance : LT Binary64 := ⟨Less⟩

instance (a b : Binary64) : Decidable (a < b) :=
  inferInstanceAs (Decidable (Less a b))

theorem units?_unsignedZero (a : Binary64) : a.unsignedZero.units? = a.units? := by
  cases a with
  | nan | infinity => rfl
  | finite s m e h =>
    by_cases hm : m = 0
    · subst hm; cases s <;> simp [unsignedZero, units?, zero, signed, magnitude]
    · simp [unsignedZero, hm]

theorem same_iff {a b : Binary64} : Same a b ↔ a.units? = b.units? := by
  constructor
  · intro h
    rw [← units?_unsignedZero a, ← units?_unsignedZero b]
    exact congrArg _ h
  · intro h
    unfold Same
    cases a with
    | nan => cases b <;> simp_all [units?]
    | infinity s =>
      cases b with
      | nan => simp [units?] at h
      | infinity t =>
        have hs := (signed_inj (Option.some.inj h)).2.resolve_left limit_ne_zero
        rw [hs]
      | finite t n f h' =>
        have := (signed_inj (Option.some.inj h)).1
        exact absurd this (Nat.ne_of_gt h'.lt_limit)
    | finite s m e hm =>
      cases b with
      | nan => simp [units?] at h
      | infinity t =>
        have := (signed_inj (Option.some.inj h)).1
        exact absurd this (Nat.ne_of_lt hm.lt_limit)
      | finite t n f hn =>
        obtain ⟨hv, hs⟩ := signed_inj (Option.some.inj h)
        obtain ⟨rfl, rfl⟩ := hm.unique hn hv
        by_cases h0 : m = 0
        · simp [unsignedZero, h0]
        · rw [hs.resolve_left (mt magnitude_eq_zero.mp h0)]

theorem Same.refl (a : Binary64) : Same a a :=
  rfl

theorem Same.symm {a b : Binary64} (h : Same a b) : Same b a :=
  Eq.symm h

theorem Same.trans {a b c : Binary64} (h : Same a b) (h' : Same b c) : Same a c :=
  Eq.trans h h'

theorem lt_iff {a b : Binary64} : a < b ↔ ∃ m n, a.units? = some m ∧ b.units? = some n ∧ m < n := by
  show Less a b ↔ _
  unfold Less
  split
  · rename_i m n hm hn; simp [hm, hn]
  · rename_i h
    constructor
    · exact False.elim
    · rintro ⟨m, n, hm, hn, -⟩; exact h m n hm hn

/-! ## Rounding -/

/-- The magnitude `sig * 2 ^ exp`, or infinity when it is out of range. -/
def ofFields (negative : Bool) (sig exp : Nat) : Binary64 :=
  if h : Fits sig exp then .finite negative sig exp h else .infinity negative

/-- The number nearest to `num / den` units, a tie going to the even significand. -/
def nearest (negative : Bool) (num den : Nat) : Binary64 :=
  let exp := (num / den).log2 - 52
  let sig := roundDiv num (magnitude den exp)
  if sig = 0x20000000000000 then ofFields negative 0x10000000000000 (exp + 1) else ofFields negative sig exp

end Binary64

end NetDiagram
