import NetDiagram.Numeric.Arithmetic
import NetDiagram.Proofs.Numeric.Nearest

/-!
# Arithmetic in units

A finite number is a whole number of units, and it is the only one of its sign
with so many. Where the exact result of an operation is a number, rounding keeps
it, so that the operation is exact. This is so for every multiple of a power of
two by a factor of at most 53 bits, which covers the floor of every number.
-/

namespace NetDiagram.Binary64

/-! ## Units -/

inductive HasUnits : Binary64 → ℤ → Prop
  | finite {negative : Bool} {sig exp : ℕ} (fits : Fits sig exp) :
      HasUnits (.finite negative sig exp fits) (signed negative (magnitude sig exp))

theorem natAbs_signed (negative : Bool) (n : ℕ) : (signed negative n).natAbs = n := by
  cases negative <;> simp [signed]

theorem signed_natAbs (u : ℤ) : signed (u < 0) u.natAbs = u := by
  by_cases h : u < 0
  · rw [signed, if_pos (decide_eq_true h)]
    omega
  · rw [signed, if_neg (by simpa using h)]
    omega

section
variable {x y : Binary64} {u v : ℤ}

theorem HasUnits.units? (h : HasUnits x u) : x.units? = some u := by
  cases h
  rfl

theorem HasUnits.absValue? (h : HasUnits x u) : x.absValue? = some ((u.natAbs : ℚ) / unitsPerOne) := by
  cases h
  rw [natAbs_signed]
  rfl

theorem HasUnits.lt_iff (hx : HasUnits x u) (hy : HasUnits y v) : x < y ↔ u < v := by
  rw [Binary64.lt_iff, hx.units?, hy.units?]
  simp

theorem hasUnits_zero (negative : Bool) : HasUnits (zero negative) 0 := by
  have hzero : signed negative (magnitude 0 0) = 0 := by cases negative <;> rfl
  exact hzero ▸ .finite (by decide)

theorem hasUnits_one : HasUnits one unitsPerOne := by
  have hunits : magnitude 0x10000000000000 1022 = unitsPerOne := (magnitude_add 1 52 1022).symm
  exact hunits ▸ .finite (by decide)

/-! ## Numbers of units that occur -/

def IsExact (n : ℕ) : Prop :=
  ∃ sig exp, Fits sig exp ∧ magnitude sig exp = n

/-- A significand of fewer bits is shifted until it has 53 bits or the exponent is the least one. -/
theorem isExact_magnitude {sig exp : ℕ} (hsig : sig < 0x20000000000000) (hexp : exp ≤ maxExp) :
    IsExact (magnitude sig exp) := by
  induction exp generalizing sig with
  | zero => exact ⟨sig, 0, ⟨hsig, .inr rfl, hexp⟩, rfl⟩
  | succ exp ih =>
    by_cases hbits : 0x10000000000000 ≤ sig
    · exact ⟨sig, exp + 1, ⟨hsig, .inl hbits, hexp⟩, rfl⟩
    · have hshift : magnitude sig (exp + 1) = magnitude (sig * 2) exp := by
        rw [Nat.add_comm, magnitude_add]
        rfl
      rw [hshift]
      exact ih (by omega) (by omega)

theorem HasUnits.isExact (h : HasUnits x u) : IsExact u.natAbs := by
  cases h with
  | finite fits => exact ⟨_, _, fits, (natAbs_signed _ _).symm⟩

theorem IsExact.nearest {n : ℕ} (h : IsExact n) (negative : Bool) :
    HasUnits (nearest negative n 1) (signed negative n) := by
  obtain ⟨sig, exp, fits, rfl⟩ := h
  have hnear := @nearest_isNearest negative (magnitude sig exp) 1 Nat.one_pos
  rw [Nat.cast_one, div_one] at hnear
  have hself : IsNearest negative _ (.finite negative sig exp fits) := isNearest_self rfl rfl
  rw [hnear.unique hself]
  exact .finite fits

/-! ## Sums and differences -/

theorem add_eq_nearest (hx : HasUnits x u) (hy : HasUnits y v) (h : u + v ≠ 0) :
    x.add y = nearest (u + v < 0) (u + v).natAbs 1 := by
  cases hx
  cases hy
  exact if_neg h

theorem HasUnits.add (hx : HasUnits x u) (hy : HasUnits y v) (h : IsExact (u + v).natAbs) :
    HasUnits (x.add y) (u + v) := by
  by_cases hsum : u + v = 0
  · rw [hsum]
    cases hx
    cases hy
    rw [Binary64.add, if_pos hsum]
    exact hasUnits_zero _
  · rw [add_eq_nearest hx hy hsum]
    have hnear := h.nearest (u + v < 0)
    rwa [signed_natAbs] at hnear

theorem HasUnits.neg (h : HasUnits x u) : HasUnits x.neg (-u) := by
  cases h with
  | @finite negative sig exp fits =>
    have hneg : -signed negative (magnitude sig exp) = signed (!negative) (magnitude sig exp) := by
      cases negative <;> simp [signed]
    rw [hneg]
    exact .finite fits

theorem HasUnits.sub (hx : HasUnits x u) (hy : HasUnits y v) (h : IsExact (u - v).natAbs) :
    HasUnits (x.sub y) (u - v) :=
  hx.add hy.neg h

/-! ## Whole numbers -/

theorem mul_unitsPerOne (n : ℕ) : n * unitsPerOne = magnitude n 1074 := by
  simp only [unitsPerOne, magnitude, Nat.one_mul]

theorem unitsPerOne_pos_int : (0 : ℤ) < unitsPerOne := by
  exact_mod_cast unitsPerOne_pos

theorem magnitude_dvd (sig exp : ℕ) : magnitude 1 exp ∣ magnitude sig exp :=
  ⟨sig, by rw [magnitude, magnitude, Nat.one_mul, Nat.mul_comm]⟩

/-- Every whole number of at most 53 bits is a number. -/
theorem isExact_whole {n : ℤ} (h : n.natAbs < 0x20000000000000) : IsExact (n * unitsPerOne).natAbs := by
  rw [Int.natAbs_mul, Int.natAbs_natCast, mul_unitsPerOne]
  exact isExact_magnitude h (by decide)

theorem exp_le_of_not_dvd {negative : Bool} {sig exp : ℕ}
    (h : ¬ (unitsPerOne : ℤ) ∣ signed negative (magnitude sig exp)) : exp ≤ 1073 := by
  by_contra hexp
  obtain ⟨d, rfl⟩ := Nat.exists_eq_add_of_le' (show 1074 ≤ exp by omega)
  refine h (Int.natCast_dvd.mpr ?_)
  rw [natAbs_signed, magnitude_add, ← mul_unitsPerOne]
  exact Nat.dvd_mul_left _ _

/-- A number with digits behind the point has fewer than 53 bits in front of it. -/
theorem HasUnits.lt_of_not_dvd (h : HasUnits x u) (hdvd : ¬ (unitsPerOne : ℤ) ∣ u) :
    u.natAbs < 0x10000000000000 * unitsPerOne := by
  cases h with
  | @finite negative sig exp fits =>
    have hexp := exp_le_of_not_dvd hdvd
    rw [natAbs_signed]
    calc magnitude sig exp
        < magnitude 0x20000000000000 exp := magnitude_lt_magnitude fits.1
      _ ≤ magnitude 0x20000000000000 1073 := magnitude_le_magnitude _ hexp
      _ = 0x10000000000000 * unitsPerOne := by decide +kernel

/-- A number that is not whole lies below the range in which all numbers are whole. -/
theorem HasUnits.ediv_le (h : HasUnits x u) (hdvd : ¬ (unitsPerOne : ℤ) ∣ u) :
    (u / unitsPerOne).natAbs ≤ 0x10000000000000 := by
  have hlt := h.lt_of_not_dvd hdvd
  have hupper : u / unitsPerOne < 0x10000000000000 := by
    refine Int.ediv_lt_of_lt_mul unitsPerOne_pos_int ?_
    zify at hlt
    exact lt_of_abs_lt hlt
  have hlower : -0x10000000000000 ≤ u / unitsPerOne := by
    refine Int.le_ediv_of_mul_le unitsPerOne_pos_int ?_
    zify at hlt
    rw [neg_mul]
    exact (neg_lt_of_abs_lt hlt).le
  omega

theorem signed_mul (negative : Bool) (m n : ℕ) : signed negative m * n = signed negative (m * n) := by
  cases negative <;> simp [signed]

theorem signed_ediv {n : ℕ} (h : ¬ n % unitsPerOne = 0) (negative : Bool) : signed negative n / unitsPerOne =
    signed negative (if negative then n / unitsPerOne + 1 else n / unitsPerOne) := by
  cases negative with
  | false => rfl
  | true =>
    have hdvd : ¬ (unitsPerOne : ℤ) ∣ n := fun hdvd => h (Nat.mod_eq_zero_of_dvd (Int.natCast_dvd_natCast.mp hdvd))
    rw [signed, if_pos rfl, Int.neg_ediv, if_neg hdvd, Int.sign_eq_one_of_pos unitsPerOne_pos_int, signed, if_pos rfl,
      if_pos rfl]
    push_cast
    ring

/-- The floor is the quotient by the units of one, rounded down. -/
theorem HasUnits.floor (h : HasUnits x u) : HasUnits x.floor (u / unitsPerOne * unitsPerOne) := by
  by_cases hdvd : (unitsPerOne : ℤ) ∣ u
  · rw [Int.ediv_mul_cancel hdvd]
    cases h with
    | finite fits =>
      rw [Int.natCast_dvd, natAbs_signed] at hdvd
      rw [Binary64.floor, if_pos (Nat.mod_eq_zero_of_dvd hdvd)]
      exact .finite fits
  · -- the floor of a number that is not whole is small enough to be a number itself
    have hexact := isExact_whole (n := u / unitsPerOne) (by have := h.ediv_le hdvd; omega)
    cases h with
    | @finite negative sig exp fits =>
      have hmod : ¬ magnitude sig exp % unitsPerOne = 0 := by
        intro hmod
        rw [Int.natCast_dvd, natAbs_signed] at hdvd
        exact hdvd (Nat.dvd_of_mod_eq_zero hmod)
      rw [signed_ediv hmod, signed_mul] at hexact ⊢
      rw [natAbs_signed] at hexact
      rw [Binary64.floor, if_neg hmod]
      exact hexact.nearest negative

end

end NetDiagram.Binary64
