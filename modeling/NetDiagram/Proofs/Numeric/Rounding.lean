import NetDiagram.Picture.Weight
import NetDiagram.Proofs.Numeric.ReadBack
import NetDiagram.Proofs.Numeric.Units

/-!
# Rounded weights

A weight is rounded by its distance from its floor. That distance is exact
unless it is larger than the weight, which happens only between -1/2 and 0.
There it may be rounded down to 1/2, but the floor is -1 and odd, so these
weights go to 0 all the same. Every finite weight is therefore drawn as the
nearest integer, a half going to the even one.
-/

namespace NetDiagram

namespace Binary64

section
variable {x w : Binary64} {u n : ℤ}

/-! ## Whole numbers -/

theorem HasUnits.integer? (h : HasUnits x (n * unitsPerOne)) : x.integer? = some n := by
  generalize hu : n * (unitsPerOne : ℤ) = u at h
  cases h with
  | @finite negative sig exp fits =>
    have hdvd : unitsPerOne ∣ magnitude sig exp := by
      rw [← natAbs_signed negative (magnitude sig exp), ← Int.natCast_dvd, ← hu]
      exact Int.dvd_mul_left _ _
    obtain ⟨k, hk⟩ := hdvd
    rw [hk, Nat.mul_comm, ← signed_mul] at hu
    rw [Binary64.integer?, if_pos (Nat.mod_eq_zero_of_dvd ⟨k, hk⟩), hk,
      Nat.mul_div_cancel_left k (by exact_mod_cast unitsPerOne_pos),
      Int.eq_of_mul_eq_mul_right unitsPerOne_pos_int.ne' hu]

theorem HasUnits.isEven_iff (h : HasUnits x (n * unitsPerOne)) : x.IsEven ↔ n % 2 = 0 := by
  rw [IsEven, h.integer?]

theorem HasUnits.add_one (h : HasUnits x (n * unitsPerOne)) (hn : (n + 1).natAbs < 0x20000000000000) :
    HasUnits (x.add one) ((n + 1) * unitsPerOne) := by
  have hexact := isExact_whole hn
  rw [Int.add_mul, Int.one_mul] at hexact ⊢
  exact h.add hasUnits_one hexact

def halfUnits : ℕ := magnitude 0x10000000000000 1021

theorem hasUnits_half : HasUnits half halfUnits :=
  .finite (by decide)

theorem two_mul_halfUnits : 2 * (halfUnits : ℤ) = unitsPerOne := by
  have hunits : 2 * halfUnits = unitsPerOne := by decide +kernel
  exact_mod_cast hunits

/-! ## The distance from the floor -/

theorem sub_ediv_mul (u : ℤ) : u - u / unitsPerOne * unitsPerOne = u % unitsPerOne := by
  rw [Int.emod_def, Int.mul_comm]

/-- The distance is a multiple of the last place of the number, and it is not larger. -/
theorem HasUnits.isExact_emod (h : HasUnits x u) (hle : u % unitsPerOne ≤ u.natAbs) :
    IsExact (u % unitsPerOne).natAbs := by
  by_cases hdvd : (unitsPerOne : ℤ) ∣ u
  · rw [Int.emod_eq_zero_of_dvd hdvd]
    exact (hasUnits_zero false).isExact
  · cases h with
    | @finite negative sig exp fits =>
      have hexp := exp_le_of_not_dvd hdvd
      have hone : magnitude 1 exp ∣ unitsPerOne := by
        obtain ⟨d, hd⟩ := Nat.exists_eq_add_of_le' (show exp ≤ 1074 by omega)
        rw [unitsPerOne, hd, magnitude_add]
        exact magnitude_dvd _ _
      -- the number and one are multiples of the same power of two, hence the distance too
      have hnumber : (magnitude 1 exp : ℤ) ∣ signed negative (magnitude sig exp) := by
        rw [Int.natCast_dvd, natAbs_signed]
        exact magnitude_dvd _ _
      obtain ⟨k, hk⟩ := Int.natCast_dvd.mp
        ((EuclideanDomain.dvd_mod_iff (Int.natCast_dvd_natCast.mpr hone)).mpr hnumber)
      have hdistance : (signed negative (magnitude sig exp) % unitsPerOne).natAbs = magnitude k exp := by
        rw [hk, magnitude, magnitude, Nat.one_mul, Nat.mul_comm]
      have hpos := Int.emod_nonneg (signed negative (magnitude sig exp)) unitsPerOne_pos_int.ne'
      rw [natAbs_signed] at hle
      -- it has no more bits than the number, as it is no larger
      have hk' : k ≤ sig := by
        by_contra hlt
        have := @magnitude_lt_magnitude sig k exp (by omega)
        omega
      rw [hdistance]
      exact isExact_magnitude (by have := fits.1; omega) fits.2.2

theorem HasUnits.sub_floor (h : HasUnits x u) (hle : u % unitsPerOne ≤ u.natAbs) :
    HasUnits (x.sub x.floor) (u % unitsPerOne) := by
  have hexact := h.isExact_emod hle
  rw [← sub_ediv_mul] at hexact ⊢
  exact h.sub h.floor hexact

/-- Only between -1/2 and 0 is the distance larger. -/
theorem ediv_of_lt_emod (h : (u.natAbs : ℤ) < u % unitsPerOne) :
    u / unitsPerOne = -1 ∧ u % unitsPerOne = u + unitsPerOne ∧ u < 0 := by
  have hpos := unitsPerOne_pos_int
  have hlt := Int.emod_lt_of_pos u hpos
  have hneg : u < 0 := by
    by_contra hnonneg
    have hsmall : u % unitsPerOne = u := Int.emod_eq_of_lt (by omega) (by omega)
    omega
  obtain ⟨hdiv, hmod⟩ := (Int.ediv_emod_unique hpos).mpr
    (show (u + unitsPerOne) + unitsPerOne * -1 = u ∧ 0 ≤ u + unitsPerOne ∧ u + unitsPerOne < unitsPerOne by omega)
  exact ⟨hdiv, hmod, hneg⟩

/-! ## The rounded number -/

structure IsClosest (u n : ℤ) : Prop where
  above : -unitsPerOne ≤ 2 * (u - n * unitsPerOne)
  below : 2 * (u - n * unitsPerOne) ≤ unitsPerOne
  even : 2 * (u - n * unitsPerOne) = unitsPerOne ∨ 2 * (u - n * unitsPerOne) = -unitsPerOne → n % 2 = 0

theorem isClosest_floor (hle : 2 * (u % unitsPerOne) ≤ unitsPerOne)
    (heven : 2 * (u % unitsPerOne) = unitsPerOne → u / unitsPerOne % 2 = 0) : IsClosest u (u / unitsPerOne) := by
  have hdistance := sub_ediv_mul u
  have hnonneg := Int.emod_nonneg u unitsPerOne_pos_int.ne'
  have hpos := unitsPerOne_pos_int
  exact ⟨by omega, by omega, fun htie => heven (by omega)⟩

theorem isClosest_next (hle : unitsPerOne ≤ 2 * (u % unitsPerOne))
    (heven : 2 * (u % unitsPerOne) = unitsPerOne → (u / unitsPerOne + 1) % 2 = 0) :
    IsClosest u (u / unitsPerOne + 1) := by
  have hdistance : u - (u / unitsPerOne + 1) * unitsPerOne = u % unitsPerOne - unitsPerOne := by
    rw [← sub_ediv_mul, Int.add_mul, Int.one_mul, Int.sub_sub]
  have hlt := Int.emod_lt_of_pos u unitsPerOne_pos_int
  exact ⟨by omega, by omega, fun htie => heven (by omega)⟩

theorem HasUnits.next (h : HasUnits w u) (hdvd : ¬ (unitsPerOne : ℤ) ∣ u) :
    HasUnits (w.floor.add one) ((u / unitsPerOne + 1) * unitsPerOne) :=
  h.floor.add_one (by have := h.ediv_le hdvd; omega)

theorem not_dvd_of_le {k : ℤ} (hle : unitsPerOne ≤ k * (u % unitsPerOne)) : ¬ (unitsPerOne : ℤ) ∣ u := by
  intro hdvd
  rw [Int.emod_eq_zero_of_dvd hdvd, Int.mul_zero] at hle
  exact absurd unitsPerOne_pos_int (Int.not_lt.mpr hle)

/-- Where the distance from the floor is exact, the three comparisons decide as they would for reals. -/
theorem roundEven_exact (h : HasUnits w u) (hle : u % unitsPerOne ≤ u.natAbs) :
    ∃ n, HasUnits w.roundEven (n * unitsPerOne) ∧ IsClosest u n := by
  have hhalf := two_mul_halfUnits
  have hless : w.sub w.floor < half ↔ 2 * (u % unitsPerOne) < unitsPerOne := by
    rw [(h.sub_floor hle).lt_iff hasUnits_half]
    omega
  have hgreater : half < w.sub w.floor ↔ unitsPerOne < 2 * (u % unitsPerOne) := by
    rw [hasUnits_half.lt_iff (h.sub_floor hle)]
    omega
  unfold roundEven
  dsimp only
  by_cases hbelow : w.sub w.floor < half
  · rw [if_pos hbelow]
    rw [hless] at hbelow
    exact ⟨_, h.floor, isClosest_floor (by omega) (by omega)⟩
  rw [if_neg hbelow]
  rw [hless, Int.not_lt] at hbelow
  have hnext := h.next (not_dvd_of_le hbelow)
  by_cases habove : half < w.sub w.floor
  · rw [if_pos habove]
    rw [hgreater] at habove
    exact ⟨_, hnext, isClosest_next hbelow (by omega)⟩
  rw [if_neg habove]
  rw [hgreater] at habove
  by_cases heven : w.floor.IsEven
  · rw [if_pos heven]
    exact ⟨_, h.floor, isClosest_floor (by omega) fun _ => h.floor.isEven_iff.mp heven⟩
  · rw [if_neg heven]
    rw [h.floor.isEven_iff] at heven
    exact ⟨_, hnext, isClosest_next hbelow (by omega)⟩

/-- Rounding does not lead below a number that the exact value is not below. -/
theorem IsNearest.not_lt {q : ℚ} {y : Binary64} {m : ℕ} (hx : IsNearest false q x) (hy : HasUnits y m)
    (hle : (m : ℚ) / unitsPerOne ≤ q) : ¬ x < y := by
  intro hlt
  obtain ⟨a, b, ha, hb, hab⟩ := lt_iff.mp hlt
  obtain rfl : (m : ℤ) = b := Option.some.inj (hy.units?.symm.trans hb)
  obtain ⟨k, rfl, hk⟩ : ∃ k : ℕ, a = k ∧ x.absValue? = some ((k : ℚ) / unitsPerOne) := by
    have hsign := hx.sign
    cases x with
    | nan => cases hsign
    | infinity negative | finite negative sig exp fits =>
      obtain rfl := Option.some.inj hsign
      exact ⟨_, (Option.some.inj ha).symm, rfl⟩
  have hkm : (k : ℚ) / unitsPerOne < m / unitsPerOne := by
    rw [div_lt_div_iff_of_pos_right unitsPerOne_pos]
    exact_mod_cast hab
  -- the number would be farther below `q` than `y` is
  have hcloser := (hx.closest y _ _ hk hy.absValue?).1
  rw [Int.natAbs_natCast, abs_of_nonneg (by linarith), abs_of_nonneg (by linarith)] at hcloser
  linarith

/-- Where the distance is rounded the number goes to zero: its floor is odd, and the distance is not below 1/2. -/
theorem roundEven_inexact (h : HasUnits w u) (hlt : (u.natAbs : ℤ) < u % unitsPerOne) :
    ∃ n, HasUnits w.roundEven (n * unitsPerOne) ∧ IsClosest u n := by
  obtain ⟨hdiv, hmod, hneg⟩ := ediv_of_lt_emod hlt
  have hfar : (unitsPerOne : ℤ) ≤ 2 * (u % unitsPerOne) := by omega
  have hbase := h.floor
  rw [hdiv] at hbase
  have hodd : ¬ w.floor.IsEven := by
    rw [hbase.isEven_iff]
    decide
  -- the exact distance is at least 1/2, and rounding does not take it below
  have hbelow : ¬ w.sub w.floor < half := by
    have hneg' := hbase.neg
    rw [neg_one_mul, neg_neg] at hneg'
    have hpositive : ¬ u + (unitsPerOne : ℤ) < 0 := by omega
    have hnear := @nearest_isNearest false (u + unitsPerOne).natAbs 1 Nat.one_pos
    rw [Nat.cast_one, div_one] at hnear
    rw [Binary64.sub, add_eq_nearest h hneg' (by omega), decide_eq_false hpositive]
    refine hnear.not_lt hasUnits_half ?_
    have hhalf := two_mul_halfUnits
    rw [div_le_div_iff_of_pos_right unitsPerOne_pos]
    exact_mod_cast (by omega : halfUnits ≤ (u + unitsPerOne).natAbs)
  unfold roundEven
  dsimp only
  rw [if_neg hbelow, if_neg hodd, ite_self]
  exact ⟨_, h.next (not_dvd_of_le hfar), isClosest_next hfar fun _ => by rw [hdiv]; rfl⟩

theorem HasUnits.roundEven (h : HasUnits w u) : ∃ n, HasUnits w.roundEven (n * unitsPerOne) ∧ IsClosest u n := by
  by_cases hle : u % unitsPerOne ≤ u.natAbs
  · exact roundEven_exact h hle
  · exact roundEven_inexact h (Int.lt_of_not_ge hle)

/-! ## Values -/

def value? : Binary64 → Option ℚ
  | .finite negative sig exp _ => some ((if negative then -1 else 1) * sig * 2 ^ ((exp : ℤ) - 1074))
  | _ => none

theorem cast_unitsPerOne : (unitsPerOne : ℚ) = 2 ^ (1074 : ℤ) := by
  have hpow : (2 : ℚ) ^ (1074 : ℤ) = 2 ^ 1074 := zpow_ofNat 2 1074
  rw [unitsPerOne, cast_magnitude, Nat.cast_one, one_mul, hpow]

theorem hasUnits_of_value? {q : ℚ} (h : w.value? = some q) : ∃ u : ℤ, HasUnits w u ∧ q = u / unitsPerOne := by
  cases w with
  | nan | infinity => cases h
  | finite negative sig exp fits =>
    have hcast : ((signed negative (magnitude sig exp) : ℤ) : ℚ) = (if negative then -1 else 1) * sig * 2 ^ exp := by
      rw [mul_assoc, ← cast_magnitude]
      cases negative <;> simp [signed]
    refine ⟨_, .finite fits, ?_⟩
    rw [hcast, ← Option.some.inj h, cast_unitsPerOne, zpow_sub₀ two_ne_zero, zpow_natCast, mul_div_assoc]

end

end Binary64

/-- The integer nearest to `q`, a half going to the even one. -/
structure IsNearestInteger (q : ℚ) (n : ℤ) : Prop where
  close : |q - n| ≤ 1 / 2
  even : |q - n| = 1 / 2 → Even n

theorem IsNearestInteger.unique {q : ℚ} {m n : ℤ} (hm : IsNearestInteger q m) (hn : IsNearestInteger q n) : m = n := by
  obtain ⟨hm1, hm2⟩ := abs_le.mp hm.close
  obtain ⟨hn1, hn2⟩ := abs_le.mp hn.close
  have hle : m ≤ n + 1 := by
    have hq : (m : ℚ) ≤ n + 1 := by linarith
    exact_mod_cast hq
  have hge : n ≤ m + 1 := by
    have hq : (n : ℚ) ≤ m + 1 := by linarith
    exact_mod_cast hq
  by_contra hne
  -- two integers next to each other are both half of one away, and one of them is odd
  have htie : |q - m| = 1 / 2 ∧ |q - n| = 1 / 2 := by
    rcases Int.lt_or_gt_of_ne hne with hlt | hlt
    · have hn' : (n : ℚ) = m + 1 := by exact_mod_cast (by omega : n = m + 1)
      rw [abs_of_nonneg (by linarith), abs_of_nonpos (by linarith)]
      exact ⟨by linarith, by linarith⟩
    · have hm' : (m : ℚ) = n + 1 := by exact_mod_cast (by omega : m = n + 1)
      rw [abs_of_nonpos (by linarith), abs_of_nonneg (by linarith)]
      exact ⟨by linarith, by linarith⟩
  have hmeven := Int.even_iff.mp (hm.even htie.1)
  have hneven := Int.even_iff.mp (hn.even htie.2)
  omega

/-- Closeness in units is closeness in the rationals. -/
theorem Binary64.IsClosest.isNearestInteger {u n : ℤ} (h : IsClosest u n) :
    IsNearestInteger (u / unitsPerOne) n := by
  have hpos := unitsPerOne_pos
  have habove : -(unitsPerOne : ℚ) ≤ 2 * (u - n * unitsPerOne) := by exact_mod_cast h.above
  have hbelow : 2 * (u - n * unitsPerOne : ℚ) ≤ unitsPerOne := by exact_mod_cast h.below
  have hdistance : (u / unitsPerOne - n : ℚ) = (u - n * unitsPerOne) / unitsPerOne := by
    rw [sub_div, mul_div_cancel_right₀ _ hpos.ne']
  constructor
  · rw [hdistance, abs_le, le_div_iff₀ hpos, div_le_iff₀ hpos]
    exact ⟨by linarith, by linarith⟩
  · intro htie
    rw [Int.even_iff]
    refine h.even ?_
    rw [hdistance, abs_eq (by norm_num), div_eq_iff hpos.ne', div_eq_iff hpos.ne'] at htie
    refine htie.imp (fun htie => ?_) fun htie => ?_
    · have hq : 2 * (u - n * unitsPerOne : ℚ) = unitsPerOne := by linarith
      exact_mod_cast hq
    · have hq : 2 * (u - n * unitsPerOne : ℚ) = -unitsPerOne := by linarith
      exact_mod_cast hq

/-! ## Texts -/

/-- Decimal digits without leading zeros, and a sign if the integer is negative. -/
def IsDecimalText (n : ℤ) (t : Text) : Prop :=
  ∃ digits, Grammar.Whole digits ∧ Numeral.value digits = n.natAbs ∧
    t = .ofChars (if n < 0 then '-' :: digits else digits)

theorem whole_toDigits (n : ℕ) : Grammar.Whole (Nat.toDigits 10 n) := by
  by_cases hn : n = 0
  · subst hn
    exact .zero
  · exact (leading_toDigits hn).whole

theorem WeightLabel.isDecimalText (n : ℤ) : IsDecimalText n (WeightLabel.whole n).text := by
  refine ⟨Nat.toDigits 10 n.natAbs, whole_toDigits _, value_toDigits _, ?_⟩
  have hrepr : Text.ofString n.natAbs.repr = .ofChars (Nat.toDigits 10 n.natAbs) := by
    rw [Text.ofString, Nat.toList_repr]
  show (if n < 0 then "-" ++ Text.ofString n.natAbs.repr else Text.ofString n.natAbs.repr) = _
  rw [hrepr]
  split <;> rfl

/-! ## Labels -/

theorem WeightLabel.ofWeight?_finite {w : Binary64} {u : ℤ} (h : w.HasUnits u) :
    ofWeight? w = w.roundEven.integer?.map whole := by
  cases h
  rfl

theorem WeightLabel.exists_ofWeight? (weight : Binary64) : ∃ label, ofWeight? weight = some label := by
  cases weight with
  | nan => exact ⟨_, rfl⟩
  | infinity negative => exact ⟨_, rfl⟩
  | finite negative sig exp fits =>
    have hunits := @Binary64.HasUnits.finite negative sig exp fits
    obtain ⟨n, hn, -⟩ := hunits.roundEven
    exact ⟨.whole n, by rw [ofWeight?_finite hunits, hn.integer?]; rfl⟩

/-- The label of a finite weight is the decimal text of the one integer nearest to it, a half going to the even one. -/
theorem weight_label_nearest {w : Binary64} {q : ℚ} (h : w.value? = some q) :
    ∃ n : ℤ, w.roundEven.integer? = some n ∧ WeightLabel.ofWeight? w = some (.whole n) ∧ IsNearestInteger q n ∧
      (∀ m, IsNearestInteger q m → m = n) ∧ IsDecimalText n (WeightLabel.whole n).text := by
  obtain ⟨u, hunits, rfl⟩ := Binary64.hasUnits_of_value? h
  obtain ⟨n, hn, hclosest⟩ := hunits.roundEven
  have hnearest := hclosest.isNearestInteger
  refine ⟨n, hn.integer?, ?_, hnearest, fun m hm => hm.unique hnearest, WeightLabel.isDecimalText n⟩
  rw [WeightLabel.ofWeight?_finite hunits, hn.integer?]
  rfl

/-- The next number above -1/2. Its distance from the floor is rounded to 1/2. -/
def Binary64.nearMinusHalf : Binary64 :=
  .finite true 0x1FFFFFFFFFFFFF 1020 (by decide)

theorem weight_label_nearest_near_half :
    Binary64.nearMinusHalf.value? = some (2 ^ (-54 : ℤ) - 1 / 2) ∧
      Binary64.nearMinusHalf.sub Binary64.nearMinusHalf.floor = Binary64.half ∧
      WeightLabel.ofWeight? Binary64.nearMinusHalf = some (.whole 0) := by
  have hvalue : Binary64.nearMinusHalf.value? = some (2 ^ (-54 : ℤ) - 1 / 2) := by
    rw [Binary64.nearMinusHalf, Binary64.value?]
    norm_num
  have hzero : IsNearestInteger (2 ^ (-54 : ℤ) - 1 / 2) 0 := by
    constructor <;> norm_num [abs_of_nonpos]
  obtain ⟨n, -, hlabel, -, honly, -⟩ := weight_label_nearest hvalue
  rw [honly 0 hzero]
  exact ⟨hvalue, by decide +kernel, hlabel⟩

end NetDiagram
