import Mathlib
import NetDiagram.Numeric.Decimal

/-!
# The nearest number

Rounding is fixed by what it has to achieve: no other number is nearer, and of
two that are equally near the even one is taken. Every number is a multiple of
the unit in the last place of the result or lies below the first power of two
under it, so rounding on that one grid is enough. At most one number is nearest,
hence reading a decimal depends on its value alone.
-/

namespace NetDiagram

namespace Binary64

/-! ## What is nearest -/

/-- The absolute value; infinity stands for the first power of two out of range. -/
def absValue? : Binary64 → Option ℚ
  | .nan => none
  | .infinity _ => some (limit / unitsPerOne)
  | .finite _ sig exp _ => some (magnitude sig exp / unitsPerOne)

def sign? : Binary64 → Option Bool
  | .nan => none
  | .infinity negative => some negative
  | .finite negative _ _ _ => some negative

def HasEvenSig : Binary64 → Prop
  | .finite _ sig _ _ => sig % 2 = 0
  | _ => True

/-- The number of that sign nearest to the magnitude `q`, a tie going to the even significand. -/
structure IsNearest (negative : Bool) (q : ℚ) (x : Binary64) : Prop where
  sign : x.sign? = some negative
  closest : ∀ (y : Binary64) (v w : ℚ), x.absValue? = some v → y.absValue? = some w →
    |q - v| ≤ |q - w| ∧ (|q - v| = |q - w| → v = w ∨ x.HasEvenSig)

/-! ## Magnitudes that occur -/

inductive Occurs : Nat → Prop
  | infinite : Occurs limit
  | finite {sig exp : Nat} : Fits sig exp → Occurs (magnitude sig exp)

theorem cast_magnitude (sig exp : Nat) : ((magnitude sig exp : Nat) : ℚ) = sig * 2 ^ exp := by
  simp [magnitude]

theorem limit_eq : limit = magnitude 0x10000000000000 (maxExp + 1) := by
  rw [Nat.add_comm, magnitude_add]; rfl

theorem unitsPerOne_pos : (0 : ℚ) < unitsPerOne := by
  rw [unitsPerOne, cast_magnitude]; positivity

theorem div_unitsPerOne_inj {m n : Nat} (h : (m : ℚ) / unitsPerOne = n / unitsPerOne) : m = n := by
  exact_mod_cast (div_left_inj' unitsPerOne_pos.ne').mp h

theorem absValue?_occurs {x : Binary64} {v : ℚ} (h : x.absValue? = some v) :
    ∃ n, Occurs n ∧ v = (n : ℚ) / unitsPerOne := by
  cases x with
  | nan => cases h
  | infinity s => exact ⟨limit, .infinite, (Option.some.inj h).symm⟩
  | finite s m e hf => exact ⟨_, .finite hf, (Option.some.inj h).symm⟩

theorem Occurs.absValue? {n : Nat} (h : Occurs n) : ∃ x : Binary64, x.absValue? = some ((n : ℚ) / unitsPerOne) := by
  cases h with
  | infinite => exact ⟨.infinity false, rfl⟩
  | finite hf => exact ⟨.finite false _ _ hf, rfl⟩

theorem Occurs.le_limit {n : Nat} (h : Occurs n) : n ≤ limit := by
  cases h with
  | infinite => exact Nat.le_refl _
  | finite hf => exact Nat.le_of_lt hf.lt_limit

/-- A magnitude lies on the grid of an exponent or below the first power of two that has this exponent. -/
theorem Occurs.grid {n : Nat} (h : Occurs n) {e : Nat} (he : e ≤ maxExp) :
    (∃ k, n = magnitude k e) ∨ (e ≠ 0 ∧ n < magnitude 0x10000000000000 e) := by
  obtain ⟨m, f, hn, hm⟩ : ∃ m f, n = magnitude m f ∧ (e ≤ f ∨ m < 0x20000000000000) := by
    cases h with
    | infinite => exact ⟨_, _, rfl, .inl he⟩
    | @finite m f hf => exact ⟨m, f, rfl, .inr hf.1⟩
  by_cases hf : e ≤ f
  · refine .inl ⟨magnitude m (f - e), ?_⟩
    rw [hn, ← magnitude_add, Nat.sub_add_cancel hf]
  · refine .inr ⟨by omega, ?_⟩
    have hm : m < 0x20000000000000 := hm.resolve_left hf
    calc n = magnitude m f := hn
      _ < magnitude 0x20000000000000 f := magnitude_lt_magnitude hm
      _ = magnitude 0x10000000000000 (1 + f) := by rw [magnitude_add]; rfl
      _ ≤ magnitude 0x10000000000000 e := magnitude_le_magnitude _ (by omega)

/-! ## Rounding on a grid -/

theorem roundDiv_closest {num den : Nat} (h : 0 < den) (k : Nat) :
    |(num : ℚ) / den - roundDiv num den| ≤ |(num : ℚ) / den - k| ∧
      (|(num : ℚ) / den - roundDiv num den| = |(num : ℚ) / den - k| →
        roundDiv num den = k ∨ roundDiv num den % 2 = 0) := by
  have hden : (0 : ℚ) < den := by exact_mod_cast h
  have hq : (num : ℚ) / den * den = num := div_mul_cancel₀ _ hden.ne'
  have hle : (2 * (roundDiv num den * den) : ℚ) ≤ 2 * num + den := by exact_mod_cast roundDiv_le h
  have hge : (2 * num : ℚ) ≤ 2 * (roundDiv num den * den) + den := by exact_mod_cast le_roundDiv h
  have htie : 2 * ((num : ℚ) / den - roundDiv num den) = 1 ∨ 2 * ((num : ℚ) / den - roundDiv num den) = -1 →
      roundDiv num den % 2 = 0 := by
    intro ht
    refine roundDiv_even h ?_
    rcases ht with ht | ht
    · left
      have : (2 * num : ℚ) = 2 * (roundDiv num den * den) + den := by rw [← hq]; linear_combination den * ht
      exact_mod_cast this
    · right
      have : (2 * num + den : ℚ) = 2 * (roundDiv num den * den) := by rw [← hq]; linear_combination den * ht
      exact_mod_cast this
  generalize hr : roundDiv num den = r at *
  generalize (num : ℚ) / den = q at *
  have hle' : (r : ℚ) - q ≤ 1 / 2 := by nlinarith
  have hge' : q - r ≤ 1 / 2 := by nlinarith
  -- rounding goes at most half a step, and every other integer is at least another half away
  rcases Nat.lt_trichotomy r k with hk | hk | hk
  · have hk : (r : ℚ) + 1 ≤ k := by exact_mod_cast hk
    rw [abs_of_nonpos (show q - k ≤ 0 by linarith)]
    refine ⟨abs_le.mpr ⟨by linarith, by linarith⟩, fun heq => .inr (htie ?_)⟩
    rcases abs_cases (q - r) with ⟨h1, -⟩ | ⟨h1, -⟩
    · left; linarith
    · right; linarith
  · subst hk; exact ⟨le_rfl, fun _ => .inl rfl⟩
  · have hk : (k : ℚ) + 1 ≤ r := by exact_mod_cast hk
    rw [abs_of_nonneg (show 0 ≤ q - k by linarith)]
    refine ⟨abs_le.mpr ⟨by linarith, by linarith⟩, fun heq => .inr (htie ?_)⟩
    rcases abs_cases (q - r) with ⟨h1, -⟩ | ⟨h1, -⟩
    · left; linarith
    · right; linarith

/-! ## Rounding in range and out of range -/

theorem isNearest_of_occurs {negative : Bool} {q : ℚ} {x : Binary64} {m : Nat} (hs : x.sign? = some negative)
    (hx : x.absValue? = some ((m : ℚ) / unitsPerOne))
    (hm : ∀ n, Occurs n → |q - m| ≤ |q - n| ∧ (|q - m| = |q - n| → m = n ∨ x.HasEvenSig)) :
    IsNearest negative (q / unitsPerOne) x := by
  refine ⟨hs, fun y v w hv hw => ?_⟩
  obtain ⟨n, hn, rfl⟩ := absValue?_occurs hw
  obtain rfl : (m : ℚ) / unitsPerOne = v := Option.some.inj (hx.symm.trans hv)
  obtain ⟨hle, htie⟩ := hm n hn
  have hu := unitsPerOne_pos
  rw [← sub_div, ← sub_div, abs_div, abs_div, div_le_div_iff_of_pos_right (abs_pos.mpr hu.ne'),
    div_left_inj' (abs_pos.mpr hu.ne').ne']
  refine ⟨hle, fun heq => (htie heq).imp_left fun hmn => by rw [hmn]⟩

section
variable (num den : Nat)

def gridExp : Nat := (num / den).log2 - 52

def gridSig : Nat := roundDiv num (magnitude den (gridExp num den))

variable {num den}

theorem gridExp_le (he : gridExp num den ≠ 0) : magnitude 0x10000000000000 (gridExp num den) ≤ num / den := by
  have hlog : (num / den).log2 = 52 + gridExp num den := by unfold gridExp at he ⊢; omega
  have hq : num / den ≠ 0 := by
    intro h0; rw [h0, Nat.log2_zero] at hlog; omega
  have := Nat.log2_self_le hq
  rwa [hlog, Nat.pow_add] at this

theorem lt_gridExp (h : 0 < den) : num < magnitude den (53 + gridExp num den) := by
  have hlt : num / den < 2 ^ (53 + gridExp num den) := by
    refine Nat.lt_of_lt_of_le Nat.lt_log2_self (Nat.pow_le_pow_right (by decide) ?_)
    unfold gridExp; omega
  rw [magnitude, Nat.mul_comm]
  exact (Nat.div_lt_iff_lt_mul h).mp hlt

theorem magnitude_den_pos (h : 0 < den) (e : Nat) : 0 < magnitude den e :=
  Nat.pos_of_ne_zero (mt magnitude_eq_zero.mp h.ne')

theorem gridSig_le (h : 0 < den) : gridSig num den ≤ 0x20000000000000 := by
  have hd := magnitude_den_pos h (gridExp num den)
  have hr := @roundDiv_le num _ hd
  have hlt := @lt_gridExp num _ h
  rw [Nat.add_comm, magnitude_add] at hlt
  have h53 : magnitude (magnitude den (gridExp num den)) 53 =
      0x20000000000000 * magnitude den (gridExp num den) := Nat.mul_comm _ _
  rw [h53] at hlt
  by_contra hgt
  have : 0x20000000000001 * magnitude den (gridExp num den) ≤ gridSig num den * magnitude den (gridExp num den) :=
    Nat.mul_le_mul_right _ (by omega)
  unfold gridSig at this
  omega

/-- Above the subnormal numbers the significand keeps all its bits. -/
theorem le_gridSig (h : 0 < den) (he : gridExp num den ≠ 0) : 0x10000000000000 ≤ gridSig num den := by
  have hd := magnitude_den_pos h (gridExp num den)
  have hr := @le_roundDiv num _ hd
  have hle : 0x10000000000000 * magnitude den (gridExp num den) ≤ num := by
    have := (Nat.le_div_iff_mul_le h).mp (gridExp_le he)
    calc 0x10000000000000 * magnitude den (gridExp num den)
        = magnitude 0x10000000000000 (gridExp num den) * den := by simp only [magnitude]; ring
      _ ≤ num := this
  by_contra hlt
  have : (gridSig num den + 1) * magnitude den (gridExp num den) ≤
      0x10000000000000 * magnitude den (gridExp num den) := Nat.mul_le_mul_right _ (by omega)
  rw [Nat.add_mul] at this
  unfold gridSig at this
  omega

theorem quotient_eq (h : 0 < den) (e : Nat) : (num : ℚ) / den = (num : ℚ) / magnitude den e * 2 ^ e := by
  have : (den : ℚ) ≠ 0 := by exact_mod_cast h.ne'
  rw [cast_magnitude]; field_simp

theorem grid_closest (h : 0 < den) (he : gridExp num den ≤ maxExp) {n : Nat} (hn : Occurs n) :
    |(num : ℚ) / den - magnitude (gridSig num den) (gridExp num den)| ≤ |(num : ℚ) / den - n| ∧
      (|(num : ℚ) / den - magnitude (gridSig num den) (gridExp num den)| = |(num : ℚ) / den - n| →
        magnitude (gridSig num den) (gridExp num den) = n ∨ gridSig num den % 2 = 0) := by
  have hp : (0 : ℚ) < 2 ^ gridExp num den := by positivity
  have hgrid : ∀ k : Nat, |(num : ℚ) / den - magnitude k (gridExp num den)| =
      |(num : ℚ) / magnitude den (gridExp num den) - k| * 2 ^ gridExp num den := by
    intro k
    rw [quotient_eq h (gridExp num den), cast_magnitude k, ← sub_mul, abs_mul, abs_of_pos hp]
  have hround : ∀ k : Nat, _ := @roundDiv_closest num _ (magnitude_den_pos h (gridExp num den))
  rw [← gridSig] at hround
  -- a number is on the grid, or below every point of it that has all bits
  rcases hn.grid he with ⟨k, rfl⟩ | ⟨he0, hlt⟩
  · rw [hgrid, hgrid, mul_le_mul_iff_left₀ hp, mul_left_inj' hp.ne']
    exact ⟨(hround k).1, fun heq => ((hround k).2 heq).imp_left fun hk => by rw [hk]⟩
  · have hB := (hround 0x10000000000000).1
    rw [← mul_le_mul_iff_left₀ hp, ← hgrid, ← hgrid] at hB
    have hBQ : (magnitude 0x10000000000000 (gridExp num den) : ℚ) ≤ (num : ℚ) / den :=
      le_trans (by exact_mod_cast gridExp_le he0) Nat.cast_div_le
    have hnB : (n : ℚ) < magnitude 0x10000000000000 (gridExp num den) := by exact_mod_cast hlt
    rw [abs_of_nonneg (sub_nonneg.mpr hBQ)] at hB
    have habs := le_abs_self ((num : ℚ) / den - n)
    exact ⟨by linarith, fun heq => absurd heq (by linarith)⟩

end

theorem nearest_eq (negative : Bool) (num den : Nat) :
    nearest negative num den =
      if gridSig num den = 0x20000000000000 then ofFields negative 0x10000000000000 (gridExp num den + 1)
      else ofFields negative (gridSig num den) (gridExp num den) :=
  rfl

theorem ofFields_of_fits {negative : Bool} {sig exp : Nat} (h : Fits sig exp) :
    ofFields negative sig exp = .finite negative sig exp h :=
  dif_pos h

theorem ofFields_of_exp {negative : Bool} {sig exp : Nat} (h : maxExp < exp) :
    ofFields negative sig exp = .infinity negative :=
  dif_neg fun hf => absurd hf.2.2 (by omega)

/-- In range the result has the magnitude found on the grid, whether or not the significand is carried. -/
theorem nearest_of_exp_le {negative : Bool} {num den : Nat} (h : 0 < den) (he : gridExp num den ≤ maxExp) :
    (nearest negative num den).sign? = some negative ∧
      (nearest negative num den).absValue? =
        some (((magnitude (gridSig num den) (gridExp num den) : Nat) : ℚ) / unitsPerOne) ∧
      (gridSig num den % 2 = 0 → (nearest negative num den).HasEvenSig) := by
  rw [nearest_eq]
  by_cases hc : gridSig num den = 0x20000000000000
  · -- rounding has carried into the next exponent, which may be out of range
    rw [if_pos hc, hc]
    have hcarry : magnitude 0x20000000000000 (gridExp num den) =
        magnitude 0x10000000000000 (gridExp num den + 1) := by rw [Nat.add_comm, magnitude_add]; rfl
    by_cases hlt : gridExp num den < maxExp
    · have hf : Fits 0x10000000000000 (gridExp num den + 1) := ⟨by decide, .inl (Nat.le_refl _), hlt⟩
      rw [ofFields_of_fits hf]
      exact ⟨rfl, by rw [absValue?, hcarry], fun _ => rfl⟩
    · have heq : gridExp num den = maxExp := by omega
      rw [ofFields_of_exp (by omega), heq]
      exact ⟨rfl, rfl, fun _ => trivial⟩
  · rw [if_neg hc]
    have hf : Fits (gridSig num den) (gridExp num den) := by
      refine ⟨Nat.lt_of_le_of_ne (gridSig_le h) hc, ?_, he⟩
      by_cases h0 : gridExp num den = 0
      · exact .inr h0
      · exact .inl (le_gridSig h h0)
    rw [ofFields_of_fits hf]
    exact ⟨rfl, rfl, id⟩

theorem nearest_of_lt_exp {negative : Bool} {num den : Nat} (he : maxExp < gridExp num den) :
    nearest negative num den = .infinity negative := by
  rw [nearest_eq]
  split <;> exact ofFields_of_exp (by omega)

theorem isNearest_infinity {negative : Bool} {q : ℚ} (hq : (limit : ℚ) ≤ q) :
    IsNearest negative (q / unitsPerOne) (.infinity negative) := by
  refine isNearest_of_occurs rfl rfl fun n hn => ?_
  have hn : (n : ℚ) ≤ limit := by exact_mod_cast hn.le_limit
  rw [abs_of_nonneg (sub_nonneg.mpr hq), abs_of_nonneg (sub_nonneg.mpr (hn.trans hq))]
  exact ⟨by linarith, fun _ => .inr trivial⟩

theorem isNearest_zero {negative : Bool} {q : ℚ} (h0 : 0 ≤ q) (hq : 2 * q < 1) :
    IsNearest negative (q / unitsPerOne) (.zero negative) := by
  refine isNearest_of_occurs (m := 0) rfl rfl fun n _ => ?_
  rw [Nat.cast_zero, sub_zero, abs_of_nonneg h0]
  rcases Nat.eq_zero_or_pos n with rfl | hn
  · exact ⟨by rw [Nat.cast_zero, sub_zero, abs_of_nonneg h0], fun _ => .inl rfl⟩
  · have hn : (1 : ℚ) ≤ n := by exact_mod_cast hn
    rw [abs_of_nonpos (by linarith)]
    exact ⟨by linarith, fun heq => absurd heq (by linarith)⟩

theorem nearest_isNearest (negative : Bool) {num den : Nat} (h : 0 < den) :
    IsNearest negative ((num : ℚ) / den / unitsPerOne) (nearest negative num den) := by
  by_cases he : gridExp num den ≤ maxExp
  · obtain ⟨hs, hv, heven⟩ := @nearest_of_exp_le negative _ _ h he
    exact isNearest_of_occurs hs hv fun n hn =>
      ⟨(grid_closest h he hn).1, fun heq => ((grid_closest h he hn).2 heq).imp_right heven⟩
  · have he : maxExp < gridExp num den := Nat.lt_of_not_le he
    rw [nearest_of_lt_exp he]
    have hle : limit ≤ num / den := by
      rw [limit_eq]
      exact Nat.le_trans (magnitude_le_magnitude _ he) (gridExp_le (by omega))
    exact isNearest_infinity (le_trans (by exact_mod_cast hle) Nat.cast_div_le)

/-! ## One nearest number -/

theorem isNearest_self {x : Binary64} {negative : Bool} {q : ℚ} (hs : x.sign? = some negative)
    (hq : x.absValue? = some q) : IsNearest negative q x := by
  refine ⟨hs, fun y v w hv _ => ?_⟩
  obtain rfl : q = v := Option.some.inj (hq.symm.trans hv)
  rw [sub_self, abs_zero]
  refine ⟨abs_nonneg _, fun h => .inl ?_⟩
  have := abs_eq_zero.mp h.symm
  linarith

theorem Fits.next {m e : Nat} (h : Fits m e) (heven : m % 2 = 0) :
    Fits (m + 1) e ∧ ∀ n, Occurs n → magnitude m e < n → magnitude (m + 1) e ≤ n := by
  refine ⟨⟨?_, h.2.1.imp_left (by omega), h.2.2⟩, fun n hn hlt => ?_⟩
  · have := h.1; omega
  · rcases hn.grid h.2.2 with ⟨k, rfl⟩ | ⟨he, hlt'⟩
    · have hk : m < k := by
        refine Nat.lt_of_not_le fun hle => ?_
        exact absurd (Nat.mul_le_mul_right (Nat.pow 2 e) hle) (Nat.not_le_of_lt hlt)
      exact Nat.mul_le_mul_right _ hk
    · have hm : 0x10000000000000 ≤ m := h.2.1.resolve_right he
      have : magnitude 0x10000000000000 e ≤ magnitude m e := Nat.mul_le_mul_right _ hm
      omega

theorem eq_of_absValue? {x y : Binary64} {v : ℚ} (hs : x.sign? = y.sign?) (hx : x.absValue? = some v)
    (hy : y.absValue? = some v) : x = y := by
  have hxy := hx.trans hy.symm
  cases x with
  | nan => cases hx
  | infinity s =>
    cases y with
    | nan => cases hy
    | infinity t => rw [Option.some.inj hs]
    | finite t n f hf => exact absurd (div_unitsPerOne_inj (Option.some.inj hxy)) hf.lt_limit.ne'
  | finite s m e hm =>
    cases y with
    | nan => cases hy
    | infinity t => exact absurd (div_unitsPerOne_inj (Option.some.inj hxy)) hm.lt_limit.ne
    | finite t n f hn =>
      obtain ⟨rfl, rfl⟩ := hm.unique hn (div_unitsPerOne_inj (Option.some.inj hxy))
      rw [Option.some.inj hs]

theorem exists_absValue? {x : Binary64} {negative : Bool} (h : x.sign? = some negative) :
    ∃ v, x.absValue? = some v := by
  cases x with
  | nan => cases h
  | infinity _ | finite _ _ _ _ => exact ⟨_, rfl⟩

theorem not_both_nearest {negative : Bool} {q v w : ℚ} {x y : Binary64} (hx : IsNearest negative q x)
    (hys : y.sign? = some negative) (hv : x.absValue? = some v) (hw : y.absValue? = some w)
    (heq : |q - v| = |q - w|) (hlt : v < w) (hxe : x.HasEvenSig) (hye : y.HasEvenSig) : False := by
  have hu := unitsPerOne_pos
  obtain ⟨n, hn, rfl⟩ := absValue?_occurs hw
  cases x with
  | nan => cases hv
  | infinity s =>
    obtain rfl := Option.some.inj hv
    have : (limit : ℚ) < n := (div_lt_div_iff_of_pos_right hu).mp hlt
    have : limit < n := by exact_mod_cast this
    exact absurd hn.le_limit (by omega)
  | finite s m e hf =>
    obtain rfl := Option.some.inj hv
    have hlt' : (magnitude m e : ℚ) < n := (div_lt_div_iff_of_pos_right hu).mp hlt
    obtain ⟨hf', hnext⟩ := hf.next hxe
    have hle := hnext n hn (by exact_mod_cast hlt')
    obtain hlt'' | heq' := Nat.lt_or_eq_of_le hle
    · -- the magnitude in between is nearer than both
      obtain ⟨z, hz⟩ := (Occurs.finite hf').absValue?
      have hz := (hx.closest z _ _ hv hz).1
      have h1 : (magnitude m e : ℚ) / unitsPerOne < (magnitude (m + 1) e : ℚ) / unitsPerOne :=
        (div_lt_div_iff_of_pos_right hu).mpr (by exact_mod_cast magnitude_lt_magnitude (Nat.lt_succ_self m))
      have h2 : (magnitude (m + 1) e : ℚ) / unitsPerOne < (n : ℚ) / unitsPerOne :=
        (div_lt_div_iff_of_pos_right hu).mpr (by exact_mod_cast hlt'')
      rcases abs_cases (q - (magnitude m e : ℚ) / unitsPerOne) with ⟨ha, _⟩ | ⟨ha, _⟩ <;>
        rcases abs_cases (q - (n : ℚ) / unitsPerOne) with ⟨hb, _⟩ | ⟨hb, _⟩ <;>
        rcases abs_cases (q - (magnitude (m + 1) e : ℚ) / unitsPerOne) with ⟨hc, _⟩ | ⟨hc, _⟩ <;>
        linarith
    · cases hn with
      | infinite => exact absurd heq' hf'.lt_limit.ne
      | @finite t f ht =>
        -- neighbours have significands of different parity
        obtain ⟨rfl, rfl⟩ := hf'.unique ht heq'
        obtain rfl : y = .finite negative (m + 1) e ht := eq_of_absValue? hys hw rfl
        simp only [HasEvenSig] at hxe hye
        omega

/-- Two numbers that tie are neighbours, and only one of them is even. -/
theorem IsNearest.unique {negative : Bool} {q : ℚ} {x y : Binary64} (hx : IsNearest negative q x)
    (hy : IsNearest negative q y) : x = y := by
  obtain ⟨v, hv⟩ := exists_absValue? hx.sign
  obtain ⟨w, hw⟩ := exists_absValue? hy.sign
  have hvw := hx.closest y v w hv hw
  have hwv := hy.closest x w v hw hv
  have heq : |q - v| = |q - w| := le_antisymm hvw.1 hwv.1
  obtain hlt | rfl | hlt := lt_trichotomy v w
  · have hxe := (hvw.2 heq).resolve_left hlt.ne
    have hye := (hwv.2 heq.symm).resolve_left hlt.ne'
    exact (not_both_nearest hx hy.sign hv hw heq hlt hxe hye).elim
  · exact eq_of_absValue? (hx.sign.trans hy.sign.symm) hv hw
  · have hxe := (hvw.2 heq).resolve_left hlt.ne'
    have hye := (hwv.2 heq.symm).resolve_left hlt.ne
    exact (not_both_nearest hy hx.sign hw hv heq.symm hlt hye hxe).elim

end Binary64

/-! ## Decimals -/

namespace Decimal

def value (d : Decimal) : ℚ :=
  d.coeff * 10 ^ d.exp

theorem value_nonneg (d : Decimal) : 0 ≤ d.value := by
  unfold value; positivity

theorem ratio_eq (d : Decimal) : 0 < d.ratio.2 ∧ (d.ratio.1 : ℚ) / d.ratio.2 = d.value * Binary64.unitsPerOne := by
  obtain ⟨coeff, exp⟩ := d
  cases exp with
  | ofNat e =>
    refine ⟨Nat.one_pos, ?_⟩
    simp only [ratio, value, Int.ofNat_eq_natCast, zpow_natCast, Nat.pow_eq]
    push_cast
    rw [div_one]
  | negSucc e =>
    refine ⟨Nat.pow_pos (by decide), ?_⟩
    simp only [ratio, value, zpow_negSucc, Nat.pow_eq]
    push_cast
    rw [mul_right_comm, div_eq_mul_inv]

theorem limit_le_of_overflows {d : Decimal} (h : d.Overflows) :
    (Binary64.limit : ℚ) ≤ d.value * Binary64.unitsPerOne := by
  have hu := Binary64.unitsPerOne_pos
  have hc : (1 : ℚ) ≤ d.coeff := by exact_mod_cast Nat.one_le_iff_ne_zero.mpr h.1
  have hexp : (10 : ℚ) ^ (309 : ℤ) ≤ 10 ^ d.exp := zpow_le_zpow_right₀ (by norm_num) h.2
  have hbig : (2 : ℚ) ^ 1024 ≤ 10 ^ (309 : ℤ) := by
    have : 2 ^ 1024 ≤ 10 ^ 309 := by decide +kernel
    exact_mod_cast this
  have hl : Binary64.limit = 2 ^ 1024 * Binary64.unitsPerOne := by decide +kernel
  rw [hl, Nat.cast_mul, Nat.cast_pow, Nat.cast_ofNat]
  refine mul_le_mul_of_nonneg_right ?_ hu.le
  calc (2 : ℚ) ^ 1024 ≤ 1 * 10 ^ d.exp := by rw [one_mul]; exact hbig.trans hexp
    _ ≤ d.value := mul_le_mul_of_nonneg_right hc (by positivity)

/-- What underflows is less than half of the least positive number. -/
theorem value_lt_of_underflows {d : Decimal} (h : d.Underflows) : 2 * (d.value * Binary64.unitsPerOne) < 1 := by
  rcases h with h | h
  · rw [value, h, Nat.cast_zero, zero_mul, zero_mul, mul_zero]; exact one_pos
  · obtain ⟨k, hk⟩ : ∃ k : Nat, d.exp = -k := ⟨d.exp.natAbs, by omega⟩
    have hk3 : d.coeff.log2 + 1077 ≤ 3 * k := by omega
    have hc : d.coeff < 2 ^ (d.coeff.log2 + 1) := Nat.lt_log2_self
    have hpow : 2 ^ (d.coeff.log2 + 1077) ≤ 10 ^ k := calc
      2 ^ (d.coeff.log2 + 1077) ≤ 2 ^ (3 * k) := Nat.pow_le_pow_right (by decide) hk3
      _ = 8 ^ k := by rw [Nat.pow_mul]
      _ ≤ 10 ^ k := Nat.pow_le_pow_left (by decide) k
    have hnat : 2 * (d.coeff * 2 ^ 1074) < 10 ^ k := calc
      2 * (d.coeff * 2 ^ 1074) < 2 * (2 ^ (d.coeff.log2 + 1) * 2 ^ 1074) := by
        have : d.coeff * 2 ^ 1074 < 2 ^ (d.coeff.log2 + 1) * 2 ^ 1074 := Nat.mul_lt_mul_of_pos_right hc (by positivity)
        omega
      _ = 2 ^ (d.coeff.log2 + 1 + 1074 + 1) := by rw [← Nat.pow_add, ← Nat.pow_succ']
      _ ≤ 2 ^ (d.coeff.log2 + 1077) := Nat.pow_le_pow_right (by decide) (by omega)
      _ ≤ 10 ^ k := hpow
    have hq : (2 * (d.coeff * 2 ^ 1074) : ℚ) < 10 ^ k := by exact_mod_cast hnat
    have h10 : (0 : ℚ) < 10 ^ k := by positivity
    rw [value, hk, zpow_neg, zpow_natCast, Binary64.unitsPerOne, Binary64.cast_magnitude]
    calc 2 * (d.coeff * ((10 : ℚ) ^ k)⁻¹ * ((1 : ℕ) * 2 ^ 1074)) = 2 * (d.coeff * 2 ^ 1074) / 10 ^ k := by
          push_cast
          generalize (2 : ℚ) ^ 1074 = u
          ring
      _ < 1 := (div_lt_one h10).mpr hq

/-- A decimal is read as the nearest number, also where the tests cut the computation short. -/
theorem toBinary64_isNearest (d : Decimal) (negative : Bool) :
    Binary64.IsNearest negative d.value (d.toBinary64 negative) := by
  have hcancel : d.value * Binary64.unitsPerOne / Binary64.unitsPerOne = d.value :=
    mul_div_cancel_right₀ _ Binary64.unitsPerOne_pos.ne'
  rw [← hcancel, toBinary64]
  by_cases hover : d.Overflows
  · rw [if_pos hover]
    exact Binary64.isNearest_infinity (limit_le_of_overflows hover)
  rw [if_neg hover]
  by_cases hunder : d.Underflows
  · rw [if_pos hunder]
    exact Binary64.isNearest_zero (mul_nonneg d.value_nonneg Binary64.unitsPerOne_pos.le)
      (value_lt_of_underflows hunder)
  · rw [if_neg hunder, ← d.ratio_eq.2]
    exact Binary64.nearest_isNearest negative d.ratio_eq.1

end Decimal

end NetDiagram
