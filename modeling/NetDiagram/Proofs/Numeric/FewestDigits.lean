import NetDiagram.Proofs.Numeric.ReadBack

/-!
# No numeral is shorter

The magnitudes that round to one number make an interval. A search from coarse
grids to fine ones meets this interval first where a point of the grid lies in
it, and a numeral of fewer digits would stand for a point of a coarser grid.
-/

namespace NetDiagram

open Grammar Numeral

/-! ## Rounding keeps the order -/

namespace Binary64

section
variable {q v w : ℚ}

theorem nearer_lower_iff (h : v < w) : |q - v| ≤ |q - w| ↔ 2 * q ≤ v + w := by
  rw [← sq_le_sq]
  constructor
  · intro hle
    by_contra hgt
    nlinarith
  · intro hle
    nlinarith

theorem nearer_upper_iff (h : v < w) : |q - w| ≤ |q - v| ↔ v + w ≤ 2 * q := by
  rw [← sq_le_sq]
  constructor
  · intro hle
    by_contra hgt
    nlinarith
  · intro hle
    nlinarith

end

section
variable {negative : Bool} {p q r : ℚ} {x y : Binary64}

theorem IsNearest.between (hp : IsNearest negative p x) (hr : IsNearest negative r x) (hpq : p ≤ q) (hqr : q ≤ r) :
    IsNearest negative q x := by
  refine ⟨hp.sign, fun y v w hv hw => ?_⟩
  obtain ⟨hple, hptie⟩ := hp.closest y v w hv hw
  obtain ⟨hrle, hrtie⟩ := hr.closest y v w hv hw
  rcases lt_trichotomy v w with hlt | rfl | hgt
  · -- the other number is above, and already the upper end is not beyond the middle
    rw [nearer_lower_iff hlt] at hrle ⊢
    refine ⟨by linarith, fun htie => hrtie (le_antisymm ((nearer_lower_iff hlt).mpr hrle) ?_)⟩
    have hmid := (nearer_upper_iff hlt).mp htie.ge
    exact (nearer_upper_iff hlt).mpr (by linarith)
  · exact ⟨le_rfl, fun _ => .inl rfl⟩
  · rw [nearer_upper_iff hgt] at hple ⊢
    refine ⟨by linarith, fun htie => hptie (le_antisymm ((nearer_upper_iff hgt).mpr hple) ?_)⟩
    have hmid := (nearer_lower_iff hgt).mp htie.ge
    exact (nearer_lower_iff hgt).mpr (by linarith)

theorem IsNearest.mono (hx : IsNearest negative q x) (hy : IsNearest negative r y) (h : q ≤ r) {v w : ℚ}
    (hv : x.absValue? = some v) (hw : y.absValue? = some w) : v ≤ w := by
  by_contra hlt
  rw [not_le] at hlt
  have hq := (nearer_upper_iff hlt).mp (hx.closest y v w hv hw).1
  have hr := (nearer_lower_iff hlt).mp (hy.closest x w v hw hv).1
  obtain rfl : q = r := by linarith
  obtain rfl := hx.unique hy
  exact hlt.ne (Option.some.inj (hw.symm.trans hv))

end

end Binary64

/-! ## Grids -/

namespace Decimal

theorem toBinary64_eq_iff {d : Decimal} {negative : Bool} {x : Binary64} :
    d.toBinary64 negative = x ↔ x.IsNearest negative d.value := by
  constructor
  · intro h
    exact h ▸ d.toBinary64_isNearest negative
  · intro h
    exact (d.toBinary64_isNearest negative).unique h

theorem steps_eq (units : ℕ) (exp : ℤ) :
    0 < (steps units exp).2 ∧
      (units : ℚ) / Binary64.unitsPerOne = (steps units exp).1 / (steps units exp).2 * 10 ^ exp := by
  have hu := Binary64.unitsPerOne_pos
  have hun : 0 < Binary64.unitsPerOne := by exact_mod_cast hu
  cases exp with
  | ofNat e =>
    simp only [steps, Int.ofNat_eq_natCast, zpow_natCast, Nat.pow_eq]
    refine ⟨Nat.mul_pos hun (Nat.pow_pos (by decide)), ?_⟩
    push_cast
    field_simp
  | negSucc e =>
    simp only [steps, zpow_negSucc, Nat.pow_eq]
    refine ⟨hun, ?_⟩
    push_cast
    field_simp

/-- The last point of the grid that is not above the magnitude, by its number. -/
def gridFloor (units : ℕ) (exp : ℤ) : ℕ :=
  (steps units exp).1 / (steps units exp).2

theorem mem_neighbours_iff {units : ℕ} {exp : ℤ} {d : Decimal} :
    d ∈ neighbours units exp ↔ d = ⟨gridFloor units exp, exp⟩ ∨ d = ⟨gridFloor units exp + 1, exp⟩ := by
  -- the nearer one stands in front
  have hpair : neighbours units exp = [⟨gridFloor units exp, exp⟩, ⟨gridFloor units exp + 1, exp⟩] ∨
      neighbours units exp = [⟨gridFloor units exp + 1, exp⟩, ⟨gridFloor units exp, exp⟩] := by
    unfold neighbours roundDiv gridFloor
    dsimp only
    split
    · left
      rw [if_pos rfl]
    · right
      rw [if_neg (Nat.succ_ne_self _)]
  rcases hpair with hpair | hpair
  · rw [hpair, List.mem_cons, List.mem_singleton]
  · rw [hpair, List.mem_cons, List.mem_singleton, or_comm]

theorem gridFloor_le (units : ℕ) (exp : ℤ) : (mk (gridFloor units exp) exp).value ≤ units / Binary64.unitsPerOne := by
  rw [(steps_eq units exp).2]
  exact mul_le_mul_of_nonneg_right Nat.cast_div_le (by positivity)

theorem lt_gridFloor_succ (units : ℕ) (exp : ℤ) :
    units / Binary64.unitsPerOne < (mk (gridFloor units exp + 1) exp).value := by
  obtain ⟨hden, hvalue⟩ := steps_eq units exp
  have hden' : (0 : ℚ) < (steps units exp).2 := by exact_mod_cast hden
  have hnat : (steps units exp).1 < (gridFloor units exp + 1) * (steps units exp).2 := by
    rw [Nat.mul_comm]
    exact Nat.lt_mul_div_succ _ hden
  rw [hvalue]
  refine mul_lt_mul_of_pos_right ?_ (by positivity)
  rw [div_lt_iff₀ hden']
  exact_mod_cast hnat

theorem value_le_value {m n : ℕ} (h : m ≤ n) (exp : ℤ) : (mk m exp).value ≤ (mk n exp).value :=
  mul_le_mul_of_nonneg_right (Nat.cast_le.mpr h) (by positivity)

/-! ## The search -/

section
variable {x : Binary64} {units : ℕ}

def Misses (exp : ℤ) (x : Binary64) : Prop :=
  ∀ k, ¬ x.IsNearest false (mk k exp).value

variable (hs : x.sign? = some false) (hv : x.absValue? = some ((units : ℚ) / Binary64.unitsPerOne))
include hs hv

/-- Next to the number lies a point that reads as the number where any point of the grid does. -/
theorem misses_of_neighbours {exp : ℤ} (h : ∀ d ∈ neighbours units exp, d.toBinary64 false ≠ x) : Misses exp x := by
  intro k hk
  have hself := Binary64.isNearest_self hs hv
  rcases Nat.lt_or_ge (gridFloor units exp) k with habove | hbelow
  · refine h _ (mem_neighbours_iff.mpr (.inr rfl)) (toBinary64_eq_iff.mpr ?_)
    exact hself.between hk (lt_gridFloor_succ units exp).le (value_le_value habove exp)
  · refine h _ (mem_neighbours_iff.mpr (.inl rfl)) (toBinary64_eq_iff.mpr ?_)
    exact hk.between hself (value_le_value hbelow exp) (gridFloor_le units exp)

/-- What the search stops at is next to the number on the first grid, or the next coarser grid misses it. -/
theorem search_stops {fuel : ℕ} {exp : ℤ} (hexp : exp = (fuel + 1 : ℕ) - 1074) :
    search x units (fuel + 1) exp ∈ neighbours units exp ∨ Misses ((search x units (fuel + 1) exp).exp + 1) x := by
  induction fuel generalizing exp with
  | zero =>
    rw [search]
    split
    · rename_i d hd
      exact .inl (List.mem_of_find?_eq_some hd)
    · rename_i hnone
      right
      rw [search, show (-1074 : ℤ) + 1 = exp by omega]
      exact misses_of_neighbours hs hv (by simpa using hnone)
  | succ fuel ih =>
    rw [search]
    split
    · rename_i d hd
      exact .inl (List.mem_of_find?_eq_some hd)
    · rename_i hnone
      right
      have hfuel : exp - 1 = (fuel + 1 : ℕ) - 1074 := by omega
      -- where the finer grid has the number, this one is the grid above that
      rcases ih hfuel with hnext | hmiss
      · have hgrid : (search x units (fuel + 1) (exp - 1)).exp + 1 = exp := by
          rcases mem_neighbours_iff.mp hnext with heq | heq <;> rw [heq] <;> exact sub_add_cancel _ _
        rw [hgrid]
        exact misses_of_neighbours hs hv (by simpa using hnone)
      · exact hmiss

end

theorem lt_ceiling (units : ℕ) : units < Binary64.unitsPerOne * 10 ^ ceiling units := by
  have hpos : 0 < Binary64.unitsPerOne := by exact_mod_cast Binary64.unitsPerOne_pos
  unfold ceiling
  split
  · rwa [pow_zero, Nat.mul_one]
  · rw [Nat.mul_comm, ← Nat.div_lt_iff_lt_mul hpos, ← Nat.length_toDigits_le_iff (by decide) Nat.length_toDigits_pos]

theorem gridFloor_ceiling (units : ℕ) : gridFloor units (ceiling units) = 0 :=
  Nat.div_eq_of_lt (lt_ceiling units)

theorem value_mul_pow (k n : ℕ) (exp : ℤ) : (mk (k * 10 ^ n) exp).value = (mk k (exp + n)).value := by
  rw [value, value, zpow_add₀ (by norm_num), zpow_natCast]
  push_cast
  ring

theorem value_le_of_exp (k : ℕ) {exp exp' : ℤ} (h : exp ≤ exp') : (mk k exp).value ≤ (mk k exp').value :=
  mul_le_mul_of_nonneg_left (zpow_le_zpow_right₀ (by norm_num) h) (Nat.cast_nonneg k)

theorem Misses.coarser {x : Binary64} {exp exp' : ℤ} (h : Misses exp x) (hle : exp ≤ exp') : Misses exp' x := by
  obtain ⟨n, rfl⟩ := Int.le.dest hle
  intro k hk
  rw [← value_mul_pow] at hk
  exact h _ hk

/-- A decimal that reads as the same number as the one the search stops at has no fewer digits. -/
theorem lt_of_stops {x : Binary64} {s d : Decimal} (hs : x.IsNearest false s.value)
    (hstops : s.coeff = 1 ∨ Misses (s.exp + 1) x) (hread : x.IsNearest false d.value) (hcoeff : d.coeff ≠ 0) {n : ℕ}
    (hd : d.coeff < 10 ^ n) : s.coeff < 10 ^ n := by
  obtain ⟨c, exp⟩ := s
  cases n with
  | zero => exact absurd (Nat.lt_one_iff.mp hd) hcoeff
  | succ n =>
    by_contra hge
    rw [not_lt] at hge
    rcases hstops with hone | hmiss
    · rw [hone, pow_succ] at hge
      have hpos : 0 < 10 ^ n := by positivity
      omega
    rcases le_or_gt d.exp exp with hfine | hcoarse
    · -- the first number with more digits lies between the two, and on the coarser grid
      have hgrid : (mk (10 ^ (n + 1)) exp).value = (mk (10 ^ n) (exp + 1)).value := value_mul_pow (10 ^ n) 1 exp
      refine hmiss (10 ^ n) (hread.between hs ?_ ?_)
      · rw [← hgrid]
        exact (value_le_value hd.le d.exp).trans (value_le_of_exp _ hfine)
      · rw [← hgrid]
        exact value_le_value hge exp
    · exact hmiss.coarser hcoarse d.coeff hread

section
variable {sig exp : ℕ} (h : Binary64.Fits sig exp) (h0 : sig ≠ 0)
include h0

theorem shortest_stops : (shortest sig exp).coeff = 1 ∨
    Misses ((shortest sig exp).exp + 1) (.finite false sig exp h) := by
  have hcoeff := shortest_coeff h h0
  unfold shortest at hcoeff ⊢
  rw [Binary64.ofFields_of_fits h] at hcoeff ⊢
  generalize hunits : Binary64.magnitude sig exp = units at hcoeff ⊢
  have hv : (Binary64.finite false sig exp h).absValue? = some ((units : ℚ) / Binary64.unitsPerOne) := by
    rw [← hunits]
    rfl
  have hfuel : (ceiling units : ℤ) = (ceiling units + 1073 + 1 : ℕ) - 1074 := by push_cast; ring
  rcases search_stops rfl hv hfuel with hnext | hmiss
  · left
    -- the coarsest grid offers 0 and 1 only
    rw [mem_neighbours_iff, gridFloor_ceiling] at hnext
    rcases hnext with hnext | hnext
    · exact absurd (congrArg coeff hnext) hcoeff
    · exact congrArg coeff hnext
  · exact .inr hmiss

theorem shortest_lt {d : Decimal} (hread : (Binary64.finite false sig exp h).IsNearest false d.value) {n : ℕ}
    (hd : d.coeff < 10 ^ n) : (shortest sig exp).coeff < 10 ^ n :=
  lt_of_stops (shortest_isNearest h false) (shortest_stops h h0) hread
    (coeff_ne_zero_of_reads h h0 (toBinary64_eq_iff.mpr hread)) hd

end

end Decimal

/-! ## Significant digits -/

theorem value_singleton (c : Char) : value [c] = c.toNat - 48 :=
  Nat.ofDigitChars_cons.trans (Nat.zero_add _)

theorem value_singleton_lt {c : Char} (h : c.isDigit) : value [c] < 10 := by
  have hc : c.toNat ≤ 57 := (Char.isDigit_iff_toNat.mp h).2
  rw [value_singleton]
  omega

theorem value_singleton_ne_zero {c : Char} (h : c.isDigit) (hc : c ≠ '0') : value [c] ≠ 0 := by
  have hle : 48 ≤ c.toNat := (Char.isDigit_iff_toNat.mp h).1
  have hne : c.toNat ≠ 48 := fun heq => hc (Char.toNat_inj.mp heq)
  rw [value_singleton]
  omega

theorem value_lt {ds : List Char} (h : ∀ c ∈ ds, c.isDigit) : value ds < 10 ^ ds.length := by
  induction ds with
  | nil => decide
  | cons c ds ih =>
    rw [List.forall_mem_cons] at h
    have hc := value_singleton_lt h.1
    have hds := ih h.2
    rw [← List.singleton_append, value_append, List.length_append, List.length_singleton, pow_add]
    nlinarith

theorem Leading.le_value {ds : List Char} (h : Leading ds) : 10 ^ (ds.length - 1) ≤ value ds := by
  obtain ⟨c, cs, rfl, hc⟩ := h.first
  have hpos : 0 < value [c] := Nat.pos_of_ne_zero (value_singleton_ne_zero (h.digits c List.mem_cons_self) hc)
  rw [← List.singleton_append, value_append]
  exact (Nat.le_mul_of_pos_right _ hpos).trans (Nat.le_add_right _ _)

def trimZeros (ds : List Char) : List Char :=
  (ds.dropWhile (· = '0')).rdropWhile (· = '0')

theorem value_dropWhile (ds : List Char) : value (ds.dropWhile (· = '0')) = value ds := by
  have hzeros : ds.takeWhile (· = '0') = List.replicate (ds.takeWhile (· = '0')).length '0' :=
    List.eq_replicate_of_mem fun c hc => by simpa using List.mem_takeWhile_imp hc
  have hparts : ds.takeWhile (· = '0') ++ ds.dropWhile (· = '0') = ds := List.takeWhile_append_dropWhile
  calc value (ds.dropWhile (· = '0'))
      = value (ds.takeWhile (· = '0') ++ ds.dropWhile (· = '0')) := by
        rw [value_append, hzeros, value_zeros, Nat.mul_zero, Nat.zero_add]
    _ = value ds := by rw [hparts]

theorem value_rdropWhile (ds : List Char) : ∃ n, value ds = value (ds.rdropWhile (· = '0')) * 10 ^ n := by
  have hzeros : ds.rtakeWhile (· = '0') = List.replicate (ds.rtakeWhile (· = '0')).length '0' :=
    List.eq_replicate_of_mem fun c hc => by simpa using List.mem_rtakeWhile_imp hc
  have hparts : ds.rdropWhile (· = '0') ++ ds.rtakeWhile (· = '0') = ds := List.rdropWhile_append_rtakeWhile
  refine ⟨(ds.rtakeWhile (· = '0')).length, ?_⟩
  calc value ds = value (ds.rdropWhile (· = '0') ++ ds.rtakeWhile (· = '0')) := by rw [hparts]
    _ = value (ds.rdropWhile (· = '0')) * 10 ^ (ds.rtakeWhile (· = '0')).length := by
        rw [value_append, hzeros, value_zeros, List.length_replicate, Nat.add_zero, Nat.mul_comm]

theorem value_trimZeros (ds : List Char) : ∃ n, value ds = value (trimZeros ds) * 10 ^ n := by
  obtain ⟨n, hn⟩ := value_rdropWhile (ds.dropWhile (· = '0'))
  exact ⟨n, (value_dropWhile ds).symm.trans hn⟩

theorem digits_trimZeros {ds : List Char} (h : ∀ c ∈ ds, c.isDigit) : ∀ c ∈ trimZeros ds, c.isDigit := by
  intro c hc
  exact h c ((List.dropWhile_sublist _).subset ((List.rdropWhile_prefix _ _).subset hc))

theorem leading_trimZeros {ds : List Char} (h : ∀ c ∈ ds, c.isDigit) (hne : trimZeros ds ≠ []) :
    Leading (trimZeros ds) := by
  refine ⟨digits_trimZeros h, ?_⟩
  obtain ⟨c, cs, hcs⟩ := List.exists_cons_of_ne_nil hne
  refine ⟨c, cs, hcs, ?_⟩
  have hprefix : trimZeros ds <+: ds.dropWhile (· = '0') := List.rdropWhile_prefix _ _
  rw [hcs] at hprefix
  obtain ⟨rest, hrest⟩ := hprefix
  have hhead := List.head?_dropWhile_not (· = '0') ds
  rw [← hrest] at hhead
  simpa using hhead

theorem value_trimZeros_mod {ds : List Char} (h : ∀ c ∈ ds, c.isDigit) (hne : trimZeros ds ≠ []) :
    value (trimZeros ds) % 10 ≠ 0 := by
  have hlast := List.rdropWhile_last_not (· = '0') (ds.dropWhile (· = '0')) hne
  have hparts := List.dropLast_concat_getLast hne
  have hdigit := digits_trimZeros h _ (List.getLast_mem hne)
  have hc : (trimZeros ds).getLast hne ≠ '0' := fun heq => hlast (decide_eq_true heq)
  have hpos := value_singleton_ne_zero hdigit hc
  have hlt := value_singleton_lt hdigit
  rw [← hparts, value_append, List.length_singleton]
  omega

namespace Decimal

theorem value_inj {m n : ℕ} {exp : ℤ} (h : (mk m exp).value = (mk n exp).value) : m = n := by
  have h10 : (10 : ℚ) ^ exp ≠ 0 := by positivity
  exact Nat.cast_inj.mp (mul_right_cancel₀ h10 h)

/-- Of the coefficients of one magnitude the one without a zero at its end is the least. -/
theorem coeff_le_of_value_eq {d d' : Decimal} (hd : d.coeff % 10 ≠ 0) (h : d.value = d'.value) :
    d.coeff ≤ d'.coeff := by
  obtain ⟨m, exp⟩ := d
  obtain ⟨n, exp'⟩ := d'
  rcases le_or_gt exp' exp with hle | hlt
  · obtain ⟨k, rfl⟩ := Int.le.dest hle
    rw [← value_mul_pow] at h
    rw [← value_inj h]
    exact Nat.le_mul_of_pos_right m (by positivity)
  · obtain ⟨k, rfl⟩ := Int.le.dest hlt
    -- on the finer grid the second one ends in a zero, and the first one does not
    have hshift : (mk n (exp + 1 + k)).value = (mk (n * 10 ^ (k + 1)) exp).value := by
      rw [value_mul_pow]
      congr 2
      push_cast
      ring
    rw [hshift] at h
    obtain rfl : m = n * 10 ^ (k + 1) := value_inj h
    rw [pow_succ, ← Nat.mul_assoc, Nat.mul_mod_left] at hd
    exact absurd rfl hd

end Decimal

namespace Numeral

/-- How many digits there are between the zeros at both ends. -/
def significantDigits (n : Numeral) : ℕ :=
  (trimZeros (n.whole ++ n.fraction)).length

def HasDigits (n : Numeral) : Prop :=
  ∀ c ∈ n.whole ++ n.fraction, c.isDigit

theorem magnitude_trimZeros (n : Numeral) :
    ∃ exp, magnitude n = (Decimal.mk (value (trimZeros (n.whole ++ n.fraction))) exp).value := by
  obtain ⟨k, hk⟩ := value_trimZeros (n.whole ++ n.fraction)
  refine ⟨n.exponent - n.fraction.length + k, ?_⟩
  rw [← value_toDecimal, toDecimal, hk, Decimal.value_mul_pow]

end Numeral

theorem Grammar.Number.unique {cs : List Char} {m n : Numeral} (hm : Number cs m) (hn : Number cs n) : m = n :=
  Option.some.inj ((ofChars?_iff.mpr hm).symm.trans (ofChars?_iff.mpr hn))

theorem Grammar.Number.hasDigits {cs : List Char} {n : Numeral} (h : Number cs n) : n.HasDigits := by
  have hparts : Digits n.whole ∧ ∀ c ∈ n.fraction, c.isDigit := by
    cases h with
    | unsigned hw hf | minus hw hf =>
      refine ⟨hw.digits, ?_⟩
      cases hf with
      | absent => exact List.forall_mem_nil _
      | digits hd => exact hd.2
  exact List.forall_mem_append.mpr ⟨hparts.1.2, hparts.2⟩

namespace Binary64

theorem magnitude_chars {negative : Bool} {sig exp : ℕ} (h : Fits sig exp) (h0 : sig ≠ 0) {n : Numeral}
    (hn : Number (finite negative sig exp h).chars n) : Grammar.magnitude n = (Decimal.shortest sig exp).value := by
  obtain ⟨⟨p, hp, -, hpv⟩, m, hm, -, hmv⟩ := number_of_denotes (denotes_chars (shortest_coeff h h0))
  rw [chars, if_neg h0] at hn
  cases negative with
  | false =>
    rw [if_neg Bool.false_ne_true] at hn
    rw [hn.unique hp, hpv]
  | true =>
    rw [if_pos rfl] at hn
    rw [hn.unique hm, hmv]

/-- No numeral of fewer significant digits than the printed one denotes the number. -/
theorem significantDigits_le {x : Binary64} (hx : x.isFinite) {n m : Numeral} (hn : Number x.chars n) (hm : m.HasDigits)
    (hread : x.unsignedZero.IsNearest m.negative (Grammar.magnitude m)) :
    n.significantDigits ≤ m.significantDigits := by
  cases x with
  | nan => cases hx
  | infinity negative => cases hx
  | finite negative sig exp h =>
    by_cases h0 : sig = 0
    · rw [chars, if_pos h0] at hn
      have hzero : Number ['0'] ⟨false, ['0'], [], 0⟩ := .unsigned .zero .absent .absent
      rw [hn.unique hzero]
      exact Nat.zero_le _
    · rw [unsignedZero, if_neg h0] at hread
      obtain ⟨e, he⟩ := m.magnitude_trimZeros
      -- the sign takes no digit, so the digits are those of the absolute value
      have hself : (finite false sig exp h).IsNearest false (Grammar.magnitude m) := ⟨rfl, hread.closest⟩
      rw [he] at hself
      have hlt := Decimal.shortest_lt h h0 hself (value_lt (digits_trimZeros hm))
      by_cases hne : trimZeros (n.whole ++ n.fraction) = []
      · rw [significantDigits, hne]
        exact Nat.zero_le _
      · obtain ⟨e', he'⟩ := n.magnitude_trimZeros
        have hvalue := he'.symm.trans (magnitude_chars h h0 hn)
        have hle := Decimal.coeff_le_of_value_eq (value_trimZeros_mod hn.hasDigits hne) hvalue
        have hpow := (leading_trimZeros hn.hasDigits hne).le_value.trans_lt (hle.trans_lt hlt)
        have hlength := (Nat.pow_lt_pow_iff_right (by decide)).mp hpow
        unfold significantDigits
        omega

end Binary64

end NetDiagram
