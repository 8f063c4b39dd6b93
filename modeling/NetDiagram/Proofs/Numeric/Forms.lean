import NetDiagram.Proofs.Numeric.FewestDigits
import NetDiagram.Proofs.Numeric.Units

/-!
# Positional and scientific texts

A number is written with an exponent just when its magnitude is below `1e-6` or
not below `1e21`. The point of the shortest numeral tells the power of ten of
that numeral, and shortest numerals are in the order of their numbers.
-/

namespace NetDiagram

open Grammar Numeral

/-! ## Forms of texts -/

def IsPositional (cs : List Char) : Prop :=
  ∀ c ∈ cs, c.isDigit ∨ c = '-' ∨ c = '.'

def IsScientific (cs : List Char) : Prop :=
  ∃ front sign ds, cs = front ++ 'e' :: sign :: ds ∧ IsPositional front ∧ (sign = '+' ∨ sign = '-') ∧ Digits ds

theorem isPositional_digits {ds : List Char} (h : ∀ c ∈ ds, c.isDigit) : IsPositional ds :=
  fun c hc => .inl (h c hc)

theorem isPositional_cons {c : Char} {cs : List Char} (hc : c.isDigit ∨ c = '-' ∨ c = '.') (hcs : IsPositional cs) :
    IsPositional (c :: cs) :=
  List.forall_mem_cons.mpr ⟨hc, hcs⟩

theorem isPositional_append {as bs : List Char} (ha : IsPositional as) (hb : IsPositional bs) :
    IsPositional (as ++ bs) :=
  List.forall_mem_append.mpr ⟨ha, hb⟩

theorem isScientific_minus {cs : List Char} (h : IsScientific cs) : IsScientific ('-' :: cs) := by
  obtain ⟨front, sign, ds, rfl, hfront, hsign, hds⟩ := h
  exact ⟨'-' :: front, sign, ds, rfl, isPositional_cons (.inr (.inl rfl)) hfront, hsign, hds⟩

namespace Decimal

section
variable {ds : List Char} (hds : ∀ c ∈ ds, c.isDigit) {point : ℤ}
include hds

theorem isPositional_take (n : ℕ) : IsPositional (ds.take n) :=
  isPositional_digits fun c hc => hds c (List.mem_of_mem_take hc)

theorem isPositional_drop (n : ℕ) : IsPositional (ds.drop n) :=
  isPositional_digits fun c hc => hds c (List.mem_of_mem_drop hc)

/-- The point stands inside the digits or close to them. -/
theorem isPositional_layout (hlower : -6 < point) (hupper : point ≤ 21) : IsPositional (layout ds point) := by
  have hzeros : ∀ n, IsPositional (List.replicate n '0') := fun n => isPositional_digits isDigit_zeros
  unfold layout
  by_cases hwhole : (ds.length : ℤ) ≤ point ∧ point ≤ 21
  · rw [if_pos hwhole]
    exact isPositional_append (isPositional_digits hds) (hzeros _)
  rw [if_neg hwhole]
  by_cases hpoint : 0 < point ∧ point ≤ 21
  · rw [if_pos hpoint]
    exact isPositional_append (isPositional_take hds _) (isPositional_cons (.inr (.inr rfl)) (isPositional_drop hds _))
  · rw [if_neg hpoint, if_pos ⟨hlower, by omega⟩]
    have hfront : IsPositional ('0' :: '.' :: List.replicate (-point).toNat '0') :=
      isPositional_cons (.inl rfl) (isPositional_cons (.inr (.inr rfl)) (hzeros _))
    exact isPositional_append hfront (isPositional_digits hds)

theorem isScientific_layout (h : ¬ (-6 < point ∧ point ≤ 21)) : IsScientific (layout ds point) := by
  unfold layout
  rw [if_neg (by omega), if_neg (by omega), if_neg (by omega)]
  have hdigits : Digits (Nat.toDigits 10 (point - 1).natAbs) :=
    ⟨Nat.toDigits_ne_nil, fun c hc => Nat.isDigit_of_mem_toDigits (by decide) (by decide) hc⟩
  refine ⟨_, _, _, rfl, ?_, ?_, hdigits⟩
  · split
    · exact isPositional_digits hds
    · have hrest := isPositional_cons (.inr (.inr rfl)) (isPositional_drop hds 1)
      exact isPositional_append (isPositional_take hds 1) hrest
  · split
    · exact .inr rfl
    · exact .inl rfl

end

/-- Where the point stands is told by the powers of ten that are not above the decimal. -/
theorem power_le_iff {d : Decimal} (hd : d.coeff ≠ 0) (k : ℤ) :
    (mk 1 k).value ≤ d.value ↔ k < (Nat.toDigits 10 d.coeff).length + d.exp := by
  have hpower : ∀ (n : ℕ), (mk 1 (n + d.exp)).value = (mk (10 ^ n) d.exp).value := by
    intro n
    rw [← Nat.one_mul (10 ^ n), value_mul_pow, add_comm]
  -- the coefficient lies between two powers that its number of digits tells
  have hlength := Nat.length_toDigits_pos (b := 10) (n := d.coeff)
  have hlower : 10 ^ ((Nat.toDigits 10 d.coeff).length - 1) ≤ d.coeff := by
    have hle := (leading_toDigits hd).le_value
    rwa [value_toDigits] at hle
  have hupper : d.coeff < 10 ^ (Nat.toDigits 10 d.coeff).length :=
    (Nat.length_toDigits_le_iff (by decide) hlength).mp le_rfl
  constructor
  · intro hle
    by_contra hge
    rw [not_lt] at hge
    have hlt : d.value < (mk (10 ^ (Nat.toDigits 10 d.coeff).length) d.exp).value :=
      mul_lt_mul_of_pos_right (Nat.cast_lt.mpr hupper) (by positivity)
    rw [← hpower] at hlt
    exact absurd (hlt.trans_le ((value_le_of_exp 1 hge).trans hle)) (lt_irrefl _)
  · intro hlt
    have hle := value_le_value hlower d.exp
    rw [← hpower] at hle
    exact (value_le_of_exp 1 (by omega)).trans hle

theorem isPositional_chars {d : Decimal} (hd : d.coeff ≠ 0) (hlower : (mk 1 (-6)).value ≤ d.value)
    (hupper : d.value < (mk 1 21).value) : IsPositional d.chars := by
  have hpoint := (power_le_iff hd (-6)).mp hlower
  have hpoint' := mt (power_le_iff hd 21).mpr (not_le.mpr hupper)
  exact isPositional_layout (leading_toDigits hd).digits hpoint (by omega)

theorem isScientific_chars {d : Decimal} (hd : d.coeff ≠ 0)
    (h : ¬ ((mk 1 (-6)).value ≤ d.value ∧ d.value < (mk 1 21).value)) : IsScientific d.chars := by
  rw [← not_le, power_le_iff hd, power_le_iff hd] at h
  exact isScientific_layout (leading_toDigits hd).digits (by omega)

end Decimal

namespace Binary64

/-- The shortest numerals are in the order of their numbers. -/
theorem lt_iff_shortest {m e n f : ℕ} (hm : Fits m e) (hn : Fits n f) :
    finite false m e hm < finite false n f hn ↔ (Decimal.shortest m e).value < (Decimal.shortest n f).value := by
  have hu := unitsPerOne_pos
  have hlt : finite false m e hm < finite false n f hn ↔ magnitude m e < magnitude n f :=
    ((HasUnits.finite hm).lt_iff (.finite hn)).trans Int.ofNat_lt
  rw [hlt]
  constructor
  · intro h
    by_contra hge
    have hle := (shortest_isNearest hn false).mono (shortest_isNearest hm false) (not_lt.mp hge) rfl rfl
    rw [div_le_div_iff_of_pos_right hu, Nat.cast_le] at hle
    omega
  · intro h
    have hle := (shortest_isNearest hm false).mono (shortest_isNearest hn false) h.le rfl rfl
    rw [div_le_div_iff_of_pos_right hu, Nat.cast_le] at hle
    refine lt_of_le_of_ne hle fun heq => ?_
    obtain ⟨rfl, rfl⟩ := hm.unique hn heq
    exact absurd h (lt_irrefl _)

def withoutSign : Binary64 → Binary64
  | .nan => .nan
  | .infinity _ => .infinity false
  | .finite _ sig exp fits => .finite false sig exp fits

def millionth : Binary64 :=
  (Decimal.mk 1 (-6)).toBinary64 false

def sextillion : Binary64 :=
  (Decimal.mk 1 21).toBinary64 false

theorem lt_millionth_iff {sig exp : ℕ} (h : Fits sig exp) :
    finite false sig exp h < millionth ↔ (Decimal.shortest sig exp).value < (Decimal.mk 1 (-6)).value := by
  have heq : millionth = finite false 0x10C6F7A0B5ED8D 1002 (by decide) := by decide +kernel
  have hshortest : Decimal.shortest 0x10C6F7A0B5ED8D 1002 = ⟨1, -6⟩ := by decide +kernel
  rw [heq, lt_iff_shortest h (by decide), hshortest]

theorem lt_sextillion_iff {sig exp : ℕ} (h : Fits sig exp) :
    finite false sig exp h < sextillion ↔ (Decimal.shortest sig exp).value < (Decimal.mk 1 21).value := by
  have heq : sextillion = finite false 0x1B1AE4D6E2EF50 1091 (by decide) := by decide +kernel
  have hshortest : Decimal.shortest 0x1B1AE4D6E2EF50 1091 = ⟨1, 21⟩ := by decide +kernel
  rw [heq, lt_iff_shortest h (by decide), hshortest]

/-- Zero, or at least `1e-6` and below `1e21`. -/
def IsModerate (x : Binary64) : Prop :=
  x.unsignedZero = zero false ∨ (¬ x.withoutSign < millionth ∧ x.withoutSign < sextillion)

theorem isModerate_iff {negative : Bool} {sig exp : ℕ} (h : Fits sig exp) (h0 : sig ≠ 0) :
    (finite negative sig exp h).IsModerate ↔ (Decimal.mk 1 (-6)).value ≤ (Decimal.shortest sig exp).value ∧
      (Decimal.shortest sig exp).value < (Decimal.mk 1 21).value := by
  have hzero : (finite negative sig exp h).unsignedZero ≠ zero false := by
    rw [unsignedZero, if_neg h0]
    exact fun heq => h0 (finite.inj heq).2.1
  unfold IsModerate
  rw [withoutSign, lt_millionth_iff h, lt_sextillion_iff h, not_lt]
  exact or_iff_right hzero

theorem isPositional_chars {x : Binary64} (hx : x.isFinite) (h : x.IsModerate) : IsPositional x.chars := by
  cases x with
  | nan => cases hx
  | infinity negative => cases hx
  | finite negative sig exp fits =>
    by_cases h0 : sig = 0
    · rw [chars, if_pos h0]
      exact isPositional_digits (by simp)
    · obtain ⟨hlower, hupper⟩ := (isModerate_iff fits h0).mp h
      have hpositional := Decimal.isPositional_chars (shortest_coeff fits h0) hlower hupper
      rw [chars, if_neg h0]
      split
      · exact isPositional_cons (.inr (.inl rfl)) hpositional
      · exact hpositional

theorem isScientific_chars {x : Binary64} (hx : x.isFinite) (h : ¬ x.IsModerate) : IsScientific x.chars := by
  cases x with
  | nan => cases hx
  | infinity negative => cases hx
  | finite negative sig exp fits =>
    have h0 : sig ≠ 0 := by
      rintro rfl
      exact h (.inl rfl)
    have hscientific := Decimal.isScientific_chars (shortest_coeff fits h0) (mt (isModerate_iff fits h0).mpr h)
    rw [chars, if_neg h0]
    split
    · exact isScientific_minus hscientific
    · exact hscientific

end Binary64

end NetDiagram
