import NetDiagram.Numeric.Shortest
import NetDiagram.Proofs.Json.Numerals

/-!
# Reading printed numbers

The text of a finite number is a numeral, and the number that it denotes is the
one printed, but for the sign of zero. Numbers with equal texts are therefore
equal.
-/

namespace NetDiagram

open Grammar Numeral

/-! ## Digits -/

structure Leading (ds : List Char) : Prop where
  digits : ∀ c ∈ ds, c.isDigit
  first : ∃ c cs, ds = c :: cs ∧ c ≠ '0'

theorem Leading.whole {ds : List Char} (h : Leading ds) : Whole ds := by
  obtain ⟨c, cs, rfl, hc⟩ := h.first
  apply Whole.positive
  · exact h.digits c (by simp)
  · exact hc
  · intro d hd
    exact h.digits d (by simp [hd])

theorem Leading.append {ds es : List Char} (h : Leading ds) (hes : ∀ c ∈ es, c.isDigit) : Leading (ds ++ es) := by
  obtain ⟨c, cs, rfl, hc⟩ := h.first
  refine ⟨?_, c, cs ++ es, rfl, hc⟩
  intro d hd
  rcases List.mem_append.mp hd with hd | hd
  · exact h.digits d hd
  · exact hes d hd

theorem Leading.take {ds : List Char} (h : Leading ds) {n : ℕ} (hn : 0 < n) : Leading (ds.take n) := by
  obtain ⟨c, cs, rfl, hc⟩ := h.first
  obtain ⟨m, rfl⟩ : ∃ m, n = m + 1 := ⟨n - 1, by omega⟩
  refine ⟨?_, c, cs.take m, rfl, hc⟩
  intro d hd
  exact h.digits d (List.mem_of_mem_take hd)

theorem digitChar_ne_zero : ∀ n < 10, n ≠ 0 → n.digitChar ≠ '0' := by
  decide

theorem leading_toDigits {n : ℕ} (hn : n ≠ 0) : Leading (Nat.toDigits 10 n) := by
  refine ⟨fun c hc => Nat.isDigit_of_mem_toDigits (by decide) (by decide) hc, ?_⟩
  induction n using Nat.strong_induction_on with
  | _ n ih =>
    rw [Nat.toDigits_eq_if (by decide)]
    by_cases hlt : n < 10
    · rw [if_pos hlt]
      exact ⟨_, [], rfl, digitChar_ne_zero n hlt hn⟩
    · rw [if_neg hlt]
      obtain ⟨c, cs, hcs, hc⟩ := ih (n / 10) (by omega) (by omega)
      exact ⟨c, cs ++ _, by rw [hcs]; rfl, hc⟩

theorem value_toDigits (n : ℕ) : value (Nat.toDigits 10 n) = n :=
  Nat.ofDigitChars_ten_toDigits

theorem value_zeros (n : ℕ) : value (List.replicate n '0') = 0 := by
  unfold value
  rw [Nat.ofDigitChars_replicate_zero, Nat.mul_zero]

theorem isDigit_zeros {n : ℕ} : ∀ c ∈ List.replicate n '0', c.isDigit := by
  intro c hc
  rw [List.eq_of_mem_replicate hc]
  decide

/-! ## Layout -/

def Denotes (cs : List Char) (q : ℚ) : Prop :=
  ∃ w f ds x e, cs = w ++ f ++ x ∧ Whole w ∧ Fraction f ds ∧ Exponent x e ∧
    ((value w : ℚ) + value ds / 10 ^ ds.length) * 10 ^ e = q

theorem cast_value_append (as bs : List Char) :
    (value as : ℚ) + value bs / 10 ^ bs.length = value (as ++ bs) * 10 ^ (-(bs.length : ℤ)) := by
  have h10 : (10 : ℚ) ^ bs.length ≠ 0 := by positivity
  rw [value_append, zpow_neg, zpow_natCast]
  push_cast
  field_simp

theorem exponent_of_sign (e : ℤ) : Exponent ('e' :: (if e < 0 then '-' else '+') :: Nat.toDigits 10 e.natAbs) e := by
  have hdigits : Digits (Nat.toDigits 10 e.natAbs) :=
    ⟨Nat.toDigits_ne_nil, fun c hc => Nat.isDigit_of_mem_toDigits (by decide) (by decide) hc⟩
  by_cases he : e < 0
  · rw [if_pos he]
    have hminus := Exponent.minus (.inl rfl : 'e' = 'e' ∨ 'e' = 'E') hdigits
    rwa [value_toDigits, show -(e.natAbs : ℤ) = e by omega] at hminus
  · rw [if_neg he]
    have hplus := Exponent.plus (.inl rfl : 'e' = 'e' ∨ 'e' = 'E') hdigits
    rwa [value_toDigits, show (e.natAbs : ℤ) = e by omega] at hplus

section
variable {ds : List Char} (h : Leading ds)
include h

theorem denotes_whole (n : ℕ) : Denotes (ds ++ List.replicate n '0') (value ds * 10 ^ n) := by
  refine ⟨ds ++ List.replicate n '0', [], [], [], 0, by simp, (h.append isDigit_zeros).whole, .absent, .absent, ?_⟩
  rw [value_append, value_zeros, List.length_replicate]
  simp [value, mul_comm]

theorem fraction_drop {n : ℕ} (hn : n < ds.length) : Fraction ('.' :: ds.drop n) (ds.drop n) := by
  apply Fraction.digits
  refine ⟨by simpa using hn, ?_⟩
  intro c hc
  exact h.digits c (List.mem_of_mem_drop hc)

theorem denotes_point {n : ℕ} (h0 : 0 < n) (hn : n < ds.length) :
    Denotes (ds.take n ++ '.' :: ds.drop n) (value ds * 10 ^ ((n : ℤ) - ds.length)) := by
  refine ⟨ds.take n, '.' :: ds.drop n, ds.drop n, [], 0, by simp, (h.take h0).whole, fraction_drop h hn, .absent, ?_⟩
  rw [cast_value_append, List.take_append_drop, List.length_drop, zpow_zero, mul_one, Nat.cast_sub hn.le, neg_sub]

theorem denotes_zeros (n : ℕ) :
    Denotes ('0' :: '.' :: List.replicate n '0' ++ ds) (value ds * 10 ^ (-(n : ℤ) - ds.length)) := by
  have hvalue : value (['0'] ++ (List.replicate n '0' ++ ds)) = value ds := by
    rw [value_append, value_append, value_zeros, show value ['0'] = 0 from rfl]
    simp
  refine ⟨['0'], '.' :: (List.replicate n '0' ++ ds), List.replicate n '0' ++ ds, [], 0, by simp, .zero,
    .digits ⟨?_, ?_⟩, .absent, ?_⟩
  · obtain ⟨c, cs, rfl, -⟩ := h.first
    simp
  · intro c hc
    rcases List.mem_append.mp hc with hc | hc
    · exact isDigit_zeros c hc
    · exact h.digits c hc
  · rw [cast_value_append, hvalue, zpow_zero, mul_one, List.length_append, List.length_replicate]
    congr 2
    push_cast
    ring

theorem denotes_scientific (e : ℤ) :
    Denotes ((if ds.length = 1 then ds else ds.take 1 ++ '.' :: ds.drop 1) ++
      'e' :: (if e < 0 then '-' else '+') :: Nat.toDigits 10 e.natAbs) (value ds * 10 ^ (e + 1 - ds.length)) := by
  by_cases hone : ds.length = 1
  · rw [if_pos hone, hone]
    refine ⟨ds, [], [], _, e, by simp, h.whole, .absent, exponent_of_sign e, ?_⟩
    simp [value]
  · have hlen : 1 < ds.length := by
      obtain ⟨c, cs, rfl, -⟩ := h.first
      rw [List.length_cons] at hone ⊢
      omega
    rw [if_neg hone]
    refine ⟨ds.take 1, '.' :: ds.drop 1, ds.drop 1, _, e, by simp, (h.take Nat.one_pos).whole, fraction_drop h hlen,
      exponent_of_sign e, ?_⟩
    rw [cast_value_append, List.take_append_drop, List.length_drop, mul_assoc, ← zpow_add₀ (by norm_num),
      Nat.cast_sub hlen.le]
    congr 2
    push_cast
    ring

/-- Wherever the point stands, the digits denote the same with it. -/
theorem denotes_layout (point : ℤ) : Denotes (Decimal.layout ds point) (value ds * 10 ^ (point - ds.length)) := by
  unfold Decimal.layout
  by_cases hwhole : (ds.length : ℤ) ≤ point ∧ point ≤ 21
  · rw [if_pos hwhole]
    have hd := denotes_whole h (point.toNat - ds.length)
    rwa [← zpow_natCast, show ((point.toNat - ds.length : ℕ) : ℤ) = point - ds.length by omega] at hd
  rw [if_neg hwhole]
  by_cases hpoint : 0 < point ∧ point ≤ 21
  · rw [if_pos hpoint]
    have hd := denotes_point h (n := point.toNat) (by omega) (by omega)
    rwa [show (point.toNat : ℤ) = point by omega] at hd
  rw [if_neg hpoint]
  by_cases hzeros : -6 < point ∧ point ≤ 0
  · rw [if_pos hzeros]
    have hd := denotes_zeros h (-point).toNat
    rwa [show -((-point).toNat : ℤ) = point by omega] at hd
  · rw [if_neg hzeros]
    have hd := denotes_scientific h (point - 1)
    rwa [show point - 1 + 1 - (ds.length : ℤ) = point - ds.length by omega] at hd

end

theorem denotes_chars {d : Decimal} (h : d.coeff ≠ 0) : Denotes d.chars d.value := by
  have hd := denotes_layout (leading_toDigits h) ((Nat.toDigits 10 d.coeff).length + d.exp)
  rwa [value_toDigits, add_sub_cancel_left] at hd

/-! ## The shortest numeral -/

theorem value_of_units (units k : ℕ) :
    (Decimal.mk (units * Nat.pow 5 k) (-k)).value = units / Binary64.magnitude 1 k := by
  have h10 : (10 : ℚ) ^ k = 2 ^ k * 5 ^ k := by rw [← mul_pow]; norm_num
  have h5 : (5 : ℚ) ^ k ≠ 0 := by positivity
  rw [Decimal.value, zpow_neg, zpow_natCast, h10, Nat.pow_eq, Binary64.cast_magnitude]
  push_cast
  field_simp

theorem search_reads {x : Binary64} {units : ℕ} (hs : x.sign? = some false)
    (hv : x.absValue? = some ((units : ℚ) / Binary64.unitsPerOne)) (fuel : ℕ) (exp : ℤ) :
    (Decimal.search x units fuel exp).toBinary64 false = x := by
  induction fuel generalizing exp with
  | zero =>
    -- the last grid writes the units out in full
    have hlast : ∀ (k : ℕ) (e : ℤ), e = -k → Binary64.IsNearest false ((units : ℚ) / Binary64.magnitude 1 k)
        ((Decimal.mk (units * Nat.pow 5 k) e).toBinary64 false) := by
      intro k e he
      rw [he, ← value_of_units]
      exact Decimal.toBinary64_isNearest _ _
    rw [Binary64.unitsPerOne] at hv
    rw [Decimal.search]
    apply Binary64.IsNearest.unique (hlast _ _ rfl)
    exact Binary64.isNearest_self hs hv
  | succ fuel ih =>
    unfold Decimal.search
    split
    · rename_i d hd
      simpa using List.find?_some hd
    · exact ih (exp - 1)

section
variable {sig exp : ℕ} (h : Binary64.Fits sig exp)
include h

/-- The shortest decimal reads as the number it was searched for. -/
theorem shortest_reads : (Decimal.shortest sig exp).toBinary64 false = .finite false sig exp h := by
  unfold Decimal.shortest
  rw [Binary64.ofFields_of_fits h]
  exact search_reads rfl rfl _ _

theorem shortest_isNearest (negative : Bool) :
    Binary64.IsNearest negative (Decimal.shortest sig exp).value (.finite negative sig exp h) := by
  have hnear := (Decimal.shortest sig exp).toBinary64_isNearest false
  rw [shortest_reads h] at hnear
  exact ⟨rfl, hnear.closest⟩

theorem coeff_ne_zero_of_reads (h0 : sig ≠ 0) {d : Decimal} (hread : d.toBinary64 false = .finite false sig exp h) :
    d.coeff ≠ 0 := by
  intro hcoeff
  have hover : ¬ d.Overflows := fun ho => ho.1 hcoeff
  rw [Decimal.toBinary64, if_neg hover, if_pos (.inl hcoeff), Binary64.zero] at hread
  exact h0 (Binary64.finite.inj hread).2.1.symm

theorem shortest_coeff (h0 : sig ≠ 0) : (Decimal.shortest sig exp).coeff ≠ 0 :=
  coeff_ne_zero_of_reads h h0 (shortest_reads h)

end

/-! ## Texts -/

namespace Binary64

theorem number_of_denotes {cs : List Char} {q : ℚ} (h : Denotes cs q) :
    (∃ n, Number cs n ∧ n.negative = false ∧ Grammar.magnitude n = q) ∧
      ∃ n, Number ('-' :: cs) n ∧ n.negative = true ∧ Grammar.magnitude n = q := by
  obtain ⟨w, f, ds, x, e, rfl, hw, hf, hx, rfl⟩ := h
  exact ⟨⟨_, .unsigned hw hf hx, rfl, rfl⟩, _, .minus hw hf hx, rfl, rfl⟩

theorem number_chars {negative : Bool} {sig exp : ℕ} (h : Fits sig exp) :
    ∃ n, Number (finite negative sig exp h).chars n ∧ n.toBinary64 = (finite negative sig exp h).unsignedZero := by
  by_cases h0 : sig = 0
  · refine ⟨⟨false, ['0'], [], 0⟩, ?_, ?_⟩
    · rw [chars, if_pos h0]
      exact .unsigned .zero .absent .absent
    · rw [unsignedZero, if_pos h0]
      decide +kernel
  · obtain ⟨⟨n, hn, hs, hq⟩, n', hn', hs', hq'⟩ := number_of_denotes (denotes_chars (shortest_coeff h h0))
    rw [unsignedZero, if_neg h0, chars, if_neg h0]
    cases negative with
    | false =>
      rw [if_neg Bool.false_ne_true]
      refine ⟨n, hn, isNearest_iff.mp ?_⟩
      rw [hs, hq]
      exact shortest_isNearest h false
    | true =>
      rw [if_pos rfl]
      refine ⟨n', hn', isNearest_iff.mp ?_⟩
      rw [hs', hq']
      exact shortest_isNearest h true

theorem number_of_finite {x : Binary64} (h : x.isFinite) : ∃ n, Number x.chars n ∧ n.toBinary64 = x.unsignedZero := by
  cases x with
  | nan => cases h
  | infinity negative => cases h
  | finite negative sig exp fits => exact number_chars fits

theorem not_number_of_infinite {x : Binary64} (h : ¬ x.isFinite) : ofChars? x.chars = none := by
  cases x with
  | nan => decide +kernel
  | infinity negative => cases negative <;> decide +kernel
  | finite negative sig exp fits => exact absurd rfl h

/-- Numbers with one text are one number, but for the sign of zero. -/
theorem unsignedZero_of_chars {x y : Binary64} (h : x.chars = y.chars) : x.unsignedZero = y.unsignedZero := by
  -- a finite number is told by what its text reads as, the others are three texts
  by_cases hx : x.isFinite
  · obtain ⟨n, hn, hxn⟩ := number_of_finite hx
    rw [← ofChars?_iff, h] at hn
    by_cases hy : y.isFinite
    · obtain ⟨m, hm, hym⟩ := number_of_finite hy
      rw [← ofChars?_iff, hn] at hm
      rw [← hxn, ← hym, Option.some.inj hm]
    · rw [not_number_of_infinite hy] at hn
      cases hn
  · by_cases hy : y.isFinite
    · obtain ⟨m, hm, -⟩ := number_of_finite hy
      rw [← ofChars?_iff, ← h, not_number_of_infinite hx] at hm
      cases hm
    · cases x with
      | finite => exact absurd rfl hx
      | nan =>
        cases y with
        | finite => exact absurd rfl hy
        | nan => rfl
        | infinity negative => cases negative <;> simp [chars] at h
      | infinity negative =>
        cases y with
        | finite => exact absurd rfl hy
        | nan => cases negative <;> simp [chars] at h
        | infinity negative' => cases negative <;> cases negative' <;> simp [chars] at h ⊢

end Binary64

end NetDiagram
