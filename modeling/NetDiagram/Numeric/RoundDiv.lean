/-!
# Quotients rounded to the nearest natural number

A quotient half-way between two naturals goes to the even one. The result is
within half a unit of the exact quotient.
-/

namespace NetDiagram

def roundDiv (num den : Nat) : Nat :=
  let quotient := num / den
  let twice := 2 * (num % den)
  if twice < den ∨ (twice = den ∧ quotient % 2 = 0) then quotient else quotient + 1

theorem roundDiv_le {num den : Nat} (h : 0 < den) : 2 * (roundDiv num den * den) ≤ 2 * num + den := by
  have hd := Nat.div_add_mod' num den
  have hm := Nat.mod_lt num h
  unfold roundDiv
  dsimp only
  split
  · omega
  · rw [Nat.add_mul]; omega

theorem le_roundDiv {num den : Nat} (h : 0 < den) : 2 * num ≤ 2 * (roundDiv num den * den) + den := by
  have hd := Nat.div_add_mod' num den
  have hm := Nat.mod_lt num h
  unfold roundDiv
  dsimp only
  split
  · omega
  · rw [Nat.add_mul]; omega

/-- A quotient half-way between two naturals goes to the even one. -/
theorem roundDiv_even {num den : Nat} (h : 0 < den)
    (tie : 2 * num = 2 * (roundDiv num den * den) + den ∨ 2 * num + den = 2 * (roundDiv num den * den)) :
    roundDiv num den % 2 = 0 := by
  have hd := Nat.div_add_mod' num den
  have hm := Nat.mod_lt num h
  unfold roundDiv at tie ⊢
  dsimp only at tie ⊢
  by_cases hc : 2 * (num % den) < den ∨ 2 * (num % den) = den ∧ num / den % 2 = 0
  · rw [if_pos hc] at tie ⊢; omega
  · rw [if_neg hc, Nat.add_mul] at tie; rw [if_neg hc]; omega

end NetDiagram
