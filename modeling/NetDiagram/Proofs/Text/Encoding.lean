import NetDiagram.Text.Basic

/-!
# Characters and their units

The units of a character tell the character and where it ends, so that different
strings are different texts. In the basic plane a character is its only unit.
-/

namespace Char

open NetDiagram (CodeUnit)

theorem code_unit {c : Char} (h : c.toNat < 0x10000) : c.unit.code = c.toNat := by
  rw [unit, if_pos h]
  exact Nat.mod_eq_of_lt h

theorem units_eq {c : Char} (h : c.toNat < 0x10000) : c.units = [c.unit] := by
  rw [units, if_pos h]

@[simp]
theorem char_unit {c : Char} (h : c.toNat < 0x10000) : c.unit.char = c := by
  rw [CodeUnit.char, code_unit h, ofNat_toNat]

@[simp]
theorem unit_inj {c d : Char} (hc : c.toNat < 0x10000) (hd : d.toNat < 0x10000) : c.unit = d.unit ↔ c = d := by
  refine ⟨fun h => ?_, congrArg unit⟩
  rw [← char_unit hc, h, char_unit hd]

/-- A character of the basic plane is no surrogate. -/
theorem not_high_or_low {c : Char} (h : c.toNat < 0x10000) : ¬ (c.unit.IsHigh ∨ c.unit.IsLow) := by
  have hvalid : c.toNat < 0xD800 ∨ 0xDFFF < c.toNat ∧ c.toNat < 0x110000 := c.valid
  rw [CodeUnit.IsHigh, CodeUnit.IsLow, code_unit h]
  omega

theorem code_unit_of_le {c : Char} (h : 0x10000 ≤ c.toNat) : c.unit.code = 0xD800 + (c.toNat - 0x10000) / 0x400 := by
  have hvalid : c.toNat < 0xD800 ∨ 0xDFFF < c.toNat ∧ c.toNat < 0x110000 := c.valid
  rw [unit, if_neg (by omega)]
  exact Nat.mod_eq_of_lt (by omega)

theorem isHigh_unit {c : Char} (h : 0x10000 ≤ c.toNat) : c.unit.IsHigh := by
  have hvalid : c.toNat < 0xD800 ∨ 0xDFFF < c.toNat ∧ c.toNat < 0x110000 := c.valid
  rw [CodeUnit.IsHigh, code_unit_of_le h]
  omega

theorem units_append_inj {c d : Char} {us vs : List CodeUnit} (h : c.units ++ us = d.units ++ vs) :
    c = d ∧ us = vs := by
  by_cases hc : c.toNat < 0x10000 <;> by_cases hd : d.toNat < 0x10000
  · rw [units_eq hc, units_eq hd] at h
    obtain ⟨hunit, htail⟩ := List.cons.inj h
    rw [← char_unit hc, hunit, char_unit hd]
    exact ⟨rfl, htail⟩
  · rw [units_eq hc, units, if_neg hd] at h
    obtain ⟨hunit, -⟩ := List.cons.inj h
    exact absurd (.inl (hunit ▸ isHigh_unit (Nat.le_of_not_lt hd))) (not_high_or_low hc)
  · rw [units_eq hd, units, if_neg hc] at h
    obtain ⟨hunit, -⟩ := List.cons.inj h
    exact absurd (.inl (hunit ▸ isHigh_unit (Nat.le_of_not_lt hc))) (not_high_or_low hd)
  · rw [units, units, if_neg hc, if_neg hd] at h
    obtain ⟨hunit, htail⟩ := List.cons.inj h
    obtain ⟨hlow, hrest⟩ := List.cons.inj htail
    -- the high surrogate tells the upper bits of the code and the low one the ten bits below them
    have hupper := congrArg CodeUnit.code hunit
    have hlower := congrArg CodeUnit.code hlow
    rw [code_unit_of_le (Nat.le_of_not_lt hc), code_unit_of_le (Nat.le_of_not_lt hd)] at hupper
    simp only [CodeUnit.ofNat] at hlower
    exact ⟨toNat_inj.mp (by omega), hrest⟩

end Char

namespace NetDiagram

theorem CodeUnit.unit_char {u : CodeUnit} (h : u.char ≠ '\x00') : u.char.unit = u := by
  have hlt := u.lt
  by_cases hvalid : u.code.isValidChar
  · have hcode : u.char.toNat = u.code := by
      rw [char, Char.ofNat, dif_pos hvalid]
      rfl
    exact CodeUnit.ext ((Char.code_unit (by omega)).trans hcode)
  · refine absurd ?_ h
    rw [char, Char.ofNat, dif_neg hvalid]
    rfl

theorem CodeUnit.IsHigh.char_eq {u : CodeUnit} (h : u.IsHigh) : u.char = '\x00' := by
  have hinvalid : ¬ u.code.isValidChar := by
    unfold IsHigh at h
    unfold Nat.isValidChar
    omega
  rw [char, Char.ofNat, dif_neg hinvalid]
  rfl

namespace Text

theorem encode_cons (c : Char) (cs : List Char) : encode (c :: cs) = c.units ++ encode cs :=
  List.flatMap_cons

theorem encode_eq_map {cs : List Char} (h : ∀ c ∈ cs, c.toNat < 0x10000) : encode cs = cs.map Char.unit := by
  induction cs with
  | nil => rfl
  | cons c cs ih =>
    rw [List.forall_mem_cons] at h
    rw [encode_cons, Char.units_eq h.1, ih h.2]
    rfl

/-- No two lists of characters have the same units. -/
theorem encode_inj {cs ds : List Char} : encode cs = encode ds ↔ cs = ds := by
  refine ⟨fun h => ?_, congrArg encode⟩
  have hne : ∀ c : Char, c.units ≠ [] := by
    intro c
    rw [Char.units]
    split <;> exact List.cons_ne_nil _ _
  induction cs generalizing ds with
  | nil =>
    cases ds with
    | nil => rfl
    | cons d ds => exact absurd (List.append_eq_nil_iff.mp h.symm).1 (hne d)
  | cons c cs ih =>
    cases ds with
    | nil => exact absurd (List.append_eq_nil_iff.mp h).1 (hne c)
    | cons d ds =>
      rw [encode_cons, encode_cons] at h
      obtain ⟨rfl, hrest⟩ := Char.units_append_inj h
      rw [ih hrest]

theorem ofString_ofList (cs : List Char) : ofString (.ofList cs) = .ofChars cs := by
  rw [ofString, String.toList_ofList]

/-- Different strings are different texts. -/
@[simp]
theorem ofString_inj {s t : String} : ofString s = ofString t ↔ s = t := by
  rw [ofString, ofString, ofChars, ofChars, ofList_inj, encode_inj, String.toList_inj]

/-- A text of one surrogate; no string has it. -/
def surrogate (i : Nat) : Text :=
  .ofList [.ofNat (0xD800 + i % 0x800)]

end Text

end NetDiagram
