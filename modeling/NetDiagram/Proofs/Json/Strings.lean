import NetDiagram.Proofs.Json.Grammar
import NetDiagram.Proofs.Text.Encoding

/-!
# Reading strings

The body of a string is read unit by unit. Reading agrees with the grammar: it
is defined exactly on the bodies that the grammar has, and gives their units.
-/

namespace NetDiagram.Grammar

open Quoted

/-! ## Digits and escapes -/

instance (u : CodeUnit) (v : Nat) : Decidable (HexDigit u v) :=
  inferInstanceAs (Decidable (_ ∧ _))

/-- Hexadecimal digits are ASCII characters, so they can be checked one by one. -/
theorem hexDigit?_lt {u : CodeUnit} {v : Nat} (h : hexDigit? u = some v) : u.char.toNat < 128 := by
  have hbelow : ∀ {c d : Char}, c ≤ d → d.toNat < 128 → c.toNat < 128 := fun hcd hd =>
    Nat.lt_of_le_of_lt (UInt32.le_iff_toNat_le.mp (Char.le_def.mp hcd)) hd
  unfold hexDigit? at h
  dsimp only at h
  split at h
  · rename_i hdigit
    exact Nat.lt_of_le_of_lt (Char.isDigit_iff_toNat.mp hdigit).2 (by decide)
  split at h
  · rename_i hlower
    exact hbelow hlower.2 (by decide)
  split at h
  · rename_i hupper
    exact hbelow hupper.2 (by decide)
  · cases h

theorem hexDigit?_iff {u : CodeUnit} {v : Nat} : hexDigit? u = some v ↔ HexDigit u v := by
  have hread : ∀ n < 128, ∀ v ∈ hexDigit? (Char.ofNat n).unit, HexDigit (Char.ofNat n).unit v := by decide +kernel
  have hwrite : ∀ v < 16, hexDigit? v.digitChar.unit = some v ∧ hexDigit? v.digitChar.toUpper.unit = some v := by
    decide +kernel
  constructor
  · intro h
    -- a surrogate has the zero character, which is no digit, so the unit is that of its character
    have hzero : u.char ≠ '\x00' := by
      intro hzero
      simp [hexDigit?, hzero] at h
    have hdigit := hread u.char.toNat (hexDigit?_lt h)
    rw [Char.ofNat_toNat, CodeUnit.unit_char hzero] at hdigit
    exact hdigit v h
  · rintro ⟨hv, rfl | rfl⟩
    · exact (hwrite v hv).1
    · exact (hwrite v hv).2

theorem HexDigit.lt {u : CodeUnit} {v : Nat} (h : HexDigit u v) : v < 16 :=
  h.1

theorem simpleEscape?_iff {u v : CodeUnit} :
    simpleEscape? u = some v ↔ ∃ c d, (c, d) ∈ escapes ∧ u = c.unit ∧ v = d.unit := by
  have hwrite : ∀ p ∈ escapes, simpleEscape? p.1.unit = some p.2.unit := by decide +kernel
  constructor
  · intro h
    have hread : ∃ d, (u.char, d) ∈ escapes ∧ v = d.unit := by
      unfold simpleEscape? at h
      split at h <;> simp_all [escapes]
    obtain ⟨d, hmem, rfl⟩ := hread
    have hzero : ∀ p ∈ escapes, p.1 ≠ '\x00' := by decide
    exact ⟨u.char, d, hmem, (CodeUnit.unit_char (hzero _ hmem)).symm, rfl⟩
  · rintro ⟨c, d, hmem, rfl, rfl⟩
    exact hwrite (c, d) hmem

/-- The letter of a numbered unit escapes nothing by itself. -/
theorem unit_ne_of_mem_escapes {c d : Char} (h : (c, d) ∈ escapes) : c.unit ≠ 'u'.unit := by
  have hall : ∀ p ∈ escapes, p.1.unit ≠ 'u'.unit := by decide +kernel
  exact hall (c, d) h

theorem unit?_iff {a b c d u : CodeUnit} :
    unit? a b c d = some u ↔ ∃ i j k l, HexDigit a i ∧ HexDigit b j ∧ HexDigit c k ∧ HexDigit d l ∧
      u.code = 4096 * i + 256 * j + 16 * k + l := by
  simp only [unit?, Option.bind_eq_bind, Option.bind_eq_some_iff, Option.pure_def, Option.some.injEq, hexDigit?_iff]
  constructor
  · rintro ⟨i, hi, j, hj, k, hk, l, hl, rfl⟩
    have hlt : 4096 * i + 256 * j + 16 * k + l < 0x10000 := by
      have := hi.lt; have := hj.lt; have := hk.lt; have := hl.lt
      omega
    exact ⟨i, j, k, l, hi, hj, hk, hl, Nat.mod_eq_of_lt hlt⟩
  · rintro ⟨i, j, k, l, hi, hj, hk, hl, hcode⟩
    refine ⟨i, hi, j, hj, k, hk, l, hl, CodeUnit.ext ?_⟩
    rw [hcode]
    exact Nat.mod_eq_of_lt (hcode ▸ u.lt)

/-! ## Units of a string -/

theorem codes_of_unescape? {cs us : List CodeUnit} (h : unescape? cs = some us) : Codes cs us := by
  fun_induction unescape? cs generalizing us with
  | case1 => cases h; exact .nil
  | case2 => cases h
  | case3 a b c d cs ih =>
    simp only [Option.bind_eq_bind, Option.bind_eq_some_iff, Option.pure_def, Option.some.injEq] at h
    obtain ⟨u, hu, vs, hvs, rfl⟩ := h
    obtain ⟨i, j, k, l, hi, hj, hk, hl, hcode⟩ := unit?_iff.mp hu
    exact .cons (.hex hi hj hk hl hcode) (ih hvs)
  | case4 => cases h
  | case5 v cs _ ih =>
    simp only [Option.bind_eq_bind, Option.bind_eq_some_iff, Option.pure_def, Option.some.injEq] at h
    obtain ⟨u, hu, vs, hvs, rfl⟩ := h
    obtain ⟨c, d, hmem, rfl, rfl⟩ := simpleEscape?_iff.mp hu
    exact .cons (.escape hmem) (ih hvs)
  | case6 => cases h
  | case7 u cs hslash hplain ih =>
    obtain ⟨vs, hvs, rfl⟩ := Option.map_eq_some_iff.mp h
    simp only [not_or, Nat.not_lt] at hplain
    exact .cons (.plain hplain.1 hplain.2 hslash) (ih hvs)

theorem unescape?_cons {us cs vs : List CodeUnit} {u : CodeUnit} (h : Code us u) (hcs : unescape? cs = some vs) :
    unescape? (us ++ cs) = some (u :: vs) := by
  cases h with
  | plain hcode hquote hslash =>
    rw [List.singleton_append, unescape?.eq_def]
    simp [hcs, hquote, hslash, Nat.not_lt.mpr hcode]
  | @escape c d hmem =>
    show unescape? ('\\'.unit :: c.unit :: cs) = _
    rw [unescape?.eq_def]
    simp [simpleEscape?_iff.mpr ⟨c, d, hmem, rfl, rfl⟩, hcs, unit_ne_of_mem_escapes hmem]
  | @hex a b c d _ i j k l hi hj hk hl hcode =>
    show unescape? ('\\'.unit :: 'u'.unit :: a :: b :: c :: d :: cs) = _
    rw [unescape?.eq_def]
    simp [unit?_iff.mpr ⟨i, j, k, l, hi, hj, hk, hl, hcode⟩, hcs]

theorem unescape?_iff {cs us : List CodeUnit} : unescape? cs = some us ↔ Codes cs us := by
  refine ⟨codes_of_unescape?, fun h => ?_⟩
  induction h with
  | nil => rfl
  | cons hu _ ih => exact unescape?_cons hu ih

theorem literal_iff {cs : List CodeUnit} {s : Text} :
    Literal cs s ↔ ∃ body us, cs = '"'.unit :: body ++ ['"'.unit] ∧ unescape? body = some us ∧ s = .ofList us := by
  constructor
  · rintro ⟨hcodes⟩
    exact ⟨_, _, rfl, unescape?_iff.mpr hcodes, rfl⟩
  · rintro ⟨body, us, rfl, h, rfl⟩
    exact .quoted (unescape?_iff.mp h)

end NetDiagram.Grammar
