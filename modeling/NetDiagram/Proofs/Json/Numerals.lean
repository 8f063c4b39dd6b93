import NetDiagram.Proofs.Json.Grammar

/-!
# Reading numerals

The reader takes the longest run of digits each time, and what follows a run in
a numeral is never a digit. So it reads exactly the numerals of the grammar,
each in the one way the grammar allows.
-/

namespace NetDiagram.Grammar

open Numeral

def Stops (cs : List Char) : Prop :=
  ∀ c ∈ cs.head?, ¬ c.isDigit

theorem stops_nil : Stops [] := by
  intro c hc; cases hc

theorem stops_cons {c : Char} (cs : List Char) (h : ¬ c.isDigit) : Stops (c :: cs) := by
  intro d hd; cases hd; exact h

/-! ## Runs of digits -/

theorem takeWhile_digits {ds cs : List Char} (hd : ∀ c ∈ ds, c.isDigit) (hs : Stops cs) :
    (ds ++ cs).takeWhile Char.isDigit = ds ∧ (ds ++ cs).dropWhile Char.isDigit = cs := by
  induction ds with
  | nil =>
    cases cs with
    | nil => exact ⟨rfl, rfl⟩
    | cons c cs =>
      have hc : ¬ c.isDigit := hs c rfl
      simp [hc]
  | cons d ds ih =>
    have hd' : d.isDigit := hd d (by simp)
    obtain ⟨h1, h2⟩ := ih fun c hc => hd c (by simp [hc])
    simp [hd', h1, h2]

theorem stops_dropWhile (cs : List Char) : Stops (cs.dropWhile Char.isDigit) := by
  intro c hc hdigit
  have := List.head?_dropWhile_not Char.isDigit cs
  rw [hc] at this
  simp [hdigit] at this

/-- Digits are read as far as they go. -/
theorem digits?_iff {cs ds rest : List Char} :
    digits? cs = some (ds, rest) ↔ cs = ds ++ rest ∧ Digits ds ∧ Stops rest := by
  constructor
  · intro h
    unfold digits? at h
    split at h
    · cases h
    · rename_i hne
      simp only [Option.some.injEq, Prod.mk.injEq] at h
      obtain ⟨rfl, rfl⟩ := h
      exact ⟨(List.takeWhile_append_dropWhile).symm, ⟨hne, fun c hc => by simpa using List.mem_takeWhile_imp hc⟩,
        stops_dropWhile cs⟩
  · rintro ⟨rfl, ⟨hne, hd⟩, hs⟩
    obtain ⟨h1, h2⟩ := takeWhile_digits hd hs
    unfold digits?
    rw [h1, h2]
    cases ds with
    | nil => exact absurd rfl hne
    | cons d ds => rfl

/-! ## Parts of a numeral -/

theorem Whole.digits {w : List Char} (h : Whole w) : Digits w := by
  cases h with
  | zero => exact ⟨by simp, by simp⟩
  | positive hc _ hcs => exact ⟨by simp, by simpa using ⟨hc, hcs⟩⟩

theorem whole?_iff {cs w rest : List Char} : whole? cs = some (w, rest) ↔ cs = w ++ rest ∧ Whole w ∧ Stops rest := by
  constructor
  · intro h
    unfold whole? at h
    split at h
    · cases h
    · rename_i hzero
      obtain ⟨hcs, ⟨hne, hd⟩, hs⟩ := digits?_iff.mp h
      refine ⟨hcs, ?_, hs⟩
      cases w with
      | nil => exact absurd rfl hne
      | cons c w =>
        -- a zero in front has to be the only digit
        by_cases hc : c = '0'
        · subst hc
          cases w with
          | nil => exact .zero
          | cons d w => exact absurd h (hzero d w rest)
        · exact .positive (hd c (by simp)) hc fun d hd' => hd d (by simp [hd'])
  · rintro ⟨rfl, hw, hs⟩
    have hd := digits?_iff.mpr ⟨rfl, hw.digits, hs⟩
    unfold whole?
    rw [hd]
    cases hw with
    | zero => rfl
    | positive _ hc _ =>
      split
      · rename_i heq; simp only [Option.some.injEq, Prod.mk.injEq, List.cons.injEq] at heq; exact absurd heq.1.1 hc
      · rfl

theorem fraction?_sound {cs ds rest : List Char} (h : fraction? cs = some (ds, rest)) :
    ∃ f, cs = f ++ rest ∧ Fraction f ds := by
  unfold fraction? at h
  split at h
  · obtain ⟨rfl, hd, -⟩ := digits?_iff.mp h
    exact ⟨_, rfl, .digits hd⟩
  · simp only [Option.some.injEq, Prod.mk.injEq] at h
    obtain ⟨rfl, rfl⟩ := h
    exact ⟨[], rfl, .absent⟩

theorem Exponent.head {x : List Char} {e : Int} (h : Exponent x e) : ∀ c ∈ x.head?, c = 'e' ∨ c = 'E' := by
  cases h with
  | absent => intro c hc; cases hc
  | unsigned he | plus he | minus he => intro c hc; cases hc; exact he

theorem Exponent.stops {x : List Char} {e : Int} (h : Exponent x e) : Stops x := by
  intro c hc
  rcases h.head c hc with rfl | rfl <;> decide

theorem fraction?_complete {f ds x : List Char} {e : Int} (hf : Fraction f ds) (hx : Exponent x e) :
    fraction? (f ++ x) = some (ds, x) := by
  cases hf with
  | absent =>
    unfold fraction?
    split
    · rename_i heq
      rcases hx.head '.' (by rw [List.nil_append] at heq; rw [heq]; rfl) with h | h <;> cases h
    · rfl
  | digits hd => exact digits?_iff.mpr ⟨rfl, hd, hx.stops⟩

theorem Fraction.stops {f ds x : List Char} {e : Int} (hf : Fraction f ds) (hx : Exponent x e) : Stops (f ++ x) := by
  cases hf with
  | absent => exact hx.stops
  | digits _ => exact stops_cons _ (by decide)

def exponentSign (cs : List Char) : Bool × List Char :=
  match cs with
  | '+' :: cs => (false, cs)
  | cs => sign cs

theorem exponentSign_cases (cs : List Char) :
    (∃ ds, cs = '+' :: ds ∧ exponentSign cs = (false, ds)) ∨ (∃ ds, cs = '-' :: ds ∧ exponentSign cs = (true, ds)) ∨
      exponentSign cs = (false, cs) := by
  unfold exponentSign sign
  split
  · exact .inl ⟨_, rfl, rfl⟩
  · split
    · exact .inr (.inl ⟨_, rfl, rfl⟩)
    · exact .inr (.inr rfl)

theorem exponentSign_digits {ds : List Char} (h : Digits ds) : exponentSign ds = (false, ds) := by
  rcases exponentSign_cases ds with ⟨_, rfl, -⟩ | ⟨_, rfl, -⟩ | h'
  · exact absurd (h.2 '+' (by simp)) (by decide)
  · exact absurd (h.2 '-' (by simp)) (by decide)
  · exact h'

theorem exponent?_cons (e : Char) (cs : List Char) :
    exponent? (e :: cs) =
      if e = 'e' ∨ e = 'E' then
        match digits? (exponentSign cs).2 with
        | some (ds, []) => some (if (exponentSign cs).1 then -(value ds : Int) else value ds)
        | _ => none
      else none :=
  rfl

theorem exponent?_sound {x : List Char} {e : Int} (h : exponent? x = some e) : Exponent x e := by
  cases x with
  | nil => cases h; exact .absent
  | cons c cs =>
    by_cases he : c = 'e' ∨ c = 'E'
    · rw [exponent?_cons, if_pos he] at h
      split at h
      · rename_i ds hds
        obtain ⟨hcs, hd, -⟩ := digits?_iff.mp hds
        rw [List.append_nil] at hcs
        obtain rfl := Option.some.inj h
        rcases exponentSign_cases cs with ⟨_, rfl, hs⟩ | ⟨_, rfl, hs⟩ | hs <;>
          rw [hs] at hcs ⊢ <;> dsimp only at hcs <;> subst hcs
        · exact .plus he hd
        · exact .minus he hd
        · exact .unsigned he hd
      · cases h
    · rw [exponent?_cons, if_neg he] at h; cases h

theorem exponent?_complete {x : List Char} {e : Int} (h : Exponent x e) : exponent? x = some e := by
  have hdigits : ∀ {ds : List Char}, Digits ds → digits? ds = some (ds, []) := fun h =>
    digits?_iff.mpr ⟨(List.append_nil _).symm, h, stops_nil⟩
  cases h with
  | absent => rfl
  | unsigned he hd => rw [exponent?_cons, if_pos he, exponentSign_digits hd, hdigits hd]; rfl
  | @plus e ds he hd =>
    have hs : exponentSign ('+' :: ds) = (false, ds) := rfl
    rw [exponent?_cons, if_pos he, hs, hdigits hd]; rfl
  | @minus e ds he hd =>
    have hs : exponentSign ('-' :: ds) = (true, ds) := rfl
    rw [exponent?_cons, if_pos he, hs, hdigits hd]; rfl

/-! ## Numerals -/

theorem sign_of_digits {ds : List Char} (cs : List Char) (h : Digits ds) : sign (ds ++ cs) = (false, ds ++ cs) := by
  unfold sign
  split
  · rename_i heq
    cases ds with
    | nil => exact absurd rfl h.1
    | cons d ds =>
      obtain rfl : d = '-' := by simpa using congrArg List.head? heq
      exact absurd (h.2 '-' (by simp)) (by decide)
  · rfl

theorem ofChars?_eq (cs : List Char) :
    ofChars? cs = do
      let (whole, rest) ← whole? (sign cs).2
      let (fraction, rest) ← fraction? rest
      let exponent ← exponent? rest
      return ⟨(sign cs).1, whole, fraction, exponent⟩ :=
  rfl

theorem number_of_ofChars? {cs : List Char} {n : Numeral} (h : ofChars? cs = some n) : Number cs n := by
  rw [ofChars?_eq] at h
  simp only [Option.bind_eq_bind, Option.bind_eq_some_iff, Prod.exists, Option.pure_def, Option.some.injEq] at h
  obtain ⟨w, r₁, hw, ds, r₂, hf, e, he, rfl⟩ := h
  obtain ⟨hcs, hw', -⟩ := whole?_iff.mp hw
  obtain ⟨f, rfl, hf'⟩ := fraction?_sound hf
  have hx := exponent?_sound he
  unfold sign at hcs ⊢
  split at hcs
  · dsimp only at hcs; subst hcs
    rw [← List.append_assoc]; exact .minus hw' hf' hx
  · dsimp only at hcs; subst hcs
    rw [← List.append_assoc]; exact .unsigned hw' hf' hx

theorem ofChars?_of_parts {cs w f ds x : List Char} {e : Int} {negative : Bool}
    (hs : sign cs = (negative, w ++ (f ++ x))) (hw : Whole w) (hf : Fraction f ds) (hx : Exponent x e) :
    ofChars? cs = some ⟨negative, w, ds, e⟩ := by
  rw [ofChars?_eq, hs]
  simp only [whole?_iff.mpr ⟨rfl, hw, hf.stops hx⟩, Option.bind_eq_bind, Option.bind_some,
    fraction?_complete hf hx, exponent?_complete hx, Option.pure_def]

theorem ofChars?_iff {cs : List Char} {n : Numeral} : ofChars? cs = some n ↔ Number cs n := by
  refine ⟨number_of_ofChars?, fun h => ?_⟩
  cases h with
  | unsigned hw hf hx =>
    refine ofChars?_of_parts ?_ hw hf hx
    rw [List.append_assoc]; exact sign_of_digits _ hw.digits
  | minus hw hf hx =>
    refine ofChars?_of_parts ?_ hw hf hx
    rw [List.append_assoc]; rfl

/-! ## Values -/

theorem value_append (ds es : List Char) : value (ds ++ es) = 10 ^ es.length * value ds + value es := by
  unfold value
  rw [Nat.ofDigitChars_append, Nat.ofDigitChars_eq_ofDigitChars_zero]

theorem value_toDecimal (n : Numeral) : n.toDecimal.value = magnitude n := by
  have h10 : (10 : ℚ) ^ n.fraction.length ≠ 0 := by positivity
  simp only [toDecimal, Decimal.value, magnitude, value_append]
  rw [zpow_sub₀ (by norm_num), zpow_natCast]
  push_cast
  field_simp

/-- Reading takes a numeral to the number that its grammar asks for, and to no other. -/
theorem isNearest_iff {n : Numeral} {x : Binary64} : x.IsNearest n.negative (magnitude n) ↔ n.toBinary64 = x := by
  have h := n.toDecimal.toBinary64_isNearest n.negative
  rw [value_toDecimal] at h
  exact ⟨fun hx => h.unique hx, fun hx => hx ▸ h⟩

end NetDiagram.Grammar
