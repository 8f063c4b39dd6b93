import NetDiagram.Proofs.Json.Sameness
import NetDiagram.Proofs.Json.Parsing
import NetDiagram.Proofs.Json.Strings
import NetDiagram.Proofs.Numeric.ReadBack
import NetDiagram.Json.Printer

/-!
# What is written is read back

A value with plain numbers and without repeated keys is written as a text of the
grammar, and the text spells the value again. Only the order of members may be
another one: they are written in the order of visit.
-/

namespace NetDiagram

open Grammar

/-! ## Strings -/

theorem code_escape (u : CodeUnit) : Code (Quoted.escape u) u := by
  unfold Quoted.escape
  split_ifs with hquote hslash hb hf hn hr ht hhidden
  · subst hquote
    exact .escape (by decide)
  · subst hslash
    exact .escape (by decide)
  · subst hb
    exact .escape (by decide)
  · subst hf
    exact .escape (by decide)
  · subst hn
    exact .escape (by decide)
  · subst hr
    exact .escape (by decide)
  · subst ht
    exact .escape (by decide)
  · have hdigit : ∀ n < 16, HexDigit n.digitChar.unit n := fun n hn => ⟨hn, .inl rfl⟩
    have hlt := u.lt
    exact .hex (hdigit (u.code / 4096) (by omega)) (hdigit (u.code / 256 % 16) (by omega))
      (hdigit (u.code / 16 % 16) (by omega)) (hdigit (u.code % 16) (by omega)) (by omega)
  · exact .plain (by omega) hquote hslash

/-- The two units of a pair stand for themselves, as every surrogate does that is not escaped. -/
theorem code_surrogate {u : CodeUnit} (h : u.IsHigh ∨ u.IsLow) : Code [u] u := by
  have hge : 0xD800 ≤ u.code := by
    unfold CodeUnit.IsHigh CodeUnit.IsLow at h
    omega
  have hascii : ∀ v : CodeUnit, v.code < 128 → u ≠ v := by
    rintro v hv rfl
    omega
  exact .plain (by omega) (hascii _ (by decide)) (hascii _ (by decide))

theorem codes_escaped (us : List CodeUnit) : Codes (Quoted.escaped us) us := by
  fun_induction Quoted.escaped us with
  | case1 => exact .nil
  | case2 u => simpa using Codes.cons (code_escape u) .nil
  | case3 u v us hpair ih => exact .cons (code_surrogate (.inl hpair.1)) (.cons (code_surrogate (.inr hpair.2)) ih)
  | case4 u v us hpair ih => exact .cons (code_escape u) ih

theorem literal_quote (s : Text) : Literal (Quoted.quote s) s :=
  .quoted (codes_escaped s.toList)

/-! ## Numbers -/

theorem Binary64.unsignedZero_of_ne {x : Binary64} (h : x ≠ .zero true) : x.unsignedZero = x := by
  cases x with
  | nan => rfl
  | infinity negative => rfl
  | finite negative sig exp fits =>
    by_cases hsig : sig = 0
    · subst hsig
      obtain rfl := fits.exp_eq_zero
      cases negative with
      | false => rfl
      | true => exact absurd rfl h
    · rw [unsignedZero, if_neg hsig]

theorem value_number {x : Binary64} (hfinite : x.isFinite) (hx : x ≠ .zero true) :
    Value (Text.encode x.chars) (.number x) := by
  obtain ⟨n, hn, hread⟩ := Binary64.number_of_finite hfinite
  rw [Binary64.unsignedZero_of_ne hx] at hread
  exact .number hn (isNearest_iff.mpr hread)

/-! ## Arrays -/

theorem exists_forall₂ {α β : Type} {R : α → β → Prop} {xs : List α} (h : ∀ x ∈ xs, ∃ y, R x y) :
    ∃ ys, List.Forall₂ R xs ys := by
  induction xs with
  | nil => exact ⟨[], .nil⟩
  | cons x xs ih =>
    rw [List.forall_mem_cons] at h
    obtain ⟨y, hy⟩ := h.1
    obtain ⟨ys, hys⟩ := ih h.2
    exact ⟨y :: ys, .cons hy hys⟩

namespace Json

theorem elementUnits_eq_map (vs : List Json) : elementUnits vs = vs.map units := by
  induction vs with
  | nil => rfl
  | cons v vs ih => rw [elementUnits, ih, List.map_cons]

theorem memberUnits_eq_map (ms : Members Json) : memberUnits ms = ms.map fun m => (m.1, m.2.units) := by
  induction ms with
  | nil => rfl
  | cons m ms ih => rw [memberUnits, ih, List.map_cons]

theorem elements_joined {texts : List (List CodeUnit)} {ws : List Json} (h : List.Forall₂ Value texts ws)
    (hne : ws ≠ []) : Elements (joined texts) ws := by
  induction h with
  | nil => exact absurd rfl hne
  | @cons text w texts ws hvalue hrest ih =>
    cases hrest with
    | nil => simpa [joined] using Elements.one blanks_nil hvalue blanks_nil
    | cons hnext hrest =>
      have hmore := Elements.more blanks_nil hvalue blanks_nil (ih (List.cons_ne_nil _ _))
      simpa [joined, List.intercalate_cons_cons] using hmore

theorem value_array {texts : List (List CodeUnit)} {ws : List Json} (h : List.Forall₂ Value texts ws) :
    Value ('['.unit :: joined texts ++ [']'.unit]) (.array ws) := by
  cases h with
  | nil => exact .emptyArray blanks_nil
  | cons hvalue hrest => exact .array (elements_joined (.cons hvalue hrest) (List.cons_ne_nil _ _))

end Json

/-! ## Objects -/

namespace Members

variable {α β : Type}

theorem place_map (f : α → β) (m : Text × α) (ms : Members α) :
    place (m.1, f m.2) (ms.map fun m => (m.1, f m.2)) = (place m ms).map fun m => (m.1, f m.2) := by
  induction ms with
  | nil => rfl
  | cons n ms ih =>
    rw [List.map_cons, place, place, ih]
    split <;> rfl

theorem inOrder_map (f : α → β) (ms : Members α) :
    inOrder (ms.map fun m => (m.1, f m.2)) = (inOrder ms).map fun m => (m.1, f m.2) := by
  induction ms with
  | nil => rfl
  | cons m ms ih => exact (congrArg (place (m.1, f m.2)) ih).trans (place_map f m (inOrder ms))

theorem lastWins_self {ms : Members α} (h : (ms.map Prod.fst).Nodup) : LastWins ms ms :=
  ⟨(eraseDups_of_nodup h).symm, get?_perm ms.reverse_perm.symm h⟩

end Members

namespace Json

theorem pairs_joined {ts : Members (List CodeUnit)} {ps : Members Json}
    (h : List.Forall₂ (fun t p => t.1 = p.1 ∧ Value t.2 p.2) ts ps) (hne : ps ≠ []) :
    Pairs (joined (ts.map memberText)) ps := by
  induction h with
  | nil => exact absurd rfl hne
  | @cons t p ts ps hpair hrest ih =>
    obtain ⟨key, text⟩ := t
    obtain ⟨key', w⟩ := p
    obtain ⟨rfl, hvalue⟩ := hpair
    cases hrest with
    | nil =>
      have hone := Pairs.one blanks_nil (literal_quote key) blanks_nil blanks_nil hvalue blanks_nil
      simpa [joined, memberText] using hone
    | cons hnext hrest =>
      have hmore := Pairs.more blanks_nil (literal_quote key) blanks_nil blanks_nil hvalue blanks_nil
        (ih (List.cons_ne_nil _ _))
      simpa [joined, memberText, List.intercalate_cons_cons] using hmore

theorem value_object {ts : Members (List CodeUnit)} {ps : Members Json}
    (h : List.Forall₂ (fun t p => t.1 = p.1 ∧ Value t.2 p.2) ts ps) (hn : (ps.map Prod.fst).Nodup) :
    Value ('\x7b'.unit :: joined (ts.map memberText) ++ ['\x7d'.unit]) (.object ps) := by
  cases h with
  | nil => exact .emptyObject blanks_nil
  | cons hpair hrest =>
    exact .object (pairs_joined (.cons hpair hrest) (List.cons_ne_nil _ _)) (Members.lastWins_self hn)

/-! ## Values -/

/-- The text of a value spells the value, with its members in another order perhaps. -/
theorem exists_value_units {v : Json} (hnumbers : v.HasPlainNumbers) (hkeys : v.HasDistinctKeys) :
    ∃ w, Value v.units w ∧ v.Same w := by
  induction v using induction with
  | null => exact ⟨.null, .null, .null⟩
  | bool value =>
    cases value with
    | false => exact ⟨_, .false, .bool _⟩
    | true => exact ⟨_, .true, .bool _⟩
  | number x =>
    obtain ⟨hfinite, hx⟩ := hnumbers x (.self _)
    refine ⟨.number x, ?_, .number x⟩
    rw [units, if_pos hfinite]
    exact value_number hfinite hx
  | string s => exact ⟨.string s, .string (literal_quote s), .string s⟩
  | array vs ih =>
    have hparts : ∀ v ∈ vs, ∃ w, Value v.units w ∧ v.Same w := fun v hv =>
      ih v hv (fun x hx => hnumbers x (.element hv hx)) fun ms hms => hkeys ms (.element hv hms)
    obtain ⟨ws, hws⟩ := exists_forall₂ hparts
    refine ⟨.array ws, ?_, same_array_iff.mpr ⟨ws, rfl, hws.imp fun _ _ h => h.2⟩⟩
    rw [units, elementUnits_eq_map]
    exact value_array (List.forall₂_map_left_iff.mpr (hws.imp fun _ _ h => h.1))
  | object ms ih =>
    have hperm := Members.inOrder_perm ms
    have hparts : ∀ m ∈ Members.inOrder ms, ∃ p : Text × Json, m.1 = p.1 ∧ Value m.2.units p.2 ∧ m.2.Same p.2 := by
      intro m hm
      have hmem := hperm.mem_iff.mp hm
      obtain ⟨w, hvalue, hsame⟩ := ih m hmem (fun x hx => hnumbers x (.member hmem hx))
        fun ms hms => hkeys ms (.member hmem hms)
      exact ⟨(m.1, w), rfl, hvalue, hsame⟩
    obtain ⟨ps, hps⟩ := exists_forall₂ hparts
    -- writing reorders the members, and each of them reads as the same value
    have hsame : Members.SameEntries Same ms ps := by
      have hordered := Members.sameEntries_of_perm hperm.symm (hkeys ms (.self _))
      have hread := Members.sameEntries_of_forall₂ (R := Same) (hps.imp fun _ _ h => ⟨h.1, h.2.2⟩)
      exact (hordered.trans hread).mono fun _ _ _ _ ⟨u, hu, hw⟩ => hu ▸ hw
    refine ⟨.object ps, ?_, same_object_iff.mpr ⟨ps, rfl, hsame⟩⟩
    rw [units, memberUnits_eq_map, Members.inOrder_map]
    refine value_object (List.forall₂_map_left_iff.mpr (hps.imp fun _ _ h => ⟨h.1, h.2.1⟩)) ?_
    exact hsame.keys.nodup_iff.mp (hkeys ms (.self _))

/-- Reading what was written gives the value again, but for the order of members. -/
theorem parse?_render {v : Json} (hnumbers : v.HasPlainNumbers) (hkeys : v.HasDistinctKeys) :
    ∃ w, Json.parse? v.render = some w ∧ v.Same w := by
  obtain ⟨w, hvalue, hsame⟩ := exists_value_units hnumbers hkeys
  refine ⟨w, parse?_iff.mpr ?_, hsame⟩
  rw [render, Text.toList_ofList]
  simpa using Document.value blanks_nil hvalue blanks_nil

end Json

end NetDiagram
