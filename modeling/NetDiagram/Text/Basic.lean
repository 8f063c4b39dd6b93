/-!
# Texts

A text is a list of 16-bit units. A character of the basic plane takes one unit
and every other character a pair of surrogates. A surrogate may also stand
alone, so that there are more texts than strings.
-/

namespace NetDiagram

structure CodeUnit where
  code : Nat
  lt : code < 0x10000
  deriving DecidableEq

namespace CodeUnit

def ofNat (n : Nat) : CodeUnit :=
  ⟨n % 0x10000, Nat.mod_lt n (by decide)⟩

/-- The character with this code; no surrogate is one, and each stands for the zero character here. -/
def char (u : CodeUnit) : Char :=
  .ofNat u.code

def IsHigh (u : CodeUnit) : Prop := 0xD800 ≤ u.code ∧ u.code < 0xDC00

def IsLow (u : CodeUnit) : Prop := 0xDC00 ≤ u.code ∧ u.code < 0xE000

instance (u : CodeUnit) : Decidable u.IsHigh :=
  inferInstanceAs (Decidable (_ ∧ _))

instance (u : CodeUnit) : Decidable u.IsLow :=
  inferInstanceAs (Decidable (_ ∧ _))

theorem ext {u v : CodeUnit} (h : u.code = v.code) : u = v := by
  cases u; cases v; cases h; rfl

end CodeUnit

end NetDiagram

/-- The first unit of a character, in the basic plane the only one. -/
def Char.unit (c : Char) : NetDiagram.CodeUnit :=
  if c.toNat < 0x10000 then .ofNat c.toNat else .ofNat (0xD800 + (c.toNat - 0x10000) / 0x400)

def Char.units (c : Char) : List NetDiagram.CodeUnit :=
  if c.toNat < 0x10000 then [c.unit] else [c.unit, .ofNat (0xDC00 + c.toNat % 0x400)]

namespace NetDiagram

structure Text where
  ofList ::
  toList : List CodeUnit
  deriving DecidableEq

namespace Text

def encode (cs : List Char) : List CodeUnit :=
  cs.flatMap Char.units

def ofChars (cs : List Char) : Text :=
  .ofList (encode cs)

def ofString (s : String) : Text :=
  .ofChars s.toList

instance : Coe String Text := ⟨ofString⟩

instance : Append Text := ⟨fun s t => .ofList (s.toList ++ t.toList)⟩

def intercalate (separator : Text) (texts : List Text) : Text :=
  .ofList (separator.toList.intercalate (texts.map toList))

def length (t : Text) : Nat :=
  t.toList.length

/-! ## Joined texts -/

theorem toList_ofList (us : List CodeUnit) : (ofList us).toList = us :=
  rfl

theorem ofList_toList (t : Text) : ofList t.toList = t :=
  rfl

theorem ofList_inj {us vs : List CodeUnit} : ofList us = ofList vs ↔ us = vs :=
  ⟨ofList.inj, congrArg ofList⟩

theorem toList_inj {s t : Text} : s.toList = t.toList ↔ s = t := by
  cases s; cases t; exact ofList_inj.symm

@[simp]
theorem toList_append (s t : Text) : (s ++ t).toList = s.toList ++ t.toList :=
  rfl

theorem ofList_append (us vs : List CodeUnit) : ofList (us ++ vs) = ofList us ++ ofList vs :=
  rfl

@[simp]
theorem toList_empty : ("" : Text).toList = [] := by
  rfl

theorem append_assoc (s t u : Text) : s ++ t ++ u = s ++ (t ++ u) :=
  congrArg ofList (List.append_assoc _ _ _)

@[simp]
theorem append_empty (s : Text) : s ++ "" = s :=
  congrArg ofList (List.append_nil _)

@[simp]
theorem empty_append (s : Text) : "" ++ s = s :=
  rfl

theorem append_right_inj {s t : Text} (u : Text) : u ++ s = u ++ t ↔ s = t := by
  rw [← toList_inj, ← toList_inj, toList_append, toList_append, List.append_right_inj]

theorem append_eq_empty_iff {s t : Text} : s ++ t = "" ↔ s = "" ∧ t = "" := by
  simp only [← toList_inj, toList_append, toList_empty, List.append_eq_nil_iff]

@[simp]
theorem length_toList (t : Text) : t.toList.length = t.length :=
  rfl

@[simp]
theorem length_ofList (us : List CodeUnit) : (ofList us).length = us.length :=
  rfl

theorem length_append (s t : Text) : (s ++ t).length = s.length + t.length :=
  List.length_append

/-! ## Separators -/

theorem toList_intercalate (s : Text) (ts : List Text) :
    (intercalate s ts).toList = s.toList.intercalate (ts.map toList) :=
  rfl

@[simp]
theorem intercalate_nil {s : Text} : intercalate s [] = "" :=
  rfl

@[simp]
theorem intercalate_singleton {s t : Text} : intercalate s [t] = t := by
  rw [← toList_inj, toList_intercalate, List.map_singleton, List.intercalate_singleton]

theorem intercalate_cons_cons {s t u : Text} {ts : List Text} :
    intercalate s (t :: u :: ts) = t ++ s ++ intercalate s (u :: ts) := by
  simp only [← toList_inj, toList_intercalate, toList_append, List.map_cons, List.intercalate_cons_cons]

theorem intercalate_cons_of_ne_nil {s t : Text} {ts : List Text} (h : ts ≠ []) :
    intercalate s (t :: ts) = t ++ s ++ intercalate s ts := by
  rw [← toList_inj, toList_intercalate, List.map_cons,
    List.intercalate_cons_of_ne_nil (mt List.map_eq_nil_iff.mp h)]
  rfl

theorem intercalate_append_of_ne_nil {s : Text} {ts us : List Text} (ht : ts ≠ []) (hu : us ≠ []) :
    intercalate s (ts ++ us) = intercalate s ts ++ s ++ intercalate s us := by
  induction ts with
  | nil => exact absurd rfl ht
  | cons t ts ih =>
    cases ts with
    | nil => rw [List.singleton_append, intercalate_cons_of_ne_nil hu, intercalate_singleton]
    | cons t' ts =>
      rw [List.cons_append, List.cons_append, intercalate_cons_cons, ← List.cons_append, ih (List.cons_ne_nil _ _),
        intercalate_cons_cons]
      simp only [append_assoc]

end Text

end NetDiagram
