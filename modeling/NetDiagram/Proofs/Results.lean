import Mathlib.Data.List.Forall2

/-!
# Results that may fail

A computation that ends well has ended well in each of its steps.
-/

namespace NetDiagram

variable {ε α β γ δ : Type}

theorem bind_eq_ok {r : Except ε α} {f : α → Except ε β} {b : β} (h : r >>= f = .ok b) :
    ∃ a, r = .ok a ∧ f a = .ok b := by
  cases r with
  | error e => cases h
  | ok a => exact ⟨a, rfl, h⟩

def errorOf? : Except ε α → Option ε
  | .error e => some e
  | .ok _ => none

theorem errorOf?_eq_some {r : Except ε α} {e : ε} : errorOf? r = some e ↔ r = .error e := by
  cases r <;> simp [errorOf?]

theorem errorOf?_eq_none {r : Except ε α} : errorOf? r = none ↔ ∃ a, r = .ok a := by
  cases r <;> simp [errorOf?]

theorem mapM_nil_eq_ok {f : α → Except ε β} {ys : List β} (h : [].mapM f = .ok ys) : ys = [] := by
  cases h
  rfl

theorem mapM_cons_eq_ok {f : α → Except ε β} {x : α} {xs : List α} {zs : List β} (h : (x :: xs).mapM f = .ok zs) :
    ∃ y ys, f x = .ok y ∧ xs.mapM f = .ok ys ∧ zs = y :: ys := by
  rw [List.mapM_cons] at h
  obtain ⟨y, hy, h⟩ := bind_eq_ok h
  obtain ⟨ys, hys, h⟩ := bind_eq_ok h
  cases h
  exact ⟨y, ys, hy, hys, rfl⟩

theorem mapM_cons_ok {f : α → Except ε β} {x : α} {xs : List α} {y : β} {ys : List β} (hx : f x = .ok y)
    (hxs : xs.mapM f = .ok ys) : (x :: xs).mapM f = .ok (y :: ys) := by
  rw [List.mapM_cons, hx, hxs]
  rfl

theorem mapM_of_forall₂ {f : α → Except ε β} {xs : List α} {ys : List β}
    (h : List.Forall₂ (fun x y => f x = .ok y) xs ys) : xs.mapM f = .ok ys := by
  induction h with
  | nil => rfl
  | cons hx _ ih => exact mapM_cons_ok hx ih

theorem mapM_eq_map {f : α → Except ε β} {g : α → β} {xs : List α} (h : ∀ x ∈ xs, f x = .ok (g x)) :
    xs.mapM f = .ok (xs.map g) := by
  induction xs with
  | nil => rfl
  | cons x xs ih =>
    rw [List.forall_mem_cons] at h
    exact mapM_cons_ok h.1 (ih h.2)

theorem map_of_mapM {f : α → Except ε β} {g : α → γ} {k : β → γ} (h : ∀ x y, f x = .ok y → g x = k y) {xs : List α}
    {ys : List β} (hxs : xs.mapM f = .ok ys) : xs.map g = ys.map k := by
  induction xs generalizing ys with
  | nil =>
    rw [mapM_nil_eq_ok hxs]
    rfl
  | cons x xs ih =>
    obtain ⟨y, ys, hx, htail, rfl⟩ := mapM_cons_eq_ok hxs
    rw [List.map_cons, List.map_cons, h x y hx, ih htail]

theorem length_of_mapM {f : α → Except ε β} {xs : List α} {ys : List β} (h : xs.mapM f = .ok ys) :
    ys.length = xs.length := by
  induction xs generalizing ys with
  | nil =>
    rw [mapM_nil_eq_ok h]
    rfl
  | cons x xs ih =>
    obtain ⟨y, ys, -, htail, rfl⟩ := mapM_cons_eq_ok h
    rw [List.length_cons, List.length_cons, ih htail]

/-- Where one computation ends well another one does, with results that look alike. -/
theorem mapM_transfer {ε' : Type} {f : α → Except ε β} {g : α → Except ε' γ} {k : β → δ} {l : γ → δ} {xs : List α}
    {ys : List β} (h : ∀ x ∈ xs, ∀ y, f x = .ok y → ∃ z, g x = .ok z ∧ k y = l z) (hxs : xs.mapM f = .ok ys) :
    ∃ zs, xs.mapM g = .ok zs ∧ ys.map k = zs.map l := by
  induction xs generalizing ys with
  | nil =>
    rw [mapM_nil_eq_ok hxs]
    exact ⟨[], rfl, rfl⟩
  | cons x xs ih =>
    obtain ⟨y, ys, hx, htail, rfl⟩ := mapM_cons_eq_ok hxs
    obtain ⟨z, hz, hkl⟩ := h x (by simp) y hx
    obtain ⟨zs, hzs, hmap⟩ := ih (fun x hx => h x (by simp [hx])) htail
    exact ⟨z :: zs, mapM_cons_ok hz hzs, by rw [List.map_cons, List.map_cons, hkl, hmap]⟩

theorem mem_mapM_iff {f : α → Except ε β} {xs : List α} {ys : List β} (h : xs.mapM f = .ok ys) {y : β} :
    y ∈ ys ↔ ∃ x ∈ xs, f x = .ok y := by
  induction xs generalizing ys with
  | nil => simp [mapM_nil_eq_ok h]
  | cons x xs ih =>
    obtain ⟨z, zs, hx, htail, rfl⟩ := mapM_cons_eq_ok h
    simp [ih htail, hx, eq_comm]

theorem exists_of_mem_mapM {f : α → Except ε β} {xs : List α} {ys : List β} (h : xs.mapM f = .ok ys) {y : β}
    (hy : y ∈ ys) : ∃ x ∈ xs, f x = .ok y :=
  (mem_mapM_iff h).mp hy

theorem forall_mem_mapM {f : α → Except ε β} {xs : List α} {ys : List β} {R : β → Prop} (h : xs.mapM f = .ok ys)
    (hf : ∀ x ∈ xs, ∀ y, f x = .ok y → R y) : ∀ y ∈ ys, R y := by
  intro y hy
  obtain ⟨x, hx, hxy⟩ := exists_of_mem_mapM h hy
  exact hf x hx y hxy

/-! ## The first step that fails -/

section
variable {f : α → Except ε β} {xs : List α}

/-- A traversal ends at its first failure. -/
theorem errorOf?_mapM : errorOf? (xs.mapM f) = xs.findSome? fun x => errorOf? (f x) := by
  induction xs with
  | nil => rfl
  | cons x xs ih =>
    rw [List.mapM_cons, List.findSome?_cons, ← ih]
    cases f x with
    | error e => rfl
    | ok y => cases xs.mapM f <;> rfl

theorem exists_ok_of_mapM {ys : List β} (h : xs.mapM f = .ok ys) : ∀ x ∈ xs, ∃ y, f x = .ok y := by
  intro x hx
  have hnone : errorOf? (xs.mapM f) = none := errorOf?_eq_none.mpr ⟨ys, h⟩
  rw [errorOf?_mapM] at hnone
  exact errorOf?_eq_none.mp (List.findSome?_eq_none_iff.mp hnone x hx)

theorem mapM_eq_error_iff {e : ε} : xs.mapM f = .error e ↔
    ∃ before x after, xs = before ++ x :: after ∧ f x = .error e ∧ ∀ y ∈ before, ∃ b, f y = .ok b := by
  rw [← errorOf?_eq_some, errorOf?_mapM, List.findSome?_eq_some_iff]
  simp only [errorOf?_eq_some, errorOf?_eq_none]

theorem mapM_eq_ok_map_iff {g : α → β} : xs.mapM f = .ok (xs.map g) ↔ ∀ x ∈ xs, f x = .ok (g x) := by
  refine ⟨fun h => ?_, mapM_eq_map⟩
  induction xs with
  | nil => simp
  | cons x xs ih =>
    obtain ⟨y, ys, hx, htail, hcons⟩ := mapM_cons_eq_ok h
    obtain ⟨rfl, rfl⟩ := List.cons.inj hcons
    rw [List.forall_mem_cons]
    exact ⟨hx, ih htail⟩

end

/-! ## Results under maps -/

section
variable {ε' : Type} {r : Except ε α} {s : Except ε' β} {f : α → β} {g : ε' → ε}

theorem map_injective (hf : Function.Injective f) : Function.Injective (Except.map f : Except ε α → Except ε β) := by
  intro r s h
  cases r <;> cases s <;> simp_all [Except.map, hf.eq_iff]

theorem eq_ok_iff_of_map (h : r.map f = s.mapError g) (hf : Function.Injective f) {a : α} :
    r = .ok a ↔ s = .ok (f a) := by
  cases r with
  | error e => cases s <;> simp [Except.map, Except.mapError] at h ⊢
  | ok b =>
    cases s with
    | error e => cases h
    | ok c =>
      obtain rfl : f b = c := Except.ok.inj h
      simp [hf.eq_iff]

theorem eq_error_iff_of_map (h : r.map f = s.mapError g) {e : ε} : r = .error e ↔ ∃ e', s = .error e' ∧ e = g e' := by
  cases r with
  | ok b => cases s <;> simp [Except.map, Except.mapError] at h ⊢
  | error d =>
    cases s with
    | ok c => cases h
    | error e' =>
      obtain rfl : d = g e' := Except.error.inj h
      simp [eq_comm]

end

/-! ## Results that agree -/

/-- Both fail in one way, or both end well with related results. -/
inductive Agree (R : α → β → Prop) : Except ε α → Except ε β → Prop
  | ok {a : α} {b : β} (h : R a b) : Agree R (.ok a) (.ok b)
  | error (e : ε) : Agree R (.error e) (.error e)

namespace Agree

variable {R : α → β → Prop} {S : γ → δ → Prop} {r : Except ε α} {s : Except ε β}

theorem results (h : Agree R r s) :
    (∃ e, r = .error e ∧ s = .error e) ∨ ∃ a b, r = .ok a ∧ s = .ok b ∧ R a b := by
  cases h with
  | ok h => exact .inr ⟨_, _, rfl, rfl, h⟩
  | error e => exact .inl ⟨e, rfl, rfl⟩

theorem bind {f : α → Except ε γ} {g : β → Except ε δ} (h : Agree R r s)
    (hnext : ∀ a b, R a b → Agree S (f a) (g b)) : Agree S (r >>= f) (s >>= g) := by
  cases h with
  | ok h => exact hnext _ _ h
  | error e => exact .error e

theorem map {f : α → γ} {g : β → δ} (h : Agree R r s) (hfg : ∀ a b, R a b → S (f a) (g b)) :
    Agree S (r >>= fun a => pure (f a)) (s >>= fun b => pure (g b)) :=
  h.bind fun a b hab => .ok (hfg a b hab)

theorem map_eq {f : α → γ} {g : β → γ} (h : Agree R r s) (hfg : ∀ a b, R a b → f a = g b) :
    (r >>= fun a => pure (f a)) = s >>= fun b => pure (g b) := by
  cases h with
  | ok h => exact congrArg Except.ok (hfg _ _ h)
  | error e => rfl

theorem mapM {f : α → Except ε γ} {g : β → Except ε δ} {xs : List α} {ys : List β} (h : List.Forall₂ R xs ys)
    (hfg : ∀ a b, R a b → Agree S (f a) (g b)) : Agree (List.Forall₂ S) (xs.mapM f) (ys.mapM g) := by
  induction h with
  | nil => exact .ok .nil
  | cons hxy _ ih =>
    rw [List.mapM_cons, List.mapM_cons]
    exact (hfg _ _ hxy).bind fun _ _ hhead => ih.bind fun _ _ htail => .ok (.cons hhead htail)

theorem of_map {f : α → γ} {g : β → γ} (h : r.map f = s.map g) : Agree (fun a b => f a = g b) r s := by
  cases r with
  | error e =>
    cases s with
    | error e' =>
      cases h
      exact .error e
    | ok b => cases h
  | ok a =>
    cases s with
    | error e => cases h
    | ok b => exact .ok (Except.ok.inj h)

end Agree

end NetDiagram
