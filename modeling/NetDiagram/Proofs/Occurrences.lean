import Mathlib.Data.List.Induction
import Mathlib.Data.List.Nodup

/-!
# First occurrences

Without its repetitions a list holds each of its elements once, in the order in
which they occur first, also when it is the list of their images. A list grows
at its end, so the proofs are by induction from there.
-/

namespace NetDiagram

section
variable {α : Type} [BEq α] [LawfulBEq α]

theorem eraseDups_snoc (l : List α) (a : α) :
    (l ++ [a]).eraseDups = if a ∈ l then l.eraseDups else l.eraseDups ++ [a] := by
  rw [List.eraseDups_append]
  by_cases h : a ∈ l <;> simp [List.removeAll, h, List.eraseDups_cons]

theorem nodup_eraseDups (l : List α) : l.eraseDups.Nodup := by
  induction l using List.reverseRecOn with
  | nil => exact List.nodup_nil
  | append_singleton l a ih =>
    rw [eraseDups_snoc]
    split
    · exact ih
    · rename_i h
      -- the new element is not among those kept
      refine List.nodup_append.mpr ⟨ih, List.nodup_singleton a, ?_⟩
      intro b hb c hc
      rw [List.mem_eraseDups] at hb
      rw [List.mem_singleton] at hc
      rintro rfl
      exact h (hc ▸ hb)

theorem eraseDups_of_nodup {l : List α} (h : l.Nodup) : l.eraseDups = l := by
  induction l using List.reverseRecOn with
  | nil => rfl
  | append_singleton l a ih =>
    obtain ⟨hl, -, ha⟩ := List.nodup_append.mp h
    rw [eraseDups_snoc, ih hl, if_neg fun hmem => ha a hmem a (List.mem_singleton_self a) rfl]

theorem eraseDups_of_mem {before after : List α} {a : α} (h : a ∈ before) :
    (before ++ a :: after).eraseDups = (before ++ after).eraseDups := by
  simp [List.eraseDups_append, List.removeAll, h]

theorem eraseDups_eraseDups (l : List α) : l.eraseDups.eraseDups = l.eraseDups :=
  eraseDups_of_nodup (nodup_eraseDups l)

end

section
variable {α β : Type} [BEq α] [LawfulBEq α] [BEq β] [LawfulBEq β]

/-- The different images stand in the order in which the first elements with them occur. -/
theorem pairwise_eraseDups_map (f : α → β) (l : List α) :
    (l.map f).eraseDups.Pairwise fun s t =>
      ∃ a ∈ l, f a = s ∧ ∀ b ∈ l, f b = t → l.idxOf a < l.idxOf b := by
  induction l using List.reverseRecOn with
  | nil => exact .nil
  | append_singleton l x ih =>
    -- an element of the list stays before those that came after it and before the new one
    have hstays : ∀ {a t}, a ∈ l → (∀ b ∈ l, f b = t → l.idxOf a < l.idxOf b) →
        ∀ b ∈ l ++ [x], f b = t → (l ++ [x]).idxOf a < (l ++ [x]).idxOf b := by
      intro a t ha hfirst b hb hbt
      rw [List.idxOf_append_of_mem ha]
      by_cases hmem : b ∈ l
      · rw [List.idxOf_append_of_mem hmem]
        exact hfirst b hmem hbt
      · rw [List.idxOf_append_of_notMem hmem]
        exact Nat.lt_add_right _ (List.idxOf_lt_length_of_mem ha)
    have hold : (l.map f).eraseDups.Pairwise fun s t =>
        ∃ a ∈ l ++ [x], f a = s ∧ ∀ b ∈ l ++ [x], f b = t → (l ++ [x]).idxOf a < (l ++ [x]).idxOf b :=
      ih.imp fun ⟨a, ha, has, hfirst⟩ => ⟨a, List.mem_append_left _ ha, has, hstays ha hfirst⟩
    rw [List.map_append, List.map_singleton, eraseDups_snoc]
    split_ifs with hmem
    · exact hold
    · refine List.pairwise_append.mpr ⟨hold, List.pairwise_singleton _ _, ?_⟩
      intro s hs t ht
      rw [List.mem_singleton] at ht
      obtain ⟨a, ha, has⟩ := List.mem_map.mp (List.mem_eraseDups.mp hs)
      refine ⟨a, List.mem_append_left _ ha, has, hstays ha fun b hb hbt => ?_⟩
      exact absurd (ht ▸ hbt ▸ List.mem_map_of_mem hb) hmem

theorem pairwise_eraseDups (l : List α) : l.eraseDups.Pairwise fun a b => l.idxOf a < l.idxOf b := by
  have h := pairwise_eraseDups_map id l
  rw [List.map_id] at h
  refine h.imp_of_mem fun {a b} _ hb ⟨a', _, ha', hfirst⟩ => ?_
  obtain rfl : a' = a := ha'
  exact hfirst b (List.mem_eraseDups.mp hb) rfl

theorem eraseDups_map_eraseDups (f : α → β) (l : List α) : (l.eraseDups.map f).eraseDups = (l.map f).eraseDups := by
  induction l using List.reverseRecOn with
  | nil => rfl
  | append_singleton l a ih =>
    rw [eraseDups_snoc, List.map_append, List.map_singleton, eraseDups_snoc]
    by_cases ha : a ∈ l
    · rw [if_pos ha, if_pos (List.mem_map_of_mem ha), ih]
    · have hmem : f a ∈ l.eraseDups.map f ↔ f a ∈ l.map f := by simp
      rw [if_neg ha, List.map_append, List.map_singleton, eraseDups_snoc, ih]
      exact if_congr hmem rfl rfl

end

end NetDiagram
