import NetDiagram.Network.Toggle
import NetDiagram.Proofs.Occurrences
import Mathlib.Data.List.Perm.Subperm
import Mathlib.Data.Set.Function

/-!
# Groups of colliding texts

A toggle keeps the units of its text but for points and slashes, so two
texts collide if they differ in points, slashes and underscores only. One pass
over the texts finds the groups: a text joins the group of its identifier or
starts a new one, and a repetition changes nothing. Groups and members both
stand in the order in which they occur first.
-/

namespace NetDiagram

/-! ## Texts with one identifier -/

def IsSeparator (c : CodeUnit) : Prop :=
  c = '.'.unit ∨ c = '/'.unit ∨ c = '_'.unit

structure SameButSeparators (a b : Text) : Prop where
  length : a.length = b.length
  chars : ∀ i (ha : i < a.toList.length) (hb : i < b.toList.length),
    a.toList[i] = b.toList[i] ∨ IsSeparator a.toList[i] ∧ IsSeparator b.toList[i]

theorem identifierUnit_eq_iff {c d : CodeUnit} :
    identifierUnit c = identifierUnit d ↔ c = d ∨ IsSeparator c ∧ IsSeparator d := by
  unfold identifierUnit IsSeparator
  split_ifs with hc hd hd
  · tauto
  · constructor
    · rintro rfl
      tauto
    · rintro (rfl | ⟨-, rfl | rfl | rfl⟩) <;> tauto
  · constructor
    · rintro rfl
      tauto
    · rintro (rfl | ⟨rfl | rfl | rfl, -⟩) <;> tauto
  · constructor
    · exact .inl
    · rintro (rfl | ⟨hc', hd'⟩)
      · rfl
      · obtain rfl : c = '_'.unit := by tauto
        obtain rfl : d = '_'.unit := by tauto
        rfl

/-- Identifiers agree where texts differ in their separators only. -/
theorem identifier_eq_iff {a b : Text} : identifier a = identifier b ↔ SameButSeparators a b := by
  rw [identifier, identifier, Text.ofList_inj, List.ext_getElem_iff]
  simp only [List.length_map, List.getElem_map, identifierUnit_eq_iff, Text.length_toList]
  exact ⟨fun ⟨hlength, hchars⟩ => ⟨hlength, hchars⟩, fun h => ⟨h.length, h.chars⟩⟩

theorem toggle_eq_iff {a b : Text} : toggle a = toggle b ↔ identifier a = identifier b :=
  Text.append_right_inj _

/-! ## The pass over the texts -/

section
variable (texts : List Text)

/-- The different texts with the identifier, which may be one only. -/
def group (id : Text) : Collision :=
  ⟨id, texts.eraseDups.filter fun text => identifier text = id⟩

def groups : List Collision :=
  (texts.map identifier).eraseDups.map (group texts)

theorem collisions_eq : collisions texts = (groups texts).filter fun c => 1 < c.members.length := by
  have hids : (tagged texts).map (·.1) = texts.eraseDups.map identifier := by
    rw [tagged, List.map_map]
    rfl
  have hgroup : ∀ id, (⟨id, sharing (tagged texts) id⟩ : Collision) = group texts id := by
    intro id
    rw [group, sharing, tagged, List.filter_map, List.map_map]
    exact congrArg (Collision.mk id) (List.map_id _)
  simp only [collisions, hids, eraseDups_map_eraseDups, hgroup, groups]

end

section
variable {texts : List Text} {text id : Text} {c : Collision}

theorem mem_group : text ∈ (group texts id).members ↔ text ∈ texts ∧ identifier text = id := by
  rw [group, List.mem_filter, List.mem_eraseDups, decide_eq_true_iff]

theorem mem_collisions :
    c ∈ collisions texts ↔ (∃ text ∈ texts, c = group texts (identifier text)) ∧ 1 < c.members.length := by
  rw [collisions_eq, List.mem_filter, decide_eq_true_iff, groups]
  simp only [List.mem_map, List.mem_eraseDups, exists_exists_and_eq_and, eq_comm (a := c)]

def Collision.join (c : Collision) (text : Text) : Collision :=
  if NetDiagram.identifier text = c.identifier ∧ text ∉ c.members then { c with members := c.members ++ [text] } else c

def addText (groups : List Collision) (text : Text) : List Collision :=
  if identifier text ∈ groups.map (·.identifier) then groups.map (·.join text)
  else groups ++ [⟨identifier text, [text]⟩]

theorem group_snoc (texts : List Text) (text id : Text) :
    group (texts ++ [text]) id = (group texts id).join text := by
  simp only [Collision.join, mem_group]
  by_cases hmem : text ∈ texts <;> by_cases hid : identifier text = id <;> simp [group, eraseDups_snoc, hmem, hid]

theorem map_identifier_groups (texts : List Text) :
    (groups texts).map (·.identifier) = (texts.map identifier).eraseDups := by
  rw [groups, List.map_map]
  exact List.map_id _

theorem groups_snoc (texts : List Text) (text : Text) : groups (texts ++ [text]) = addText (groups texts) text := by
  have hjoined : groups (texts ++ [text]) =
      ((texts ++ [text]).map identifier).eraseDups.map fun id => (group texts id).join text :=
    List.map_congr_left fun id _ => group_snoc texts text id
  rw [hjoined, addText, map_identifier_groups, List.map_append, List.map_singleton, eraseDups_snoc]
  simp only [List.mem_eraseDups]
  split_ifs with hmem
  · rw [groups, List.map_map]
    rfl
  · have hnew : (group texts (identifier text)).members = [] := by
      rw [List.eq_nil_iff_forall_not_mem]
      intro other hother
      obtain ⟨hother, hid⟩ := mem_group.mp hother
      exact hmem (hid ▸ List.mem_map_of_mem hother)
    rw [List.map_append, groups]
    congr 1
    · refine List.map_congr_left fun id hid => if_neg fun h => hmem ?_
      exact h.1 ▸ List.mem_eraseDups.mp hid
    · rw [List.map_singleton, Collision.join, if_pos ⟨rfl, hnew ▸ List.not_mem_nil⟩, hnew]
      rfl

theorem foldl_addText (texts : List Text) : texts.foldl addText [] = groups texts := by
  induction texts using List.reverseRecOn with
  | nil => rfl
  | append_singleton texts text ih =>
    rw [List.foldl_append, ih, groups_snoc]
    rfl

theorem collisions_eq_foldl (texts : List Text) :
    collisions texts = (texts.foldl addText []).filter fun c => 1 < c.members.length := by
  rw [foldl_addText, collisions_eq]

end

/-! ## The groups that are found -/

/-- The groups of two or more different texts that are the same but for separators, by first occurrence. -/
structure IsGrouping (texts : List Text) (groups : List Collision) : Prop where
  together : ∀ a ∈ texts, ∀ b ∈ texts, a ≠ b → ((∃ c ∈ groups, a ∈ c.members ∧ b ∈ c.members) ↔ SameButSeparators a b)
  two : ∀ c ∈ groups, 2 ≤ c.members.length
  distinct : ∀ c ∈ groups, c.members.Nodup
  members : ∀ c ∈ groups, ∀ text, text ∈ c.members ↔ text ∈ texts ∧ identifier text = c.identifier
  inOrder : ∀ c ∈ groups, c.members.Pairwise fun a b => texts.idxOf a < texts.idxOf b
  identifiers : (groups.map (·.identifier)).Nodup
  ordered : groups.Pairwise fun c d => ∃ a ∈ c.members, ∀ b ∈ d.members, texts.idxOf a < texts.idxOf b
  alone : ∀ a ∈ texts, (∀ b ∈ texts, b ≠ a → ¬ SameButSeparators a b) → ∀ c ∈ groups, a ∉ c.members

section
variable {α : Type} {xs : List α} {a b : α}

theorem one_lt_length (ha : a ∈ xs) (hb : b ∈ xs) (hne : a ≠ b) : 1 < xs.length := by
  have hpair : [a, b].Nodup := by simpa using hne
  have hsub : [a, b] ⊆ xs := List.cons_subset.mpr ⟨ha, List.cons_subset.mpr ⟨hb, List.nil_subset _⟩⟩
  exact (List.subperm_of_subset hpair hsub).length_le

theorem exists_mem_ne (h : xs.Nodup) (hlength : 1 < xs.length) (a : α) : ∃ b ∈ xs, b ≠ a := by
  by_contra hall
  push Not at hall
  have hsub : xs ⊆ [a] := fun b hb => List.mem_singleton.mpr (hall b hb)
  exact absurd hlength (Nat.not_lt.mpr (List.subperm_of_subset h hsub).length_le)

end

section
variable {texts : List Text} {text : Text} {c : Collision} (hc : c ∈ collisions texts)
include hc

theorem mem_members : text ∈ c.members ↔ text ∈ texts ∧ identifier text = c.identifier := by
  obtain ⟨⟨first, -, rfl⟩, -⟩ := mem_collisions.mp hc
  exact mem_group

theorem nodup_members : c.members.Nodup := by
  obtain ⟨⟨first, -, rfl⟩, -⟩ := mem_collisions.mp hc
  exact (nodup_eraseDups texts).filter _

theorem pairwise_members : c.members.Pairwise fun a b => texts.idxOf a < texts.idxOf b := by
  obtain ⟨⟨first, -, rfl⟩, -⟩ := mem_collisions.mp hc
  exact (pairwise_eraseDups texts).filter _

end

theorem pairwise_groups (texts : List Text) :
    (groups texts).Pairwise fun c d => ∃ a ∈ c.members, ∀ b ∈ d.members, texts.idxOf a < texts.idxOf b := by
  refine List.pairwise_map.mpr ((pairwise_eraseDups_map identifier texts).imp fun {s t} ⟨a, ha, has, hfirst⟩ => ?_)
  refine ⟨a, mem_group.mpr ⟨ha, has⟩, fun b hb => ?_⟩
  obtain ⟨hb, hbt⟩ := mem_group.mp hb
  exact hfirst b hb hbt

theorem isGrouping_collisions (texts : List Text) : IsGrouping texts (collisions texts) := by
  have htwo : ∀ c ∈ collisions texts, 1 < c.members.length := fun c hc => (mem_collisions.mp hc).2
  refine ⟨?_, htwo, fun _ hc => nodup_members hc, fun _ hc _ => mem_members hc,
    fun _ hc => pairwise_members hc, ?_, ?_, ?_⟩
  · intro a ha b hb hne
    rw [← identifier_eq_iff]
    constructor
    · rintro ⟨c, hc, hac, hbc⟩
      exact ((mem_members hc).mp hac).2.trans ((mem_members hc).mp hbc).2.symm
    · intro hid
      have hag : a ∈ (group texts (identifier a)).members := mem_group.mpr ⟨ha, rfl⟩
      have hbg : b ∈ (group texts (identifier a)).members := mem_group.mpr ⟨hb, hid.symm⟩
      exact ⟨_, mem_collisions.mpr ⟨⟨a, ha, rfl⟩, one_lt_length hag hbg hne⟩, hag, hbg⟩
  · rw [collisions_eq]
    refine (List.filter_sublist.map _).nodup ?_
    rw [map_identifier_groups]
    exact nodup_eraseDups _
  · rw [collisions_eq]
    exact (pairwise_groups texts).filter _
  · intro a ha halone c hc hac
    obtain ⟨b, hbc, hne⟩ := exists_mem_ne (nodup_members hc) (htwo c hc) a
    obtain ⟨hb, hbid⟩ := (mem_members hc).mp hbc
    exact halone b hb hne (identifier_eq_iff.mp (((mem_members hc).mp hac).2.trans hbid.symm))

section
variable {texts : List Text} {gs : List Collision}

theorem IsGrouping.exists_toggle_eq (h : IsGrouping texts gs) (hne : gs ≠ []) :
    ∃ a ∈ texts, ∃ b ∈ texts, a ≠ b ∧ toggle a = toggle b := by
  obtain ⟨c, hc⟩ := List.exists_mem_of_ne_nil _ hne
  obtain ⟨b, hbc⟩ := List.exists_mem_of_length_pos (Nat.zero_lt_of_lt (h.two c hc))
  obtain ⟨a, hac, hne⟩ := exists_mem_ne (h.distinct c hc) (h.two c hc) b
  obtain ⟨ha, haid⟩ := (h.members c hc a).mp hac
  obtain ⟨hb, hbid⟩ := (h.members c hc b).mp hbc
  exact ⟨a, ha, b, hb, hne, toggle_eq_iff.mpr (haid.trans hbid.symm)⟩

/-- No group is left exactly where different texts have different toggles. -/
theorem IsGrouping.eq_nil_iff (h : IsGrouping texts gs) : gs = [] ↔ Set.InjOn toggle {text | text ∈ texts} := by
  constructor
  · rintro rfl a ha b hb htoggle
    by_contra hne
    obtain ⟨c, hc, -⟩ := (h.together a ha b hb hne).mpr (identifier_eq_iff.mp (toggle_eq_iff.mp htoggle))
    cases hc
  · intro hinj
    by_contra hne
    obtain ⟨a, ha, b, hb, hne, htoggle⟩ := h.exists_toggle_eq hne
    exact hne (hinj ha hb htoggle)

end

section
variable {texts : List Text} {a b : Text}

theorem toggle_ne_of_collisions_nil (h : collisions texts = []) (ha : a ∈ texts) (hb : b ∈ texts) (hne : a ≠ b) :
    toggle a ≠ toggle b :=
  fun htoggle => hne ((isGrouping_collisions texts).eq_nil_iff.mp h ha hb htoggle)

theorem exists_of_collisions_ne_nil (h : collisions texts ≠ []) :
    ∃ a ∈ texts, ∃ b ∈ texts, a ≠ b ∧ toggle a = toggle b :=
  (isGrouping_collisions texts).exists_toggle_eq h

end

/-! ## Repetitions -/

theorem collisions_congr {texts others : List Text} (h : texts.eraseDups = others.eraseDups) :
    collisions texts = collisions others := by
  simp only [collisions, tagged, h]

/-- Texts collide if they are the same but for separators, repetitions do not count, and one pass over the texts finds
the groups. -/
theorem collisions_correct (texts : List Text) :
    IsGrouping texts (collisions texts) ∧
    collisions texts = (texts.foldl addText []).filter (fun c => 1 < c.members.length) ∧
    (collisions texts = [] ↔ Set.InjOn toggle {text | text ∈ texts}) ∧
    (∀ before text after, texts = before ++ text :: after → text ∈ before →
      collisions (before ++ after) = collisions texts) ∧
    collisions texts.eraseDups = collisions texts := by
  have hgroups := isGrouping_collisions texts
  refine ⟨hgroups, collisions_eq_foldl texts, hgroups.eq_nil_iff, ?_, ?_⟩
  · rintro before text after rfl h
    exact collisions_congr (eraseDups_of_mem h).symm
  · exact collisions_congr (eraseDups_eraseDups texts)

-- the second group is complete before the first one, which starts earlier
example : collisions ["a.b", "c/d", "e", "c_d", "a/b", "c/d"] = [⟨"a_b", ["a.b", "a/b"]⟩, ⟨"c_d", ["c/d", "c_d"]⟩] := by
  decide +kernel

end NetDiagram
