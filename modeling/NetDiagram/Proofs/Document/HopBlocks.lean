import NetDiagram.Proofs.Document.Endpoints
import NetDiagram.Proofs.Document.Standalone
import NetDiagram.Proofs.Snapshot.RoundTrip

/-!
# Blocks of next hops

The next hops of a prefix are stored under the texts of router ids, and they are
drawn router by router. The ids of a snapshot that was read have different
texts, so where every key is the text of an internal id each entry is looked up
once: the block of a prefix has one line for each hop that is stored for it, and
that line starts at the router of its key.
-/

namespace NetDiagram

/-! ## Looking up every key -/

/-- Looking up different keys, with those of all members among them, finds each member once. -/
theorem Members.flatMap_get?_perm {α β : Type} {keys : List Text} {ms : Members (List α)} (hkeys : keys.Nodup)
    (hms : (ms.map Prod.fst).Nodup) (hsub : ∀ key ∈ ms.map Prod.fst, key ∈ keys) (f : Text → α → β) :
    (keys.flatMap fun key => ((ms.get? key).getD []).map (f key)).Perm (ms.flatMap fun m => m.2.map (f m.1)) := by
  let found := fun key => ((ms.get? key).getD []).map (f key)
  let stored := fun key => decide (key ∈ ms.map Prod.fst)
  have habsent : (keys.filter fun key => ! stored key).flatMap found = [] := by
    refine List.flatMap_eq_nil_iff.mpr fun key hkey => ?_
    have hnot : key ∉ ms.map Prod.fst := by simpa [stored] using (List.mem_filter.mp hkey).2
    simp only [found, get?_eq_none_iff.mpr hnot, Option.getD_none, List.map_nil]
  have hpresent : (keys.filter stored).Perm (ms.map Prod.fst) := by
    refine (List.perm_ext_iff_of_nodup (hkeys.filter _) hms).mpr fun key => ?_
    rw [List.mem_filter, decide_eq_true_eq]
    exact ⟨fun h => h.2, fun h => ⟨hsub key h, h⟩⟩
  have hrows : (ms.map Prod.fst).flatMap found = ms.flatMap fun m => m.2.map (f m.1) := by
    rw [List.flatMap_map]
    refine List.flatMap_congr fun m hm => ?_
    simp only [found, get?_of_mem hms hm, Option.getD_some]
  calc (keys.flatMap found).Perm ((keys.filter stored ++ keys.filter fun key => ! stored key).flatMap found) :=
        (List.filter_append_perm stored keys).symm.flatMap_right found
    _ = (keys.filter stored).flatMap found := by rw [List.flatMap_append, habsent, List.append_nil]
    List.Perm _ ((ms.map Prod.fst).flatMap found) := hpresent.flatMap_right found
    _ = ms.flatMap fun m => m.2.map (f m.1) := hrows

/-! ## Stored hops -/

namespace Snapshot

def storedHops (s : Snapshot) (key : Text) : Members (List RouterId) :=
  (s.nextHops.bind (Members.get? key)).getD []

theorem nextHopsAt_eq (s : Snapshot) (key : Text) (router : RouterId) :
    s.nextHopsAt key router = ((s.storedHops key).get? router.text).getD [] := by
  rw [nextHopsAt, storedHops]
  cases s.nextHops.bind (Members.get? key) <;> rfl

theorem get?_storedHops (s : Snapshot) (key router : Text) :
    (s.storedHops key).get? router = (s.nextHops.bind (Members.get? key)).bind (Members.get? router) := by
  rw [storedHops]
  cases s.nextHops.bind (Members.get? key) <;> rfl

variable {s : Snapshot} {v : Json}

theorem IsProper.nodup_storedHops (h : s.IsProper) (key : Text) : ((s.storedHops key).map Prod.fst).Nodup := by
  rw [storedHops]
  cases hrow : s.nextHops.bind (Members.get? key) with
  | none => exact List.nodup_nil
  | some row =>
    obtain ⟨rows, hrows, hget⟩ := Option.bind_eq_some_iff.mp hrow
    have hkeys := (hasDistinctKeys_ofMembers_iff.mp (h.nextHops_hasDistinctKeys hrows)).2 _ (Members.mem_of_get? hget)
    exact (hasDistinctKeys_ofMembers_iff.mp hkeys).1

theorem IsReadFrom.nodup_texts (h : s.IsReadFrom v) : (s.internalRouters.map Binary64.text).Nodup := by
  rw [internalRouters, List.map_map]
  refine List.pairwise_map.mpr ((h.distinct.sublist List.filter_sublist).imp fun hne htext => hne ?_)
  exact nodeName_eq_iff.mp ((Text.append_right_inj "r").mpr htext)

open Grammar

/-- The stored entries are those that stand in the text. -/
theorem mem_storedHops_iff {cs : List CodeUnit} (hv : Document cs v) (h : s.IsReadFrom v) (hproper : s.IsProper)
    {key router : Text} {hops : List RouterId} : (router, hops) ∈ s.storedHops key ↔
      ∃ ds, DocumentAt cs ["nextHops", key, router] ds ∧ Value ds (.array (hops.map .number)) := by
  have hrel := h.nextHops key router
  rw [← get?_storedHops] at hrel
  constructor
  · intro hmem
    rw [Members.get?_of_mem (hproper.nodup_storedHops key) hmem] at hrel
    cases hat : v.at? ["nextHops", key, router] with
    | none =>
      rw [hat] at hrel
      cases hrel
    | some w =>
      rw [hat] at hrel
      cases hrel with
      | some hw => exact hw ▸ hv.at hat
  · intro hstands
    obtain ⟨ds, hds, hvalue⟩ := hstands
    obtain ⟨w, hat, hw⟩ := hds.value hv
    obtain rfl := hw.unique hvalue
    rw [hat] at hrel
    cases hget : (s.storedHops key).get? router with
    | none =>
      rw [hget] at hrel
      cases hrel
    | some ids =>
      rw [hget] at hrel
      cases hrel with
      | some hids =>
        have hinj : Function.Injective Json.number := fun _ _ => Json.number.inj
        rw [List.map_injective_iff.mpr hinj (Json.array.inj hids)]
        exact Members.mem_of_get? hget

end Snapshot

/-! ## Lines of a block -/

def hopLine (router : Text) (hop : RouterId) : Text :=
  "      \\draw[next hop] (r" ++ router ++ ") -- (" ++ nodeName hop ++ ");"

/-- The lines between the guard of a prefix and its end, or an empty line when there is none. -/
def guarded (key : Text) (lines : List Text) : List Text :=
  ("    \\ifdefined\\" ++ toggle key) :: ((if lines = [] then [("" : Text)] else lines) ++ [("  \\fi" : Text)])

theorem text_nextHop_eq (router hop : RouterId) : (Command.nextHop router hop).text = hopLine router.text hop := by
  have hfront : ("      \\draw[next hop] (r" : Text) = "      \\draw[next hop] (" ++ "r" := by decide
  show "      \\draw[next hop] (" ++ ("r" ++ router.text) ++ ") -- (" ++ nodeName hop ++ ");" =
    "      \\draw[next hop] (r" ++ router.text ++ ") -- (" ++ nodeName hop ++ ");"
  rw [hfront]
  simp only [Text.append_assoc]

theorem rows_guarded (key : Text) (commands : List Command) :
    (Block.mk (toggle key) commands).rows = guarded key (commands.map Command.text) := by
  rw [Block.rows, guarded, rows]
  simp only [List.map_eq_nil_iff]

namespace Snapshot

/-- The lines are those of the hops that are stored for the prefix, router by router, one for each of them. -/
structure HoldsHops (s : Snapshot) (key : Text) (lines : List Text) : Prop where
  order : lines = s.internalRouters.flatMap fun router =>
    (s.nextHopsAt key router).map fun hop => (Command.nextHop router hop).text
  entries : lines.Perm ((s.storedHops key).flatMap fun entry => entry.2.map (hopLine entry.1))
  size : lines.length = ((s.storedHops key).map fun entry => entry.2.length).sum

def hopCommands (s : Snapshot) (key : Text) : List Command :=
  s.internalRouters.flatMap fun router => (s.nextHopsAt key router).map (.nextHop router)

variable {s : Snapshot} {v : Json}

theorem IsReadFrom.holdsHops (h : s.IsReadFrom v) (hproper : s.IsProper) {key : Text}
    (hinternal : ∀ router ∈ (s.storedHops key).map Prod.fst, ∃ id ∈ s.internalRouters, id.text = router) :
    s.HoldsHops key ((s.hopCommands key).map Command.text) := by
  have horder : (s.hopCommands key).map Command.text = s.internalRouters.flatMap fun router =>
      (s.nextHopsAt key router).map fun hop => (Command.nextHop router hop).text := by
    simp only [hopCommands, List.map_flatMap, List.map_map, Function.comp_def]
  have hlookups : (s.hopCommands key).map Command.text = (s.internalRouters.map Binary64.text).flatMap fun router =>
      (((s.storedHops key).get? router).getD []).map (hopLine router) := by
    simp only [horder, List.flatMap_map, nextHopsAt_eq, text_nextHop_eq]
  have hsub : ∀ router ∈ (s.storedHops key).map Prod.fst, router ∈ s.internalRouters.map Binary64.text :=
    fun router hrouter => List.mem_map.mpr (hinternal router hrouter)
  have hperm := Members.flatMap_get?_perm h.nodup_texts (hproper.nodup_storedHops key) hsub hopLine
  rw [← hlookups] at hperm
  refine ⟨horder, hperm, ?_⟩
  rw [hperm.length_eq, List.length_flatMap]
  simp only [List.length_map]

theorem nextHopBlocks_model (s : Snapshot) : s.model.nextHopBlocks (s.prefixes.map fun key => .ofText key key) =
    .ok (s.prefixes.map fun key => ⟨toggle key, s.hopCommands key⟩) :=
  blocks_of_texts s.hopLines_model s.prefixes

theorem linesOf_hopBlocks (hprefixes : ∀ key ∈ s.prefixes, '\n'.unit ∉ key.toList) :
    linesOf (blockLines (s.prefixes.map fun key => ⟨toggle key, s.hopCommands key⟩)) =
      s.prefixes.flatMap fun key => guarded key ((s.hopCommands key).map Command.text) := by
  rw [linesOf_blockLines, List.flatMap_map]
  · simp only [rows_guarded]
  · exact List.forall_mem_map.mpr fun key hkey => newline_notMem_toggle (hprefixes key hkey)
  · refine List.forall_mem_map.mpr fun key _ => List.forall_mem_flatMap.mpr fun router _ => ?_
    exact List.forall_mem_map.mpr fun hop _ => List.not_mem_nil

/-- Where every key that is stored for a listed prefix is the text of an internal id, the section of the next hops has a
block for each prefix in its place, and the lines in it are those of the entries that the text stores for the prefix. -/
theorem next_hops_stored {text : Text} (hs : Snapshot.parse text = .ok s)
    (hprefixes : ∀ key ∈ s.prefixes, '\n'.unit ∉ key.toList)
    (hinternal : ∀ key ∈ s.prefixes, ∀ router ∈ (s.storedHops key).map Prod.fst,
      ∃ id ∈ s.internalRouters, id.text = router) :
    (∀ key router hops, (router, hops) ∈ s.storedHops key ↔
      ∃ ds, Grammar.DocumentAt text.toList ["nextHops", key, router] ds ∧
        Grammar.Value ds (.array (hops.map .number))) ∧
    ∃ hopSection blocks, s.model.sectionText .nextHops = .ok hopSection ∧
      (∀ request warnings sections, (s.model.buildSections request warnings).result = .ok sections →
        sections .nextHops = hopSection) ∧
      linesOf hopSection = blocks.flatten ∧
      List.Forall₂ (fun key block => ∃ lines, block = guarded key lines ∧ s.HoldsHops key lines) s.prefixes blocks := by
  obtain ⟨v, hv, hread⟩ := isReadFrom_of_parse hs
  have hproper := isProper_of_parse hs
  have hsection : s.model.sectionText .nextHops =
      .ok (blockLines (s.prefixes.map fun key => ⟨toggle key, s.hopCommands key⟩)) := by
    rw [Model.sectionText, s.prefixEntries_model]
    exact congrArg (· >>= fun blocks => pure (blockLines blocks)) s.nextHopBlocks_model
  refine ⟨fun _ _ _ => mem_storedHops_iff hv hread hproper, _,
    s.prefixes.map fun key => guarded key ((s.hopCommands key).map Command.text), hsection, ?_, ?_, ?_⟩
  · intro request warnings sections hsections
    have hbuilt := Model.sectionText_of_buildSections hsections .nextHops
    exact Except.ok.inj (hbuilt.symm.trans hsection)
  · rw [linesOf_hopBlocks hprefixes, List.flatMap_def]
  · refine List.forall₂_map_right_iff.mpr (List.forall₂_same.mpr fun key hkey => ?_)
    exact ⟨_, rfl, hread.holdsHops hproper (hinternal key hkey)⟩

end Snapshot

def manyHopsText : Text :=
  "\x7b\"routers\":[\x7b\"id\":-0\x7d,\x7b\"id\":1e21\x7d,\x7b\"id\":1,\"external\":true\x7d]," ++
    "\"links\":[],\"prefixes\":[\"p/1\",\"\\ud800\",\"p/1\"]," ++
    "\"nextHops\":\x7b\"\\ud801\":\x7b\"7\":[1]\x7d,\"p/1\":\x7b\"1e+21\":[1,0,1,1],\"0\":[1e21]\x7d\x7d\x7d"

def manyHopsSnapshot : Snapshot where
  routers := [⟨.zero true, none, none, none⟩, ⟨largeId, none, none, none⟩, ⟨.one, none, none, some true⟩]
  links := []
  prefixes := ["p/1", .surrogate 0, "p/1"]
  nextHops := some [(.surrogate 1, [("7", [.one])]),
    ("p/1", [("0", [largeId]), ("1e+21", [.one, .zero false, .one, .one])])]
  sessions := none
  propagations := none

theorem next_hops_stored_repeated :
    Snapshot.parse manyHopsText = .ok manyHopsSnapshot ∧
      ∃ hopSection, manyHopsSnapshot.model.sectionText .nextHops = .ok hopSection ∧ ∃ block,
        linesOf hopSection = block ++ (["    \\ifdefined\\prefix" ++ .surrogate 0, "", "  \\fi"] : List Text) ++ block ∧
        block = ["    \\ifdefined\\prefixp_1", "      \\draw[next hop] (r0) -- (r1e+21);",
          "      \\draw[next hop] (r1e+21) -- (r1);", "      \\draw[next hop] (r1e+21) -- (r0);",
          "      \\draw[next hop] (r1e+21) -- (r1);", "      \\draw[next hop] (r1e+21) -- (r1);", "  \\fi"] := by
  have hparse : Snapshot.parse manyHopsText = .ok manyHopsSnapshot := by decide +kernel
  have hprefixes : ∀ key ∈ manyHopsSnapshot.prefixes, '\n'.unit ∉ key.toList := by decide
  have hinternal : ∀ key ∈ manyHopsSnapshot.prefixes, ∀ router ∈ (manyHopsSnapshot.storedHops key).map Prod.fst,
      ∃ id ∈ manyHopsSnapshot.internalRouters, id.text = router := by decide +kernel
  obtain ⟨-, hopSection, blocks, hsection, -, hlines, hblocks⟩ :=
    Snapshot.next_hops_stored hparse hprefixes hinternal
  obtain ⟨_, _, ⟨_, rfl, hfirst⟩, hbehind, rfl⟩ := List.forall₂_cons_left_iff.mp hblocks
  obtain ⟨_, _, ⟨_, rfl, hsecond⟩, hlast, rfl⟩ := List.forall₂_cons_left_iff.mp hbehind
  obtain ⟨_, _, ⟨_, rfl, hthird⟩, hnone, rfl⟩ := List.forall₂_cons_left_iff.mp hlast
  obtain rfl := List.forall₂_nil_left_iff.mp hnone
  refine ⟨hparse, hopSection, hsection, _, ?_, rfl⟩
  rw [hlines, hfirst.order, hsecond.order, hthird.order]
  decide +kernel

end NetDiagram
