import NetDiagram.Document.Export
import NetDiagram.Proofs.Document.Tokens

/-!
# The filled skeleton

No token goes over the end of a line, so a template is filled line by line. Of
the lines of the skeleton eight have a token, and all others stay as they are.
-/

namespace NetDiagram

/-! ## Lines of a template -/

theorem prefix_of_notMem {xs as bs : List CodeUnit} {c : CodeUnit} (h : xs <+: as ++ c :: bs) (hc : c ∉ xs) :
    xs <+: as := by
  rcases List.prefix_or_prefix_of_prefix h (List.prefix_append as (c :: bs)) with hpre | hpre
  · exact hpre
  · obtain ⟨ys, rfl⟩ := hpre
    cases ys with
    | nil => simp
    | cons y ys =>
      rw [List.prefix_append_right_inj, List.cons_prefix_cons] at h
      exact absurd (h.1 ▸ by simp) hc

theorem IsNameUnit.ne_newline {c : CodeUnit} (h : IsNameUnit c) : c ≠ '\n'.unit := by
  intro hc
  subst hc
  revert h
  decide

theorem tokenAt_line {as bs : List CodeUnit} {name : Text} :
    TokenAt (as ++ '\n'.unit :: bs) 0 name ↔ TokenAt as 0 name := by
  constructor
  · intro h
    refine ⟨h.nonempty, h.nameUnits, prefix_of_notMem h.spelled ?_⟩
    intro hmem
    rw [tokenUnits, List.mem_cons, List.mem_cons, List.mem_append] at hmem
    rcases hmem with hmem | hmem | hmem | hmem
    · exact absurd hmem (by decide)
    · exact absurd hmem (by decide)
    · exact (h.nameUnits _ hmem).ne_newline rfl
    · exact absurd hmem (by decide)
  · intro h
    exact ⟨h.nonempty, h.nameUnits, h.spelled.trans (List.prefix_append _ _)⟩

theorem tokenName?_iff {cs name : List CodeUnit} : tokenName? cs = some name ↔ TokenAt cs 0 (.ofList name) := by
  constructor
  · exact tokenAt_of_tokenName?
  · intro h
    rw [tokenName?_of_tokenAt h, Text.toList_ofList]

theorem tokenName?_line (as bs : List CodeUnit) : tokenName? (as ++ '\n'.unit :: bs) = tokenName? as := by
  ext name
  rw [tokenName?_iff, tokenName?_iff, tokenAt_line]

theorem piecesFrom_line (as bs : List CodeUnit) :
    piecesFrom 0 (as ++ '\n'.unit :: bs) = piecesFrom 0 as ++ .unit '\n'.unit :: piecesFrom 0 bs := by
  match as with
  | [] => rfl
  | c :: as =>
    have hname := tokenName?_line (c :: as) bs
    rw [List.cons_append] at hname ⊢
    rw [piecesFrom, piecesFrom, hname]
    cases h : tokenName? (c :: as) with
    | none => rw [piecesFrom_line as bs, List.cons_append]
    | some name =>
      -- a token has no newline in it, so it ends in front of this one
      have hlen : name.length + 3 ≤ as.length := by
        have hle := (tokenAt_of_tokenName? h).spelled.length_le
        rw [length_tokenUnits, Text.length_ofList, List.drop_zero, List.length_cons] at hle
        omega
      dsimp only
      rw [piecesFrom_skip, piecesFrom_skip _ as, List.drop_append_of_le_length hlen, piecesFrom_line, List.cons_append]
termination_by as.length

theorem pieces_line (line rest : Text) :
    pieces (line ++ "\n" ++ rest) = pieces line ++ .unit '\n'.unit :: pieces rest := by
  unfold pieces
  rw [Text.toList_append, Text.toList_append, List.append_assoc]
  exact piecesFrom_line _ _

def fillLine (text : Text → Text) (line : Text) : Text :=
  .ofList ((pieces line).flatMap (Piece.fill text))

theorem tokenNames_lines (ls : List Text) : tokenNames (Text.intercalate "\n" ls) = ls.flatMap tokenNames := by
  induction ls with
  | nil => rfl
  | cons l ls ih =>
    cases ls with
    | nil => simp
    | cons l' ls =>
      rw [tokenNames, Text.intercalate_cons_cons, pieces_line, List.filterMap_append, List.flatMap_cons, ← ih]
      rfl

/-- No token goes beyond its line, so the lines are filled one by one. -/
theorem fill_lines (text : Text → Text) {ls : List Text} (h : ls ≠ []) :
    fillLine text (Text.intercalate "\n" ls) = Text.intercalate "\n" (ls.map (fillLine text)) := by
  induction ls with
  | nil => exact absurd rfl h
  | cons l ls ih =>
    cases ls with
    | nil => simp
    | cons l' ls =>
      have hrest := ih (List.cons_ne_nil l' ls)
      rw [List.map_cons, List.map_cons, Text.intercalate_cons_cons, Text.intercalate_cons_cons, ← List.map_cons,
        ← hrest]
      unfold fillLine
      rw [pieces_line, List.flatMap_append, List.flatMap_cons, Text.ofList_append, Text.ofList_append,
        Text.append_assoc]
      rfl

theorem fill_of_names_nil {ps : List Piece} {text : Text → Text} (h : ps.filterMap Piece.name? = []) :
    ps.flatMap (Piece.fill text) = ps.flatMap Piece.units := by
  apply List.flatMap_congr
  intro piece hpiece
  cases piece with
  | unit u => rfl
  | token name =>
    have hnone := List.filterMap_eq_nil_iff.mp h _ hpiece
    cases hnone

theorem fillLine_of_no_token {text : Text → Text} {line : Text} (h : tokenNames line = []) :
    fillLine text line = line := by
  rw [fillLine, fill_of_names_nil h, pieces, ← (isCut_piecesFrom line.toList).units, Text.ofList_toList]

/-! ## The skeleton -/

def skeletonHead : List Text :=
  skeletonLines.take 43

def choicesHead : Text :=
  "\\def\\prefix1\x7b1\x7d % choices: "

/-- The skeleton behind that line: fixed lines, and lines that are one token. -/
def skeletonTail : List (Text ⊕ Placeholder) := [
  .inl "",
  .inl "\\begin\x7bdocument\x7d",
  .inl "\\begin\x7btikzpicture\x7d[xscale=\\width, yscale=\\height]",
  .inr .internalNodes,
  .inr .externalNodes,
  .inl "",
  .inr .edges,
  .inl "",
  .inl "  \\ifdefined\\showNextHop",
  .inr .nextHops,
  .inl "  \\fi",
  .inl "",
  .inl "  \\ifdefined\\showLinkWeights",
  .inr .linkWeights,
  .inl "  \\fi",
  .inl "",
  .inl "  \\ifdefined\\showBgpSessions",
  .inr .bgpSessions,
  .inl "  \\fi",
  .inl "",
  .inl "  \\ifdefined\\showBgpPropagation",
  .inr .bgpPropagations,
  .inl "  \\fi",
  .inl "\\end\x7btikzpicture\x7d",
  .inl "\\end\x7bdocument\x7d",
  .inl ""]

def tokenLine (p : Placeholder) : Text :=
  "\x7b\x7b" ++ p.name ++ "\x7d\x7d"

def skeletonWith (text : Placeholder → Text) : List Text :=
  skeletonHead ++ (choicesHead ++ text .prefixes) :: skeletonTail.map (Sum.elim id text)

theorem skeletonLines_eq : skeletonLines = skeletonWith tokenLine := by
  rfl

theorem tokenNames_ofString {cs : List Char} (h : (piecesFrom 0 (Text.encode cs)).filterMap Piece.name? = []) :
    tokenNames (Text.ofString (.ofList cs)) = [] := by
  rw [Text.ofString_ofList]
  exact h

theorem tokenNames_head : ∀ line ∈ skeletonHead, tokenNames line = [] := by
  simp only [skeletonHead, skeletonLines, List.map_cons, List.take_succ_cons, List.take_zero]
  -- the characters of a literal are taken as they are written, as decoding the literal in the kernel is slow
  repeat refine List.forall_mem_cons.mpr ⟨tokenNames_ofString (by decide +kernel), ?_⟩
  exact List.forall_mem_nil _

theorem tokenNames_tail : ∀ line ∈ skeletonTail.filterMap Sum.getLeft?, tokenNames line = [] := by
  decide +kernel

theorem pieces_tokenLine (p : Placeholder) : pieces (tokenLine p) = [.token p.name] := by
  cases p <;> decide +kernel

theorem pieces_choices :
    pieces (choicesHead ++ tokenLine .prefixes) = choicesHead.toList.map .unit ++ [.token "PREFIXES"] := by
  decide +kernel

section
variable (text : Text → Text)

theorem fillLine_tokenLine (p : Placeholder) : fillLine text (tokenLine p) = text p.name := by
  rw [fillLine, pieces_tokenLine, List.flatMap_singleton, Piece.fill, Text.ofList_toList]

theorem fillLine_choices : fillLine text (choicesHead ++ tokenLine .prefixes) = choicesHead ++ text "PREFIXES" := by
  have hchars : (choicesHead.toList.map Piece.unit).flatMap (Piece.fill text) = choicesHead.toList := by
    rw [List.flatMap_map]
    simp [Piece.fill]
  rw [fillLine, pieces_choices, List.flatMap_append, hchars, List.flatMap_singleton, Piece.fill, Text.ofList_append,
    Text.ofList_toList, Text.ofList_toList]

theorem fillLine_skeleton :
    (skeletonWith tokenLine).map (fillLine text) = skeletonWith fun p => text p.name := by
  have hhead : skeletonHead.map (fillLine text) = skeletonHead.map id := by
    apply List.map_congr_left
    intro line hline
    exact fillLine_of_no_token (tokenNames_head line hline)
  have htail : skeletonTail.map (fillLine text ∘ Sum.elim id tokenLine) =
      skeletonTail.map (Sum.elim id fun p => text p.name) := by
    apply List.map_congr_left
    intro line hline
    cases line with
    | inl fixed =>
      apply fillLine_of_no_token
      exact tokenNames_tail fixed (List.mem_filterMap.mpr ⟨_, hline, rfl⟩)
    | inr p => exact fillLine_tokenLine text p
  rw [skeletonWith, List.map_append, hhead, List.map_id, List.map_cons, fillLine_choices, List.map_map, htail]
  rfl

end

/-- The skeleton has no token that is not the token of a section. -/
theorem tokenNames_skeleton : ∀ name ∈ tokenNames skeleton, ∃ p : Placeholder, p.name = name := by
  intro name hname
  rw [skeleton, tokenNames_lines, skeletonLines_eq, List.mem_flatMap] at hname
  obtain ⟨line, hline, hname⟩ := hname
  rcases List.mem_append.mp hline with hline | hline
  · simp [tokenNames_head line hline] at hname
  rcases List.mem_cons.mp hline with rfl | hline
  · rw [tokenNames, pieces_choices, List.filterMap_append, List.filterMap_map] at hname
    have hnone : choicesHead.toList.filterMap (Piece.name? ∘ Piece.unit) = [] := by simp [Piece.name?]
    rw [hnone] at hname
    exact ⟨.prefixes, (List.mem_singleton.mp hname).symm⟩
  · obtain ⟨line, hmem, rfl⟩ := List.mem_map.mp hline
    cases line with
    | inl fixed =>
      have hnone := tokenNames_tail fixed (List.mem_filterMap.mpr ⟨_, hmem, rfl⟩)
      simp [hnone] at hname
    | inr p =>
      rw [Sum.elim_inr, tokenNames, pieces_tokenLine] at hname
      exact ⟨p, (List.mem_singleton.mp hname).symm⟩

theorem renderTemplate_skeleton (sections : Sections) :
    renderTemplate sections.named skeleton = .ok (Text.intercalate "\n" (skeletonWith sections)) := by
  have hsections : ∀ p : Placeholder, (sections.named p.name).isSome := by
    intro p
    simp [Sections.named_name]
  have hfill : fillLine (fun name => (sections.named name).getD "") skeleton =
      Text.intercalate "\n" (skeletonWith sections) := by
    have hne : skeletonWith tokenLine ≠ [] := by simp [skeletonWith]
    rw [skeleton, skeletonLines_eq, fill_lines _ hne, fillLine_skeleton]
    simp [Sections.named_name]
  rw [renderTemplate_of_known hsections tokenNames_skeleton, ← hfill, fillLine]

end NetDiagram
