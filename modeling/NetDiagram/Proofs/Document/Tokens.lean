import Mathlib.Data.List.Infix
import Mathlib.Data.List.TakeWhile
import NetDiagram.Document.Template
import NetDiagram.Proofs.Text.Encoding

/-!
# Tokens of a template

Where a token stands in a template is said of positions, and the scan finds
exactly these places: two tokens never share a unit, so none is lost by
going on behind the one before it. Filling a template replaces each token and
leaves the units between them as they are.
-/

namespace NetDiagram

def tokenUnits (name : Text) : List CodeUnit :=
  '\x7b'.unit :: '\x7b'.unit :: (name.toList ++ ['\x7d'.unit, '\x7d'.unit])

/-- A token with that name stands at position `i`. -/
structure TokenAt (cs : List CodeUnit) (i : ℕ) (name : Text) : Prop where
  nonempty : name.toList ≠ []
  nameUnits : ∀ c ∈ name.toList, IsNameUnit c
  spelled : tokenUnits name <+: cs.drop i

def Piece.units : Piece → List CodeUnit
  | .unit c => [c]
  | .token name => tokenUnits name

/-- A text cut into pieces, every token that stands in it being a piece of its own. -/
structure IsCut (cs : List CodeUnit) (ps : List Piece) : Prop where
  units : cs = ps.flatMap Piece.units
  tokens : ∀ i name, TokenAt cs i name ↔
    ∃ before after, ps = before ++ .token name :: after ∧ i = (before.flatMap Piece.units).length

/-! ## Tokens lie apart -/

theorem IsNameUnit.ne_open {c : CodeUnit} (h : IsNameUnit c) : c ≠ '\x7b'.unit := by
  intro hc
  subst hc
  revert h
  decide

theorem length_tokenUnits (name : Text) : (tokenUnits name).length = name.length + 4 := by
  simp [tokenUnits, Text.length_toList]

theorem tokenAt_append {a cs : List CodeUnit} {i : ℕ} {name : Text} :
    TokenAt (a ++ cs) (a.length + i) name ↔ TokenAt cs i name := by
  have hdrop : (a ++ cs).drop (a.length + i) = cs.drop i := List.drop_length_add_append i
  constructor
  · intro h
    exact ⟨h.nonempty, h.nameUnits, hdrop ▸ h.spelled⟩
  · intro h
    exact ⟨h.nonempty, h.nameUnits, hdrop ▸ h.spelled⟩

theorem TokenAt.open_at {cs : List CodeUnit} {i : ℕ} {name : Text} (h : TokenAt cs i name) :
    cs[i]? = some '\x7b'.unit ∧ cs[i + 1]? = some '\x7b'.unit := by
  obtain ⟨b, hb⟩ := h.spelled
  have h0 : (cs.drop i)[0]? = some '\x7b'.unit := by rw [← hb]; rfl
  have h1 : (cs.drop i)[1]? = some '\x7b'.unit := by rw [← hb]; rfl
  rw [List.getElem?_drop] at h0 h1
  exact ⟨h0, h1⟩

theorem TokenAt.not_open {cs : List CodeUnit} {i : ℕ} {name : Text} (h : TokenAt cs 0 name) (h2 : 2 ≤ i)
    (hi : i < name.length + 4) : cs[i]? ≠ some '\x7b'.unit := by
  intro hopen
  obtain ⟨b, hb⟩ := h.spelled
  obtain ⟨k, rfl⟩ : ∃ k, i = k + 2 := ⟨i - 2, by omega⟩
  have hk : k < (name.toList ++ ['\x7d'.unit, '\x7d'.unit]).length := by
    simp [Text.length_toList]
    omega
  rw [List.drop_zero] at hb
  rw [← hb, tokenUnits, List.cons_append, List.cons_append, List.getElem?_cons_succ, List.getElem?_cons_succ,
    List.getElem?_append_left hk] at hopen
  rcases List.mem_append.mp (List.mem_of_getElem? hopen) with hmem | hmem
  · exact (h.nameUnits _ hmem).ne_open rfl
  · simp at hmem

theorem TokenAt.apart {cs : List CodeUnit} {i j : ℕ} {m n : Text} (hm : TokenAt cs i m) (hn : TokenAt cs j n)
    (hij : i < j) : i + m.length + 4 ≤ j := by
  obtain ⟨k, rfl⟩ : ∃ k, j = i + k := ⟨j - i, by omega⟩
  have hm' : TokenAt (cs.drop i) 0 m := ⟨hm.nonempty, hm.nameUnits, hm.spelled⟩
  have hn' : TokenAt (cs.drop i) k n := ⟨hn.nonempty, hn.nameUnits, by rw [List.drop_drop]; exact hn.spelled⟩
  by_contra hlt
  obtain ⟨h0, h1⟩ := hn'.open_at
  by_cases hk : k = 1
  · subst hk
    exact hm'.not_open (by omega) (by omega) h1
  · exact hm'.not_open (by omega) (by omega) h0

/-! ## The scan -/

theorem tokenName?_eq_some {cs name : List CodeUnit} :
    tokenName? cs = some name ↔ ∃ as, cs = '{'.unit :: '{'.unit :: as ∧ as.takeWhile (fun u => IsNameUnit u) = name ∧
      name ≠ [] ∧ ['}'.unit, '}'.unit] <+: as.drop name.length := by
  unfold tokenName?
  dsimp only
  constructor
  · intro h
    split at h
    · rename_i hparts
      obtain ⟨⟨as, rfl⟩, hne, hclose⟩ := hparts
      obtain rfl := Option.some.inj h
      exact ⟨as, rfl, rfl, hne, hclose⟩
    · cases h
  · rintro ⟨as, rfl, rfl, hne, hclose⟩
    exact if_pos ⟨List.prefix_append _ _, hne, hclose⟩

theorem tokenName?_of_tokenAt {cs : List CodeUnit} {name : Text} (h : TokenAt cs 0 name) :
    tokenName? cs = some name.toList := by
  obtain ⟨b, hb⟩ := h.spelled
  rw [List.drop_zero] at hb
  have htake : (name.toList ++ ('}'.unit :: '}'.unit :: b)).takeWhile (fun u => IsNameUnit u) = name.toList := by
    rw [List.takeWhile_append_of_pos (by simpa using h.nameUnits)]
    have hstop : ¬ IsNameUnit '}'.unit := by decide
    simp [hstop]
  refine tokenName?_eq_some.mpr ⟨name.toList ++ ('}'.unit :: '}'.unit :: b), ?_, htake, h.nonempty, ?_⟩
  · rw [← hb, tokenUnits]
    simp
  · rw [List.drop_left]
    exact List.prefix_append _ _

theorem tokenAt_of_tokenName? {cs name : List CodeUnit} (h : tokenName? cs = some name) :
    TokenAt cs 0 (.ofList name) := by
  obtain ⟨as, rfl, hname, hne, b, hb⟩ := tokenName?_eq_some.mp h
  have hsplit := List.prefix_iff_eq_append.mp (List.takeWhile_prefix (l := as) fun u => IsNameUnit u)
  rw [hname, ← hb] at hsplit
  refine ⟨hne, ?_, b, ?_⟩
  · intro u hu
    have hunit := List.mem_takeWhile_imp (p := fun u => IsNameUnit u) (hname ▸ hu)
    simpa using hunit
  · rw [tokenUnits, List.drop_zero]
    simpa using hsplit

theorem TokenAt.name_unique {cs : List CodeUnit} {i : ℕ} {m n : Text} (hm : TokenAt cs i m) (hn : TokenAt cs i n) :
    m = n := by
  have hm' : TokenAt (cs.drop i) 0 m := ⟨hm.nonempty, hm.nameUnits, hm.spelled⟩
  have hn' : TokenAt (cs.drop i) 0 n := ⟨hn.nonempty, hn.nameUnits, hn.spelled⟩
  have hsame := (tokenName?_of_tokenAt hm').symm.trans (tokenName?_of_tokenAt hn')
  exact Text.toList_inj.mp (Option.some.inj hsame)

theorem isCut_nil : IsCut [] [] := by
  refine ⟨rfl, ?_⟩
  intro i name
  constructor
  · intro h
    have hopen := h.open_at.1
    simp at hopen
  · intro h
    obtain ⟨before, after, heq, -⟩ := h
    simp at heq

/-- A piece can be put in front when what it spells begins no token but the piece itself. -/
theorem IsCut.cons {cs : List CodeUnit} {ps : List Piece} {p : Piece} (h : IsCut cs ps)
    (hp : ∀ i name, i < p.units.length → (TokenAt (p.units ++ cs) i name ↔ i = 0 ∧ p = .token name)) :
    IsCut (p.units ++ cs) (p :: ps) := by
  refine ⟨by rw [List.flatMap_cons, ← h.units], ?_⟩
  intro i name
  -- a token begins inside the new piece or behind it
  by_cases hi : i < p.units.length
  · rw [hp i name hi]
    constructor
    · intro htoken
      obtain ⟨rfl, rfl⟩ := htoken
      exact ⟨[], ps, rfl, rfl⟩
    · intro hsplit
      obtain ⟨before, after, heq, rfl⟩ := hsplit
      cases before with
      | nil => exact ⟨rfl, (List.cons.inj heq).1⟩
      | cons q before =>
        obtain ⟨rfl, -⟩ := List.cons.inj heq
        rw [List.flatMap_cons, List.length_append] at hi
        omega
  · obtain ⟨j, rfl⟩ : ∃ j, i = p.units.length + j := ⟨i - p.units.length, by omega⟩
    rw [tokenAt_append, h.tokens j name]
    constructor
    · intro hsplit
      obtain ⟨before, after, rfl, rfl⟩ := hsplit
      exact ⟨p :: before, after, rfl, by simp⟩
    · intro hsplit
      obtain ⟨before, after, heq, hlength⟩ := hsplit
      cases before with
      | nil =>
        obtain ⟨rfl, -⟩ := List.cons.inj heq
        simp [Piece.units, length_tokenUnits] at hlength
      | cons q before =>
        obtain ⟨rfl, htail⟩ := List.cons.inj heq
        refine ⟨before, after, htail, ?_⟩
        rw [List.flatMap_cons, List.length_append] at hlength
        omega

theorem IsCut.unit {c : CodeUnit} {cs : List CodeUnit} {ps : List Piece} (h : IsCut cs ps)
    (hnone : tokenName? (c :: cs) = none) : IsCut (c :: cs) (.unit c :: ps) := by
  refine h.cons (p := .unit c) fun i name hi => ?_
  obtain rfl : i = 0 := Nat.lt_one_iff.mp hi
  constructor
  · intro htoken
    cases hnone.symm.trans (tokenName?_of_tokenAt htoken)
  · intro hp
    cases hp.2

theorem IsCut.token {cs : List CodeUnit} {ps : List Piece} {name : Text} (h : IsCut cs ps)
    (htoken : TokenAt (tokenUnits name ++ cs) 0 name) : IsCut (tokenUnits name ++ cs) (.token name :: ps) := by
  refine h.cons (p := .token name) fun i n hi => ?_
  constructor
  · intro hn
    by_cases h0 : i = 0
    · subst h0
      exact ⟨rfl, congrArg Piece.token (htoken.name_unique hn)⟩
    · -- tokens do not overlap, so none begins inside this one
      have hapart := htoken.apart hn (by omega)
      rw [Piece.units, length_tokenUnits] at hi
      omega
  · intro hn
    obtain ⟨rfl, hp⟩ := hn
    cases hp
    exact htoken

/-- Cutting from the left finds every token. -/
theorem isCut_piecesFrom (cs : List CodeUnit) : IsCut cs (piecesFrom 0 cs) := by
  match cs with
  | [] => exact isCut_nil
  | c :: cs =>
    rw [piecesFrom]
    cases h : tokenName? (c :: cs) with
    | none => exact (isCut_piecesFrom cs).unit h
    | some name =>
      have htoken := tokenAt_of_tokenName? h
      obtain ⟨b, hb⟩ := htoken.spelled
      rw [List.drop_zero] at hb
      have hdrop : cs.drop (name.length + 3) = b := by
        have hcs : (c :: cs).drop (tokenUnits (.ofList name)).length = b := by rw [← hb, List.drop_left]
        rw [length_tokenUnits, Text.length_ofList] at hcs
        exact hcs
      have hlen : b.length < (c :: cs).length := by
        rw [← hb, List.length_append, length_tokenUnits]
        omega
      rw [← hb] at htoken
      dsimp only
      -- skipping the token leads to what stands behind it
      rw [piecesFrom_skip, hdrop, ← hb]
      exact (isCut_piecesFrom b).token htoken
termination_by cs.length

/-! ## Filling -/

theorem tokenAt_of_mem {cs : List CodeUnit} {ps : List Piece} (h : IsCut cs ps) {name : Text}
    (hmem : .token name ∈ ps) : ∃ i, TokenAt cs i name := by
  obtain ⟨before, after, heq⟩ := List.append_of_mem hmem
  exact ⟨_, (h.tokens _ name).mpr ⟨before, after, heq, rfl⟩⟩

/-- With all sections there, the only tokens that stand in the way are those without a placeholder. -/
theorem renderTemplate_of_known {sections : Text → Option Text} {template : Text}
    (hsections : ∀ p : Placeholder, (sections p.name).isSome)
    (hnames : ∀ name ∈ tokenNames template, ∃ p : Placeholder, p.name = name) :
    renderTemplate sections template =
      .ok (.ofList ((pieces template).flatMap (Piece.fill fun name => (sections name).getD ""))) := by
  have hmissing : (Placeholder.all.find? fun p => (sections p.name).isNone) = none := by
    rw [List.find?_eq_none]
    intro p _
    simp [Option.isSome_iff_ne_none.mp (hsections p)]
  have hunknown : ((tokenNames template).find? fun name => (Placeholder.ofName? name).isNone) = none := by
    rw [List.find?_eq_none]
    intro name hname
    obtain ⟨p, rfl⟩ := hnames name hname
    simp [Placeholder.ofName?_name]
  unfold renderTemplate
  rw [hmissing]
  dsimp only
  rw [hunknown]

theorem token_of_mem_tokenNames {template name : Text} (h : name ∈ tokenNames template) :
    .token name ∈ pieces template := by
  obtain ⟨piece, hpiece, hsome⟩ := List.mem_filterMap.mp h
  cases piece with
  | unit c => cases hsome
  | token n =>
    cases hsome
    exact hpiece

/-- Tokens lie apart and are listed from left to right. When every token of a template names a placeholder, filling
puts the text of the section for each token and keeps all other units. -/
theorem template_tokens (template : Text) :
    (∀ i j m n, TokenAt template.toList i m → TokenAt template.toList j n → i ≤ j →
      i = j ∧ m = n ∨ i + m.length + 4 ≤ j) ∧
    ∃ ps, IsCut template.toList ps ∧ tokenNames template = ps.filterMap Piece.name? ∧
      ∀ (sections : Text → Option Text) (text : Text → Text),
        (∀ p : Placeholder, sections p.name = some (text p.name)) →
        (∀ i name, TokenAt template.toList i name → ∃ p : Placeholder, p.name = name) →
        renderTemplate sections template = .ok (.ofList (ps.flatMap (Piece.fill text))) := by
  have hcut : IsCut template.toList (pieces template) := isCut_piecesFrom _
  refine ⟨?_, pieces template, hcut, rfl, ?_⟩
  · intro i j m n hm hn hij
    rcases Nat.eq_or_lt_of_le hij with rfl | hlt
    · exact .inl ⟨rfl, hm.name_unique hn⟩
    · exact .inr (hm.apart hn hlt)
  · intro sections text hsections hnames
    have hknown : ∀ name, .token name ∈ pieces template → ∃ p : Placeholder, p.name = name := by
      intro name hmem
      obtain ⟨i, hi⟩ := tokenAt_of_mem hcut hmem
      exact hnames i name hi
    have hfill : (pieces template).flatMap (Piece.fill fun name => (sections name).getD "") =
        (pieces template).flatMap (Piece.fill text) := by
      apply List.flatMap_congr
      intro piece hpiece
      cases piece with
      | unit c => rfl
      | token name =>
        obtain ⟨p, rfl⟩ := hknown name hpiece
        simp [Piece.fill, hsections p]
    rw [renderTemplate_of_known, hfill]
    · intro p
      simp [hsections p]
    · intro name hname
      exact hknown name (token_of_mem_tokenNames hname)

/-- A text with a token in it that ends in open braces is put between braces of the template. -/
theorem template_tokens_braces :
    let template : Text := "\x7b\x7b\x7bEDGES\x7d\x7d\x7d"
    let text : Text → Text := fun name => if name = "EDGES" then "$&\x7b\x7bPREFIXES\x7d\x7d\x7b\x7b" else ""
    let filled := renderTemplate (fun name => some (text name)) template
    (∀ i name, TokenAt template.toList i name → ∃ p : Placeholder, p.name = name) ∧
      (∃ ps, IsCut template.toList ps ∧ filled = .ok (.ofList (ps.flatMap (Piece.fill text)))) ∧
      filled = .ok "\x7b$&\x7b\x7bPREFIXES\x7d\x7d\x7b\x7b\x7d" := by
  have hfilled : renderTemplate (fun name =>
      some (if name = "EDGES" then "$&\x7b\x7bPREFIXES\x7d\x7d\x7b\x7b" else "")) "\x7b\x7b\x7bEDGES\x7d\x7d\x7d" =
        .ok "\x7b$&\x7b\x7bPREFIXES\x7d\x7d\x7b\x7b\x7d" := by
    decide +kernel
  have hlisted : tokenNames "\x7b\x7b\x7bEDGES\x7d\x7d\x7d" = ["EDGES"] := by decide +kernel
  intro template text filled
  obtain ⟨-, ps, hcut, hnames, hfill⟩ := template_tokens template
  have hplaceholder : ∀ i name, TokenAt template.toList i name → ∃ p : Placeholder, p.name = name := by
    intro i name htoken
    obtain ⟨before, after, rfl, -⟩ := (hcut.tokens i name).mp htoken
    have hmem : name ∈ tokenNames template := by
      rw [hnames]
      simp [Piece.name?]
    rw [hlisted] at hmem
    exact ⟨.edges, (List.mem_singleton.mp hmem).symm⟩
  refine ⟨hplaceholder, ⟨ps, hcut, ?_⟩, hfilled⟩
  exact hfill (fun name => some (text name)) text (fun _ => rfl) hplaceholder

end NetDiagram
