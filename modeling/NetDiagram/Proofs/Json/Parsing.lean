import NetDiagram.Proofs.Json.Lexing
import NetDiagram.Proofs.Json.Members

/-!
# Reading whole texts

The frames on the stack are the arrays and objects whose text has begun, and
every step of the builder goes on with that text. So a text that is read has a
derivation in the grammar. A derivation in turn tells the builder what to do
with the tokens of the text, whatever frames are open around it.
-/

namespace NetDiagram.Grammar

open Json

/-! ## Tokens of a derivation -/

def ValueTokens (ts : List Token) (v : Json) : Prop :=
  (∀ t ∈ ts.head?, t ≠ .closeBracket) ∧ ts ≠ [] ∧
    ∀ frames rest, build? none frames (ts ++ rest) = build? (some v) frames rest

def ElementsTokens (ts : List Token) (vs : List Json) : Prop :=
  (∀ t ∈ ts.head?, t ≠ .closeBracket) ∧ ts ≠ [] ∧
    ∀ before frames rest, build? none (.array before :: frames) (ts ++ .closeBracket :: rest) =
      build? (some (.array (before.reverse ++ vs))) frames rest

def PairsTokens (ts : List Token) (pairs : List (Text × Json)) : Prop :=
  ∃ key us, ts = .string key :: .colon :: us ∧
    ∀ before frames rest, build? none (.object before key :: frames) (us ++ .closeBrace :: rest) =
      build? (some (.object (Members.ofList (before.reverse ++ pairs)))) frames rest

theorem build?_scalar {t : Token} {v : Json} (h : t.scalar? = some v) (frames : List Frame) (rest : List Token) :
    build? none frames (t :: rest) = build? (some v) frames rest := by
  cases t <;> simp only [Token.scalar?, Option.some.injEq, reduceCtorEq] at h <;> subst h <;> rfl

theorem valueTokens_scalar {t : Token} {v : Json} (h : t.scalar? = some v) : ValueTokens [t] v := by
  refine ⟨?_, by simp, fun frames rest => build?_scalar h frames rest⟩
  intro u hu hclose
  cases hu
  rw [hclose] at h
  cases h

theorem build?_openBracket {ts : List Token} (h : ∀ t ∈ ts.head?, t ≠ .closeBracket) (frames : List Frame) :
    build? none frames (.openBracket :: ts) = build? none (.array [] :: frames) ts := by
  cases ts with
  | nil => rfl
  | cons t ts =>
    have ht := h t rfl
    cases t <;> first | rfl | exact absurd rfl ht

theorem head?_append {α : Type} {xs : List α} (ys : List α) (h : xs ≠ []) : (xs ++ ys).head? = xs.head? := by
  cases xs with
  | nil => exact absurd rfl h
  | cons x xs => rfl

theorem ElementsTokens.one {ts : List Token} {v : Json} (h : ValueTokens ts v) : ElementsTokens ts [v] := by
  refine ⟨h.1, h.2.1, fun before frames rest => ?_⟩
  rw [h.2.2]
  show build? (some (.array (v :: before).reverse)) frames rest = _
  rw [List.reverse_cons]

theorem ElementsTokens.more {ts us : List Token} {v : Json} {vs : List Json} (h : ValueTokens ts v)
    (h' : ElementsTokens us vs) : ElementsTokens (ts ++ .comma :: us) (v :: vs) := by
  refine ⟨by rw [head?_append _ h.2.1]; exact h.1, by simp, fun before frames rest => ?_⟩
  rw [List.append_assoc, h.2.2]
  show build? none (.array (v :: before) :: frames) (us ++ .closeBracket :: rest) = _
  rw [h'.2.2, List.reverse_cons, List.append_assoc]
  rfl

theorem ElementsTokens.value {ts : List Token} {vs : List Json} (h : ElementsTokens ts vs) :
    ValueTokens (.openBracket :: (ts ++ [.closeBracket])) (.array vs) := by
  refine ⟨by intro t ht; cases ht; simp, by simp, fun frames rest => ?_⟩
  have hhead : ∀ t ∈ (ts ++ .closeBracket :: rest).head?, t ≠ .closeBracket := by
    rw [head?_append _ h.2.1]; exact h.1
  rw [List.cons_append, List.append_assoc, List.singleton_append, build?_openBracket hhead, h.2.2]
  rfl

theorem PairsTokens.one {ts : List Token} {key : Text} {v : Json} (h : ValueTokens ts v) :
    PairsTokens (.string key :: .colon :: ts) [(key, v)] := by
  refine ⟨key, ts, rfl, fun before frames rest => ?_⟩
  rw [h.2.2]
  show build? (some (.object (Members.ofList ((key, v) :: before).reverse))) frames rest = _
  rw [List.reverse_cons]

theorem PairsTokens.more {ts us : List Token} {key : Text} {v : Json} {pairs : List (Text × Json)}
    (h : ValueTokens ts v) (h' : PairsTokens us pairs) :
    PairsTokens (.string key :: .colon :: (ts ++ .comma :: us)) ((key, v) :: pairs) := by
  obtain ⟨key', us', hus, h'⟩ := h'
  subst hus
  refine ⟨key, _, rfl, fun before frames rest => ?_⟩
  rw [List.append_assoc, h.2.2]
  show build? none (.object ((key, v) :: before) key' :: frames) (us' ++ .closeBrace :: rest) = _
  rw [h', List.reverse_cons, List.append_assoc]
  rfl

theorem PairsTokens.value {ts : List Token} {pairs : List (Text × Json)} (h : PairsTokens ts pairs) :
    ValueTokens (.openBrace :: (ts ++ [.closeBrace])) (.object (Members.ofList pairs)) := by
  obtain ⟨key, us, hus, h⟩ := h
  subst hus
  refine ⟨by intro t ht; cases ht; simp, by simp, fun frames rest => ?_⟩
  show build? none (.object [] key :: frames) (us ++ [.closeBrace] ++ rest) = _
  rw [List.append_assoc, List.singleton_append, h]
  rfl

mutual

/-- What the grammar spells is cut into the tokens of its value. -/
theorem lexed_value {cs : List CodeUnit} {v : Json} (h : Value cs v) : ∃ ts, Lexed cs ts ∧ ValueTokens ts v := by
  match h with
  | .null =>
    exact ⟨[.null], lexed_bare (by decide) (by decide) rfl, valueTokens_scalar rfl⟩
  | .true =>
    exact ⟨[.bool .true], lexed_bare (by decide) (by decide) rfl, valueTokens_scalar rfl⟩
  | .false =>
    exact ⟨[.bool .false], lexed_bare (by decide) (by decide) rfl, valueTokens_scalar rfl⟩
  | .number hn hx =>
    obtain rfl := isNearest_iff.mp hx
    exact ⟨_, lexed_number hn, valueTokens_scalar rfl⟩
  | .string hs => exact ⟨_, lexed_literal hs, valueTokens_scalar rfl⟩
  | .emptyArray ha =>
    refine ⟨[.openBracket, .closeBracket], ?_, by simp, by simp, fun _ _ => rfl⟩
    exact .punctuation rfl (.blanks ha (.punctuation rfl lexed_nil))
  | .array hcs =>
    obtain ⟨ts, hts, hel⟩ := lexed_elements hcs
    refine ⟨_, ?_, hel.value⟩
    exact .punctuation rfl (hts.append (.punctuation rfl lexed_nil) (ends_cons _ (by decide)))
  | .emptyObject ha =>
    refine ⟨[.openBrace, .closeBrace], ?_, by simp, by simp, fun _ _ => rfl⟩
    exact .punctuation rfl (.blanks ha (.punctuation rfl lexed_nil))
  | .object hcs hms =>
    obtain ⟨ts, hts, hpairs⟩ := lexed_pairs hcs
    obtain rfl := hms.eq_ofList
    refine ⟨_, ?_, hpairs.value⟩
    exact .punctuation rfl (hts.append (.punctuation rfl lexed_nil) (ends_cons _ (by decide)))

theorem lexed_elements {cs : List CodeUnit} {vs : List Json} (h : Elements cs vs) :
    ∃ ts, Lexed cs ts ∧ ElementsTokens ts vs := by
  match h with
  | .one ha hv hb =>
    obtain ⟨ts, hts, hval⟩ := lexed_value hv
    refine ⟨ts, ?_, .one hval⟩
    rw [List.append_assoc]
    simpa using Lexed.blanks ha (hts.append (.blanks hb lexed_nil) (ends_blanks hb ends_nil))
  | .more ha hv hb hds =>
    obtain ⟨ts, hts, hval⟩ := lexed_value hv
    obtain ⟨us, hus, hel⟩ := lexed_elements hds
    refine ⟨_, ?_, .more hval hel⟩
    rw [List.append_assoc, List.append_assoc]
    exact .blanks ha (hts.append (.blanks hb (.punctuation rfl hus)) (ends_blanks hb (ends_cons _ (by decide))))

theorem lexed_pairs {cs : List CodeUnit} {pairs : List (Text × Json)} (h : Pairs cs pairs) :
    ∃ ts, Lexed cs ts ∧ PairsTokens ts pairs := by
  match h with
  | .one ha hk hb hc hv hd =>
    obtain ⟨ts, hts, hval⟩ := lexed_value hv
    refine ⟨_, ?_, .one hval⟩
    have hvalue := Lexed.blanks hc (hts.append (.blanks hd lexed_nil) (ends_blanks hd ends_nil))
    have hcolon := Lexed.blanks hb (.punctuation (c := ':'.unit) rfl hvalue)
    have := Lexed.blanks ha ((lexed_literal hk).append hcolon (ends_blanks hb (ends_cons _ (by decide))))
    simpa using this
  | .more ha hk hb hc hv hd hds =>
    obtain ⟨ts, hts, hval⟩ := lexed_value hv
    obtain ⟨us, hus, hpairs⟩ := lexed_pairs hds
    refine ⟨_, ?_, .more hval hpairs⟩
    have hcomma := Lexed.blanks hd (.punctuation (c := ','.unit) rfl hus)
    have hvalue := Lexed.blanks hc (hts.append hcomma (ends_blanks hd (ends_cons _ (by decide))))
    have hcolon := Lexed.blanks hb (.punctuation (c := ':'.unit) rfl hvalue)
    have := Lexed.blanks ha ((lexed_literal hk).append hcolon (ends_blanks hb (ends_cons _ (by decide))))
    simpa using this

end

theorem parse?_of_document {text : Text} {v : Json} (h : Document text.toList v) : parse? text = some v := by
  generalize hcs : text.toList = cs at h
  cases h with
  | @value a cs b v ha hv hb =>
    obtain ⟨ts, hts, hval⟩ := lexed_value hv
    have hlex := Lexed.blanks ha (hts.append (.blanks hb lexed_nil) (ends_blanks hb ends_nil))
    have htokens : tokens? text.toList = some ts := by
      rw [hcs, List.append_assoc, tokens?_eq, ← List.append_nil b, hlex []]
      simp
    have hbuild : build? none [] ts = some v := by
      have := hval.2.2 [] []
      rwa [List.append_nil] at this
    simp [parse?, htokens, hbuild]

/-! ## The text behind a run -/

theorem punctuation?_inj {c d : CodeUnit} {t : Token} (hc : Token.punctuation? c = some t)
    (hd : Token.punctuation? d = some t) : c = d := by
  have hall : ∀ u ∈ marks, ∀ v ∈ marks, Token.punctuation? u = Token.punctuation? v → u = v := by decide
  exact hall c (mem_marks hc) d (mem_marks hd) (hc.trans hd.symm)

theorem scalar?_of_punctuation {c : CodeUnit} {t : Token} (h : Token.punctuation? c = some t) : t.scalar? = none := by
  unfold Token.punctuation? at h
  split at h <;> cases h <;> rfl

theorem Spells.punct {w : List CodeUnit} {c : CodeUnit} {t : Token} (h : Spells w t)
    (hc : Token.punctuation? c = some t) : w = [c] := by
  cases h with
  | punctuation hd => rw [punctuation?_inj hd hc]
  | scalar ht _ => rw [scalar?_of_punctuation hc] at ht; cases ht

theorem Spells.value {w : List CodeUnit} {t : Token} {v : Json} (h : Spells w t) (ht : t.scalar? = some v) :
    Value w v := by
  cases h with
  | punctuation hc => rw [scalar?_of_punctuation hc] at ht; cases ht
  | scalar ht' hv => rw [ht'] at ht; cases ht; exact hv

theorem Spells.literal {w : List CodeUnit} {s : Text} (h : Spells w (.string s)) : Literal w s := by
  cases h.value rfl with
  | string hs => exact hs

theorem Spelled.uncons {cs : List CodeUnit} {t : Token} {ts : List Token} (h : Spelled cs (t :: ts)) :
    ∃ a w ds, cs = a ++ w ++ ds ∧ Blanks a ∧ Spells w t ∧ Spelled ds ts := by
  cases h with
  | cons ha hw hcs => exact ⟨_, _, _, rfl, ha, hw, hcs⟩

theorem Spelled.uncons_punct {cs : List CodeUnit} {c : CodeUnit} {t : Token} {ts : List Token}
    (h : Spelled cs (t :: ts)) (hc : Token.punctuation? c = some t) :
    ∃ a ds, cs = a ++ c :: ds ∧ Blanks a ∧ Spelled ds ts := by
  obtain ⟨a, w, ds, hcs, ha, hw, hds⟩ := h.uncons
  refine ⟨a, ds, ?_, ha, hds⟩
  rw [hcs, hw.punct hc]
  simp

/-- The text up to the place of the next value, when these frames are open. -/
def Opens : List Frame → List CodeUnit → Prop
  | [], before => before = []
  | .array vs :: frames, before => ∃ outer a body, before = outer ++ a ++ '['.unit :: body ∧
      Opens frames outer ∧ Blanks a ∧ ∀ cs ws, Elements cs ws → Elements (body ++ cs) (vs.reverse ++ ws)
  | .object pairs key :: frames, before => ∃ outer a body, before = outer ++ a ++ '\x7b'.unit :: body ∧
      Opens frames outer ∧ Blanks a ∧ ∀ c cs d v, Blanks c → Value cs v → Blanks d →
        Pairs (body ++ (c ++ cs ++ d)) (pairs.reverse ++ [(key, v)]) ∧
          ∀ ds more, Pairs ds more →
            Pairs (body ++ (c ++ cs ++ d ++ ','.unit :: ds)) (pairs.reverse ++ (key, v) :: more)

section
variable {frames : List Frame} {before : List CodeUnit}

theorem Opens.openArray {a : List CodeUnit} (h : Opens frames before) (ha : Blanks a) :
    Opens (.array [] :: frames) (before ++ a ++ ['['.unit]) :=
  ⟨before, a, [], rfl, h, ha, fun _ _ hws => hws⟩

theorem Opens.openObject {a b w d : List CodeUnit} {key : Text} (h : Opens frames before) (ha : Blanks a)
    (hb : Blanks b) (hw : Literal w key) (hd : Blanks d) :
    Opens (.object [] key :: frames) (before ++ a ++ '\x7b'.unit :: (b ++ w ++ d ++ [':'.unit])) := by
  refine ⟨before, a, _, rfl, h, ha, fun c cs e v hc hv he => ⟨?_, fun ds more hmore => ?_⟩⟩
  · simpa using Pairs.one hb hw hd hc hv he
  · simpa using Pairs.more hb hw hd hc hv he hmore

section
variable {w : Json} {a cs b : List CodeUnit} (ha : Blanks a) (hv : Value cs w) (hb : Blanks b)
include ha hv hb

theorem Opens.nextElement {vs : List Json} (h : Opens (.array vs :: frames) before) :
    Opens (.array (w :: vs) :: frames) (before ++ (a ++ cs ++ b ++ [','.unit])) := by
  obtain ⟨outer, a', body, rfl, houter, ha', hbody⟩ := h
  refine ⟨outer, a', body ++ (a ++ cs ++ b ++ [','.unit]), by simp, houter, ha', fun ds ws hws => ?_⟩
  have hmore := hbody _ _ (.more ha hv hb hws)
  simpa using hmore

theorem Opens.closeArray {vs : List Json} (h : Opens (.array vs :: frames) before) :
    ∃ outer a' body, before = outer ++ (a' ++ body) ∧ Opens frames outer ∧ Blanks a' ∧
      Value (body ++ (a ++ cs ++ b ++ [']'.unit])) (.array (w :: vs).reverse) := by
  obtain ⟨outer, a', body, rfl, houter, ha', hbody⟩ := h
  have hvalue := Value.array (hbody _ _ (.one ha hv hb))
  rw [← List.reverse_cons] at hvalue
  exact ⟨outer, a', '['.unit :: body, by simp, houter, ha', by simpa using hvalue⟩

theorem Opens.nextPair {pairs : List (Text × Json)} {key key' : Text} {d k e : List CodeUnit}
    (h : Opens (.object pairs key :: frames) before) (hd : Blanks d) (hk : Literal k key') (he : Blanks e) :
    Opens (.object ((key, w) :: pairs) key' :: frames)
      (before ++ (a ++ cs ++ b ++ ','.unit :: (d ++ k ++ e ++ [':'.unit]))) := by
  obtain ⟨outer, a', body, rfl, houter, ha', hbody⟩ := h
  refine ⟨outer, a', body ++ (a ++ cs ++ b ++ ','.unit :: (d ++ k ++ e ++ [':'.unit])), by simp, houter, ha',
    fun c cs' f v hc hv' hf => ⟨?_, fun ds more hmore => ?_⟩⟩
  · have hone := (hbody a cs b w ha hv hb).2 _ _ (.one hd hk he hc hv' hf)
    simpa using hone
  · have hmany := (hbody a cs b w ha hv hb).2 _ _ (.more hd hk he hc hv' hf hmore)
    simpa using hmany

theorem Opens.closeObject {pairs : List (Text × Json)} {key : Text}
    (h : Opens (.object pairs key :: frames) before) :
    ∃ outer a' body, before = outer ++ (a' ++ body) ∧ Opens frames outer ∧ Blanks a' ∧
      Value (body ++ (a ++ cs ++ b ++ ['\x7d'.unit])) (.object (Members.ofList ((key, w) :: pairs).reverse)) := by
  obtain ⟨outer, a', body, rfl, houter, ha', hbody⟩ := h
  have hpairs := (hbody a cs b w ha hv hb).1
  rw [← List.reverse_cons] at hpairs
  have hvalue := Value.object hpairs (Members.lastWins_ofList _)
  exact ⟨outer, a', '\x7b'.unit :: body, by simp, houter, ha', by simpa using hvalue⟩

end

end

/-- What a value, due or just read, makes of the text before it and after it. -/
def Completes (due : Option Json) (before rest : List CodeUnit) (v : Json) : Prop :=
  match due with
  | none => Document (before ++ rest) v
  | some w => ∀ a cs, Blanks a → Value cs w → Document (before ++ (a ++ cs) ++ rest) v

theorem completes_value {w v : Json} {before a cs rest : List CodeUnit} (ha : Blanks a) (hv : Value cs w)
    (h : Completes (some w) before rest v) : Completes none before (a ++ cs ++ rest) v := by
  have hdocument := h a cs ha hv
  rwa [List.append_assoc] at hdocument

/-- The value that is built from the tokens is spelled by their text. -/
theorem document_of_build? {due : Option Json} {frames : List Frame} {ts : List Token} {v : Json}
    (h : build? due frames ts = some v) {before rest : List CodeUnit} (hopen : Opens frames before)
    (hs : Spelled rest ts) : Completes due before rest v := by
  -- the induction follows the machine, and what it has read already is kept in `hopen`
  fun_induction build? due frames ts generalizing before rest with
  | case1 frames ts ih =>
    obtain ⟨a, rest₁, rfl, ha, hs⟩ := hs.uncons_punct (c := '['.unit) rfl
    obtain ⟨b, rest₂, rfl, hb, hs⟩ := hs.uncons_punct (c := ']'.unit) rfl
    simpa using completes_value ha (.emptyArray hb) (ih h hopen hs)
  | case2 frames ts _ ih =>
    obtain ⟨a, rest₁, rfl, ha, hs⟩ := hs.uncons_punct (c := '['.unit) rfl
    have hrest := ih h (hopen.openArray ha) hs
    simpa [Completes] using hrest
  | case3 frames ts ih =>
    obtain ⟨a, rest₁, rfl, ha, hs⟩ := hs.uncons_punct (c := '\x7b'.unit) rfl
    obtain ⟨b, rest₂, rfl, hb, hs⟩ := hs.uncons_punct (c := '\x7d'.unit) rfl
    simpa using completes_value ha (.emptyObject hb) (ih h hopen hs)
  | case4 frames key ts ih =>
    obtain ⟨a, rest₁, rfl, ha, hs⟩ := hs.uncons_punct (c := '\x7b'.unit) rfl
    obtain ⟨b, w, rest₂, rfl, hb, hw, hs⟩ := hs.uncons
    obtain ⟨d, rest₃, rfl, hd, hs⟩ := hs.uncons_punct (c := ':'.unit) rfl
    have hrest := ih h (hopen.openObject ha hb hw.literal hd) hs
    simpa [Completes] using hrest
  | case5 frames t ts _ _ _ _ w hw ih =>
    obtain ⟨a, cs, rest₁, rfl, ha, hcs, hs⟩ := hs.uncons
    exact completes_value ha (hcs.value hw) (ih h hopen hs)
  | case6 => cases h
  | case7 w =>
    cases h
    obtain rfl : before = [] := hopen
    intro a cs ha hv
    cases hs with
    | nil hb =>
      rw [List.nil_append]
      exact .value ha hv hb
  | case8 w vs frames ts ih =>
    obtain ⟨b, rest₁, rfl, hb, hs⟩ := hs.uncons_punct (c := ','.unit) rfl
    intro a cs ha hv
    have hrest := ih h (hopen.nextElement ha hv hb) hs
    simpa [Completes] using hrest
  | case9 w vs frames ts ih =>
    obtain ⟨b, rest₁, rfl, hb, hs⟩ := hs.uncons_punct (c := ']'.unit) rfl
    intro a cs ha hv
    obtain ⟨outer, a', body, rfl, houter, ha', hvalue⟩ := hopen.closeArray ha hv hb
    simpa using ih h houter hs a' _ ha' hvalue
  | case10 w pairs key frames key' ts ih =>
    obtain ⟨b, rest₁, rfl, hb, hs⟩ := hs.uncons_punct (c := ','.unit) rfl
    obtain ⟨d, k, rest₂, rfl, hd, hk, hs⟩ := hs.uncons
    obtain ⟨e, rest₃, rfl, he, hs⟩ := hs.uncons_punct (c := ':'.unit) rfl
    intro a cs ha hv
    have hrest := ih h (hopen.nextPair ha hv hb hd hk.literal he) hs
    simpa [Completes] using hrest
  | case11 w pairs key frames ts ih =>
    obtain ⟨b, rest₁, rfl, hb, hs⟩ := hs.uncons_punct (c := '\x7d'.unit) rfl
    intro a cs ha hv
    obtain ⟨outer, a', body, rfl, houter, ha', hvalue⟩ := hopen.closeObject ha hv hb
    simpa using ih h houter hs a' _ ha' hvalue
  | case12 => cases h

/-- A text is read exactly as the grammar derives it. -/
theorem parse?_iff {text : Text} {v : Json} : parse? text = some v ↔ Document text.toList v := by
  refine ⟨fun h => ?_, parse?_of_document⟩
  obtain ⟨ts, hts, hv⟩ := Option.bind_eq_some_iff.mp h
  exact @document_of_build? none [] ts v hv [] _ rfl (spelled_of_tokens? hts)

end NetDiagram.Grammar
