import NetDiagram.Proofs.Json.Numerals
import NetDiagram.Proofs.Json.Strings

/-!
# Cutting texts into tokens

What the machine has read of a token is a beginning of the token's spelling, so
the tokens that it finds spell the text. The other way round, two texts are cut
one after the other if the second does not go on with a bare word.
-/

namespace NetDiagram.Grammar

open Json

/-! ## Characters of bare words -/

/-- A character outside the basic plane begins with a surrogate, and no bare word has one. -/
theorem lt_of_bare {c : Char} (h : IsBare c.unit) : c.toNat < 0x10000 := by
  by_contra hge
  have hzero := (Char.isHigh_unit (Nat.le_of_not_lt hge)).char_eq
  rcases h with h | h | h | h
  · rw [hzero] at h
    exact absurd h (by decide)
  all_goals
    rw [h] at hzero
    exact absurd hzero (by decide)

theorem encode_bare {cs : List Char} (h : ∀ c ∈ cs, IsBare c.unit) : Text.encode cs = cs.map Char.unit :=
  Text.encode_eq_map fun c hc => lt_of_bare (h c hc)

theorem bare_encode {cs : List Char} (h : ∀ c ∈ cs, IsBare c.unit) : ∀ u ∈ Text.encode cs, IsBare u := by
  rw [encode_bare h]
  exact List.forall_mem_map.mpr h

theorem map_char_encode {cs : List Char} (h : ∀ c ∈ cs, IsBare c.unit) : (Text.encode cs).map CodeUnit.char = cs := by
  rw [encode_bare h, List.map_map]
  exact (List.map_congr_left fun c hc => Char.char_unit (lt_of_bare (h c hc))).trans (List.map_id _)

theorem Digits.bare {ds : List Char} (h : ∀ c ∈ ds, c.isDigit) : ∀ c ∈ ds, IsBare c.unit := by
  intro c hc
  left
  have hle : c.toNat ≤ 57 := (Char.isDigit_iff_toNat.mp (h c hc)).2
  rw [Char.char_unit (by omega)]
  simp [Char.isAlphanum, h c hc]

theorem bare_toDigits (n : ℕ) : ∀ u ∈ Text.encode (Nat.toDigits 10 n), IsBare u :=
  bare_encode (Digits.bare fun _ hc => Nat.isDigit_of_mem_toDigits (by decide) (by decide) hc)

theorem Exponent.bare {x : List Char} {e : Int} (h : Exponent x e) : ∀ c ∈ x, IsBare c.unit := by
  have hletter : ∀ {e : Char}, e = 'e' ∨ e = 'E' → IsBare e.unit := by
    intro e he; rcases he with rfl | rfl <;> decide
  intro c hc
  cases h with
  | absent => cases hc
  | unsigned he hd =>
    rcases List.mem_cons.mp hc with rfl | hc
    · exact hletter he
    · exact Digits.bare hd.2 c hc
  | plus he hd | minus he hd =>
    rcases List.mem_cons.mp hc with rfl | hc
    · exact hletter he
    · rcases List.mem_cons.mp hc with rfl | hc
      · decide
      · exact Digits.bare hd.2 c hc

theorem Fraction.bare {f ds : List Char} (h : Fraction f ds) : ∀ c ∈ f, IsBare c.unit := by
  intro c hc
  cases h with
  | absent => cases hc
  | digits hd =>
    rcases List.mem_cons.mp hc with rfl | hc
    · decide
    · exact Digits.bare hd.2 c hc

/-- A numeral is one bare word. -/
theorem Number.bare {cs : List Char} {n : Numeral} (h : Number cs n) : ∀ c ∈ cs, IsBare c.unit := by
  have hparts : ∀ {w f ds x : List Char} {e : Int}, Whole w → Fraction f ds → Exponent x e →
      ∀ c ∈ w ++ f ++ x, IsBare c.unit := by
    intro w f ds x e hw hf hx c hc
    rcases List.mem_append.mp hc with hc | hc
    · rcases List.mem_append.mp hc with hc | hc
      · exact Digits.bare hw.digits.2 c hc
      · exact hf.bare c hc
    · exact hx.bare c hc
  cases h with
  | unsigned hw hf hx => exact hparts hw hf hx
  | minus hw hf hx =>
    intro c hc
    rcases List.mem_cons.mp hc with rfl | hc
    · decide
    · exact hparts hw hf hx c hc

theorem Number.encode_map_char {w : List CodeUnit} {n : Numeral} (h : Number (w.map CodeUnit.char) n) :
    Text.encode (w.map CodeUnit.char) = w := by
  have hbare := List.forall_mem_map.mp h.bare
  rw [encode_bare h.bare, List.map_map]
  refine (List.map_congr_left fun u hu => CodeUnit.unit_char fun hzero => ?_).trans (List.map_id _)
  have hchar := hbare u hu
  rw [hzero] at hchar
  exact absurd hchar (by decide)

/-! ## Spellings -/

inductive Spells : List CodeUnit → Token → Prop
  | punctuation {c : CodeUnit} {t : Token} : Token.punctuation? c = some t → Spells [c] t
  | scalar {cs : List CodeUnit} {t : Token} {v : Json} : t.scalar? = some v → Value cs v → Spells cs t

inductive Spelled : List CodeUnit → List Token → Prop
  | nil {a : List CodeUnit} : Blanks a → Spelled a []
  | cons {a w cs : List CodeUnit} {t : Token} {ts : List Token} : Blanks a → Spells w t → Spelled cs ts →
      Spelled (a ++ w ++ cs) (t :: ts)

theorem blanks_nil : Blanks [] := by
  intro c hc; cases hc

theorem Blanks.cons {c : CodeUnit} {a : List CodeUnit} (hc : IsBlank c) (ha : Blanks a) : Blanks (c :: a) := by
  intro d hd
  rcases List.mem_cons.mp hd with rfl | hd
  · exact hc
  · exact ha d hd

theorem Spelled.blank {c : CodeUnit} {cs : List CodeUnit} {ts : List Token} (hc : IsBlank c) (h : Spelled cs ts) :
    Spelled (c :: cs) ts := by
  cases h with
  | nil ha => exact .nil (.cons hc ha)
  | @cons a w cs t ts ha hw hcs => exact .cons (a := c :: a) (.cons hc ha) hw hcs

theorem Spelled.token {w cs : List CodeUnit} {t : Token} {ts : List Token} (hw : Spells w t) (h : Spelled cs ts) :
    Spelled (w ++ cs) (t :: ts) :=
  .cons (a := []) blanks_nil hw h

theorem spells_bare {w : List CodeUnit} {t : Token} (h : Token.bare? w = some t) : Spells w t := by
  unfold Token.bare? at h
  split at h
  · rename_i hw; cases h; subst hw; exact .scalar rfl .null
  split at h
  · rename_i hw; cases h; subst hw; exact .scalar rfl .true
  split at h
  · rename_i hw; cases h; subst hw; exact .scalar rfl .false
  obtain ⟨n, hn, rfl⟩ := Option.map_eq_some_iff.mp h
  have hnumber := ofChars?_iff.mp hn
  have hvalue := Value.number hnumber (isNearest_iff.mpr rfl)
  rw [hnumber.encode_map_char] at hvalue
  exact .scalar rfl hvalue

theorem spells_string {body ds : List CodeUnit} (h : Quoted.unescape? body = some ds) :
    Spells ('"'.unit :: body ++ ['"'.unit]) (.string (.ofList ds)) :=
  .scalar rfl (.string (literal_iff.mpr ⟨body, ds, rfl, h, rfl⟩))

/-! ## Tokens spell the text -/

def pendingUnits : Pending → List CodeUnit
  | .none => []
  | .bare word => word.reverse
  | .text body _ => '"'.unit :: body.reverse

/-- The machine goes from one state to another over `cs` and finds the tokens `us` on the way. -/
def Finds (l : Lexer) (cs : List CodeUnit) (us : List Token) (l' : Lexer) : Prop :=
  l'.tokens = us.reverse ++ l.tokens ∧
    ∀ ds ts, Spelled (pendingUnits l'.pending ++ ds) ts → Spelled (pendingUnits l.pending ++ cs ++ ds) (us ++ ts)

theorem flush?_finds {l l' : Lexer} (h : l.flush? = some l') : ∃ us, Finds l [] us l' ∧ l'.pending = .none := by
  obtain ⟨tokens, pending⟩ := l
  cases pending with
  | none => cases h; exact ⟨[], ⟨rfl, fun ds ts hs => hs⟩, rfl⟩
  | bare word =>
    obtain ⟨t, ht, rfl⟩ := Option.map_eq_some_iff.mp h
    refine ⟨[t], ⟨rfl, fun ds ts hs => ?_⟩, rfl⟩
    simpa [pendingUnits] using Spelled.token (spells_bare ht) hs
  | text body escaped => cases h

theorem outside?_finds {l l' : Lexer} {c : CodeUnit} (hl : l.pending = .none) (h : l.outside? c = some l') :
    ∃ us, Finds l [c] us l' := by
  obtain ⟨tokens, pending⟩ := l
  obtain rfl : pending = .none := hl
  unfold Lexer.outside? at h
  split at h
  · rename_i hc
    cases h
    exact ⟨[], rfl, fun ds ts hs => .blank hc hs⟩
  split at h
  · rename_i hc
    cases h
    subst hc
    exact ⟨[], rfl, fun ds ts hs => hs⟩
  · obtain ⟨t, ht, rfl⟩ := Option.map_eq_some_iff.mp h
    exact ⟨[t], rfl, fun ds ts hs => .token (.punctuation ht) hs⟩

theorem Finds.trans {l l' l'' : Lexer} {cs cs' : List CodeUnit} {us us' : List Token} (h : Finds l cs us l')
    (h' : Finds l' cs' us' l'') : Finds l (cs ++ cs') (us ++ us') l'' := by
  refine ⟨?_, fun ds ts hs => ?_⟩
  · rw [h'.1, h.1, List.reverse_append, List.append_assoc]
  · have := h.2 (cs' ++ ds) (us' ++ ts) (by rw [← List.append_assoc]; exact h'.2 ds ts hs)
    simpa only [List.append_assoc] using this

theorem step?_finds {l l' : Lexer} {c : CodeUnit} (h : l.step? c = some l') : ∃ us, Finds l [c] us l' := by
  obtain ⟨tokens, pending⟩ := l
  cases pending with
  | none =>
    unfold Lexer.step? at h
    dsimp only at h
    split at h
    · cases h; exact ⟨[], rfl, fun ds ts hs => hs⟩
    · exact outside?_finds rfl h
  | bare word =>
    unfold Lexer.step? at h
    dsimp only at h
    split at h
    · cases h
      refine ⟨[], rfl, fun ds ts hs => ?_⟩
      simpa [pendingUnits] using hs
    · -- the unit closes the word and is then taken as one outside of any token
      obtain ⟨l₁, h₁, h₂⟩ := Option.bind_eq_some_iff.mp h
      obtain ⟨us, hus, hp⟩ := flush?_finds h₁
      obtain ⟨us', hus'⟩ := outside?_finds hp h₂
      exact ⟨us ++ us', hus.trans hus'⟩
  | text body escaped =>
    cases escaped with
    | true =>
      cases h
      refine ⟨[], rfl, fun ds ts hs => ?_⟩
      simpa [pendingUnits] using hs
    | false =>
      unfold Lexer.step? at h
      dsimp only at h
      split at h
      · rename_i hc
        subst hc
        obtain ⟨cs, hcs, rfl⟩ := Option.map_eq_some_iff.mp h
        refine ⟨[.string (.ofList cs)], rfl, fun ds ts hs => ?_⟩
        simpa [pendingUnits] using Spelled.token (spells_string hcs) hs
      · cases h
        refine ⟨[], rfl, fun ds ts hs => ?_⟩
        simpa [pendingUnits] using hs

theorem foldlM_finds {cs : List CodeUnit} {l l' : Lexer} (h : cs.foldlM Lexer.step? l = some l') :
    ∃ us, Finds l cs us l' := by
  induction cs generalizing l with
  | nil => cases h; exact ⟨[], rfl, fun ds ts hs => by simpa using hs⟩
  | cons c cs ih =>
    rw [List.foldlM_cons] at h
    obtain ⟨l₁, h₁, h₂⟩ := Option.bind_eq_some_iff.mp h
    obtain ⟨us, hus⟩ := step?_finds h₁
    obtain ⟨us', hus'⟩ := ih h₂
    exact ⟨us ++ us', hus.trans hus'⟩

/-! ## The tokens of a text -/

def scan (tokens : List Token) (cs : List CodeUnit) : Option Lexer :=
  (cs.foldlM Lexer.step? ⟨tokens, .none⟩).bind Lexer.flush?

theorem tokens?_eq (cs : List CodeUnit) : tokens? cs = (scan [] cs).map fun l => l.tokens.reverse := by
  unfold tokens? scan Lexer.start
  cases cs.foldlM Lexer.step? ⟨[], .none⟩ with
  | none => rfl
  | some l => cases h : l.flush? <;> simp [h]

theorem spelled_of_tokens? {cs : List CodeUnit} {ts : List Token} (h : tokens? cs = some ts) : Spelled cs ts := by
  rw [tokens?_eq] at h
  obtain ⟨l, hl, rfl⟩ := Option.map_eq_some_iff.mp h
  obtain ⟨l₁, h₁, h₂⟩ := Option.bind_eq_some_iff.mp hl
  obtain ⟨us, hus⟩ := foldlM_finds h₁
  obtain ⟨us', hus', hp⟩ := flush?_finds h₂
  obtain ⟨htokens, hspelled⟩ := hus.trans hus'
  have := hspelled [] [] (by rw [hp]; exact .nil blanks_nil)
  rw [htokens]
  simpa [pendingUnits] using this

/-! ## Texts one after the other -/

/-- The text is cut into these tokens, whatever tokens there are before it. -/
def Lexed (cs : List CodeUnit) (ts : List Token) : Prop :=
  ∀ tokens, scan tokens cs = some ⟨ts.reverse ++ tokens, .none⟩

def Ends (cs : List CodeUnit) : Prop :=
  ∀ c ∈ cs.head?, ¬ IsBare c

theorem ends_nil : Ends [] := by
  intro c hc; cases hc

theorem ends_cons {c : CodeUnit} (cs : List CodeUnit) (h : ¬ IsBare c) : Ends (c :: cs) := by
  intro d hd; cases hd; exact h

theorem not_bare_of_blank {c : CodeUnit} (h : IsBlank c) : ¬ IsBare c := by
  rcases h with rfl | rfl | rfl | rfl <;> decide

theorem ends_blanks {a cs : List CodeUnit} (ha : Blanks a) (hcs : Ends cs) : Ends (a ++ cs) := by
  cases a with
  | nil => exact hcs
  | cons c a => exact ends_cons _ (not_bare_of_blank (ha c (by simp)))

theorem step?_flush {l l' : Lexer} {c : CodeUnit} (h : l.flush? = some l') (hc : ¬ IsBare c) :
    l.step? c = l'.step? c := by
  obtain ⟨tokens, pending⟩ := l
  cases pending with
  | none => cases h; rfl
  | bare word =>
    obtain ⟨t, ht, rfl⟩ := Option.map_eq_some_iff.mp h
    simp [Lexer.step?, Lexer.flush?, hc, ht]
  | text body escaped => cases h

/-- Texts that are cut one by one are cut alike in a row, unless a word goes on from one into the next. -/
theorem Lexed.append {cs ds : List CodeUnit} {ts us : List Token} (h : Lexed cs ts) (h' : Lexed ds us) (hd : Ends ds) :
    Lexed (cs ++ ds) (ts ++ us) := by
  intro tokens
  obtain ⟨l, hl, hflush⟩ := Option.bind_eq_some_iff.mp (h tokens)
  have hrest := h' (ts.reverse ++ tokens)
  rw [List.reverse_append, List.append_assoc, ← hrest]
  unfold scan
  rw [List.foldlM_append, hl]
  cases ds with
  | nil =>
    have : (⟨ts.reverse ++ tokens, .none⟩ : Lexer).flush? = some ⟨ts.reverse ++ tokens, .none⟩ := rfl
    simp [hflush, this]
  | cons c ds =>
    simp only [Option.bind_eq_bind, Option.bind_some, List.foldlM_cons]
    -- the next unit is in no word, so it closes the last token just as the end of the text does
    rw [step?_flush hflush (hd c rfl)]

theorem lexed_nil : Lexed [] [] := by
  intro tokens; rfl

theorem scan_outside {tokens tokens' : List Token} {c : CodeUnit} {cs : List CodeUnit} (hb : ¬ IsBare c)
    (h : Lexer.outside? ⟨tokens, .none⟩ c = some ⟨tokens', .none⟩) : scan tokens (c :: cs) = scan tokens' cs := by
  have hs : Lexer.step? ⟨tokens, .none⟩ c = some ⟨tokens', .none⟩ := by
    rw [← h]; simp [Lexer.step?, hb]
  simp [scan, hs]

theorem Lexed.blanks {a cs : List CodeUnit} {ts : List Token} (ha : Blanks a) (h : Lexed cs ts) :
    Lexed (a ++ cs) ts := by
  intro tokens
  induction a with
  | nil => exact h tokens
  | cons c a ih =>
    have hc := ha c (by simp)
    have hs : Lexer.outside? ⟨tokens, .none⟩ c = some ⟨tokens, .none⟩ := by simp [Lexer.outside?, hc]
    rw [List.cons_append, scan_outside (not_bare_of_blank hc) hs]
    exact ih fun d hd => ha d (by simp [hd])

def marks : List CodeUnit :=
  ['\x7b'.unit, '\x7d'.unit, '['.unit, ']'.unit, ','.unit, ':'.unit]

theorem mem_marks {u : CodeUnit} {t : Token} (h : Token.punctuation? u = some t) : u ∈ marks := by
  have hunit : ∀ c, u.char = c → c ≠ '\x00' → c.unit = u := by
    rintro c rfl hc
    exact CodeUnit.unit_char hc
  unfold Token.punctuation? at h
  split at h <;> rename_i hc <;> first | (rw [← hunit _ hc (by decide)]; decide) | cases h

theorem not_bare_of_punctuation {u : CodeUnit} {t : Token} (h : Token.punctuation? u = some t) :
    ¬ IsBare u ∧ ¬ IsBlank u ∧ u ≠ '"'.unit := by
  have hall : ∀ u ∈ marks, ¬ IsBare u ∧ ¬ IsBlank u ∧ u ≠ '"'.unit := by decide
  exact hall u (mem_marks h)

theorem Lexed.punctuation {c : CodeUnit} {t : Token} {cs : List CodeUnit} {ts : List Token}
    (hc : Token.punctuation? c = some t) (h : Lexed cs ts) : Lexed (c :: cs) (t :: ts) := by
  intro tokens
  obtain ⟨hbare, hblank, hquote⟩ := not_bare_of_punctuation hc
  have hs : Lexer.outside? ⟨tokens, .none⟩ c = some ⟨t :: tokens, .none⟩ := by
    simp [Lexer.outside?, hblank, hquote, hc]
  rw [scan_outside hbare hs, h (t :: tokens)]
  simp

/-! ## Bare words -/

theorem foldlM_bare {tokens : List Token} {cs word : List CodeUnit} (h : ∀ c ∈ cs, IsBare c) :
    cs.foldlM Lexer.step? ⟨tokens, .bare word⟩ = some ⟨tokens, .bare (cs.reverse ++ word)⟩ := by
  induction cs generalizing word with
  | nil => rfl
  | cons c cs ih =>
    have hc := h c (by simp)
    have hs : Lexer.step? ⟨tokens, .bare word⟩ c = some ⟨tokens, .bare (c :: word)⟩ := by simp [Lexer.step?, hc]
    rw [List.foldlM_cons, hs]
    have hrest := @ih (c :: word) fun d hd => h d (by simp [hd])
    simpa using hrest

theorem lexed_bare {w : List CodeUnit} {t : Token} (hne : w ≠ []) (hw : ∀ c ∈ w, IsBare c)
    (h : Token.bare? w = some t) : Lexed w [t] := by
  intro tokens
  cases w with
  | nil => exact absurd rfl hne
  | cons c w =>
    have hs : Lexer.step? ⟨tokens, .none⟩ c = some ⟨tokens, .bare [c]⟩ := by
      simp [Lexer.step?, hw c (by simp)]
    have hrest : w.foldlM Lexer.step? ⟨tokens, .bare [c]⟩ = some ⟨tokens, .bare (w.reverse ++ [c])⟩ :=
      foldlM_bare fun d hd => hw d (List.mem_cons_of_mem _ hd)
    simp [scan, hs, hrest, Lexer.flush?, h]

theorem Number.head {cs : List Char} {n : Numeral} (h : Number cs n) :
    ∃ c rest, cs = c :: rest ∧ (c.isDigit ∨ c = '-') := by
  cases h with
  | unsigned hw _ _ =>
    cases hw with
    | zero => exact ⟨_, _, rfl, .inl (by decide)⟩
    | positive hc _ _ => exact ⟨_, _, rfl, .inl hc⟩
  | minus _ _ _ => exact ⟨_, _, rfl, .inr rfl⟩

theorem bare?_of_number {cs : List Char} {n : Numeral} (h : Number cs n) :
    Token.bare? (Text.encode cs) = some (.number n.toBinary64) := by
  have hword : ∀ {d : Char} {ds : List Char}, d.isDigit = false → d ≠ '-' → Text.encode cs ≠ Text.encode (d :: ds) := by
    intro d ds hd hm heq
    obtain ⟨c, rest, hcs, hc⟩ := h.head
    rw [Text.encode_inj, hcs] at heq
    obtain rfl := (List.cons.inj heq).1
    simp [hd, hm] at hc
  rw [Token.bare?, if_neg (hword (by decide) (by decide)), if_neg (hword (by decide) (by decide)),
    if_neg (hword (by decide) (by decide)), map_char_encode h.bare, ofChars?_iff.mpr h]
  rfl

theorem lexed_number {cs : List Char} {n : Numeral} (h : Number cs n) :
    Lexed (Text.encode cs) [.number n.toBinary64] := by
  refine lexed_bare ?_ (bare_encode h.bare) (bare?_of_number h)
  obtain ⟨c, rest, rfl, -⟩ := h.head
  rw [encode_bare h.bare]
  exact List.cons_ne_nil _ _

/-! ## Strings -/

/-- Inside a string only the quote and the backslash do more than go into its body. -/
theorem foldlM_plain {tokens : List Token} {cs body : List CodeUnit} (h : ∀ c ∈ cs, c ≠ '"'.unit ∧ c ≠ '\\'.unit) :
    cs.foldlM Lexer.step? ⟨tokens, .text body false⟩ = some ⟨tokens, .text (cs.reverse ++ body) false⟩ := by
  induction cs generalizing body with
  | nil => rfl
  | cons c cs ih =>
    obtain ⟨hc, hcs⟩ := List.forall_mem_cons.mp h
    have hs : Lexer.step? ⟨tokens, .text body false⟩ c = some ⟨tokens, .text (c :: body) false⟩ := by
      simp [Lexer.step?, hc]
    rw [List.foldlM_cons, hs, Option.bind_eq_bind, Option.bind_some, ih hcs, List.reverse_cons, List.append_assoc,
      List.singleton_append]

theorem HexDigit.plain {u : CodeUnit} {v : Nat} (h : HexDigit u v) : u ≠ '"'.unit ∧ u ≠ '\\'.unit := by
  have hall : ∀ v < 16, (v.digitChar.unit ≠ '"'.unit ∧ v.digitChar.unit ≠ '\\'.unit) ∧
      (v.digitChar.toUpper.unit ≠ '"'.unit ∧ v.digitChar.toUpper.unit ≠ '\\'.unit) := by decide
  obtain ⟨hv, hu | hu⟩ := h
  · rw [hu]; exact (hall v hv).1
  · rw [hu]; exact (hall v hv).2

theorem foldlM_code {tokens : List Token} {cs body : List CodeUnit} {u : CodeUnit} (h : Code cs u) :
    cs.foldlM Lexer.step? ⟨tokens, .text body false⟩ = some ⟨tokens, .text (cs.reverse ++ body) false⟩ := by
  cases h with
  | plain _ hq hs => exact foldlM_plain (List.forall_mem_singleton.mpr ⟨hq, hs⟩)
  | escape _ => rfl
  | @hex a b c d _ _ _ _ _ ha hb hc hd _ =>
    have hdigits : ∀ e ∈ [a, b, c, d], e ≠ '"'.unit ∧ e ≠ '\\'.unit := by
      simp only [List.forall_mem_cons]
      exact ⟨ha.plain, hb.plain, hc.plain, hd.plain, List.forall_mem_nil _⟩
    show List.foldlM Lexer.step? _ [_, _, _, _] = _
    rw [foldlM_plain hdigits]
    simp

theorem foldlM_codes {tokens : List Token} {cs body us : List CodeUnit} (h : Codes cs us) :
    cs.foldlM Lexer.step? ⟨tokens, .text body false⟩ = some ⟨tokens, .text (cs.reverse ++ body) false⟩ := by
  induction h generalizing body with
  | nil => rfl
  | cons hu _ ih =>
    rw [List.foldlM_append, foldlM_code hu, Option.bind_eq_bind, Option.bind_some, ih, List.reverse_append,
      List.append_assoc]

theorem lexed_literal {cs : List CodeUnit} {s : Text} (h : Literal cs s) : Lexed cs [.string s] := by
  intro tokens
  cases h with
  | @quoted body us hcodes =>
    have hopen : Lexer.step? ⟨tokens, .none⟩ '"'.unit = some ⟨tokens, .text [] false⟩ := rfl
    have hclose : Lexer.step? ⟨tokens, .text (body.reverse ++ []) false⟩ '"'.unit =
        some ⟨.string (.ofList us) :: tokens, .none⟩ := by simp [Lexer.step?, unescape?_iff.mpr hcodes]
    unfold scan
    rw [List.cons_append, List.foldlM_cons, hopen, Option.bind_eq_bind, Option.bind_some, List.foldlM_append,
      foldlM_codes hcodes, Option.bind_eq_bind, Option.bind_some, List.foldlM_cons, hclose]
    rfl

end NetDiagram.Grammar
