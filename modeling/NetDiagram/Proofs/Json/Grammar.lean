import NetDiagram.Json.Parser
import NetDiagram.Proofs.Numeric.Nearest

/-!
# The grammar of JSON texts

What a text spells, rule by rule and without an order of reading. A number is
the one nearest to what its digits denote. An object keeps every key once, at
its first place and with its last value. A string is the units that are spelled
in it, and an escaped surrogate is a unit like any other.
-/

namespace NetDiagram

/-- Each key of the pairs once, in the order of first occurrence and with the value of the last one. -/
structure Members.LastWins {α : Type} (pairs : List (Text × α)) (members : Members α) : Prop where
  keys : members.map Prod.fst = (pairs.map Prod.fst).eraseDups
  values : ∀ key, Members.get? key members = Members.get? key pairs.reverse

namespace Grammar

open Json

/-! ## Numbers -/

def Digits (cs : List Char) : Prop :=
  cs ≠ [] ∧ ∀ c ∈ cs, c.isDigit

inductive Whole : List Char → Prop
  | zero : Whole ['0']
  | positive {c : Char} {cs : List Char} : c.isDigit → c ≠ '0' → (∀ d ∈ cs, d.isDigit) → Whole (c :: cs)

inductive Fraction : List Char → List Char → Prop
  | absent : Fraction [] []
  | digits {ds : List Char} : Digits ds → Fraction ('.' :: ds) ds

inductive Exponent : List Char → Int → Prop
  | absent : Exponent [] 0
  | unsigned {e : Char} {ds : List Char} : e = 'e' ∨ e = 'E' → Digits ds → Exponent (e :: ds) (Numeral.value ds)
  | plus {e : Char} {ds : List Char} : e = 'e' ∨ e = 'E' → Digits ds → Exponent (e :: '+' :: ds) (Numeral.value ds)
  | minus {e : Char} {ds : List Char} : e = 'e' ∨ e = 'E' → Digits ds → Exponent (e :: '-' :: ds) (-Numeral.value ds)

inductive Number : List Char → Numeral → Prop
  | unsigned {w f ds x : List Char} {e : Int} : Whole w → Fraction f ds → Exponent x e →
      Number (w ++ f ++ x) ⟨false, w, ds, e⟩
  | minus {w f ds x : List Char} {e : Int} : Whole w → Fraction f ds → Exponent x e →
      Number ('-' :: (w ++ f ++ x)) ⟨true, w, ds, e⟩

def magnitude (n : Numeral) : ℚ :=
  (Numeral.value n.whole + Numeral.value n.fraction / 10 ^ n.fraction.length) * 10 ^ n.exponent

/-! ## Strings -/

def HexDigit (u : CodeUnit) (v : Nat) : Prop :=
  v < 16 ∧ (u = v.digitChar.unit ∨ u = v.digitChar.toUpper.unit)

def escapes : List (Char × Char) :=
  [('"', '"'), ('\\', '\\'), ('/', '/'), ('b', '\x08'), ('f', '\x0c'), ('n', '\n'), ('r', '\r'), ('t', '\t')]

inductive Code : List CodeUnit → CodeUnit → Prop
  | plain {u : CodeUnit} : 32 ≤ u.code → u ≠ '"'.unit → u ≠ '\\'.unit → Code [u] u
  | escape {c d : Char} : (c, d) ∈ escapes → Code ['\\'.unit, c.unit] d.unit
  | hex {a b c d u : CodeUnit} {i j k l : Nat} : HexDigit a i → HexDigit b j → HexDigit c k → HexDigit d l →
      u.code = 4096 * i + 256 * j + 16 * k + l → Code ['\\'.unit, 'u'.unit, a, b, c, d] u

inductive Codes : List CodeUnit → List CodeUnit → Prop
  | nil : Codes [] []
  | cons {us cs vs : List CodeUnit} {u : CodeUnit} : Code us u → Codes cs vs → Codes (us ++ cs) (u :: vs)

inductive Literal : List CodeUnit → Text → Prop
  | quoted {body us : List CodeUnit} : Codes body us → Literal ('"'.unit :: body ++ ['"'.unit]) (.ofList us)

/-! ## Values -/

def Blanks (cs : List CodeUnit) : Prop :=
  ∀ c ∈ cs, IsBlank c

mutual

inductive Value : List CodeUnit → Json → Prop
  | null : Value (Text.encode ['n', 'u', 'l', 'l']) .null
  | true : Value (Text.encode ['t', 'r', 'u', 'e']) (.bool true)
  | false : Value (Text.encode ['f', 'a', 'l', 's', 'e']) (.bool false)
  | number {cs : List Char} {n : Numeral} {x : Binary64} : Number cs n → x.IsNearest n.negative (magnitude n) →
      Value (Text.encode cs) (.number x)
  | string {cs : List CodeUnit} {s : Text} : Literal cs s → Value cs (.string s)
  | emptyArray {a : List CodeUnit} : Blanks a → Value ('['.unit :: a ++ [']'.unit]) (.array [])
  | array {cs : List CodeUnit} {vs : List Json} : Elements cs vs → Value ('['.unit :: cs ++ [']'.unit]) (.array vs)
  | emptyObject {a : List CodeUnit} : Blanks a → Value ('\x7b'.unit :: a ++ ['\x7d'.unit]) (.object [])
  | object {cs : List CodeUnit} {pairs : List (Text × Json)} {members : List (Text × Json)} : Pairs cs pairs →
      Members.LastWins pairs members → Value ('\x7b'.unit :: cs ++ ['\x7d'.unit]) (.object members)

inductive Elements : List CodeUnit → List Json → Prop
  | one {a cs b : List CodeUnit} {v : Json} : Blanks a → Value cs v → Blanks b → Elements (a ++ cs ++ b) [v]
  | more {a cs b ds : List CodeUnit} {v : Json} {vs : List Json} : Blanks a → Value cs v → Blanks b → Elements ds vs →
      Elements (a ++ cs ++ b ++ ','.unit :: ds) (v :: vs)

inductive Pairs : List CodeUnit → List (Text × Json) → Prop
  | one {a ks b c cs d : List CodeUnit} {k : Text} {v : Json} : Blanks a → Literal ks k → Blanks b → Blanks c →
      Value cs v → Blanks d → Pairs (a ++ ks ++ b ++ ':'.unit :: (c ++ cs ++ d)) [(k, v)]
  | more {a ks b c cs d ds : List CodeUnit} {k : Text} {v : Json} {pairs : List (Text × Json)} : Blanks a →
      Literal ks k → Blanks b → Blanks c → Value cs v → Blanks d → Pairs ds pairs →
      Pairs (a ++ ks ++ b ++ ':'.unit :: (c ++ cs ++ d ++ ','.unit :: ds)) ((k, v) :: pairs)

end

inductive Document : List CodeUnit → Json → Prop
  | value {a cs b : List CodeUnit} {v : Json} : Blanks a → Value cs v → Blanks b → Document (a ++ cs ++ b) v

end Grammar

end NetDiagram
