import NetDiagram.Json.Numeral
import NetDiagram.Json.Quoted

/-!
# Tokens of a JSON text

A text is cut into tokens by a machine that takes one unit at a time. A run
of letters, digits, signs and points is one bare word and has to be a
numeral or one of the three names.
-/

namespace NetDiagram.Json

inductive Token
  | openBrace
  | closeBrace
  | openBracket
  | closeBracket
  | comma
  | colon
  | null
  | bool (value : Bool)
  | number (value : Binary64)
  | string (value : Text)
  deriving DecidableEq

def IsBlank (u : CodeUnit) : Prop :=
  u = ' '.unit ∨ u = '\t'.unit ∨ u = '\n'.unit ∨ u = '\r'.unit

instance (u : CodeUnit) : Decidable (IsBlank u) :=
  inferInstanceAs (Decidable (_ ∨ _))

def IsBare (u : CodeUnit) : Prop :=
  u.char.isAlphanum ∨ u = '-'.unit ∨ u = '+'.unit ∨ u = '.'.unit

instance (u : CodeUnit) : Decidable (IsBare u) :=
  inferInstanceAs (Decidable (_ ∨ _))

namespace Token

def punctuation? (u : CodeUnit) : Option Token :=
  match u.char with
  | '\x7b' => some .openBrace
  | '\x7d' => some .closeBrace
  | '[' => some .openBracket
  | ']' => some .closeBracket
  | ',' => some .comma
  | ':' => some .colon
  | _ => none

def bare? (word : List CodeUnit) : Option Token :=
  if word = Text.encode ['n', 'u', 'l', 'l'] then some .null
  else if word = Text.encode ['t', 'r', 'u', 'e'] then some (.bool true)
  else if word = Text.encode ['f', 'a', 'l', 's', 'e'] then some (.bool false)
  else (Numeral.ofChars? (word.map CodeUnit.char)).map fun n => .number n.toBinary64

end Token

/-- The token under way, with its units in reverse. -/
inductive Pending
  | none
  | bare (word : List CodeUnit)
  | text (body : List CodeUnit) (escaped : Bool)

/-- The tokens found so far, in reverse, and the one under way. -/
structure Lexer where
  tokens : List Token
  pending : Pending

namespace Lexer

def start : Lexer :=
  ⟨[], .none⟩

def flush? (l : Lexer) : Option Lexer :=
  match l.pending with
  | .none => some l
  | .bare word => (Token.bare? word.reverse).map fun t => ⟨t :: l.tokens, .none⟩
  | .text .. => none

def outside? (l : Lexer) (u : CodeUnit) : Option Lexer :=
  if IsBlank u then some l
  else if u = '"'.unit then some { l with pending := .text [] false }
  else (Token.punctuation? u).map fun t => { l with tokens := t :: l.tokens }

def step? (l : Lexer) (u : CodeUnit) : Option Lexer :=
  match l.pending with
  | .text body true => some { l with pending := .text (u :: body) false }
  | .text body false =>
    if u = '"'.unit then (Quoted.unescape? body.reverse).map fun us => ⟨.string (.ofList us) :: l.tokens, .none⟩
    else some { l with pending := .text (u :: body) (u = '\\'.unit) }
  | .bare word =>
    if IsBare u then some { l with pending := .bare (u :: word) } else l.flush?.bind (·.outside? u)
  | .none =>
    if IsBare u then some { l with pending := .bare [u] } else l.outside? u

end Lexer

def tokens? (us : List CodeUnit) : Option (List Token) := do
  let l ← us.foldlM Lexer.step? Lexer.start
  let l ← l.flush?
  return l.tokens.reverse

end NetDiagram.Json
