import LiftedPlanning.Json.Quoted
import LiftedPlanning.Text.Basic

/-!
# Tokens

The tokens of a JSON text, found by a scan that looks at one symbol at a time. Outside of strings
only characters of the grammar are admitted. The scan is strict: numbers have no leading zeros and
no plus sign, control characters in strings are escaped, and blanks are space, tab, line feed and
carriage return. What a string contains need not be known at this stage.
-/

namespace LiftedPlanning

namespace Json

open Text (Symbol)

inductive Token where
  | beginObject
  | endObject
  | beginArray
  | endArray
  | colon
  | comma
  | null
  | bool (b : Bool)
  /-- A number, with its value if it is written with digits alone. -/
  | number (natural : Option Nat)
  /-- A string, with its content if that is known. -/
  | string (content : Option String)
deriving DecidableEq

/-- How far a number has been read. -/
inductive NumberPart where
  | sign
  | zero
  | integer
  | point
  | fraction
  | exponent
  | exponentSign
  | exponentDigits
deriving DecidableEq

namespace NumberPart

def isFinal : NumberPart → Bool
  | zero | integer | fraction | exponentDigits => true
  | sign | point | exponent | exponentSign => false

def next? (part : NumberPart) (c : Char) : Option NumberPart :=
  let digit := c.isDigit
  let mark := c = 'e' ∨ c = 'E'
  match part with
  | sign => if c = '0' then some zero else if digit then some integer else none
  | zero => if c = '.' then some point else if mark then some exponent else none
  | integer =>
    if digit then some integer
    else if c = '.' then some point
    else if mark then some exponent
    else none
  | point => if digit then some fraction else none
  | fraction => if digit then some fraction else if mark then some exponent else none
  | exponent =>
    if c = '+' ∨ c = '-' then some exponentSign else if digit then some exponentDigits else none
  | exponentSign => if digit then some exponentDigits else none
  | exponentDigits => if digit then some exponentDigits else none

end NumberPart

/-- What the scan is in the middle of. -/
inductive Mode where
  | between
  /-- A name of which some characters are still to come. -/
  | word (rest : List Char) (token : Token)
  | number (part : NumberPart) (natural : Option Nat)
  /-- A string, with its pieces so far in reverse. -/
  | string (pieces : List Piece)
  /-- A string, after a backslash. -/
  | escape (pieces : List Piece)
  /-- A string, in an escaped unit of which some digits are missing. -/
  | unit (pieces : List Piece) (missing code : Nat)

structure Scan where
  mode : Mode
  tokens : List Token

namespace Scan

def emit (tokens : List Token) (t : Token) : Scan := ⟨.between, t :: tokens⟩

/-- Scans a character that stands between tokens or begins one. -/
def begin? (tokens : List Token) (c : Char) : Option Scan :=
  match c with
  | ' ' | '\t' | '\n' | '\r' => some ⟨.between, tokens⟩
  | '\x7b' => some (emit tokens .beginObject)
  | '\x7d' => some (emit tokens .endObject)
  | '[' => some (emit tokens .beginArray)
  | ']' => some (emit tokens .endArray)
  | ':' => some (emit tokens .colon)
  | ',' => some (emit tokens .comma)
  | '"' => some ⟨.string [], tokens⟩
  | 'n' => some ⟨.word ['u', 'l', 'l'] .null, tokens⟩
  | 't' => some ⟨.word ['r', 'u', 'e'] (.bool true), tokens⟩
  | 'f' => some ⟨.word ['a', 'l', 's', 'e'] (.bool false), tokens⟩
  | '-' => some ⟨.number .sign none, tokens⟩
  | '0' => some ⟨.number .zero (some 0), tokens⟩
  | c => if c.isDigit then some ⟨.number .integer (some (c.toNat - '0'.toNat)), tokens⟩ else none

def extend (natural : Option Nat) (part : NumberPart) (c : Char) : Option Nat :=
  if part = .integer then natural.map fun n => 10 * n + (c.toNat - '0'.toNat) else none

def number? (tokens : List Token) (part : NumberPart) (natural : Option Nat) (c : Char) :
    Option Scan :=
  match part.next? c with
  | some next => some ⟨.number next (extend natural next c), tokens⟩
  | none => if part.isFinal then begin? (.number natural :: tokens) c else none

def string? (tokens : List Token) (pieces : List Piece) (c : Char) : Option Scan :=
  if c = '"' then
    some (emit tokens (.string ((Piece.content? pieces.reverse).map String.ofList)))
  else if c = '\\' then some ⟨.escape pieces, tokens⟩
  else if c.toNat < 0x20 then none
  else some ⟨.string (.char c :: pieces), tokens⟩

def step? (s : Scan) (x : Symbol) : Option Scan :=
  match s.mode, x with
  | .string pieces, none => some ⟨.string (.illFormed :: pieces), s.tokens⟩
  | _, none => none
  | .between, some c => begin? s.tokens c
  | .word [] _, some _ => none
  | .word [d] t, some c => if c = d then some (emit s.tokens t) else none
  | .word (d :: ds) t, some c => if c = d then some ⟨.word ds t, s.tokens⟩ else none
  | .number part natural, some c => number? s.tokens part natural c
  | .string pieces, some c => string? s.tokens pieces c
  | .escape pieces, some c =>
    if c = 'u' then some ⟨.unit pieces 4 0, s.tokens⟩
    else (unescape? c).map fun d => ⟨.string (.char d :: pieces), s.tokens⟩
  | .unit pieces missing code, some c =>
    (hexDigit? c).map fun d =>
      let code := 16 * code + d
      if missing ≤ 1 then ⟨.string (.unit code :: pieces), s.tokens⟩
      else ⟨.unit pieces (missing - 1) code, s.tokens⟩

/-- The tokens of a scan at whose end the text may end. -/
def finish? (s : Scan) : Option (List Token) :=
  match s.mode with
  | .between => some s.tokens.reverse
  | .number part natural =>
    if part.isFinal then some (Token.number natural :: s.tokens).reverse else none
  | .word _ _ => none
  | .string _ => none
  | .escape _ => none
  | .unit _ _ _ => none

end Scan

def tokens? (symbols : List Symbol) : Option (List Token) :=
  (symbols.foldlM Scan.step? ⟨.between, []⟩).bind Scan.finish?

end Json

end LiftedPlanning
