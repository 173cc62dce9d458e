/-!
# Quoted strings

A string is written between quotation marks, with an escape in place of each quotation mark,
backslash and control character. A string that is read is first cut into pieces: characters, escaped
units of 16 bits, and bytes that belong to no character. Its content is known only if there are no
such bytes and every unit of a surrogate pair has its counterpart.
-/

namespace LiftedPlanning

namespace Json

/-- A piece of a string that is read. -/
inductive Piece where
  | char (c : Char)
  /-- An escaped unit of 16 bits. -/
  | unit (code : Nat)
  /-- A byte that belongs to no character. -/
  | illFormed
deriving DecidableEq

namespace Piece

/-- Whether a unit is the first one of a surrogate pair. -/
def isLeading (code : Nat) : Bool := decide (0xd800 ≤ code) && decide (code < 0xdc00)

def isTrailing (code : Nat) : Bool := decide (0xdc00 ≤ code) && decide (code < 0xe000)

def pairChar (leading trailing : Nat) : Char :=
  Char.ofNat (0x10000 + (leading - 0xd800) * 0x400 + (trailing - 0xdc00))

def content? : List Piece → Option (List Char)
  | [] => some []
  | char c :: ps => (content? ps).map (c :: ·)
  | illFormed :: _ => none
  | unit u :: unit v :: ps =>
    if isLeading u then
      if isTrailing v then (content? ps).map (pairChar u v :: ·) else none
    else if isTrailing u then none
    else (content? (unit v :: ps)).map (Char.ofNat u :: ·)
  | unit u :: ps =>
    if isLeading u || isTrailing u then none else (content? ps).map (Char.ofNat u :: ·)

end Piece

def shortEscapes : List (Char × Char) :=
  [('"', '"'), ('\\', '\\'), ('/', '/'), ('b', '\x08'), ('f', '\x0c'), ('n', '\n'), ('r', '\r'),
    ('t', '\t')]

def unescape? (letter : Char) : Option Char :=
  (shortEscapes.find? fun e => e.1 = letter).map Prod.snd

def hexDigit? (c : Char) : Option Nat :=
  if '0' ≤ c ∧ c ≤ '9' then some (c.toNat - '0'.toNat)
  else if 'a' ≤ c ∧ c ≤ 'f' then some (c.toNat - 'a'.toNat + 10)
  else if 'A' ≤ c ∧ c ≤ 'F' then some (c.toNat - 'A'.toNat + 10)
  else none

/-- The written form of a character of a string. A solidus needs no escape. -/
def escape (c : Char) : List Char :=
  match shortEscapes.find? fun e => e.2 = c ∧ c ≠ '/' with
  | some e => ['\\', e.1]
  | none =>
    if c.toNat < 0x20 then
      ['\\', 'u', '0', '0', Nat.digitChar (c.toNat / 16), Nat.digitChar (c.toNat % 16)]
    else [c]

def quoted (s : String) : String := "\"" ++ String.ofList (s.toList.flatMap escape) ++ "\""

def arrayText (items : List String) : String := "[" ++ String.intercalate "," items ++ "]"

def objectText (members : List (String × String)) : String :=
  "\x7b" ++ String.intercalate "," (members.map fun m => quoted m.1 ++ ":" ++ m.2) ++ "\x7d"

def boolText (b : Bool) : String := if b then "true" else "false"

end Json

end LiftedPlanning
