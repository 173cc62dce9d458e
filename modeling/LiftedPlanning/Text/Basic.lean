/-!
# Characters of texts and documents

Texts are trimmed by the property White_Space. A document that is given as bytes need not be
well-formed UTF-8. Its symbols are its characters and, between them, the bytes that belong to no
character. Every byte of the ASCII range is a character of its own, whatever stands around it.
-/

namespace LiftedPlanning

namespace Text

/-- The ranges of the property White_Space, first and last code point. -/
def blankRanges : List (Nat × Nat) :=
  [(0x09, 0x0d), (0x20, 0x20), (0x85, 0x85), (0xa0, 0xa0), (0x1680, 0x1680), (0x2000, 0x200a),
    (0x2028, 0x2029), (0x202f, 0x202f), (0x205f, 0x205f), (0x3000, 0x3000)]

def isBlank (c : Char) : Bool :=
  blankRanges.any fun r => r.1 ≤ c.toNat && c.toNat ≤ r.2

def trim (cs : List Char) : List Char :=
  ((cs.dropWhile isBlank).reverse.dropWhile isBlank).reverse

@[simp] theorem trim_nil : trim [] = [] := rfl

/-! ## Symbols of a document -/

/-- A character, or a byte that belongs to none. -/
abbrev Symbol := Option Char

def symbolsFrom (bytes : ByteArray) (i : Nat) : List Symbol :=
  if i < bytes.size then
    match bytes.utf8DecodeChar? i with
    | some c => some c :: symbolsFrom bytes (i + c.utf8Size)
    | none => none :: symbolsFrom bytes (i + 1)
  else []
termination_by bytes.size - i
decreasing_by
  · have := c.utf8Size_pos
    omega
  · omega

def ofBytes (bytes : ByteArray) : List Symbol := symbolsFrom bytes 0

def ofString (text : String) : List Symbol := text.toList.map some

end Text

end LiftedPlanning
