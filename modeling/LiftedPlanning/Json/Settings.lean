import LiftedPlanning.Json.Format
import LiftedPlanning.Search.Space

/-!
# The JSON form of search settings

Settings are a record whose fields have defaults: `max_expansions`, a number of 64 bits or null, and
`tie_break`, which is `fifo` or `lifo`. A document that is blank holds the default settings.
-/

namespace LiftedPlanning

namespace TieBreak

def name : TieBreak → String
  | oldest => "fifo"
  | newest => "lifo"

def ofName? : String → Option TieBreak
  | "fifo" => some oldest
  | "lifo" => some newest
  | _ => none

/-- A tie break is given by its name, alone or as a choice that comes with null. -/
def ofValue? (v : Json.Value) : Option TieBreak :=
  match v.choice? with
  | some (name, .null) => ofName? name
  | some _ => none
  | none => v.string?.bind ofName?

end TieBreak

namespace SearchSettings

/-- The limit of expansions that a value gives; null gives none. -/
def limitOfValue? : Json.Value → Option (Option Nat)
  | .null => some none
  | v => (v.natural? 0x10000000000000000).map some

def ofFields? (maxExpansions tieBreak : Option Json.Value) : Option SearchSettings := do
  let maxExpansions ← maxExpansions.elim (some default.maxExpansions) limitOfValue?
  let tieBreak ← tieBreak.elim (some default.tieBreak) TieBreak.ofValue?
  return ⟨maxExpansions, tieBreak⟩

instance : Form Json.format SearchSettings where
  value s := Json.Value.object
    [(some "max_expansions", s.maxExpansions.elim .null fun n => .number (some n)),
      (some "tie_break", .string (some s.tieBreak.name))]
  ofValue? v :=
    match Json.Value.fields? ["max_expansions", "tie_break"] v with
    | some [maxExpansions, tieBreak] => ofFields? maxExpansions tieBreak
    | _ => none

/-- Whether a byte is an ASCII space, tab, line feed, form feed or carriage return. -/
def isBlankByte (b : UInt8) : Bool := b ∈ [0x20, 0x09, 0x0a, 0x0c, 0x0d]

def ofBytes? (bytes : ByteArray) : Option SearchSettings :=
  if bytes.data.all isBlankByte then some default
  else (Json.Value.read? (Text.ofBytes bytes)).bind (Form.ofValue? (F := Json.format))

end SearchSettings

end LiftedPlanning
