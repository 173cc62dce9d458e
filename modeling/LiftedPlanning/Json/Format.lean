import LiftedPlanning.Format.Basic
import LiftedPlanning.Json.Value

/-!
# JSON as a data format

A record is an object with known keys, or an array of its fields in their order. Other keys are
ignored, but a known key may not be repeated. A choice is an object with one member, whose key names
the alternative.
-/

namespace LiftedPlanning

namespace Json

namespace Value

def string? : Value → Option String
  | string content => content
  | _ => none

def bool? : Value → Option Bool
  | bool b => some b
  | _ => none

/-- A number that is written with digits alone and is less than a limit. -/
def natural? (limit : Nat) : Value → Option Nat
  | number natural => natural.filter fun n => n < limit
  | _ => none

def array? : Value → Option (List Value)
  | array items => some items
  | _ => none

/-- The fields with the given keys that are there, in the order of the keys. -/
def fields? (keys : List String) : Value → Option (List (Option Value))
  | array items =>
    if items.length ≤ keys.length then
      some (items.map some ++ List.replicate (keys.length - items.length) none)
    else none
  | object members =>
    if members.all (fun m => m.1.isSome) ∧
        keys.all (fun k => members.countP (fun m => m.1 = some k) ≤ 1) then
      some (keys.map fun k => (members.find? fun m => m.1 = some k).map Prod.snd)
    else none
  | _ => none

def record? (keys : List String) (v : Value) : Option (List Value) :=
  (v.fields? keys).bind fun fields => fields.mapM id

def choice? : Value → Option (String × Value)
  | object [(some name, v)] => some (name, v)
  | _ => none

def member (field : String × Value) : Option String × Value := (some field.1, field.2)

end Value

def format : DataFormat where
  Value := Value
  text := Value.text
  read? text := Value.read? (Text.ofString text)
  string s := .string (some s)
  string? := Value.string?
  bool := .bool
  bool? := Value.bool?
  word n := .number (some n)
  word? := Value.natural? UInt32.size
  list := .array
  list? := Value.array?
  record fields := .object (fields.map Value.member)
  record? := Value.record?
  choice name v := .object [Value.member (name, v)]
  choice? := Value.choice?

end Json

end LiftedPlanning
