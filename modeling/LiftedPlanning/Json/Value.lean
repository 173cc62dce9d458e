import LiftedPlanning.Json.Token

/-!
# JSON values

A value is built from the tokens of a text, one after the other. What is still open is kept in a
stack, so values may be nested to any depth. Values are written without blanks.
-/

namespace LiftedPlanning

namespace Json

/-- A value as it is read. Of numbers only those written with digits alone are told apart, and the
content of a string need not be known. -/
inductive Value where
  | null
  | bool (b : Bool)
  | number (natural : Option Nat)
  | string (content : Option String)
  | array (items : List Value)
  | object (members : List (Option String × Value))
deriving Inhabited

/-- An array or object that is still open, with its items or members so far in reverse. -/
inductive Frame where
  | array (items : List Value)
  /-- An object, with the key whose value comes next. -/
  | object (members : List (Option String × Value)) (key : Option String)

/-- What may come next, inside of what is open. -/
inductive Build where
  | value (frames : List Frame)
  | valueOrEnd (frames : List Frame)
  | keyOrEnd (frames : List Frame)
  | key (members : List (Option String × Value)) (frames : List Frame)
  | colon (members : List (Option String × Value)) (key : Option String) (frames : List Frame)
  /-- A value is complete. -/
  | done (value : Value) (frames : List Frame)

namespace Build

def begin? (frames : List Frame) : Token → Option Build
  | .null => some (done .null frames)
  | .bool b => some (done (.bool b) frames)
  | .number natural => some (done (.number natural) frames)
  | .string content => some (done (.string content) frames)
  | .beginArray => some (valueOrEnd frames)
  | .beginObject => some (keyOrEnd frames)
  | _ => none

def continue? (v : Value) : List Frame → Token → Option Build
  | .array items :: frames, .comma => some (value (.array (v :: items) :: frames))
  | .array items :: frames, .endArray => some (done (.array (v :: items).reverse) frames)
  | .object members k :: frames, .comma => some (key ((k, v) :: members) frames)
  | .object members k :: frames, .endObject =>
    some (done (.object ((k, v) :: members).reverse) frames)
  | _, _ => none

def step? : Build → Token → Option Build
  | value frames, t => begin? frames t
  | valueOrEnd frames, .endArray => some (done (.array []) frames)
  | valueOrEnd frames, t => begin? (.array [] :: frames) t
  | keyOrEnd frames, .endObject => some (done (.object []) frames)
  | keyOrEnd frames, .string k => some (colon [] k frames)
  | key members frames, .string k => some (colon members k frames)
  | colon members k frames, .colon => some (value (.object members k :: frames))
  | done v frames, t => continue? v frames t
  | _, _ => none

def finish? : Build → Option Value
  | done v [] => some v
  | _ => none

end Build

namespace Value

def ofTokens? (tokens : List Token) : Option Value :=
  (tokens.foldlM Build.step? (.value [])).bind Build.finish?

def read? (symbols : List Text.Symbol) : Option Value := (tokens? symbols).bind ofTokens?

/-! ## Writing -/

mutual

/-- The text for a value. Numbers and strings that are not known are written as null. -/
def text : Value → String
  | null => "null"
  | bool b => boolText b
  | number natural => natural.elim "null" Nat.repr
  | string content => content.elim "null" quoted
  | array items => arrayText (texts items)
  | object members => objectText (memberTexts members)

def texts : List Value → List String
  | [] => []
  | v :: vs => v.text :: texts vs

def memberTexts : List (Option String × Value) → List (String × String)
  | [] => []
  | (key, v) :: members => (key.getD "", v.text) :: memberTexts members

end

end Value

end Json

end LiftedPlanning
