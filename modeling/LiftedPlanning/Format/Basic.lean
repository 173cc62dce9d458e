import LiftedPlanning.Sorted.Set

/-!
# Data formats

A data format writes values as texts and reads texts as values. Values are strings, truth values,
words of 32 bits, lists, records with named fields, and choices, in which the name of an alternative
comes with a value. What a format looks like is left open. All that is relied on is that values are
told apart by their kind and their parts, and that a text that was written for a value is read as
this value (`DataFormat.Lawful`).

A type with a form is an instance of `Form`.
-/

namespace LiftedPlanning

/-- A data format. A text need not hold a value, and a value need not be of the kind that is asked
for. -/
structure DataFormat where
  Value : Type
  text : Value → String
  read? : String → Option Value
  string : String → Value
  string? : Value → Option String
  bool : Bool → Value
  bool? : Value → Option Bool
  word : Nat → Value
  word? : Value → Option Nat
  list : List Value → Value
  list? : Value → Option (List Value)
  record : List (String × Value) → Value
  /-- The values of the fields with the given names, all of which have to be there. -/
  record? : List String → Value → Option (List Value)
  choice : String → Value → Value
  choice? : Value → Option (String × Value)

/-- A type with a form: the value that stands for an element, and the element for which a value
stands. -/
class Form (F : DataFormat) (α : Type) where
  value : α → F.Value
  ofValue? : F.Value → Option α

namespace DataFormat

/-- The values without words. The fields of a record have different names. -/
inductive Plain (F : DataFormat) : F.Value → Prop where
  | string (s : String) : Plain F (F.string s)
  | bool (b : Bool) : Plain F (F.bool b)
  | list {vs : List F.Value} (hvs : ∀ v ∈ vs, Plain F v) : Plain F (F.list vs)
  | record {fields : List (String × F.Value)} (hnames : (fields.map Prod.fst).Nodup)
    (hfields : ∀ e ∈ fields, Plain F e.2) : Plain F (F.record fields)
  | choice {name : String} {v : F.Value} (hv : Plain F v) : Plain F (F.choice name v)

/-- What is relied on of a format. A word is read if it is all that is written. -/
class Lawful (F : DataFormat) : Prop where
  read?_text : ∀ {v : F.Value}, F.Plain v → F.read? (F.text v) = some v
  read?_text_word : ∀ {n : Nat}, n < UInt32.size → F.read? (F.text (F.word n)) = some (F.word n)
  string?_string : ∀ s : String, F.string? (F.string s) = some s
  bool?_bool : ∀ b : Bool, F.bool? (F.bool b) = some b
  word?_word : ∀ {n : Nat}, n < UInt32.size → F.word? (F.word n) = some n
  list?_list : ∀ vs : List F.Value, F.list? (F.list vs) = some vs
  record?_record : ∀ fields : List (String × F.Value), (fields.map Prod.fst).Nodup →
    F.record? (fields.map Prod.fst) (F.record fields) = some (fields.map Prod.snd)
  choice?_choice : ∀ (name : String) (v : F.Value),
    F.choice? (F.choice name v) = some (name, v)

variable (F : DataFormat) {α : Type} [Form F α]

def write (a : α) : String := F.text (Form.value a)

def parse? (text : String) : Option α := (F.read? text).bind Form.ofValue?

end DataFormat

namespace Form

variable {F : DataFormat} {α : Type} [Form F α]

instance : Form F String := ⟨F.string, F.string?⟩

instance : Form F Bool := ⟨F.bool, F.bool?⟩

instance : Form F (List α) where
  value as := F.list (as.map value)
  ofValue? v := (F.list? v).bind fun vs => vs.mapM ofValue?

/-- A set is written as the list of its members. They may be read in any order and repeatedly. -/
instance [Ord α] [Std.LawfulEqOrd α] [Std.TransOrd α] : Form F (SortedSet α) where
  value s := value s.toList
  ofValue? v := (ofValue? v).map SortedSet.ofList

end Form

end LiftedPlanning
