import Mathlib.Data.List.DropRight
import LiftedPlanning.Action.Schema

/-!
# Names of parameters

Where parameters are declared, blanks around a name and question marks in front of it do not count.
A name is kept as it stands exactly if there are none (`Action.parameterName_eq_self_iff`), and
becomes shorter otherwise. A schema that declares its variables and nothing else is therefore well
formed exactly if all of its variables are kept (`Action.wellFormed_declaring_iff`): a variable that
is not kept would have to be declared by a longer one, which is not kept either.
-/

namespace LiftedPlanning

namespace Text

variable {cs : List Char}

theorem trim_sublist (cs : List Char) : (trim cs).Sublist cs :=
  (List.rdropWhile_prefix _ _).sublist.trans (List.dropWhile_sublist _)

theorem trim_eq_self_iff :
    trim cs = cs ↔ cs.dropWhile isBlank = cs ∧ cs.rdropWhile isBlank = cs := by
  constructor
  · intro h
    change (cs.dropWhile isBlank).rdropWhile isBlank = cs at h
    have hend : ((cs.dropWhile isBlank).rdropWhile isBlank).Sublist (cs.dropWhile isBlank) :=
      (List.rdropWhile_prefix _ _).sublist
    rw [h] at hend
    have hfront : cs.dropWhile isBlank = cs := (List.dropWhile_sublist _).antisymm hend
    rw [hfront] at h
    exact ⟨hfront, h⟩
  · rintro ⟨hfront, hend⟩
    change (cs.dropWhile isBlank).rdropWhile isBlank = cs
    rw [hfront, hend]

theorem dropWhile_eq_self_iff_head? {p : Char → Bool} :
    cs.dropWhile p = cs ↔ ∀ c, cs.head? = some c → p c = false := by
  cases cs <;> simp [List.dropWhile_eq_self_iff]

theorem rdropWhile_eq_self_iff_getLast? {p : Char → Bool} :
    cs.rdropWhile p = cs ↔ ∀ c, cs.getLast? = some c → p c = false := by
  rw [List.rdropWhile, List.reverse_eq_iff, dropWhile_eq_self_iff_head?, List.head?_reverse]

end Text

namespace Action

variable {name : String} {names : List String} {preconditions effects : List Literal}

/-- A name without a blank or a question mark in front and without a blank at the end. -/
structure PlainName (name : String) : Prop where
  front : ∀ c, name.toList.head? = some c → Text.isBlank c = false ∧ c ≠ '?'
  last : ∀ c, name.toList.getLast? = some c → Text.isBlank c = false

theorem parameterName_sublist (name : String) :
    (parameterName name).toList.Sublist name.toList := by
  rw [parameterName, String.toList_ofList]
  exact (List.dropWhile_sublist _).trans (Text.trim_sublist _)

theorem length_parameterName_le (name : String) : (parameterName name).length ≤ name.length :=
  (parameterName_sublist name).length_le

theorem parameterName_eq_self_of_length_le (h : name.length ≤ (parameterName name).length) :
    parameterName name = name :=
  String.toList_injective ((parameterName_sublist name).eq_of_length_le h)

/-- Plain names are the ones that a declaration keeps. -/
theorem parameterName_eq_self_iff : parameterName name = name ↔ PlainName name := by
  have hlist : parameterName name = name ↔
      Text.trim name.toList = name.toList ∧ name.toList.dropWhile (· = '?') = name.toList := by
    rw [← String.toList_inj, parameterName, String.toList_ofList]
    constructor
    · intro h
      have hmarks : ((Text.trim name.toList).dropWhile (· = '?')).Sublist
          (Text.trim name.toList) := List.dropWhile_sublist _
      rw [h] at hmarks
      have htrim : Text.trim name.toList = name.toList :=
        (Text.trim_sublist _).antisymm hmarks
      rw [htrim] at h
      exact ⟨htrim, h⟩
    · rintro ⟨htrim, hmarks⟩
      rw [htrim, hmarks]
  rw [hlist, Text.trim_eq_self_iff, Text.dropWhile_eq_self_iff_head?,
    Text.rdropWhile_eq_self_iff_getLast?, Text.dropWhile_eq_self_iff_head?]
  simp only [decide_eq_false_iff_not]
  constructor
  · rintro ⟨⟨hblank, hlast⟩, hmark⟩
    exact ⟨fun c hc => ⟨hblank c hc, hmark c hc⟩, hlast⟩
  · rintro ⟨hfront, hlast⟩
    exact ⟨⟨fun c hc => (hfront c hc).1, hlast⟩, fun c hc => (hfront c hc).2⟩

instance (name : String) : Decidable (PlainName name) :=
  decidable_of_iff (parameterName name = name) parameterName_eq_self_iff

theorem parameterName_eq_self_of_declared
    (h : ∀ name ∈ names, name ∈ names.map parameterName) :
    ∀ name ∈ names, parameterName name = name := by
  obtain ⟨n, hn⟩ : ∃ n, ∀ name ∈ names, name.length ≤ n :=
    ⟨(names.map String.length).max?.getD 0, fun _ hname =>
      List.le_max?_getD_of_mem (List.mem_map_of_mem hname)⟩
  intro name hname
  -- By induction from the longest name down: a name is declared by one that is no shorter.
  induction hrest : n - name.length using Nat.strong_induction_on generalizing name with
  | _ rest ih =>
    obtain ⟨longer, hlonger, rfl⟩ := List.mem_map.1 (h name hname)
    have hle := length_parameterName_le longer
    have hbound := hn longer hlonger
    by_cases hsame : longer.length ≤ (parameterName longer).length
    · rw [parameterName_eq_self_of_length_le hsame]
      exact parameterName_eq_self_of_length_le hsame
    · have hkept := ih (n - longer.length) (by omega) longer hlonger rfl
      rw [hkept] at hsame
      exact absurd (Nat.le_refl _) hsame

/-- A schema that declares exactly its variables is well formed if and only if all of them have
plain names. -/
theorem wellFormed_declaring_iff {action : String} (hnodup : names.Nodup)
    (hvars : ∀ name, name ∈ names ↔ ∃ l ∈ preconditions ++ effects, name ∈ l.atom.vars) :
    (⟨action, names.map parameterName, preconditions, effects⟩ : Action).WellFormed ↔
      ∀ name ∈ names, PlainName name := by
  constructor
  · intro h name hname
    refine parameterName_eq_self_iff.1 (parameterName_eq_self_of_declared ?_ name hname)
    intro name hname
    obtain ⟨l, hl, hvar⟩ := (hvars name).1 hname
    exact h.mem_parameters l hl name hvar
  · intro h
    have hkept : names.map parameterName = names := by
      rw [List.map_congr_left fun name hname => parameterName_eq_self_iff.2 (h name hname)]
      exact List.map_id names
    rw [hkept]
    exact ⟨hnodup, fun l hl name hvar => (hvars name).2 ⟨l, hl, hvar⟩⟩

end Action

end LiftedPlanning
