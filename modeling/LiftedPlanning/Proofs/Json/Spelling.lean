import LiftedPlanning.Json.Format
import LiftedPlanning.Proofs.Json.Scan
import Mathlib.Data.List.Nodup

/-!
# Texts that are read as values

A value is spelled if what is written for it can stand wherever a value is expected and is read as
this one (`Json.Value.Spelled`). Strings and truth values are spelled, and so are arrays and objects
whose parts are. A natural number is read only if nothing else is written, since the digits of a
number end where something else begins. An object that has its members in the order of the keys of a
record is read field by field. So JSON is a lawful format (`Json.lawful_format`).
-/

namespace LiftedPlanning

namespace Json

/-! ## Building from a text -/

/-- The tokens of a text take one state of the builder to another one. -/
def Advances (text : String) (b b' : Build) : Prop :=
  ∃ ts : List Token,
    (∀ tokens, Scan.Reaches text.toList ⟨.between, tokens⟩ ⟨.between, ts.reverse ++ tokens⟩) ∧
      ts.foldlM Build.step? b = some b'

variable {b b' b'' : Build} {v : Value} {items : List Value} {frames frames' : List Frame}
  {field : String × Value} {fields : List (String × Value)}

namespace Advances

variable {text rest : String}

theorem append (h : Advances text b b') (h' : Advances rest b' b'') :
    Advances (text ++ rest) b b'' := by
  obtain ⟨ts, hscan, hbuild⟩ := h
  obtain ⟨ts', hscan', hbuild'⟩ := h'
  refine ⟨ts ++ ts', fun tokens => ?_, ?_⟩
  · rw [String.toList_append, List.reverse_append, List.append_assoc]
    exact (hscan tokens).append (hscan' _)
  · rw [List.foldlM_append, hbuild]
    exact hbuild'

theorem of_token {t : Token}
    (hscan : ∀ tokens, Scan.Reaches text.toList ⟨.between, tokens⟩ ⟨.between, t :: tokens⟩)
    (hbuild : b.step? t = some b') : Advances text b b' := by
  refine ⟨[t], hscan, ?_⟩
  rw [List.foldlM_cons, hbuild]
  rfl

theorem first_item (h : Advances text (.value (.array [] :: frames)) (.done v frames')) :
    Advances text (.valueOrEnd frames) (.done v frames') := by
  obtain ⟨ts, hscan, hbuild⟩ := h
  refine ⟨ts, hscan, ?_⟩
  cases ts with
  | nil => cases hbuild
  | cons t ts =>
    -- Only the end of the array makes a difference, and it begins no value.
    cases t with
    | endArray => cases hbuild
    | _ => exact hbuild

end Advances

namespace Value

/-- Wherever a value is expected, what is written for this one is read as it. -/
def Spelled (v : Value) : Prop :=
  ∀ frames, Advances v.text (.value frames) (.done v frames)

/-! ## Strings and truth values -/

theorem spelled_string (s : String) : (string (some s)).Spelled := fun _ =>
  .of_token (Scan.reaches_quoted s) rfl

theorem spelled_bool (b : Bool) : (bool b).Spelled := by
  intro frames
  cases b with
  | false => exact .of_token (t := .bool false) (fun _ => rfl) rfl
  | true => exact .of_token (t := .bool true) (fun _ => rfl) rfl

/-! ## Arrays -/

theorem texts_eq_map (vs : List Value) : texts vs = vs.map text := by
  induction vs with
  | nil => rfl
  | cons v vs ih => rw [texts, ih, List.map_cons]

theorem advances_items (v : Value) (vs read : List Value) (h : ∀ w ∈ v :: vs, w.Spelled) :
    Advances (String.intercalate "," ((v :: vs).map text) ++ "]") (.value (.array read :: frames))
      (.done (.array (read.reverse ++ v :: vs)) frames) := by
  obtain ⟨hv, hvs⟩ := List.forall_mem_cons.1 h
  induction vs generalizing v read with
  | nil =>
    have hend : Advances "]" (.done v (.array read :: frames))
        (.done (.array (v :: read).reverse) frames) :=
      .of_token (t := .endArray) (fun _ => rfl) rfl
    rw [List.reverse_cons] at hend
    simpa [String.intercalate_singleton] using (hv _).append hend
  | cons w vs ih =>
    have hcomma : Advances "," (.done v (.array read :: frames))
        (.value (.array (v :: read) :: frames)) :=
      .of_token (t := .comma) (fun _ => rfl) rfl
    have hrest := ih w (v :: read) hvs (hvs w (List.mem_cons_self ..))
      (List.forall_mem_cons.1 hvs).2
    simpa [String.intercalate_cons_cons, String.append_assoc] using
      ((hv _).append hcomma).append hrest

theorem spelled_array (h : ∀ v ∈ items, v.Spelled) : (array items).Spelled := by
  intro frames
  have hbegin : Advances "[" (.value frames) (.valueOrEnd frames) :=
    .of_token (t := .beginArray) (fun _ => rfl) rfl
  cases items with
  | nil => exact hbegin.append (.of_token (t := .endArray) (fun _ => rfl) rfl)
  | cons v vs =>
    rw [text, arrayText, texts_eq_map, String.append_assoc]
    exact hbegin.append (advances_items v vs [] h).first_item

/-! ## Objects -/

theorem memberTexts_map_member (fields : List (String × Value)) :
    memberTexts (fields.map member) = fields.map fun e => (e.1, e.2.text) := by
  induction fields with
  | nil => rfl
  | cons e fields ih => rw [List.map_cons, member, memberTexts, ih, List.map_cons, Option.getD_some]

theorem advances_field {members : List (Option String × Value)} (hvalue : field.2.Spelled)
    (hkey : b.step? (.string (some field.1)) = some (.colon members (some field.1) frames)) :
    Advances (quoted field.1 ++ ":" ++ field.2.text) b
      (.done field.2 (.object members (some field.1) :: frames)) := by
  have hquoted : Advances (quoted field.1) b (.colon members (some field.1) frames) :=
    .of_token (Scan.reaches_quoted field.1) hkey
  have hcolon : Advances ":" (.colon members (some field.1) frames)
      (.value (.object members (some field.1) :: frames)) :=
    .of_token (t := .colon) (fun _ => rfl) rfl
  exact (hquoted.append hcolon).append (hvalue _)

theorem advances_fields (field : String × Value) (fields : List (String × Value))
    (members : List (Option String × Value)) (h : ∀ e ∈ field :: fields, e.2.Spelled)
    (hkey : b.step? (.string (some field.1)) = some (.colon members (some field.1) frames)) :
    Advances
      (String.intercalate "," ((field :: fields).map fun e => quoted e.1 ++ ":" ++ e.2.text) ++
        "\x7d") b
      (.done (.object (members.reverse ++ (field :: fields).map member)) frames) := by
  obtain ⟨hfield, hfields⟩ := List.forall_mem_cons.1 h
  induction fields generalizing field members b with
  | nil =>
    have hend : Advances "\x7d" (.done field.2 (.object members (some field.1) :: frames))
        (.done (.object (member field :: members).reverse) frames) :=
      .of_token (t := .endObject) (fun _ => rfl) rfl
    rw [List.reverse_cons] at hend
    simpa [String.intercalate_singleton] using (advances_field hfield hkey).append hend
  | cons e fields ih =>
    have hcomma : Advances "," (.done field.2 (.object members (some field.1) :: frames))
        (.key (member field :: members) frames) :=
      .of_token (t := .comma) (fun _ => rfl) rfl
    have hrest := ih e (member field :: members) hfields
      (b := .key (member field :: members) frames) rfl
      (hfields e (List.mem_cons_self ..)) (List.forall_mem_cons.1 hfields).2
    simpa [String.intercalate_cons_cons, String.append_assoc] using
      ((advances_field hfield hkey).append hcomma).append hrest

theorem spelled_object (h : ∀ e ∈ fields, e.2.Spelled) :
    (object (fields.map member)).Spelled := by
  intro frames
  have hbegin : Advances "\x7b" (.value frames) (.keyOrEnd frames) :=
    .of_token (t := .beginObject) (fun _ => rfl) rfl
  cases fields with
  | nil => exact hbegin.append (.of_token (t := .endObject) (fun _ => rfl) rfl)
  | cons e fields =>
    rw [text, objectText, memberTexts_map_member, String.append_assoc, List.map_map]
    exact hbegin.append (advances_fields e fields [] h rfl)

theorem spelled_choice {name : String} (h : v.Spelled) : (object [member (name, v)]).Spelled := by
  have hfield : ∀ e ∈ [(name, v)], e.2.Spelled := by
    intro e he
    rw [List.mem_singleton.1 he]
    exact h
  have hobject := spelled_object hfield
  rwa [List.map_singleton] at hobject

/-! ## Documents -/

theorem Spelled.read? (h : v.Spelled) : Value.read? (Text.ofString v.text) = some v := by
  obtain ⟨ts, hscan, hbuild⟩ := h []
  have htokens : tokens? (Text.ofString v.text) = some ts := by
    rw [tokens?, Text.ofString, (hscan [] : _ = _), List.append_nil]
    exact congrArg some ts.reverse_reverse
  rw [Value.read?, htokens, Option.bind_some, Value.ofTokens?, hbuild]
  rfl

theorem read?_text_number (n : Nat) :
    Value.read? (Text.ofString (number (some n)).text) = some (number (some n)) := by
  have htokens : tokens? (Text.ofString (number (some n)).text) = some [.number (some n)] :=
    tokens?_repr n
  rw [Value.read?, htokens]
  rfl

theorem natural?_number {n limit : Nat} (hn : n < limit) :
    (number (some n)).natural? limit = some n := by
  rw [natural?, Option.filter_some, if_pos (decide_eq_true hn)]

/-! ## Records -/

theorem find?_member (hnodup : (fields.map Prod.fst).Nodup) (hfield : field ∈ fields) :
    ((fields.map member).find? fun m => m.1 = some field.1) = some (member field) := by
  cases hfind : (fields.map member).find? fun m => m.1 = some field.1 with
  | none =>
    have hnone := List.find?_eq_none.1 hfind (member field) (List.mem_map_of_mem hfield)
    exact absurd (decide_eq_true rfl) hnone
  | some m =>
    obtain ⟨e, he, rfl⟩ := List.mem_map.1 (List.mem_of_find?_eq_some hfind)
    have hfound := List.find?_some hfind
    have hkey : e.1 = field.1 := Option.some.inj (of_decide_eq_true hfound)
    rw [List.inj_on_of_nodup_map hnodup he hfield hkey]

theorem countP_member_le_one (hnodup : (fields.map Prod.fst).Nodup) (k : String) :
    ((fields.map member).countP fun m => m.1 = some k) ≤ 1 := by
  have hcount : ((fields.map member).countP fun m => m.1 = some k) =
      (fields.map Prod.fst).count k := by
    rw [List.countP_map, List.count, List.countP_map]
    refine List.countP_congr fun e _ => ?_
    simp [member]
  rw [hcount]
  exact List.nodup_iff_count_le_one.1 hnodup k

theorem fields?_object (hnodup : (fields.map Prod.fst).Nodup) :
    (object (fields.map member)).fields? (fields.map Prod.fst) =
      some (fields.map fun e => some e.2) := by
  have hkeys : (fields.map member).all (fun m => m.1.isSome) = true := by simp [member]
  have honce : (fields.map Prod.fst).all (fun k =>
      (fields.map member).countP (fun m => m.1 = some k) ≤ 1) = true :=
    List.all_eq_true.2 fun k _ => decide_eq_true (countP_member_le_one hnodup k)
  rw [fields?, if_pos ⟨hkeys, honce⟩, List.map_map]
  refine congrArg some (List.map_congr_left fun e he => ?_)
  rw [Function.comp_apply, find?_member hnodup he]
  rfl

theorem record?_object (hnodup : (fields.map Prod.fst).Nodup) :
    (object (fields.map member)).record? (fields.map Prod.fst) = some (fields.map Prod.snd) := by
  have hall : (fields.map fun e => some e.2).mapM id = some (fields.map Prod.snd) := by
    rw [List.mapM_map]
    exact List.mapM_pure
  rw [record?, fields?_object hnodup, Option.bind_some, hall]

end Value

/-! ## The format -/

theorem spelled_of_plain {v : format.Value} (h : format.Plain v) : Value.Spelled v := by
  induction h with
  | string s => exact Value.spelled_string s
  | bool b => exact Value.spelled_bool b
  | list _ ih => exact Value.spelled_array ih
  | record _ _ ih => exact Value.spelled_object ih
  | choice _ ih => exact Value.spelled_choice ih

theorem lawful_format : format.Lawful where
  read?_text hv := (spelled_of_plain hv).read?
  read?_text_word {n} _ := Value.read?_text_number n
  string?_string _ := rfl
  bool?_bool _ := rfl
  word?_word hn := Value.natural?_number hn
  list?_list _ := rfl
  record?_record _ hnodup := Value.record?_object hnodup
  choice?_choice _ _ := rfl

end Json

end LiftedPlanning
