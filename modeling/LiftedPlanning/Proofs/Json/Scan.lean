import LiftedPlanning.Json.Token

/-!
# Scanning what was written

A scan reads a quoted string as one token with the content of the string, whatever characters it
consists of (`Json.Scan.reaches_quoted`), and the digits of a natural number as one token with its
value (`Json.tokens?_repr`). A character that was written is read either as itself or as an escaped
unit. Units of control characters are not surrogates, so that they stand for themselves whatever
follows.
-/

namespace LiftedPlanning

namespace Json

/-! ## Characters and digits -/

theorem unescape?_of_mem_shortEscapes :
    ∀ e ∈ shortEscapes, e.1 ≠ 'u' ∧ unescape? e.1 = some e.2 := by decide

theorem hexDigit?_digitChar : ∀ d < 16, hexDigit? (Nat.digitChar d) = some d := by decide

theorem digitChar_ne_zero : ∀ d < 10, 0 < d → Nat.digitChar d ≠ '0' := by decide

theorem isDigit_digitChar : ∀ d < 10, (Nat.digitChar d).isDigit = true := by decide

theorem value_digitChar : ∀ d < 10, (Nat.digitChar d).toNat - '0'.toNat = d := by decide

theorem ne_of_find?_shortEscapes_eq_none {c : Char}
    (h : (shortEscapes.find? fun e => e.2 = c ∧ c ≠ '/') = none) : c ≠ '"' ∧ c ≠ '\\' := by
  constructor <;> (rintro rfl; revert h; decide)

namespace Piece

/-- A piece that stands for a character in front of any others. -/
def StandsFor (p : Piece) (c : Char) : Prop :=
  ∀ ps, content? (p :: ps) = (content? ps).map (c :: ·)

theorem standsFor_char (c : Char) : (char c).StandsFor c := fun _ => rfl

theorem standsFor_unit {c : Char} (hc : c.toNat < 0x20) : (unit c.toNat).StandsFor c := by
  have hleading : isLeading c.toNat = false := by
    rw [isLeading, decide_eq_false (by omega), Bool.false_and]
  have htrailing : isTrailing c.toNat = false := by
    rw [isTrailing, decide_eq_false (by omega), Bool.false_and]
  intro ps
  -- A unit is read together with the next piece only if that is a unit as well.
  rcases ps with _ | ⟨_ | v | _, ps⟩ <;>
    simp [content?, hleading, htrailing, Char.ofNat_toNat]

end Piece

namespace Scan

/-- The symbols of a text take one state of the scan to another one. -/
def Reaches (text : List Char) (s t : Scan) : Prop := (text.map some).foldlM step? s = some t

variable {text rest : List Char} {s t u : Scan} {tokens : List Token} {pieces : List Piece}

theorem Reaches.nil : Reaches [] s s := rfl

theorem Reaches.append (hs : Reaches text s t) (ht : Reaches rest t u) :
    Reaches (text ++ rest) s u := by
  rw [Reaches, List.map_append, List.foldlM_append, hs]
  exact ht

theorem Reaches.cons {c : Char} (hs : s.step? (some c) = some t) (ht : Reaches rest t u) :
    Reaches (c :: rest) s u := by
  rw [Reaches, List.map_cons, List.foldlM_cons, hs]
  exact ht

/-! ## Strings -/

theorem step?_string (c : Char) :
    step? ⟨.string pieces, tokens⟩ (some c) = string? tokens pieces c := rfl

theorem step?_escape (c : Char) :
    step? ⟨.escape pieces, tokens⟩ (some c) =
      if c = 'u' then some ⟨.unit pieces 4 0, tokens⟩
      else (unescape? c).map fun d => ⟨.string (.char d :: pieces), tokens⟩ := rfl

theorem reaches_unit {n : Nat} (hn : n < 0x20) :
    Reaches ['0', '0', Nat.digitChar (n / 16), Nat.digitChar (n % 16)]
      ⟨.unit pieces 4 0, tokens⟩ ⟨.string (.unit n :: pieces), tokens⟩ := by
  have hhigh := hexDigit?_digitChar (n / 16) (by omega)
  have hlow := hexDigit?_digitChar (n % 16) (by omega)
  have hzero : hexDigit? '0' = some 0 := rfl
  have hcode : 16 * (n / 16) + n % 16 = n := by omega
  simp [Reaches, step?, hzero, hhigh, hlow, hcode]

theorem exists_reaches_escape (c : Char) (pieces : List Piece) (tokens : List Token) :
    ∃ p : Piece, p.StandsFor c ∧
      Reaches (escape c) ⟨.string pieces, tokens⟩ ⟨.string (p :: pieces), tokens⟩ := by
  rw [escape]
  split
  · next e he =>
    have hfound := List.find?_some he
    have hc : e.2 = c := (of_decide_eq_true hfound).1
    obtain ⟨hu, hletter⟩ := unescape?_of_mem_shortEscapes e (List.mem_of_find?_eq_some he)
    refine ⟨.char c, Piece.standsFor_char c, .cons rfl (.cons ?_ .nil)⟩
    rw [step?_escape, if_neg hu, hletter, hc]
    rfl
  · next he =>
    obtain ⟨hquote, hbackslash⟩ := ne_of_find?_shortEscapes_eq_none he
    split
    · next hcontrol =>
      refine ⟨.unit c.toNat, Piece.standsFor_unit hcontrol, .cons rfl (.cons rfl ?_)⟩
      exact reaches_unit hcontrol
    · next hplain =>
      refine ⟨.char c, Piece.standsFor_char c, .cons ?_ .nil⟩
      rw [step?_string, string?.eq_def, if_neg hquote, if_neg hbackslash, if_neg hplain]

theorem exists_reaches_flatMap_escape (cs : List Char) (pieces : List Piece)
    (tokens : List Token) :
    ∃ ps, Piece.content? ps = some cs ∧ Reaches (cs.flatMap escape) ⟨.string pieces, tokens⟩
      ⟨.string (ps.reverse ++ pieces), tokens⟩ := by
  induction cs generalizing pieces with
  | nil => exact ⟨[], rfl, .nil⟩
  | cons c cs ih =>
    obtain ⟨p, hp, hc⟩ := exists_reaches_escape c pieces tokens
    obtain ⟨ps, hps, hcs⟩ := ih (p :: pieces)
    refine ⟨p :: ps, by rw [hp, hps]; rfl, ?_⟩
    rw [List.flatMap_cons, List.reverse_cons, List.append_assoc]
    exact hc.append hcs

/-- A quoted string is one token, and its content is known. -/
theorem reaches_quoted (s : String) (tokens : List Token) :
    Reaches (quoted s).toList ⟨.between, tokens⟩ ⟨.between, .string (some s) :: tokens⟩ := by
  obtain ⟨ps, hps, hreaches⟩ := exists_reaches_flatMap_escape s.toList [] tokens
  have htext : (quoted s).toList = '"' :: (s.toList.flatMap escape ++ ['"']) := by
    simp [quoted]
  rw [htext]
  refine .cons rfl (hreaches.append (.cons ?_ .nil))
  rw [step?_string, string?.eq_def, if_pos rfl, List.append_nil, List.reverse_reverse, hps,
    Option.map_some, String.ofList_toList]
  rfl

/-! ## Numbers -/

theorem begin?_digitChar {d : Nat} (hd : d < 10) (hpos : 0 < d) :
    begin? tokens (Nat.digitChar d) = some ⟨.number .integer (some d), tokens⟩ := by
  have hdigit := isDigit_digitChar d hd
  have hzero := digitChar_ne_zero d hd hpos
  have hvalue := value_digitChar d hd
  generalize Nat.digitChar d = c at hdigit hzero hvalue ⊢
  -- No other character of the grammar is a digit.
  unfold begin?
  split
  all_goals first
    | exact absurd rfl hzero
    | exact absurd hdigit (by decide)
    | rw [if_pos hdigit, hvalue]

theorem number?_digitChar {d n : Nat} (hd : d < 10) :
    number? tokens .integer (some n) (Nat.digitChar d) =
      some ⟨.number .integer (some (10 * n + d)), tokens⟩ := by
  have hnext : NumberPart.integer.next? (Nat.digitChar d) = some .integer :=
    if_pos (isDigit_digitChar d hd)
  rw [number?, hnext]
  simp only [extend, Option.map_some, value_digitChar d hd, if_true]

theorem reaches_toDigits {n : Nat} (hn : 0 < n) :
    Reaches (Nat.toDigits 10 n) ⟨.between, tokens⟩ ⟨.number .integer (some n), tokens⟩ := by
  induction n using Nat.strongRecOn with
  | _ n ih =>
    by_cases hsmall : n < 10
    · rw [Nat.toDigits_of_lt_base hsmall]
      exact .cons (begin?_digitChar hsmall hn) .nil
    · have hlast : n % 10 < 10 := Nat.mod_lt n (by decide)
      have hsplit : Nat.toDigits 10 n = Nat.toDigits 10 (n / 10) ++ [Nat.digitChar (n % 10)] := by
        rw [← Nat.toDigits_of_lt_base hlast,
          Nat.toDigits_append_toDigits (by decide) (by omega) hlast, Nat.div_add_mod]
      have hstep : number? tokens .integer (some (n / 10)) (Nat.digitChar (n % 10)) =
          some ⟨.number .integer (some n), tokens⟩ := by
        rw [number?_digitChar hlast, Nat.div_add_mod]
      rw [hsplit]
      exact (ih (n / 10) (by omega) (by omega)).append (.cons hstep .nil)

end Scan

theorem tokens?_repr (n : Nat) :
    tokens? (Text.ofString (Nat.repr n)) = some [.number (some n)] := by
  rcases Nat.eq_zero_or_pos n with rfl | hn
  · rfl
  · rw [tokens?, Text.ofString, Nat.toList_repr, (Scan.reaches_toDigits hn : _ = _)]
    rfl

end Json

end LiftedPlanning
