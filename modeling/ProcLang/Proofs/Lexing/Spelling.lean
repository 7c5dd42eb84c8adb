import ProcLang.Token.Lexer

/-!
# Spellings of tokens

What a token looks like in a text.

## Main definitions

* `IsIdentifier` — words that can name something.
* `Literal.SpelledBy`, `Token.Kind.SpelledBy` — the texts of literals and of tokens.

## Main statements

* `Token.Kind.spelledBy_ofWord` — a word is a token of the kind that it spells.
-/
namespace ProcLang

/-- The words that are keywords, types or truth values. -/
def reservedWords : List String :=
  ["return", "if", "else", "i32", "i64", "f32", "f64", "bool", "true", "false"]

/-- A word that can name something: letters, digits and underscores, no digit first. -/
structure IsIdentifier (word : String) : Prop where
  start : ∃ c cs, word.toList = c :: cs ∧ isWordStart c
  chars : ∀ c ∈ word.toList, isWordChar c
  free : word ∉ reservedWords

/-- Digits, at least one. -/
def IsNumeral (digits : List Char) : Prop := digits ≠ [] ∧ ∀ c ∈ digits, c.isDigit

/-- The texts of a literal. Numbers are written in decimal and with leading zeros or without. -/
def Literal.SpelledBy : Literal → String → Prop
  | .int v, text => IsNumeral text.toList ∧ v.toInt = Nat.ofDigitChars 10 text.toList 0
  | .float x, text => ∃ digits places, text = String.ofList (digits ++ '.' :: places) ∧
      IsNumeral digits ∧ IsNumeral places ∧
      x = Double.ofDecimal (Nat.ofDigitChars 10 (digits ++ places) 0) places.length
  | .bool b, text => text = Literal.boolText b

/-- The texts of a token. -/
def Token.Kind.SpelledBy : Token.Kind → String → Prop
  | .ident name, text => text = name ∧ IsIdentifier name
  | .literal value, text => value.SpelledBy text
  | .type ty, text => text = ty.text
  | .keyword word, text => text = word.text
  | .symbol mark, text => text = String.ofList mark.spelling
  | .eof, text => text = ""

/-! ## Words -/

theorem Keyword.eq_text_of_ofWord? {word : String} {k : Keyword} (h : ofWord? word = some k) :
    word = k.text := by
  unfold ofWord? at h
  split at h <;> cases h <;> rfl

theorem Ty.eq_text_of_ofWord? {word : String} {ty : Ty} (h : ofWord? word = some ty) :
    word = ty.text := by
  unfold ofWord? at h
  split at h <;> cases h <;> rfl

/-- A word is a token of the kind that it spells. -/
theorem Token.Kind.spelledBy_ofWord {word : String}
    (hstart : ∃ c cs, word.toList = c :: cs ∧ isWordStart c)
    (hchars : ∀ c ∈ word.toList, isWordChar c) : (ofWord word).SpelledBy word := by
  unfold ofWord
  split
  next k hk => exact Keyword.eq_text_of_ofWord? hk
  next hk =>
    split
    next ty hty => exact Ty.eq_text_of_ofWord? hty
    next hty =>
      split
      next => rfl
      next => rfl
      next htrue hfalse =>
        refine ⟨rfl, hstart, hchars, ?_⟩
        intro hmem
        simp only [reservedWords, List.mem_cons, List.not_mem_nil, or_false] at hmem
        rcases hmem with rfl | rfl | rfl | rfl | rfl | rfl | rfl | rfl | rfl | rfl
        all_goals simp_all [Keyword.ofWord?, Ty.ofWord?]

theorem Token.Kind.ofWord_ne_eof (word : String) : ofWord word ≠ .eof := by
  unfold ofWord
  split
  · simp
  split
  · simp
  split <;> simp

/-! ## Numbers -/

theorem isNumeral_takeWhile {c : Char} (hc : c.isDigit) (cs : List Char) :
    IsNumeral ((c :: cs).takeWhile Char.isDigit) := by
  exact ⟨by simp [hc], List.all_eq_true.mp List.all_takeWhile⟩

end ProcLang
