import ProcLang.Diagnostic
import ProcLang.ListLemmas
import ProcLang.Token

/-!
# From source text to tokens

Blanks separate tokens and are dropped; a line feed is a token. A token is the longest stretch of
text that spells one: a word of ASCII letters, digits and underscores, a run of digits with or
without decimal places, or a symbol.

## Main definitions

* `Lexeme.first` — the token at the start of a text.
* `lexFrom`, `lex` — all tokens of a text, ended by one of kind `eof`.
-/
namespace ProcLang

/-- Why a text is no sequence of tokens. -/
inductive LexCause where
  /-- The character starts no token. -/
  | invalidCharacter (c : Char)
  /-- The digits denote a number of more than 63 bits. -/
  | integerTooLarge (digits : String)
deriving DecidableEq

/-- What is wrong, in words. -/
def LexCause.message : LexCause → String
  | .invalidCharacter c => s!"Found invalid character: {Text.quoteChar c}"
  | .integerTooLarge digits =>
    s!"Invalid integer \"{digits}\": number too large to fit in target type"

/-- A text that cannot be split into tokens, and where. -/
structure LexError where
  cause : LexCause
  pos : Position
deriving DecidableEq

/-- The report of a text that cannot be split into tokens. -/
def LexError.diagnostic (e : LexError) : Diagnostic := ⟨.lexical, e.cause.message, some e.pos⟩

/-- Characters that separate tokens. -/
def isBlank (c : Char) : Bool := c == ' ' || c == '\t' || c == '\r'

/-- Characters that start a word. -/
def isWordStart (c : Char) : Bool := c.isAlpha || c == '_'

/-- Characters of a word. -/
def isWordChar (c : Char) : Bool := c.isAlphanum || c == '_'

/-- The number that decimal digits denote. -/
def decimalValue (digits : List Char) : Nat :=
  digits.foldl (fun n c => 10 * n + (c.toNat - '0'.toNat)) 0

/-- The least whole number that no literal denotes. -/
def integerBound : Nat := 9223372036854775808

/-- The token that a word is: a keyword, a type, a truth value, or else an identifier. -/
def Token.Kind.ofWord (word : String) : Token.Kind :=
  match Keyword.ofWord? word with
  | some k => .keyword k
  | none =>
    match Ty.ofWord? word with
    | some t => .type t
    | none =>
      match word with
      | "true" => .literal (.bool true)
      | "false" => .literal (.bool false)
      | _ => .ident word

/-- A token cut off the start of a text: what it is, its characters, and the text behind it. -/
structure Lexeme where
  kind : Token.Kind
  text : List Char
  rest : List Char
deriving DecidableEq

namespace Lexeme

/-- The longest word. -/
def word (cs : List Char) : Lexeme where
  kind := .ofWord (String.ofList (cs.takeWhile isWordChar))
  text := cs.takeWhile isWordChar
  rest := cs.dropWhile isWordChar

/-- The whole number spelled by `digits`. -/
def integer (digits rest : List Char) : Except LexCause Lexeme :=
  if decimalValue digits < integerBound then
    .ok ⟨.literal (.int (Int64.ofNat (decimalValue digits))), digits, rest⟩
  else .error (.integerTooLarge (String.ofList digits))

/-- The number `digits.places`. -/
def fraction (digits places rest : List Char) : Lexeme where
  kind := .literal (.float (Double.ofDecimal (decimalValue (digits ++ places)) places.length))
  text := digits ++ '.' :: places
  rest := rest

/-- The longest number. A point belongs to it only if a digit follows. -/
def number (cs : List Char) : Except LexCause Lexeme :=
  let digits := cs.takeWhile Char.isDigit
  match cs.dropWhile Char.isDigit with
  | '.' :: d :: rest =>
    if d.isDigit then
      .ok (fraction digits (d :: rest.takeWhile Char.isDigit) (rest.dropWhile Char.isDigit))
    else integer digits ('.' :: d :: rest)
  | rest => integer digits rest

/-- The token at the start of the text `c :: cs`. -/
def first (c : Char) (cs : List Char) : Except LexCause Lexeme :=
  if c.isDigit then number (c :: cs)
  else if isWordStart c then .ok (word (c :: cs))
  else
    match Symbol.leading? (c :: cs) with
    | some s => .ok ⟨.symbol s, s.spelling, (c :: cs).drop s.spelling.length⟩
    | none => .error (.invalidCharacter c)

/-! ## Nothing is lost -/

theorem word_append (cs : List Char) : (word cs).text ++ (word cs).rest = cs :=
  List.takeWhile_append_dropWhile

theorem integer_append {digits rest : List Char} {l : Lexeme} (h : integer digits rest = .ok l) :
    l.text ++ l.rest = digits ++ rest ∧ l.text = digits := by
  unfold integer at h
  split at h <;> simp_all
  exact h ▸ ⟨rfl, rfl⟩

theorem number_append {cs : List Char} {l : Lexeme} (h : number cs = .ok l) :
    l.text ++ l.rest = cs ∧ (cs.takeWhile Char.isDigit) <+: l.text := by
  have split_cs := List.takeWhile_append_dropWhile (p := Char.isDigit) (l := cs)
  unfold number at h
  split at h
  · next d rest hd =>
    split at h
    · cases h
      simp only [fraction, List.append_assoc, List.cons_append, List.takeWhile_append_dropWhile]
      exact ⟨hd ▸ split_cs, List.prefix_append _ _⟩
    · obtain ⟨h₁, h₂⟩ := integer_append h
      exact ⟨by rw [h₁, ← hd, split_cs], h₂ ▸ List.prefix_refl _⟩
  · obtain ⟨h₁, h₂⟩ := integer_append h
    exact ⟨by rw [h₁, split_cs], h₂ ▸ List.prefix_refl _⟩

theorem first_append {c : Char} {cs : List Char} {l : Lexeme} (h : first c cs = .ok l) :
    l.text ++ l.rest = c :: cs ∧ l.text ≠ [] := by
  unfold first at h
  split at h
  · next hc =>
    obtain ⟨h₁, h₂⟩ := number_append h
    refine ⟨h₁, fun hnil => ?_⟩
    simp [hnil, hc] at h₂
  · split at h
    · next hw =>
      cases h
      refine ⟨word_append _, ?_⟩
      have : isWordChar c = true := by
        simp only [isWordStart, isWordChar, Char.isAlphanum, Bool.or_eq_true] at *
        grind
      simp [word, this]
    · split at h
      · next s hs =>
        cases h
        have hp := List.find?_some hs
        rw [List.isPrefixOf_iff_prefix] at hp
        obtain ⟨t, ht⟩ := hp
        refine ⟨?_, by cases s <;> simp [Symbol.spelling]⟩
        rw [← ht]
        simp
      · cases h

theorem length_rest_lt {c : Char} {cs : List Char} {l : Lexeme} (h : first c cs = .ok l) :
    l.rest.length < (c :: cs).length := by
  obtain ⟨h₁, h₂⟩ := first_append h
  have := congrArg List.length h₁
  have := List.length_pos_iff.mpr h₂
  simp only [List.length_append] at *
  omega

end Lexeme

/-- The tokens of the text `cs` that starts at `here`. An error points at the token that could not
be cut off, with no length. -/
def lexFrom (here : Cursor) (cs : List Char) : Except LexError (List Token) :=
  let start := here.advance (cs.takeWhile isBlank)
  match _hcs : cs.dropWhile isBlank with
  | [] => .ok [⟨.eof, start.span []⟩]
  | c :: rest =>
    match _hfirst : Lexeme.first c rest with
    | .error cause => .error ⟨cause, start.span []⟩
    | .ok lexeme =>
      match lexFrom (start.advance lexeme.text) lexeme.rest with
      | .error e => .error e
      | .ok tokens => .ok (⟨lexeme.kind, start.span lexeme.text⟩ :: tokens)
termination_by cs.length
decreasing_by
  have := Lexeme.length_rest_lt _hfirst
  have := length_lt_of_dropWhile _hcs
  simp only [List.length_cons] at *
  omega

/-- The tokens of a source text; the last one is its end. -/
def lex (source : String) : Except LexError (List Token) := lexFrom .start source.toList

end ProcLang
