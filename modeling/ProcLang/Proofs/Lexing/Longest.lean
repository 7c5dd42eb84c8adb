import ProcLang.Proofs.Lexing.Spelling

/-!
# The longest token

What is cut off the start of a text is the longest token that stands there. Which token it is
depends on the text behind it in one way only: this text must not go on with the token. So a token
stays what it is when the text is cut off behind it, and when white space and any other text is put
behind it.

## Main definitions

* `Longest` — a token with a text behind it that does not go on with it.
* `Stuck` — a text with no token at its start.
* `Detached` — text that goes on with no token.
* `IsGap` — spaces, tabs and carriage returns.

## Main statements

* `Lexeme.first_eq_ok_iff`, `Lexeme.first_eq_error_iff` — the longest token is cut off, and there is
  an error exactly if there is none.
* `Longest.spelledBy` — such a token is spelled by its characters.
* `lexing_induction` — texts token by token; `lexFrom_gap`, `lexFrom_of_longest` and
  `lexFrom_of_stuck` say what becomes of a text in each of its cases.
-/
namespace ProcLang

/-- No run of characters of class `q` goes on in this text. -/
def Ends (q : Char → Bool) (rest : List Char) : Prop := ∀ c ∈ rest.head?, q c = false

/-- No whole number goes on in this text, neither with a digit nor with decimal places. -/
structure IntegerEnds (rest : List Char) : Prop where
  digit : Ends Char.isDigit rest
  point : ∀ d rest', rest = '.' :: d :: rest' → d.isDigit = false

/-- `Longest kind text rest`: in front of `rest` the characters `text` are a token of this kind, and
no longer one starts with them. -/
inductive Longest : Token.Kind → List Char → List Char → Prop where
  | word {c : Char} {cs rest : List Char} (hstart : isWordStart c = true)
      (hchars : ∀ d ∈ c :: cs, isWordChar d = true) (hrest : Ends isWordChar rest) :
      Longest (.ofWord (String.ofList (c :: cs))) (c :: cs) rest
  | integer {digits rest : List Char} (hd : IsNumeral digits)
      (hlt : decimalValue digits < integerBound) (hrest : IntegerEnds rest) :
      Longest (.literal (.int (Int64.ofNat (decimalValue digits)))) digits rest
  | fraction {digits places rest : List Char} (hd : IsNumeral digits) (hp : IsNumeral places)
      (hrest : Ends Char.isDigit rest) :
      Longest (.literal (.float (Double.ofDecimal (decimalValue (digits ++ places)) places.length)))
        (digits ++ '.' :: places) rest
  | symbol {mark : Symbol} {rest : List Char}
      (h : Symbol.leading? (mark.spelling ++ rest) = some mark) :
      Longest (.symbol mark) mark.spelling rest

/-- A character that no token starts with and that separates no tokens. -/
structure StartsNoToken (c : Char) : Prop where
  letter : c.isAlpha = false
  digit : c.isDigit = false
  underscore : c ≠ '_'
  blank : c ≠ ' ' ∧ c ≠ '\t' ∧ c ≠ '\r'
  symbol : ∀ mark : Symbol, c ∉ mark.spelling

/-- `Stuck cause text`: no token stands at the start of the text. -/
inductive Stuck : LexCause → List Char → Prop where
  | character {c : Char} {cs : List Char} (hc : StartsNoToken c) :
      Stuck (.invalidCharacter c) (c :: cs)
  /-- Digits, as many as there are, that denote a number above `2 ^ 63 - 1`. -/
  | integer {digits rest : List Char} (hd : IsNumeral digits) (hrest : IntegerEnds rest)
      (hlarge : 9223372036854775807 < Nat.ofDigitChars 10 digits 0) :
      Stuck (.integerTooLarge (String.ofList digits)) (digits ++ rest)

/-- Text that goes on with none of the tokens before it: it is empty or starts with white space. -/
def Detached (rest : List Char) : Prop := ∀ c ∈ rest.head?, c ∈ [' ', '\t', '\r', '\n']

theorem isBlank_iff {c : Char} : isBlank c = true ↔ c = ' ' ∨ c = '\t' ∨ c = '\r' := by
  simp [isBlank, or_assoc]

/-- No character of a class that leaves out blanks is one. -/
theorem isBlank_eq_false {q : Char → Bool} (hq : [' ', '\t', '\r'].any q = false) {c : Char}
    (hc : q c = true) : isBlank c = false := by
  apply Bool.eq_false_iff.mpr
  intro hb
  have hmem : c ∈ [' ', '\t', '\r'] := by simpa using isBlank_iff.mp hb
  exact List.any_eq_false.mp hq c hmem hc

/-! ## Text behind a token -/

namespace Ends

variable {q : Char → Bool} {rest behind : List Char}

theorem dropWhile (q : Char → Bool) (cs : List Char) : Ends q (cs.dropWhile q) := by
  intro c hc
  have h := List.head?_dropWhile_not q cs
  rw [Option.mem_def.mp hc] at h
  simpa using h

theorem of_append (h : Ends q (rest ++ behind)) : Ends q rest := by
  intro c hc
  refine h c ?_
  rw [List.head?_append, Option.mem_def.mp hc]
  rfl

theorem append (h : Ends q rest) (hb : Ends q behind) : Ends q (rest ++ behind) := by
  cases rest with
  | nil => exact hb
  | cons c rest => exact h

end Ends

namespace IntegerEnds

variable {rest behind : List Char}

theorem of_append (h : IntegerEnds (rest ++ behind)) : IntegerEnds rest where
  digit := h.digit.of_append
  point := by
    rintro d rest' rfl
    exact h.point d (rest' ++ behind) rfl

end IntegerEnds

namespace Detached

variable {rest behind : List Char}

/-- No character of a class that leaves out white space starts the text. -/
theorem ends (h : Detached rest) {q : Char → Bool} (hq : [' ', '\t', '\r', '\n'].any q = false) :
    Ends q rest := by
  intro c hc
  simpa using List.any_eq_false.mp hq c (h c hc)

theorem integerEnds (h : Detached behind) : IntegerEnds behind where
  digit := h.ends (by decide)
  point := by
    rintro d rest' rfl
    exact absurd (h '.' rfl) (by decide)

end Detached

theorem IntegerEnds.append {rest behind : List Char} (h : IntegerEnds rest)
    (hb : Detached behind) : IntegerEnds (rest ++ behind) where
  digit := h.digit.append (hb.ends (by decide))
  point := by
    intro d rest' heq
    cases rest with
    | nil => exact hb.integerEnds.point d rest' heq
    | cons c rest =>
      cases rest with
      | nil =>
        -- Only the point belongs to the text in front of the white space.
        obtain ⟨-, rfl⟩ := List.cons_eq_cons.mp heq
        exact hb.ends (by decide) d rfl
      | cons d' rest =>
        simp only [List.cons_append, List.cons_eq_cons] at heq
        obtain ⟨rfl, rfl, -⟩ := heq
        exact h.point d' rest rfl

/-! ## Symbols -/

namespace Symbol

theorem leading?_eq_some_iff {cs : List Char} {mark : Symbol} : leading? cs = some mark ↔
    mark.spelling <+: cs ∧ ∃ before after, all = before ++ mark :: after ∧
      ∀ s ∈ before, ¬ s.spelling <+: cs := by
  simp only [leading?, List.find?_eq_some_iff_append, Bool.not_eq_eq_eq_not, Bool.not_true,
    List.isPrefixOf_iff_prefix, Bool.eq_false_iff, ne_eq]

/-- Only what starts a text counts, and not what is behind it. -/
theorem leading?_of_append {cs behind : List Char} {mark : Symbol} (hm : mark.spelling <+: cs)
    (h : leading? (cs ++ behind) = some mark) : leading? cs = some mark := by
  obtain ⟨-, before, after, hall, hbefore⟩ := leading?_eq_some_iff.mp h
  refine leading?_eq_some_iff.mpr ⟨hm, before, after, hall, fun s hs hp => ?_⟩
  exact hbefore s hs (hp.trans (List.prefix_append cs behind))

/-- No symbol goes on with white space. -/
theorem prefix_append_iff (s : Symbol) {c : Char} {cs behind : List Char} (hb : Detached behind) :
    s.spelling <+: c :: cs ++ behind ↔ s.spelling <+: c :: cs := by
  refine ⟨fun h => ?_, fun h => h.trans (List.prefix_append _ _)⟩
  obtain ⟨after, h⟩ := h
  rcases List.append_eq_append_iff.mp h with ⟨cs', hcs, -⟩ | ⟨ds, hs, hbehind⟩
  · exact ⟨cs', hcs.symm⟩
  · cases ds with
    | nil => simp [hs]
    | cons d ds =>
      have htail : s.spelling.tail.any ([' ', '\t', '\r', '\n'].contains ·) = false := by
        cases s <;> decide
      have hd : d ∈ [' ', '\t', '\r', '\n'] := hb d (by simp [hbehind])
      exact absurd hd (by simpa using List.any_eq_false.mp htail d (by simp [hs]))

theorem leading?_append {c : Char} {cs behind : List Char} (hb : Detached behind) :
    leading? (c :: cs ++ behind) = leading? (c :: cs) := by
  unfold leading?
  congr 1
  funext s
  rw [Bool.eq_iff_iff, List.isPrefixOf_iff_prefix, List.isPrefixOf_iff_prefix,
    s.prefix_append_iff hb]

theorem exists_spelling_eq_cons (mark : Symbol) : ∃ c cs, mark.spelling = c :: cs := by
  cases mark <;> exact ⟨_, _, rfl⟩

/-- Every character of a symbol is a symbol by itself. -/
theorem exists_spelling_eq_singleton {mark : Symbol} {c : Char} (hc : c ∈ mark.spelling) :
    ∃ s : Symbol, s.spelling = [c] := by
  have hall : mark.spelling.all (fun c => all.any (·.spelling == [c])) = true := by
    cases mark <;> decide
  obtain ⟨s, -, hs⟩ := List.any_eq_true.mp (List.all_eq_true.mp hall c hc)
  exact ⟨s, by simpa using hs⟩

theorem leading?_eq_none_iff {c : Char} {cs : List Char} :
    leading? (c :: cs) = none ↔ ∀ mark : Symbol, c ∉ mark.spelling := by
  simp only [leading?, List.find?_eq_none, List.isPrefixOf_iff_prefix]
  constructor
  · intro h mark hc
    obtain ⟨s, hs⟩ := exists_spelling_eq_singleton hc
    exact h s s.mem_all (by simp [hs])
  · intro h mark _ hp
    obtain ⟨d, ds, hspell⟩ := mark.exists_spelling_eq_cons
    rw [hspell, List.cons_prefix_cons] at hp
    exact h mark (by simp [hspell, hp.1])

end Symbol

/-! ## What may stand behind a token -/

namespace Longest

variable {kind : Token.Kind} {text rest behind : List Char}

/-- A token stays what it is when the text behind it is cut off. -/
theorem of_append (h : Longest kind text (rest ++ behind)) : Longest kind text rest := by
  cases h with
  | word hstart hchars hrest => exact .word hstart hchars hrest.of_append
  | integer hd hlt hrest => exact .integer hd hlt hrest.of_append
  | fraction hd hp hrest => exact .fraction hd hp hrest.of_append
  | symbol h =>
    rw [← List.append_assoc] at h
    exact .symbol (Symbol.leading?_of_append (List.prefix_append _ _) h)

/-- A token stays what it is when white space is put behind the text. -/
theorem append (h : Longest kind text rest) (hb : Detached behind) :
    Longest kind text (rest ++ behind) := by
  cases h with
  | word hstart hchars hrest =>
    exact .word hstart hchars (hrest.append (hb.ends (by decide)))
  | integer hd hlt hrest => exact .integer hd hlt (hrest.append hb)
  | fraction hd hp hrest => exact .fraction hd hp (hrest.append (hb.ends (by decide)))
  | @symbol mark _ h =>
    obtain ⟨c, cs, hspell⟩ := mark.exists_spelling_eq_cons
    refine .symbol ?_
    rw [← List.append_assoc]
    rw [hspell, List.cons_append] at h ⊢
    rw [Symbol.leading?_append hb, h]

/-- A token is not empty and starts with no blank. -/
theorem exists_cons (h : Longest kind text rest) :
    ∃ c cs, text = c :: cs ∧ isBlank c = false := by
  cases h with
  | word hstart => exact ⟨_, _, rfl, isBlank_eq_false (by decide) hstart⟩
  | integer hd | fraction hd =>
    obtain ⟨c, cs, rfl⟩ := List.exists_cons_of_ne_nil hd.1
    exact ⟨c, _, rfl, isBlank_eq_false (by decide) (hd.2 c List.mem_cons_self)⟩
  | @symbol mark _ _ =>
    have hall : mark.spelling.all (!isBlank ·) = true := by cases mark <;> decide
    obtain ⟨c, cs, hspell⟩ := mark.exists_spelling_eq_cons
    rw [hspell] at hall
    exact ⟨c, cs, hspell, by simpa using List.all_eq_true.mp hall c List.mem_cons_self⟩

theorem spelledBy (h : Longest kind text rest) :
    kind.SpelledBy (String.ofList text) ∧ kind ≠ .eof := by
  cases h with
  | @word c cs _ hstart hchars _ =>
    refine ⟨Token.Kind.spelledBy_ofWord ⟨c, cs, String.toList_ofList, hstart⟩ ?_,
      Token.Kind.ofWord_ne_eof _⟩
    rwa [String.toList_ofList]
  | integer hd hlt =>
    refine ⟨⟨by simpa using hd, ?_⟩, by simp⟩
    rw [String.toList_ofList]
    exact Int64.toInt_ofNat_of_lt hlt
  | fraction hd hp => exact ⟨⟨_, _, rfl, hd, hp, rfl⟩, by simp⟩
  | symbol => exact ⟨rfl, by simp⟩

end Longest

/-- There is no token either with white space behind the text. -/
theorem Stuck.append {cause : LexCause} {text behind : List Char} (h : Stuck cause text)
    (hb : Detached behind) : Stuck cause (text ++ behind) := by
  cases h with
  | character hc => exact .character hc
  | integer hd hrest hlarge =>
    rw [List.append_assoc]
    exact .integer hd (hrest.append hb) hlarge

/-! ## Cutting off a token -/

theorem isDigit_eq_false_of_isWordStart {c : Char} (h : isWordStart c = true) :
    c.isDigit = false := by
  have hA : 'A'.val.toNat = 65 := rfl
  have ha : 'a'.val.toNat = 97 := rfl
  have h9 : '9'.val.toNat = 57 := rfl
  change ((decide ('A'.val ≤ c.val ∧ c.val ≤ 'Z'.val) || 'a'.val ≤ c.val && c.val ≤ 'z'.val) ||
    c == '_') = true at h
  simp only [Bool.or_eq_true, Bool.and_eq_true, decide_eq_true_eq, beq_iff_eq,
    UInt32.le_iff_toNat_le] at h
  simp only [Char.isDigit, Bool.and_eq_false_iff, decide_eq_false_iff_not, ge_iff_le,
    UInt32.le_iff_toNat_le]
  rcases h with (h | h) | rfl
  · omega
  · omega
  · decide

theorem isWordChar_of_isWordStart {c : Char} (h : isWordStart c = true) : isWordChar c = true := by
  simp only [isWordStart, isWordChar, Char.isAlphanum, Bool.or_eq_true] at *
  grind

namespace Lexeme

variable {c : Char} {cs digits places rest : List Char}

/-- Digits with no more of the number behind them. -/
theorem number_eq_integer (hd : IsNumeral digits) (hrest : IntegerEnds rest) :
    number (digits ++ rest) = integer digits rest := by
  obtain ⟨htake, hdrop⟩ := takeWhile_dropWhile_append hd.2 rest hrest.digit
  rw [number, htake, hdrop]
  split
  next d rest' => rw [if_neg (by simp [hrest.point d rest' rfl])]
  next => rfl

/-- Digits, a point and digits with no more of the number behind them. -/
theorem number_eq_fraction (hd : IsNumeral digits) (hp : IsNumeral places)
    (hrest : Ends Char.isDigit rest) :
    number (digits ++ '.' :: (places ++ rest)) = .ok (fraction digits places rest) := by
  obtain ⟨htake, hdrop⟩ := takeWhile_dropWhile_append hd.2 ('.' :: (places ++ rest)) (by
    intro d hd
    cases hd
    rfl)
  obtain ⟨hne, hplaces⟩ := hp
  cases places with
  | nil => exact absurd rfl hne
  | cons d places =>
    obtain ⟨hfirst, hplaces⟩ := List.forall_mem_cons.mp hplaces
    obtain ⟨htake', hdrop'⟩ := takeWhile_dropWhile_append hplaces rest hrest
    rw [number, htake, hdrop]
    simp only [List.cons_append, hfirst, if_true, htake', hdrop']

/-- A text that starts with a digit starts with a number of one of two forms. -/
theorem number_cases (hc : c.isDigit = true) (cs : List Char) :
    (∃ digits rest, c :: cs = digits ++ rest ∧ IsNumeral digits ∧ IntegerEnds rest) ∨
      ∃ digits places rest, c :: cs = digits ++ '.' :: (places ++ rest) ∧ IsNumeral digits ∧
        IsNumeral places ∧ Ends Char.isDigit rest := by
  have hsplit := (List.takeWhile_append_dropWhile (p := Char.isDigit) (l := c :: cs)).symm
  have hdigits := isNumeral_takeWhile hc cs
  have hends := Ends.dropWhile Char.isDigit (c :: cs)
  by_cases hplaces : ∃ d rest, (c :: cs).dropWhile Char.isDigit = '.' :: d :: rest ∧ d.isDigit
  · obtain ⟨d, rest, hdrop, hd⟩ := hplaces
    refine .inr ⟨_, (d :: rest).takeWhile Char.isDigit, (d :: rest).dropWhile Char.isDigit, ?_,
      hdigits, isNumeral_takeWhile hd rest, Ends.dropWhile _ _⟩
    rw [List.takeWhile_append_dropWhile, ← hdrop]
    exact hsplit
  · refine .inl ⟨_, _, hsplit, hdigits, hends, fun d rest hdrop => ?_⟩
    exact Bool.eq_false_iff.mpr fun hd => hplaces ⟨d, rest, hdrop, hd⟩

theorem first_of_isNumeral (hd : IsNumeral digits) (hcs : digits ++ rest = c :: cs) :
    first c cs = number (c :: cs) := by
  obtain ⟨d, ds, rfl⟩ := List.exists_cons_of_ne_nil hd.1
  obtain ⟨rfl, -⟩ := List.cons_eq_cons.mp hcs
  rw [first, if_pos (hd.2 d List.mem_cons_self)]

theorem longest_of_first {l : Lexeme} (h : first c cs = .ok l) :
    l.text ++ l.rest = c :: cs ∧ Longest l.kind l.text l.rest := by
  unfold first at h
  split at h
  next hc =>
    rcases number_cases hc cs with ⟨digits, rest, hcs, hd, hrest⟩ |
      ⟨digits, places, rest, hcs, hd, hp, hrest⟩
    · rw [hcs, number_eq_integer hd hrest, integer] at h
      split at h
      next hlt =>
        cases h
        exact ⟨hcs.symm, .integer hd hlt hrest⟩
      next => cases h
    · rw [hcs, number_eq_fraction hd hp hrest] at h
      cases h
      exact ⟨by simp [hcs, fraction], .fraction hd hp hrest⟩
  next =>
    split at h
    next hw =>
      cases h
      have htake : (c :: cs).takeWhile isWordChar = c :: cs.takeWhile isWordChar := by
        simp [isWordChar_of_isWordStart hw]
      refine ⟨word_append _, ?_⟩
      simp only [word, htake]
      refine .word hw ?_ (Ends.dropWhile _ _)
      rw [← htake]
      exact List.all_eq_true.mp List.all_takeWhile
    next =>
      split at h
      next mark hmark =>
        cases h
        obtain ⟨⟨rest, hcs⟩, -⟩ := Symbol.leading?_eq_some_iff.mp hmark
        rw [← hcs, List.drop_left]
        refine ⟨rfl, .symbol ?_⟩
        rw [hcs, hmark]
      next => cases h

theorem first_of_longest {kind : Token.Kind} {text : List Char} (h : Longest kind text rest)
    (hcs : text ++ rest = c :: cs) : first c cs = .ok ⟨kind, text, rest⟩ := by
  cases h with
  | word hstart hchars hrest =>
    obtain ⟨htake, hdrop⟩ := takeWhile_dropWhile_append hchars rest hrest
    obtain ⟨rfl, rfl⟩ := List.cons_eq_cons.mp hcs
    rw [List.cons_append] at htake hdrop
    simp [first, isDigit_eq_false_of_isWordStart hstart, hstart, word, htake, hdrop]
  | integer hd hlt hrest =>
    rw [first_of_isNumeral hd hcs, ← hcs, number_eq_integer hd hrest, integer, if_pos hlt]
  | fraction hd hp hrest =>
    rw [List.append_assoc, List.cons_append] at hcs
    rw [first_of_isNumeral hd hcs, ← hcs, number_eq_fraction hd hp hrest]
    rfl
  | @symbol mark _ h =>
    have hstart : mark.spelling.head?.all fun c => !c.isDigit && !isWordStart c := by
      cases mark <;> decide
    obtain ⟨d, ds, hspell⟩ := mark.exists_spelling_eq_cons
    rw [hcs] at h
    rw [hspell, List.cons_append, List.cons_eq_cons] at hcs
    obtain ⟨rfl, rfl⟩ := hcs
    simp only [hspell, List.head?_cons, Option.all_some, Bool.and_eq_true, Bool.not_eq_true']
      at hstart
    simp [first, hstart, h, hspell]

/-- The longest token is cut off. -/
theorem first_eq_ok_iff {l : Lexeme} : first c cs = .ok l ↔
    l.text ++ l.rest = c :: cs ∧ Longest l.kind l.text l.rest :=
  ⟨longest_of_first, fun h => first_of_longest h.2 h.1⟩

theorem stuck_of_first {cause : LexCause} (hb : isBlank c = false)
    (h : first c cs = .error cause) : Stuck cause (c :: cs) := by
  unfold first at h
  split at h
  next hc =>
    rcases number_cases hc cs with ⟨digits, rest, hcs, hd, hrest⟩ |
      ⟨digits, places, rest, hcs, hd, hp, hrest⟩
    · rw [hcs, number_eq_integer hd hrest, integer] at h
      split at h
      next => cases h
      next hge =>
        cases h
        rw [hcs]
        refine .integer hd hrest ?_
        have hvalue : decimalValue digits = Nat.ofDigitChars 10 digits 0 := rfl
        rw [integerBound, hvalue] at hge
        omega
    · rw [hcs, number_eq_fraction hd hp hrest] at h
      cases h
  next hdigit =>
    split at h
    next => cases h
    next hword =>
      split at h
      next => cases h
      next hnone =>
        cases h
        simp only [isBlank, isWordStart, Bool.or_eq_false_iff, Bool.not_eq_true,
          beq_eq_false_iff_ne, and_assoc] at hb hword hdigit
        exact .character ⟨hword.1, hdigit, hword.2, hb, Symbol.leading?_eq_none_iff.mp hnone⟩

theorem first_of_stuck {cause : LexCause} (h : Stuck cause (c :: cs)) :
    first c cs = .error cause := by
  generalize hcs : c :: cs = text at h
  cases h with
  | character hc =>
    obtain ⟨rfl, rfl⟩ := List.cons_eq_cons.mp hcs
    have hword : isWordStart c = false := by simp [isWordStart, hc.letter, hc.underscore]
    simp [first, hc.digit, hword, Symbol.leading?_eq_none_iff.mpr hc.symbol]
  | @integer digits _ hd hrest hlarge =>
    have hvalue : decimalValue digits = Nat.ofDigitChars 10 digits 0 := rfl
    rw [first_of_isNumeral hd hcs.symm, hcs, number_eq_integer hd hrest, integer, if_neg]
    rw [integerBound, hvalue]
    omega

/-- There is an error exactly if no token stands at the start of the text. -/
theorem first_eq_error_iff {cause : LexCause} (hb : isBlank c = false) :
    first c cs = .error cause ↔ Stuck cause (c :: cs) :=
  ⟨stuck_of_first hb, first_of_stuck⟩

end Lexeme

/-! ## Whole texts -/

/-- Spaces, tabs and carriage returns, any number of them. -/
def IsGap (gap : List Char) : Prop := ∀ c ∈ gap, c = ' ' ∨ c = '\t' ∨ c = '\r'

section

variable {gap : List Char} (hgap : IsGap gap) (here : Cursor)
include hgap

theorem IsGap.isBlank : ∀ c ∈ gap, isBlank c = true :=
  fun c hc => isBlank_iff.mpr (hgap c hc)

theorem lexFrom_gap : lexFrom here gap = .ok [⟨.eof, (here.advance gap).span []⟩] := by
  obtain ⟨htake, hdrop⟩ := takeWhile_dropWhile_append hgap.isBlank [] (by simp)
  rw [List.append_nil] at htake hdrop
  rw [lexFrom]
  split
  next => rw [htake]
  next c rest hcs => simp [hdrop] at hcs

/-- Behind a gap a token is cut off, and then the rest of the text is read. -/
theorem lexFrom_cons {c : Char} {cs : List Char} (hc : isBlank c = false) :
    lexFrom here (gap ++ c :: cs) = do
      let l ← (Lexeme.first c cs).mapError fun cause => ⟨cause, (here.advance gap).span []⟩
      let tokens ← lexFrom ((here.advance gap).advance l.text) l.rest
      return ⟨l.kind, (here.advance gap).span l.text⟩ :: tokens := by
  obtain ⟨htake, hdrop⟩ := takeWhile_dropWhile_append hgap.isBlank (c :: cs) (by simpa using hc)
  rw [lexFrom]
  split
  next hnil => simp [hdrop] at hnil
  next c' cs' hcons =>
    obtain ⟨rfl, rfl⟩ := List.cons_eq_cons.mp (hdrop.symm.trans hcons)
    rw [htake]
    split
    next cause hfirst =>
      rw [hfirst]
      rfl
    next l hfirst =>
      rw [hfirst]
      change _ = (lexFrom ((here.advance gap).advance l.text) l.rest >>= fun tokens => pure _)
      cases lexFrom ((here.advance gap).advance l.text) l.rest <;> rfl

theorem lexFrom_of_longest {kind : Token.Kind} {text rest : List Char}
    (h : Longest kind text rest) : lexFrom here (gap ++ (text ++ rest)) = do
      let tokens ← lexFrom ((here.advance gap).advance text) rest
      return ⟨kind, (here.advance gap).span text⟩ :: tokens := by
  obtain ⟨c, cs, rfl, hc⟩ := h.exists_cons
  rw [List.cons_append, lexFrom_cons hgap here hc, Lexeme.first_of_longest h List.cons_append]
  rfl

theorem lexFrom_of_stuck {cause : LexCause} {c : Char} {cs : List Char} (hc : isBlank c = false)
    (h : Stuck cause (c :: cs)) :
    lexFrom here (gap ++ c :: cs) = .error ⟨cause, (here.advance gap).span []⟩ := by
  rw [lexFrom_cons hgap here hc, Lexeme.first_of_stuck h]
  rfl

end

/-- Every text is a gap, or a gap and then text that starts with no token, or a gap and then a token
and then a text. -/
@[elab_as_elim]
theorem lexing_induction {motive : List Char → Prop}
    (blank : ∀ gap, IsGap gap → motive gap)
    (stuck : ∀ gap cause c cs, IsGap gap → isBlank c = false → Stuck cause (c :: cs) →
      motive (gap ++ c :: cs))
    (token : ∀ gap kind text rest, IsGap gap → Longest kind text rest → motive rest →
      motive (gap ++ (text ++ rest)))
    (cs : List Char) : motive cs := by
  have hsplit := List.takeWhile_append_dropWhile (p := isBlank) (l := cs)
  have hgap : IsGap (cs.takeWhile isBlank) :=
    fun c hc => isBlank_iff.mp (List.all_eq_true.mp List.all_takeWhile c hc)
  cases hdrop : cs.dropWhile isBlank with
  | nil =>
    rw [hdrop, List.append_nil] at hsplit
    exact hsplit ▸ blank _ hgap
  | cons c rest =>
    have hc := head_of_dropWhile hdrop
    rw [hdrop] at hsplit
    cases hfirst : Lexeme.first c rest with
    | error cause => exact hsplit ▸ stuck _ cause c rest hgap hc (Lexeme.stuck_of_first hc hfirst)
    | ok l =>
      obtain ⟨htext, hlongest⟩ := Lexeme.longest_of_first hfirst
      rw [← htext] at hsplit
      exact hsplit ▸ token _ _ _ _ hgap hlongest (lexing_induction blank stuck token l.rest)
termination_by cs.length
decreasing_by
  have := Lexeme.length_rest_lt hfirst
  have := length_lt_of_dropWhile hdrop
  simp only [List.length_cons] at *
  omega

end ProcLang
