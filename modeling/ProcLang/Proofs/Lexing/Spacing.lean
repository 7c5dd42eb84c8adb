import ProcLang.Proofs.Lexing.Longest

/-!
# Tokens that stand apart

Tokens can be written one after the other with blanks between them. Whatever the tokens and the
blanks are, the text falls into these tokens again: a blank ends every word and every number, and it
goes on with no symbol, so that the longest token that fits is the one that was written.

## Main definitions

* `Spaced` — the texts in which tokens of given kinds stand apart.

## Main statements

* `Longest.of_spelledBy` — a token in front of a gap is the longest one there.
* `kinds_lex_of_spaced` — tokens that stand apart are found again.
-/
namespace ProcLang

/-- `Spaced kinds text`: tokens of these kinds stand in the text one after the other. Each of them
has a gap behind it, which is not empty if another token follows. -/
inductive Spaced : List Token.Kind → List Char → Prop where
  | nil : Spaced [] []
  | cons {kind : Token.Kind} {kinds : List Token.Kind} {text gap rest : List Char}
      (hkind : kind ≠ .eof) (hs : kind.SpelledBy (String.ofList text)) (hgap : IsGap gap)
      (hne : kinds ≠ [] → gap ≠ []) (h : Spaced kinds rest) :
      Spaced (kind :: kinds) (text ++ (gap ++ rest))

theorem Detached.append {gap rest : List Char} (hgap : IsGap gap) (hne : rest ≠ [] → gap ≠ []) :
    Detached (gap ++ rest) := by
  intro c hc
  cases gap with
  | nil =>
    by_cases hrest : rest = []
    · simp [hrest] at hc
    · exact absurd rfl (hne hrest)
  | cons d gap =>
    have hd := hgap d List.mem_cons_self
    simp only [List.cons_append, List.head?_cons, Option.mem_def, Option.some.injEq] at hc
    grind

/-! ## Words -/

theorem Token.Kind.ofWord_of_isIdentifier {word : String} (h : IsIdentifier word) :
    ofWord word = .ident word := by
  have hkeyword : Keyword.ofWord? word = none := by
    cases hk : Keyword.ofWord? word with
    | none => rfl
    | some k =>
      rw [Keyword.eq_text_of_ofWord? hk] at h
      exact absurd (by cases k <;> decide) h.free
  have hty : Ty.ofWord? word = none := by
    cases ht : Ty.ofWord? word with
    | none => rfl
    | some ty =>
      rw [Ty.eq_text_of_ofWord? ht] at h
      exact absurd (by cases ty <;> decide) h.free
  have htrue : word ≠ "true" := by
    rintro rfl
    exact h.free (by decide)
  have hfalse : word ≠ "false" := by
    rintro rfl
    exact h.free (by decide)
  simp [ofWord, hkeyword, hty]

/-! ## Tokens -/

namespace Longest

variable {rest : List Char}

/-- A reserved word in front of a gap. -/
theorem of_reserved {word : String} {text : List Char} (hw : word ∈ reservedWords)
    (htext : String.ofList text = word) (hrest : Detached rest) :
    Longest (.ofWord word) text rest := by
  have hword : ∀ w ∈ reservedWords, w.toList ≠ [] ∧ w.toList.head?.all isWordStart = true ∧
      w.toList.all isWordChar = true := by decide
  subst htext
  obtain ⟨hne, hstart, hchars⟩ := hword _ hw
  rw [String.toList_ofList] at hne hstart hchars
  obtain ⟨c, cs, rfl⟩ := List.exists_cons_of_ne_nil hne
  exact .word hstart (List.all_eq_true.mp hchars) (hrest.ends (by decide))

/-- Digits in front of a gap are a whole number. -/
theorem of_integer {v : Int64} {digits : List Char} (hd : IsNumeral digits)
    (hv : v.toInt = Nat.ofDigitChars 10 digits 0) (hrest : Detached rest) :
    Longest (.literal (.int v)) digits rest := by
  have hvalue : decimalValue digits = Nat.ofDigitChars 10 digits 0 := rfl
  have hlt : decimalValue digits < integerBound := by
    have := v.toInt_lt
    rw [integerBound]
    omega
  have heq : v = Int64.ofNat (decimalValue digits) := by
    apply Int64.toInt_inj.mp
    rw [Int64.toInt_ofNat_of_lt hlt, hv, hvalue]
  rw [heq]
  exact .integer hd hlt hrest.integerEnds

/-- No symbol goes on behind a gap. -/
theorem of_symbol (mark : Symbol) (hrest : Detached rest) :
    Longest (.symbol mark) mark.spelling rest := by
  refine .symbol ?_
  obtain ⟨c, cs, hspell⟩ := mark.exists_spelling_eq_cons
  have hmark : Symbol.leading? mark.spelling = some mark := by cases mark <;> rfl
  rw [hspell] at hmark ⊢
  rw [Symbol.leading?_append hrest, hmark]

/-- A token in front of a gap is the longest one there. -/
theorem of_spelledBy {kind : Token.Kind} {text : List Char} (hkind : kind ≠ .eof)
    (hs : kind.SpelledBy (String.ofList text)) (hrest : Detached rest) :
    Longest kind text rest := by
  cases kind with
  | ident name =>
    obtain ⟨rfl, hname⟩ := hs
    obtain ⟨c, cs, htext, hc⟩ := hname.start
    have hchars := hname.chars
    rw [← Token.Kind.ofWord_of_isIdentifier hname]
    rw [String.toList_ofList] at htext hchars
    subst htext
    exact .word hc hchars (hrest.ends (by decide))
  | literal value =>
    cases value with
    | int v =>
      obtain ⟨hd, hv⟩ := hs
      rw [String.toList_ofList] at hd hv
      exact .of_integer hd hv hrest
    | float x =>
      obtain ⟨digits, places, htext, hd, hp, rfl⟩ := hs
      obtain rfl := String.ofList_injective htext
      exact .fraction hd hp (hrest.ends (by decide))
    | bool b => cases b <;> exact of_reserved (by decide) hs hrest
  | type ty => cases ty <;> exact of_reserved (by decide) hs hrest
  | keyword word => cases word <;> exact of_reserved (by decide) hs hrest
  | symbol mark =>
    obtain rfl := String.ofList_injective hs
    exact of_symbol mark hrest
  | eof => exact absurd rfl hkind

end Longest

/-! ## Texts -/

/-- The tokens are found again, wherever the text starts and whatever gap is in front of it. -/
theorem Spaced.lexFrom {kinds : List Token.Kind} {text gap : List Char} (h : Spaced kinds text)
    (hgap : IsGap gap) (here : Cursor) : ∃ tokens, lexFrom here (gap ++ text) = .ok tokens ∧
      tokens.map (·.kind) = kinds ++ [.eof] := by
  induction h generalizing gap here with
  | nil =>
    rw [List.append_nil, lexFrom_gap hgap here]
    exact ⟨_, rfl, rfl⟩
  | @cons kind kinds text behind rest hkind hs hbehind hne h ih =>
    have hrest : Detached (behind ++ rest) := by
      apply Detached.append hbehind
      intro hrest
      apply hne
      rintro rfl
      cases h
      exact hrest rfl
    obtain ⟨tokens, htokens, hkinds⟩ := ih hbehind ((here.advance gap).advance text)
    rw [lexFrom_of_longest hgap here (.of_spelledBy hkind hs hrest), htokens]
    exact ⟨_, rfl, by simp [hkinds]⟩

/-- Tokens that stand apart are found again, each of its kind and with nothing between them. -/
theorem kinds_lex_of_spaced {before text : List Char} {kinds : List Token.Kind}
    (hbefore : IsGap before) (h : Spaced kinds text) :
    ∃ tokens, lex (String.ofList (before ++ text)) = .ok tokens ∧
      tokens.map (·.kind) = kinds ++ [.eof] := by
  rw [lex, String.toList_ofList]
  exact h.lexFrom hbefore .start

/-- Neighbours that would be one token without a blank between them. -/
def spacedSample : List Token.Kind :=
  [.symbol .colon, .symbol .equals, .keyword .if, .ident "f", .literal (.int 7),
    .literal (.float (.ofDecimal 250 2)), .symbol .lineBreak]

theorem kinds_lex_spacedSample : Spaced spacedSample ": =\tif f 007\r2.50 \n".toList ∧
    ∃ tokens, lex "  : =\tif f 007\r2.50 \n" = .ok tokens ∧
      tokens.map (·.kind) = spacedSample ++ [.eof] := by
  have hspace : IsGap [' '] := by simp [IsGap]
  have htab : IsGap ['\t'] := by simp [IsGap]
  have hreturn : IsGap ['\r'] := by simp [IsGap]
  have hname : IsIdentifier "f" := ⟨⟨'f', [], rfl, rfl⟩, by simp [isWordChar], by decide⟩
  have hseven : Literal.SpelledBy (.int 7) "007" := ⟨by simp [IsNumeral], by decide⟩
  have hfloat : Literal.SpelledBy (.float (.ofDecimal 250 2)) "2.50" :=
    ⟨['2'], ['5', '0'], rfl, by simp [IsNumeral], by simp [IsNumeral], rfl⟩
  have hsample : Spaced spacedSample ": =\tif f 007\r2.50 \n".toList := by
    change Spaced spacedSample ([':'] ++ ([' '] ++ (['='] ++ (['\t'] ++ (['i', 'f'] ++ ([' '] ++
      (['f'] ++ ([' '] ++ (['0', '0', '7'] ++ (['\r'] ++ (['2', '.', '5', '0'] ++ ([' '] ++
        (['\n'] ++ ([] ++ []))))))))))))))
    refine .cons (by simp) rfl hspace (by simp) (.cons (by simp) rfl htab (by simp) ?_)
    refine .cons (by simp) rfl hspace (by simp) (.cons (by simp) ⟨rfl, hname⟩ hspace (by simp) ?_)
    refine .cons (by simp) hseven hreturn (by simp) (.cons (by simp) hfloat hspace (by simp) ?_)
    exact .cons (by simp) rfl (by simp [IsGap]) (by simp) .nil
  have hbefore : IsGap [' ', ' '] := by simp [IsGap]
  have hlex := kinds_lex_of_spaced hbefore hsample
  have hsource : String.ofList ([' ', ' '] ++ ": =\tif f 007\r2.50 \n".toList) =
      "  : =\tif f 007\r2.50 \n" := by decide +kernel
  rw [hsource] at hlex
  exact ⟨hsample, hlex⟩

end ProcLang
