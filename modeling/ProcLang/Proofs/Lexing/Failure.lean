import ProcLang.Proofs.Lexing.Spans

/-!
# Where a text is refused

A text is refused at the first place where no token stands. All in front of that place is read
already, and it is read in the same way if the text ends there.

## Main definitions

* `LexError.Localizes` — an error that points at the place where a text cannot be read on.

## Main statements

* `localizes_of_lex` — errors of texts point there.
-/
namespace ProcLang

/-- The error is at a place of the text up to which the text can be read, and where no token
stands. -/
structure LexError.Localizes (source : String) (e : LexError) : Prop where
  report : e.diagnostic.kind = .lexical ∧ e.diagnostic.pos = some e.pos
  length : e.pos.length = 0
  place : ∃ before after, source = before ++ after ∧ before.utf8ByteSize = e.pos.offset ∧
    (∃ tokens, lex before = .ok (tokens ++ [⟨.eof, e.pos⟩])) ∧ Stuck e.cause after.toList

/-- All in front of an error can be read, also if the text ends at the error. -/
theorem exists_of_lexFrom_eq_error {here : Cursor} {cs : List Char} {e : LexError}
    (h : lexFrom here cs = .error e) : ∃ before after tokens, cs = before ++ after ∧
      e.pos = (here.advance before).span [] ∧
      lexFrom here before = .ok (tokens ++ [⟨.eof, e.pos⟩]) ∧ Stuck e.cause after := by
  induction cs using lexing_induction generalizing here with
  | blank gap hgap =>
    rw [lexFrom_gap hgap] at h
    cases h
  | stuck gap cause c cs hgap hc hstuck =>
    rw [lexFrom_of_stuck hgap here hc hstuck] at h
    cases h
    exact ⟨gap, c :: cs, [], rfl, rfl, lexFrom_gap hgap here, hstuck⟩
  | token gap kind text rest hgap hlongest ih =>
    rw [lexFrom_of_longest hgap here hlongest] at h
    cases hrest : lexFrom ((here.advance gap).advance text) rest with
    | ok tokens =>
      rw [hrest] at h
      cases h
    | error e' =>
      rw [hrest] at h
      cases h
      obtain ⟨before, after, tokens, rfl, hpos, hlex, hstuck⟩ := ih hrest
      -- The token is the same one in front of `before` alone.
      refine ⟨gap ++ (text ++ before), after, ⟨kind, (here.advance gap).span text⟩ :: tokens,
        by simp, ?_, ?_, hstuck⟩
      · rw [hpos, Cursor.advance_append, Cursor.advance_append]
      · rw [lexFrom_of_longest hgap here hlongest.of_append, hlex]
        rfl

/-- An error points at the place where the text cannot be read on. -/
theorem localizes_of_lex {source : String} {e : LexError} (h : lex source = .error e) :
    e.Localizes source := by
  obtain ⟨before, after, tokens, hsource, hpos, hlex, hstuck⟩ := exists_of_lexFrom_eq_error h
  refine ⟨⟨rfl, rfl⟩, by simp [hpos], String.ofList before, String.ofList after, ?_, ?_, ?_, ?_⟩
  · rw [← String.ofList_append, ← hsource, String.ofList_toList]
  · rw [hpos, Cursor.offset_span, Cursor.advance_start]
  · exact ⟨tokens, by rw [lex, String.toList_ofList, hlex]⟩
  · rwa [String.toList_ofList]

/-- A number that is too large, on the second line and with a point behind it. -/
theorem localizes_largeNumber :
    lex "x\n 9223372036854775808.y" =
      .error ⟨.integerTooLarge "9223372036854775808", ⟨3, 0, 2, 2⟩⟩ ∧
    LexError.Localizes "x\n 9223372036854775808.y"
      ⟨.integerTooLarge "9223372036854775808", ⟨3, 0, 2, 2⟩⟩ := by
  have h : lex "x\n 9223372036854775808.y" =
      .error ⟨.integerTooLarge "9223372036854775808", ⟨3, 0, 2, 2⟩⟩ := by
    decide +kernel
  exact ⟨h, localizes_of_lex h⟩

end ProcLang
