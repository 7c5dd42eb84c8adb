import ProcLang.Proofs.Lexing.Spans

/-!
# Line by line

No token goes over a line feed, so a text can be read in two parts, one up to a line feed and one
behind it. The tokens behind it are those of the second part alone, moved by the bytes and the lines
of the first.

## Main definitions

* `Position.moved`, `Token.moved`, `LexError.moved` — the same further down in a text.

## Main statements

* `lexFrom_moved` — a text has the same tokens wherever it starts.
* `lex_append_line` — the tokens of two texts with a line feed between them.
-/
namespace ProcLang

/-- A position with more bytes and more lines in front of it. -/
def Position.moved (bytes lines : Nat) (p : Position) : Position :=
  { p with offset := p.offset + bytes, line := p.line + lines }

/-- A token with more bytes and more lines in front of it. -/
def Token.moved (bytes lines : Nat) (t : Token) : Token := ⟨t.kind, t.pos.moved bytes lines⟩

/-- An error with more bytes and more lines in front of it. -/
def LexError.moved (bytes lines : Nat) (e : LexError) : LexError :=
  ⟨e.cause, e.pos.moved bytes lines⟩

namespace Cursor

/-- A place with more bytes and more lines in front of it. -/
def moved (bytes lines : Nat) (p : Cursor) : Cursor :=
  { p with offset := p.offset + bytes, line := p.line + lines }

variable (bytes lines : Nat) (p : Cursor)

theorem step_moved (c : Char) : (p.moved bytes lines).step c = (p.step c).moved bytes lines := by
  unfold step
  split <;> simp [moved, Nat.add_right_comm]

theorem advance_moved (cs : List Char) :
    (p.moved bytes lines).advance cs = (p.advance cs).moved bytes lines := by
  induction cs generalizing p with
  | nil => rfl
  | cons c cs ih => rw [advance_cons, step_moved, ih, advance_cons]

theorem span_moved (cs : List Char) :
    (p.moved bytes lines).span cs = (p.span cs).moved bytes lines := by
  rw [span, advance_moved]
  simp only [span, moved, Position.moved, Position.mk.injEq, true_and, and_true]
  omega

end Cursor

/-- A text has the same tokens wherever it starts. -/
theorem lexFrom_moved (bytes lines : Nat) (here : Cursor) (cs : List Char) :
    lexFrom (here.moved bytes lines) cs = do
      let tokens ← (lexFrom here cs).mapError (·.moved bytes lines)
      return tokens.map (·.moved bytes lines) := by
  induction cs using lexing_induction generalizing here with
  | blank gap hgap =>
    rw [lexFrom_gap hgap, lexFrom_gap hgap, Cursor.advance_moved, Cursor.span_moved]
    rfl
  | stuck gap cause c cs hgap hc h =>
    rw [lexFrom_of_stuck hgap _ hc h, lexFrom_of_stuck hgap _ hc h, Cursor.advance_moved,
      Cursor.span_moved]
    rfl
  | token gap kind text rest hgap h ih =>
    rw [lexFrom_of_longest hgap _ h, lexFrom_of_longest hgap _ h, Cursor.advance_moved,
      Cursor.advance_moved, Cursor.span_moved, ih]
    cases lexFrom ((here.advance gap).advance text) rest <;> rfl

/-- A text is read up to the line feed and then from there on. -/
theorem lexFrom_append_line (here : Cursor) (a b : List Char) :
    lexFrom here (a ++ '\n' :: b) = do
      let ts ← lexFrom here a
      let us ← lexFrom (here.advance (a ++ ['\n'])) b
      return ts.filter (!·.isEof) ++
        ⟨.symbol .lineBreak, (here.advance a).span ['\n']⟩ :: us := by
  have hdetached : Detached ('\n' :: b) := by simp [Detached]
  induction a using lexing_induction generalizing here with
  | blank gap hgap =>
    have hbreak : Longest (.symbol .lineBreak) ['\n'] b := .symbol rfl
    rw [← List.singleton_append, lexFrom_of_longest hgap here hbreak, lexFrom_gap hgap here,
      Cursor.advance_append]
    rfl
  | stuck gap cause c cs hgap hc h =>
    have h' : Stuck cause (c :: (cs ++ '\n' :: b)) := h.append hdetached
    rw [List.append_assoc, List.cons_append, lexFrom_of_stuck hgap here hc h',
      lexFrom_of_stuck hgap here hc h]
    rfl
  | token gap kind text rest hgap h ih =>
    have hkind : kind ≠ .eof := h.spelledBy.2
    rw [List.append_assoc, List.append_assoc, lexFrom_of_longest hgap here (h.append hdetached), ih,
      lexFrom_of_longest hgap here h]
    cases lexFrom ((here.advance gap).advance text) rest with
    | error e => rfl
    | ok ts =>
      have hfilter (p : Position) : (⟨kind, p⟩ :: ts).filter (!·.isEof) =
          ⟨kind, p⟩ :: ts.filter (!·.isEof) := by
        simp [Token.isEof, hkind]
      simp only [Cursor.advance_append]
      change _ = (lexFrom _ b >>= fun us => pure ((_ :: ts).filter (!·.isEof) ++ _ :: us))
      simp only [hfilter]
      cases lexFrom ((((here.advance gap).advance text).advance rest).advance ['\n']) b <;> rfl

/-- The tokens of two texts with a line feed between them are the tokens of the first without its
end, the line feed, and the tokens of the second further down. If the first text is refused, so are
both, for the same reason and at the same place; if only the second is, its error is further
down. -/
theorem lex_append_line (a b : String) :
    lex (a ++ "\n" ++ b) = do
      let bytes := a.utf8ByteSize
      let lines := a.toList.count '\n'
      let column := (a.toList.reverse.takeWhile (· != '\n')).length
      let ts ← lex a
      let us ← (lex b).mapError (·.moved (bytes + 1) (lines + 1))
      return ts.filter (!·.isEof) ++
        ⟨.symbol .lineBreak, ⟨bytes, 1, 1 + lines, 1 + column⟩⟩ ::
          us.map (·.moved (bytes + 1) (lines + 1)) := by
  have hsize : '\n'.utf8Size = 1 := rfl
  have hnext : Cursor.start.advance (a.toList ++ ['\n']) =
      Cursor.start.moved (a.utf8ByteSize + 1) (a.toList.count '\n' + 1) := by
    rw [Cursor.advance_append, Cursor.advance_start]
    simp [Cursor.step, Cursor.start, Cursor.moved, hsize, Nat.add_comm]
  have hbreak : (Cursor.start.advance a.toList).span ['\n'] = ⟨a.utf8ByteSize, 1,
      1 + a.toList.count '\n', 1 + (a.toList.reverse.takeWhile (· != '\n')).length⟩ := by
    simp [Cursor.span, Cursor.advance_start, Cursor.step, hsize]
  have hsource : (a ++ "\n" ++ b).toList = a.toList ++ '\n' :: b.toList := by simp
  rw [lex, hsource, lexFrom_append_line, hnext, lexFrom_moved, hbreak]
  simp only [bind_assoc, pure_bind]
  rfl

end ProcLang
