import ProcLang.Expr.Parser
import ProcLang.ListLemmas
import ProcLang.Stmt

/-!
# Statements from tokens

Statements end at a line feed or semicolon, conditionals at the brace that closes their last
block. A block is cut out of the tokens by counting braces before it is read, so reading goes on
with strictly fewer tokens in the block and behind it.

## Main definitions

* `splitBlock` — the tokens of a block and those behind it.
* `Stmt.parseSimple` — a statement without blocks.
* `Stmt.parse`, `Conditional.parse` — statement lists and conditionals.
-/
namespace ProcLang

/-- The tokens before and behind the brace that closes a block in which `depth` inner blocks are
open; `none` if there is no such brace. -/
def splitBlock (depth : Nat) : List Token → Option (List Token × List Token)
  | [] => none
  | t :: ts =>
    if t.isSymbol .braceClose then
      match depth with
      | 0 => some ([], ts)
      | depth + 1 => (splitBlock depth ts).map fun (body, rest) => (t :: body, rest)
    else
      (splitBlock (if t.isSymbol .braceOpen then depth + 1 else depth) ts).map
        fun (body, rest) => (t :: body, rest)

theorem splitBlock_length {depth : Nat} {ts body rest : List Token}
    (h : splitBlock depth ts = some (body, rest)) : ts.length = body.length + rest.length + 1 := by
  induction ts generalizing depth body with
  | nil => simp [splitBlock] at h
  | cons t ts ih =>
    unfold splitBlock at h
    split at h
    · split at h
      · cases h
        simp
      · obtain ⟨⟨inner, tail⟩, hs, heq⟩ := Option.map_eq_some_iff.mp h
        cases heq
        have := ih hs
        grind
    · obtain ⟨⟨inner, tail⟩, hs, heq⟩ := Option.map_eq_some_iff.mp h
      cases heq
      have := ih hs
      grind

/-- The parts of the tokens between the commas that stand outside of all parentheses, when
`depth` parentheses are open at the start. -/
def splitCommas (depth : Int) : List Token → List (List Token)
  | [] => [[]]
  | t :: ts =>
    if t.isSymbol .comma && depth == 0 then [] :: splitCommas depth ts
    else
      let depth :=
        if t.isSymbol .parenOpen then depth + 1
        else if t.isSymbol .parenClose then depth - 1
        else depth
      match splitCommas depth ts with
      | [] => [[t]]
      | part :: parts => (t :: part) :: parts

namespace Stmt

/-- The values behind a `return`. -/
def parseValues (o : Outline) : List Token → Except ParseError (List Expr)
  | [] => .ok []
  | ts => (splitCommas 0 ts).mapM (Expr.parse o)

/-- A statement without blocks. Its leading tokens decide what it is: a return, a new variable
with or without a type, or an expression. -/
def parseSimple (o : Outline) (ts : List Token) : Except ParseError Expr :=
  match ts with
  | ⟨.keyword .return, pos⟩ :: values =>
    (parseValues o values).map (.return · (some pos))
  | ⟨.ident name, pos⟩ :: ⟨.symbol .assign, _⟩ :: value =>
    (Expr.parse o value).map (.assign name none · (some pos))
  | ⟨.type ty, pos⟩ :: ⟨.ident name, _⟩ :: ⟨.symbol .equals, _⟩ :: value
  | ⟨.type ty, pos⟩ :: ⟨.ident name, _⟩ :: ⟨.symbol .assign, _⟩ :: value =>
    (Expr.parse o value).map (.assign name (some ty) · (some pos))
  | ts => Expr.parse o ts

end Stmt

/-- A result together with tokens that are left over, fewer than `n`. -/
abbrev Parsed (α : Type) (n : Nat) : Type := α × { rest : List Token // rest.length < n }

/-- Whether a token opens a block. -/
def Token.opensBlock (t : Token) : Bool := t.isSymbol .braceOpen

mutual

/-- The statements that the tokens spell. -/
def Stmt.parse (o : Outline) (ts : List Token) : Except ParseError (List Stmt) :=
  match _h : ts.dropWhile Token.isBreak with
  | [] => .ok []
  | t :: rest =>
    if t.isKeyword .if then
      match Conditional.parse o t.pos rest with
      | .error e => .error e
      | .ok (conditional, ⟨rest, _⟩) => (Stmt.parse o rest).map (.branch conditional :: ·)
    else if t.isKeyword .else then .error ⟨.strayElse, some t.pos⟩
    else
      match Stmt.parseSimple o (t :: rest.takeWhile (!·.isBreak)) with
      | .error e => .error e
      | .ok value => (Stmt.parse o (rest.dropWhile (!·.isBreak))).map (.expr value :: ·)
termination_by ts.length
decreasing_by
  all_goals
    have hlt := length_lt_of_dropWhile _h
    have hrest := length_dropWhile_le (fun t : Token => !t.isBreak) rest
    omega

/-- The conditional whose `if` stands at `pos` and whose guard starts the tokens. Line feeds in
the guard do not count. -/
def Conditional.parse (o : Outline) (pos : Position) (ts : List Token) :
    Except ParseError (Parsed Conditional ts.length) :=
  match _h : ts.dropWhile (!·.opensBlock) with
  | [] => .error ⟨.missingBraceOpen, some pos⟩
  | brace :: inner =>
    match Expr.parse o ((ts.takeWhile (!·.opensBlock)).filter (!·.isSymbol .lineBreak)) with
    | .error e => .error e
    | .ok guard =>
      match _hs : splitBlock 0 inner with
      | none => .error ⟨.unclosedBrace, some brace.pos⟩
      | some (block, behind) =>
        match Stmt.parse o block with
        | .error e => .error e
        | .ok body =>
          match Otherwise.parse o behind with
          | .error e => .error e
          | .ok (otherwise, ⟨rest, hrest⟩) =>
            .ok (⟨guard, body, otherwise, some pos⟩, ⟨rest, by
              have hlt := length_lt_of_dropWhile _h
              have hsplit := splitBlock_length _hs
              omega⟩)
termination_by ts.length
decreasing_by
  all_goals
    have hlt := length_lt_of_dropWhile _h
    have hsplit := splitBlock_length _hs
    omega

/-- What follows the block of a conditional: an `else` after any number of line feeds, or
nothing, in which case no token is used up. -/
def Otherwise.parse (o : Outline) (ts : List Token) :
    Except ParseError (Parsed Otherwise (ts.length + 1)) :=
  match _h : ts.dropWhile (·.isSymbol .lineBreak) with
  | [] => .ok (.nothing, ⟨ts, by omega⟩)
  | t :: behind =>
    if t.isKeyword .else then
      match behind with
      | [] => .error ⟨.missingElseBody, some t.pos⟩
      | next :: rest =>
        if next.isKeyword .if then
          match Conditional.parse o next.pos rest with
          | .error e => .error e
          | .ok (conditional, ⟨left, hleft⟩) =>
            .ok (.chain conditional, ⟨left, by
              have hlt := length_lt_of_dropWhile _h
              simp only [List.length_cons] at hlt
              omega⟩)
        else if next.opensBlock then
          match _hs : splitBlock 0 rest with
          | none => .error ⟨.unclosedBrace, some next.pos⟩
          | some (block, left) =>
            match Stmt.parse o block with
            | .error e => .error e
            | .ok body => .ok (.block body, ⟨left, by
                have hlt := length_lt_of_dropWhile _h
                have hsplit := splitBlock_length _hs
                simp only [List.length_cons] at hlt
                omega⟩)
        else .error ⟨.missingElseBody, some t.pos⟩
    else .ok (.nothing, ⟨ts, by omega⟩)
termination_by ts.length
decreasing_by
  all_goals
    have hlt := length_lt_of_dropWhile _h
    simp only [List.length_cons] at hlt
  · omega
  · have hsplit := splitBlock_length _hs
    omega

end

end ProcLang
