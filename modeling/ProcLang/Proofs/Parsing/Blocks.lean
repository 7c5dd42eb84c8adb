import ProcLang.Stmt.Parser

/-!
# Reading statements with blocks

The readers of statements and conditionals call each other and carry proofs that tokens are used
up. Here they are without these proofs: one equation for each reader, in which what is left over is
a list of tokens.

## Main definitions

* `Conditional.read`, `Otherwise.read` — what is read, and the tokens that are left over.

## Main statements

* `Stmt.parse_eq`, `Conditional.read_eq`, `Otherwise.read_eq` — the equations of the readers.
-/
namespace ProcLang

/-- The conditional whose `if` stands at `pos`, and the tokens behind it. -/
def Conditional.read (o : Outline) (pos : Position) (ts : List Token) :
    Except ParseError (Conditional × List Token) :=
  (Conditional.parse o pos ts).map fun (c, rest) => (c, rest.1)

/-- What follows the block of a conditional, and the tokens behind it. -/
def Otherwise.read (o : Outline) (ts : List Token) :
    Except ParseError (Otherwise × List Token) :=
  (Otherwise.parse o ts).map fun (other, rest) => (other, rest.1)

section Equations

variable (o : Outline) (pos : Position) (ts : List Token)

theorem Stmt.parse_eq : Stmt.parse o ts =
    match ts.dropWhile Token.isBreak with
    | [] => .ok []
    | t :: rest =>
      if t.isKeyword .if then do
        let (c, left) ← Conditional.read o t.pos rest
        let ss ← Stmt.parse o left
        return .branch c :: ss
      else if t.isKeyword .else then .error ⟨.strayElse, some t.pos⟩
      else do
        let value ← Stmt.parseSimple o (t :: rest.takeWhile (!·.isBreak))
        let ss ← Stmt.parse o (rest.dropWhile (!·.isBreak))
        return .expr value :: ss := by
  conv => lhs; unfold Stmt.parse
  split
  next h => rw [h]
  next t rest h =>
    rw [h]
    simp only [Conditional.read]
    split
    · cases Conditional.parse o t.pos rest with
      | error e => rfl
      | ok r => rfl
    · split
      · rfl
      · cases Stmt.parseSimple o (t :: rest.takeWhile (!·.isBreak)) with
        | error e => rfl
        | ok value => rfl

theorem Conditional.read_eq : Conditional.read o pos ts =
    match ts.dropWhile (!·.opensBlock) with
    | [] => .error ⟨.missingBraceOpen, some pos⟩
    | brace :: inner => do
      let guard ← Expr.parse o ((ts.takeWhile (!·.opensBlock)).filter (!·.isSymbol .lineBreak))
      match splitBlock 0 inner with
      | none => .error ⟨.unclosedBrace, some brace.pos⟩
      | some (block, behind) => do
        let body ← Stmt.parse o block
        let (other, rest) ← Otherwise.read o behind
        return (⟨guard, body, other, some pos⟩, rest) := by
  unfold Conditional.read Conditional.parse
  split
  next h =>
    conv => rhs; rw [h]
    rfl
  next brace inner h =>
    conv => rhs; rw [h]
    cases Expr.parse o ((ts.takeWhile (!·.opensBlock)).filter (!·.isSymbol .lineBreak)) with
    | error e => rfl
    | ok guard =>
      simp only [bind, Except.bind]
      split
      next hs =>
        conv => rhs; rw [hs]
        rfl
      next block behind hs =>
        conv => rhs; rw [hs]
        simp only
        cases Stmt.parse o block with
        | error e => rfl
        | ok body =>
          simp only [Otherwise.read]
          cases Otherwise.parse o behind with
          | error e => rfl
          | ok r => rfl

theorem Otherwise.read_eq : Otherwise.read o ts =
    match ts.dropWhile (·.isSymbol .lineBreak) with
    | [] => .ok (.nothing, ts)
    | t :: behind =>
      if t.isKeyword .else then
        match behind with
        | [] => .error ⟨.missingElseBody, some t.pos⟩
        | next :: rest =>
          if next.isKeyword .if then do
            let (c, left) ← Conditional.read o next.pos rest
            return (.chain c, left)
          else if next.opensBlock then
            match splitBlock 0 rest with
            | none => .error ⟨.unclosedBrace, some next.pos⟩
            | some (inner, left) => do
              let body ← Stmt.parse o inner
              return (.block body, left)
          else .error ⟨.missingElseBody, some t.pos⟩
      else .ok (.nothing, ts) := by
  unfold Otherwise.read Otherwise.parse
  split
  next h =>
    conv => rhs; rw [h]
    rfl
  next t behind h =>
    conv => rhs; rw [h]
    simp only
    split
    · cases behind with
      | nil => rfl
      | cons next rest =>
        simp only
        split
        · simp only [Conditional.read]
          cases Conditional.parse o next.pos rest with
          | error e => rfl
          | ok r => rfl
        · split
          · split
            next hs =>
              conv => rhs; rw [hs]
              rfl
            next inner left hs =>
              conv => rhs; rw [hs]
              simp only
              cases Stmt.parse o inner with
              | error e => rfl
              | ok body => rfl
          · rfl
    · rfl

end Equations

end ProcLang
