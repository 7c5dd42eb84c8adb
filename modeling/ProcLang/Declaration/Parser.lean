import ProcLang.Declaration.Header
import ProcLang.Stmt.Parser

/-!
# Programs from tokens

A program is a sequence of functions with nothing but line feeds and semicolons between them.
-/
namespace ProcLang

/-- The function whose tokens, from its name to its last brace, are given. -/
def Declaration.parse (o : Outline) (function : String) (ts : List Token) :
    Except ParseError Declaration :=
  let pos := ts.head?.map Token.pos
  match ts.dropWhile (!·.opensBlock) with
  | [] => .error ⟨.missingBody function, pos⟩
  | _ :: inner => do
    let (params, returns) ← Header.parse function ((ts.takeWhile (!·.opensBlock)).drop 2)
    let body ← Stmt.parse o inner.dropLast
    return ⟨function, params, returns, body, pos⟩

/-- Refuses tokens outside of all functions that are not mere breaks. -/
def Outline.checkOutside (o : Outline) (ts : List Token) : Except ParseError Unit :=
  match (o.outside ts).find? fun t => !t.isBreak && !t.isEof with
  | some t => .error ⟨.tokenOutside t, some t.pos⟩
  | none => .ok ()

/-- The program that the tokens spell. -/
def Program.parse (ts : List Token) : Except ParseError Program := do
  let outline ← Outline.scan ts
  outline.checkOutside ts
  outline.entries.mapM fun e => Declaration.parse outline e.name (e.tokens ts)

end ProcLang
