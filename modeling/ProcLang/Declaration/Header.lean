import ProcLang.ParseError
import ProcLang.Stmt

/-!
# Function headers

The tokens between the `::` and the `{` of a function are its parameters, each a type and a name,
and behind an `->` its result types, each with a name that is not used. Line feeds do not count.
-/
namespace ProcLang.Header

/-- One parameter. `before` is where an empty parameter is reported. -/
def parseParam (function : String) (before : Option Token) :
    List Token → Except ParseError Param
  | [ty, name] =>
    match ty.kind, name.kind with
    | .type t, .ident n => .ok ⟨n, t⟩
    | _, _ => .error ⟨.malformedParam function, some ty.pos⟩
  | ts => .error ⟨.danglingParam function, (ts.head? <|> before).map Token.pos⟩

/-- The parameters; a header may have none. -/
def parseParams (function : String) (before : Option Token) :
    List Token → Except ParseError (List Param)
  | [] => .ok []
  | ts => (ts.splitOnP (·.isSymbol .comma)).mapM (parseParam function before)

/-- One result type. `behind` is where an empty one is reported. -/
def parseReturn (function : String) (behind : Option Token) :
    List Token → Except ParseError Ty
  | [ty] =>
    match ty.kind with
    | .type t => .ok t
    | _ => .error ⟨.malformedReturn function, some ty.pos⟩
  | [ty, name] =>
    match ty.kind, name.kind with
    | .type t, .ident _ => .ok t
    | _, _ => .error ⟨.malformedReturn function, some ty.pos⟩
  | ts => .error ⟨.danglingReturn function, (ts.head? <|> behind).map Token.pos⟩

/-- The result types behind an `->`; there has to be one. -/
def parseReturns (function : String) (behind : Option Token) (ts : List Token) :
    Except ParseError (List Ty) :=
  (ts.splitOnP (·.isSymbol .comma)).mapM (parseReturn function behind)

/-- The parameters and result types of a header. -/
def parse (function : String) (ts : List Token) : Except ParseError (List Param × List Ty) :=
  let header := ts.filter (!·.isSymbol .lineBreak)
  match header.splitOnP (·.isSymbol .arrow) with
  | [] => .ok ([], [])
  | [params] => do
    let params ← parseParams function header.head? params
    return (params, [])
  | [params, returns] => do
    let params ← parseParams function header.head? params
    let returns ← parseReturns function header.getLast? returns
    return (params, returns)
  | _ :: _ :: extra :: _ =>
    .error ⟨.repeatedArrow function, (extra.head? <|> header.getLast?).map Token.pos⟩

end ProcLang.Header
