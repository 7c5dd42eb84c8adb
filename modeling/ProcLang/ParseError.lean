import ProcLang.Diagnostic
import ProcLang.Operator

/-!
# Why tokens are no program
-/
namespace ProcLang

/-- What is wrong with the tokens of a program. A function is named where the fault is in its
header. -/
inductive ParseCause where
  | duplicateFunction (function : String)
  /-- A second `::` before the body. -/
  | headerInHeader (function : String)
  | missingFunctionName
  | bodyWithoutHeader
  | strayBraceClose
  | unclosedFunction (function : String)
  | tokenOutside (token : Token)
  | missingBody (function : String)
  | repeatedArrow (function : String)
  | malformedParam (function : String)
  | danglingParam (function : String)
  | malformedReturn (function : String)
  | danglingReturn (function : String)
  | strayElse
  /-- No `{` behind the guard of a conditional. -/
  | missingBraceOpen
  | unclosedBrace
  | missingElseBody
  | unsupportedSymbol (symbol : Symbol)
  | unsupportedToken (token : Token)
  /-- A `)` or `,` that no `(` goes with. -/
  | strayParenClose
  | unclosedParen
  | missingOperand (op : Operator)
  | tooFewArguments (function : String) (arity found : Nat)
  /-- The tokens spell no expression, or more than one. -/
  | notOneExpression (found : Nat)
deriving DecidableEq

namespace ParseCause

/-- The kind of fault. -/
def kind : ParseCause → Diagnostic.Kind
  | .duplicateFunction _ | .headerInHeader _ | .missingFunctionName | .bodyWithoutHeader
  | .tokenOutside _ | .missingBody _ | .repeatedArrow _ | .malformedParam _ | .danglingParam _
  | .malformedReturn _ | .danglingReturn _ => .malformedHeader
  | .strayBraceClose | .unclosedFunction _ | .missingBraceOpen | .unclosedBrace
  | .strayParenClose | .unclosedParen => .unbalancedBracket
  | .strayElse | .missingElseBody | .unsupportedSymbol _ | .unsupportedToken _ =>
    .unsupportedExpression
  | .missingOperand _ | .tooFewArguments _ _ _ | .notOneExpression _ => .ambiguousResolution

/-- What is wrong, in words. -/
def message : ParseCause → String
  | .duplicateFunction f => s!"Function with name \"{f}\" already exists."
  | .headerInHeader f => s!"Found \"::\" inside the header of function \"{f}\"."
  | .missingFunctionName => "Expected function to start with name."
  | .bodyWithoutHeader => "Found function body without a function header."
  | .strayBraceClose => "Found \"\x7d\" without a matching \"\x7b\"."
  | .unclosedFunction f => s!"Body of function \"{f}\" is never closed."
  | .tokenOutside t => s!"Found token outside of a function: {t.text}"
  | .missingBody f => s!"Function \"{f}\" has no body."
  | .repeatedArrow f => s!"Found multiple \"->\" in header of function \"{f}\"."
  | .malformedParam f =>
    s!"Expected parameter of the form \"<type> <name>\" in function \"{f}\"."
  | .danglingParam f => s!"Dangling parameter in header of function \"{f}\"."
  | .malformedReturn f =>
    s!"Expected return of the form \"<type> [<name>]\" in function \"{f}\"."
  | .danglingReturn f => s!"Dangling return type in header of function \"{f}\"."
  | .strayElse => "Found \"else\" without a preceding \"if\"."
  | .missingBraceOpen => "Expected \"\x7b\" after if condition."
  | .unclosedBrace => "Found \"\x7b\" without a matching \"\x7d\"."
  | .missingElseBody => "Expected \"if\" or \"\x7b\" after \"else\"."
  | .unsupportedSymbol s => s!"Unsupported symbol in expression: {s.name}"
  | .unsupportedToken t => s!"Parsed invalid token during expression: {t.text}"
  | .strayParenClose => "Found \")\" or \",\" without a matching \"(\"."
  | .unclosedParen => "Found \"(\" without a matching \")\"."
  | .missingOperand op => s!"Missing operand for operator \"{op.text}\"."
  | .tooFewArguments f arity found =>
    s!"Function \"{f}\" takes {arity} arguments, found {found}."
  | .notOneExpression found =>
    s!"Not one expression left at end of rev_polish_to_expr, amount: {found}"

end ParseCause

/-- A fault in the tokens of a program, and where it is. -/
structure ParseError where
  cause : ParseCause
  pos : Option Position
deriving DecidableEq

/-- The report of a fault in the tokens of a program. -/
def ParseError.diagnostic (e : ParseError) : Diagnostic := ⟨e.cause.kind, e.cause.message, e.pos⟩

end ProcLang
