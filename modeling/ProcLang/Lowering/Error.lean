import ProcLang.Diagnostic
import ProcLang.Expr
import ProcLang.IR.Error

/-!
# Why a program has no intermediate code
-/
namespace ProcLang

/-- What is wrong with a program whose tokens are in order. -/
inductive LoweringCause where
  /-- An operation on the intermediate code failed. -/
  | ir (e : IR.Error)
  | repeatedParam (param function : String)
  | functionAsValue (name : String)
  | unresolvedVariable (name : String)
  | variableAsFunction (name : String)
  | unresolvedFunction (name : String)
  | argumentCount (function : String) (expected given : Nat)
  /-- A call that gives no value, used as one. -/
  | voidAsValue (function : String)
  /-- A return or an assignment, used as a value. -/
  | notAValue (e : Expr)
  | valueFromVoid

namespace LoweringCause

/-- The kind of fault. -/
def kind : LoweringCause → Diagnostic.Kind
  | .ir _ | .repeatedParam _ _ | .argumentCount _ _ _ | .valueFromVoid => .generation
  | .unresolvedVariable _ | .unresolvedFunction _ => .unresolvedSymbol
  | .functionAsValue _ | .variableAsFunction _ | .voidAsValue _ | .notAValue _ =>
    .unsupportedExpression

/-- What is wrong, in words. -/
def message : LoweringCause → String
  | .ir e => e.message
  | .repeatedParam param function =>
    s!"Parameter \"{param}\" declared multiple times in function \"{function}\"."
  | .functionAsValue name => s!"Function \"{name}\" can't be used as a value."
  | .unresolvedVariable name => s!"Unable to resolve symbol \"{name}\"."
  | .variableAsFunction name => s!"\"{name}\" is a variable, not a function."
  | .unresolvedFunction name => s!"Unable to resolve function \"{name}\"."
  | .argumentCount function expected given =>
    s!"Function \"{function}\" takes {expected} arguments, was given {given}."
  | .voidAsValue function =>
    s!"Call to function \"{function}\" returning void used as a value."
  | .notAValue e => s!"Expression can't be used as a value: {e.text}"
  | .valueFromVoid => "Returning a value from a function returning void."

end LoweringCause

/-- A fault in a program, and where it is. -/
structure LoweringError where
  cause : LoweringCause
  pos : Option Position

/-- The report of a fault in a program. -/
def LoweringError.diagnostic (e : LoweringError) : Diagnostic :=
  ⟨e.cause.kind, e.cause.message, e.pos⟩

end ProcLang
