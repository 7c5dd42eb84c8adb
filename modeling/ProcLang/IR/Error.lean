import ProcLang.IR.Instr

/-!
# Why intermediate code cannot be built
-/
namespace ProcLang.IR

namespace Error

/-- The kinds of fault. -/
inductive Kind where
  | terminated
  | typeMismatch
  | argCount
  | lookup
deriving DecidableEq, Repr

/-- The name of a kind in messages. -/
def Kind.name : Kind → String
  | .terminated => "Terminated"
  | .typeMismatch => "TypeMismatch"
  | .argCount => "ArgCount"
  | .lookup => "Lookup"

end Error

/-- What is wrong with an operation on intermediate code. -/
inductive Error where
  /-- An operation that defines a value, on a block that has ended. -/
  | resultInClosed (op : Operation) (label : String)
  | instrInClosed (instr : Instr) (label : String)
  | terminatorInClosed (terminator : Terminator) (label : String)
  | notPointer (ty : Ty)
  | storeMismatch (value target : Ty)
  | operandMismatch (lhs rhs : Ty)
  | invalidOperand (op : Arith) (ty : Ty)
  | notComparable (ty : Ty)
  | argumentCount (function : String) (expected given : Nat)
  | argumentType (index : Nat) (function : String) (given expected : Ty)
  | notConvertible (source target : Ty)
  | conditionType (ty : Ty)
  | returnType (given : Ty) (function : String) (expected : Ty)
  | returnVoid (function : String) (expected : Ty)
  | missingBlock (block : Nat) (function : String)
  | missingFunction (id : Nat)
  | duplicateFunction (function : String)
deriving DecidableEq

namespace Error

/-- The kind of fault. -/
def kind : Error → Kind
  | .resultInClosed _ _ | .instrInClosed _ _ | .terminatorInClosed _ _ => .terminated
  | .argumentCount _ _ _ => .argCount
  | .missingBlock _ _ | .missingFunction _ | .duplicateFunction _ => .lookup
  | .notPointer _ | .storeMismatch _ _ | .operandMismatch _ _ | .invalidOperand _ _
  | .notComparable _ | .argumentType _ _ _ _ | .notConvertible _ _ | .conditionType _
  | .returnType _ _ _ | .returnVoid _ _ => .typeMismatch

/-- What is wrong, in words. -/
def message : Error → String
  | .resultInClosed op label =>
    s!"Tried to add {op.dump.inline} to block \"{label}\" which is already terminated."
  | .instrInClosed instr label =>
    s!"Tried to add \"{instr.text}\" to block \"{label}\" which is already terminated."
  | .terminatorInClosed terminator label =>
    s!"Tried to add \"{terminator.text}\" to block \"{label}\" which is already terminated."
  | .notPointer ty => s!"Expected value of pointer type, was {ty.text}."
  | .storeMismatch value target =>
    s!"Tried to store value of type {value.text} into pointer to {target.text}."
  | .operandMismatch lhs rhs => s!"Operands have different types: {lhs.text} and {rhs.text}."
  | .invalidOperand op ty => s!"Invalid operand type {ty.text} for {op.name}."
  | .notComparable ty => s!"Unable to compare values of type {ty.text}."
  | .argumentCount function expected given =>
    s!"Function \"{function}\" takes {expected} arguments, was given {given}."
  | .argumentType index function given expected =>
    s!"Argument {index} to function \"{function}\" is of type {given.text}, expected " ++
      s!"{expected.text}."
  | .notConvertible source target =>
    s!"Unable to cast value of type {source.text} to {target.text}."
  | .conditionType ty => s!"Condition of branch must be of type i1, was {ty.text}."
  | .returnType given function expected =>
    s!"Tried to return value of type {given.text} from function \"{function}\" returning " ++
      s!"{expected.text}."
  | .returnVoid function expected =>
    s!"Tried to return void from function \"{function}\" returning {expected.text}."
  | .missingBlock block function =>
    s!"Unable to find block {block} in function \"{function}\"."
  | .missingFunction id => s!"Unable to find function with ID {id}."
  | .duplicateFunction function => s!"Function with name \"{function}\" already exists."

/-- The line a user reads. -/
def text (e : Error) : String := e.kind.name ++ ": " ++ e.message

end Error
end ProcLang.IR
