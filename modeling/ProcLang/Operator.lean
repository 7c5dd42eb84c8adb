import ProcLang.Token

/-!
# Binary operators
-/
namespace ProcLang

/-- The binary operators of expressions. There are two divisions, one of floats and one of
integers. -/
inductive Operator where
  | add
  | sub
  | mul
  | fdiv
  | idiv
  | lt
  | gt
  | eq
deriving DecidableEq, Repr

namespace Operator

/-- The spelling of an operator. -/
def text : Operator → String
  | .add => "+"
  | .sub => "-"
  | .mul => "*"
  | .fdiv => "/"
  | .idiv => "//"
  | .lt => "<"
  | .gt => ">"
  | .eq => "=="

/-- How tightly an operator binds; all operators associate to the left. -/
def precedence : Operator → Nat
  | .lt | .gt | .eq => 1
  | .add | .sub => 2
  | .mul | .fdiv | .idiv => 3

/-- The operator that a symbol stands for. -/
def ofSymbol? : Symbol → Option Operator
  | .plus => some .add
  | .minus => some .sub
  | .star => some .mul
  | .slash => some .fdiv
  | .doubleSlash => some .idiv
  | .less => some .lt
  | .greater => some .gt
  | .doubleEquals => some .eq
  | _ => none

/-- The symbol of an operator. -/
def symbol : Operator → Symbol
  | .add => .plus
  | .sub => .minus
  | .mul => .star
  | .fdiv => .slash
  | .idiv => .doubleSlash
  | .lt => .less
  | .gt => .greater
  | .eq => .doubleEquals

@[simp] theorem ofSymbol?_symbol (o : Operator) : ofSymbol? o.symbol = some o := by
  cases o <;> rfl

/-- The name of an operator in dumps. -/
def dump : Operator → Dump
  | .add => .atom "Add"
  | .sub => .atom "Sub"
  | .mul => .atom "Mul"
  | .fdiv => .atom "FDiv"
  | .idiv => .atom "IDiv"
  | .lt => .atom "Lt"
  | .gt => .atom "Gt"
  | .eq => .atom "Eq"

end Operator
end ProcLang
