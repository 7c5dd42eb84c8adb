import ProcLang.Lowering.Frame

/-!
# Lowering of expressions

The operands of a binary expression are converted to a common type. The operands of a call are
converted to the types of the parameters.
-/
namespace ProcLang

/-- The type that values of a declared type have. -/
def Ty.lower : Ty → IR.Ty
  | .i32 => .i32
  | .i64 => .i64
  | .f32 => .float
  | .f64 => .double
  | .bool => .i1

namespace Operator

/-- The type that operands of types `l` and `r` are converted to. Truth values are computed with
and ordered as integers. -/
def operandTy (op : Operator) (l r : IR.Ty) : IR.Ty :=
  match op with
  | .fdiv => l.unifyFloat r
  | .idiv => l.unifyInt r
  | .add | .sub | .mul | .lt | .gt =>
    let ty := l.unify r
    if ty.isBool then .i64 else ty
  | .eq => l.unify r

/-- The instruction of an operator on operands of one type. -/
def emit (op : Operator) (lhs rhs : IR.Value) (code : IR.Function) (block : Nat) :
    Except IR.Error (IR.Value × IR.Function) :=
  match op with
  | .add => code.arith block .add lhs rhs
  | .sub => code.arith block .sub lhs rhs
  | .mul => code.arith block .mul lhs rhs
  | .fdiv => code.arith block .fdiv lhs rhs
  | .idiv => code.arith block .sdiv lhs rhs
  | .lt => code.compare block .lt lhs rhs
  | .gt => code.compare block .gt lhs rhs
  | .eq => code.compare block .eq lhs rhs

end Operator

namespace Lower

/-- The value of a variable. -/
def readVar (name : String) (pos : Option Position) : Lower IR.Value := do
  match ← lookup? name with
  | some (.slot storage) => build pos fun code block => code.load block storage
  | some (.function _) => fail (.functionAsValue name) pos
  | none => fail (.unresolvedVariable name) pos

/-- The function that a call with `count` arguments is to. -/
def callee (name : String) (count : Nat) (pos : Option Position) : Lower IR.Signature := do
  match ← lookup? name with
  | some (.function signature) =>
    if signature.params.length = count then return signature
    else fail (.argumentCount name signature.params.length count) pos
  | some (.slot _) => fail (.variableAsFunction name) pos
  | none => fail (.unresolvedFunction name) pos

/-- A call, given how to lower its `count` arguments for parameters of given types. -/
def call (name : String) (count : Nat) (pos : Option Position)
    (arguments : List IR.Ty → Lower (List IR.Value)) : Lower (Option IR.Value) := do
  let signature ← callee name count pos
  let args ← arguments signature.params
  build pos fun code block => code.call block signature args

/-- A binary operation on two values. -/
def binary (op : Operator) (lhs rhs : IR.Value) (pos : Option Position) : Lower IR.Value := do
  let ty := op.operandTy lhs.ty rhs.ty
  let lhs ← cast pos lhs ty
  let rhs ← cast pos rhs ty
  build pos (op.emit lhs rhs)

mutual

/-- The value of an expression. -/
def expr : Expr → Lower IR.Value
  | .literal value _ => return .ofLiteral value
  | .var name pos => readVar name pos
  | .binary op lhs rhs pos => do
    let l ← expr lhs
    let r ← expr rhs
    binary op l r pos
  | .call name args pos => do
    match ← call name args.length pos (fun tys => exprs args tys) with
    | some value => return value
    | none => fail (.voidAsValue name) pos
  | .return values pos => fail (.notAValue (.return values pos)) pos
  | .assign name ty value pos => fail (.notAValue (.assign name ty value pos)) pos

/-- The values of expressions, converted to the given types. -/
def exprs : List Expr → List IR.Ty → Lower (List IR.Value)
  | e :: es, ty :: tys => do
    let value ← expr e
    let value ← cast e.pos value ty
    let values ← exprs es tys
    return value :: values
  | _, _ => return []

end

end Lower
end ProcLang
