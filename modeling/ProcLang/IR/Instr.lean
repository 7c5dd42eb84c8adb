import ProcLang.IR.Value

/-!
# Instructions

An `Operation` computes or stores; an `Instr` is an operation with the value it defines, if any. A
`Terminator` ends a block.
-/
namespace ProcLang.IR

/-- Arithmetic on two operands of one type. -/
inductive Arith where
  | add
  | sub
  | mul
  | fdiv
  | sdiv
deriving DecidableEq, Repr

/-- Comparisons of two operands of one type. -/
inductive Relation where
  | eq
  | ne
  | lt
  | gt
deriving DecidableEq, Repr

/-- Conversions from one type to another. -/
inductive Conversion where
  | sext
  | zext
  | trunc
  | fpext
  | fptrunc
  | sitofp
  | uitofp
  | fptosi
deriving DecidableEq, Repr

namespace Arith

/-- The name in messages. -/
def name : Arith → String
  | .add => "Add"
  | .sub => "Sub"
  | .mul => "Mul"
  | .fdiv => "FDiv"
  | .sdiv => "SDiv"

/-- The mnemonic on operands of type `ty`. -/
def mnemonic (op : Arith) (ty : Ty) : String :=
  match op, ty.isFloat with
  | .add, false => "add"
  | .add, true => "fadd"
  | .sub, false => "sub"
  | .sub, true => "fsub"
  | .mul, false => "mul"
  | .mul, true => "fmul"
  | .fdiv, _ => "fdiv"
  | .sdiv, _ => "sdiv"

/-- Whether operands may have type `ty`. -/
def accepts (op : Arith) (ty : Ty) : Bool :=
  match op with
  | .add | .sub | .mul => ty.isNumber
  | .fdiv => ty.isFloat
  | .sdiv => ty.isInt

end Arith

namespace Relation

/-- The name in messages. -/
def name : Relation → String
  | .eq => "Eq"
  | .ne => "Ne"
  | .lt => "Lt"
  | .gt => "Gt"

/-- The mnemonic on operands of type `ty`. Truth values are ordered as unsigned numbers. -/
def mnemonic (op : Relation) (ty : Ty) : String :=
  if ty.isFloat then
    match op with
    | .eq => "fcmp oeq"
    | .ne => "fcmp une"
    | .lt => "fcmp olt"
    | .gt => "fcmp ogt"
  else if ty.isBool then
    match op with
    | .eq => "icmp eq"
    | .ne => "icmp ne"
    | .lt => "icmp ult"
    | .gt => "icmp ugt"
  else
    match op with
    | .eq => "icmp eq"
    | .ne => "icmp ne"
    | .lt => "icmp slt"
    | .gt => "icmp sgt"

end Relation

namespace Conversion

/-- The name in messages. -/
def name : Conversion → String
  | .sext => "SExt"
  | .zext => "ZExt"
  | .trunc => "Trunc"
  | .fpext => "FPExt"
  | .fptrunc => "FPTrunc"
  | .sitofp => "SIToFP"
  | .uitofp => "UIToFP"
  | .fptosi => "FPToSI"

/-- The mnemonic. -/
def mnemonic : Conversion → String
  | .sext => "sext"
  | .zext => "zext"
  | .trunc => "trunc"
  | .fpext => "fpext"
  | .fptrunc => "fptrunc"
  | .sitofp => "sitofp"
  | .uitofp => "uitofp"
  | .fptosi => "fptosi"

/-- The conversion between two different types, if there is one. -/
def between? (source target : Ty) : Option Conversion :=
  if source.isBool && target.isInt then some .zext
  else if source.isInt && target.isInt then
    some (if source.width < target.width then .sext else .trunc)
  else if source.isFloat && target.isFloat then
    some (if source.width < target.width then .fpext else .fptrunc)
  else if source.isInt && target.isFloat then some .sitofp
  else if source.isBool && target.isFloat then some .uitofp
  else if source.isFloat && target.isInt then some .fptosi
  else none

end Conversion

/-- What an instruction does. -/
inductive Operation where
  /-- Storage for one value of a type. -/
  | alloca (ty : Ty)
  | load (ptr : Value)
  | store (value ptr : Value)
  | arith (op : Arith) (lhs rhs : Value)
  | compare (op : Relation) (lhs rhs : Value)
  | call (function : String) (ret : Ty) (args : List Value)
  | cast (op : Conversion) (value : Value) (ty : Ty)
deriving DecidableEq

namespace Operation

/-- Operands behind their types, separated by commas. -/
def typedList (vs : List Value) : String := Dump.separated (vs.map Value.typed)

/-- The text of an operation. -/
def text : Operation → String
  | .alloca ty => "alloca " ++ ty.text
  | .load ptr => "load " ++ (ptr.ty.target?.getD .void).text ++ ", " ++ ptr.typed
  | .store value ptr => "store " ++ value.typed ++ ", " ++ ptr.typed
  | .arith op lhs rhs => op.mnemonic lhs.ty ++ " " ++ lhs.typed ++ ", " ++ rhs.text
  | .compare op lhs rhs => op.mnemonic lhs.ty ++ " " ++ lhs.typed ++ ", " ++ rhs.text
  | .call function ret args =>
    "call " ++ ret.text ++ " @" ++ function ++ "(" ++ typedList args ++ ")"
  | .cast op value ty => op.mnemonic ++ " " ++ value.typed ++ " to " ++ ty.text

/-- An operation laid open. -/
def dump : Operation → Dump
  | .alloca ty => .tuple "Alloca" [ty.dump]
  | .load ptr => .tuple "Load" [ptr.dump]
  | .store value ptr => .tuple "Store" [value.dump, ptr.dump]
  | .arith op lhs rhs => .tuple "BinOp" [.atom op.name, lhs.dump, rhs.dump]
  | .compare op lhs rhs => .tuple "Cmp" [.atom op.name, lhs.dump, rhs.dump]
  | .call function ret args =>
    .tuple "Call" [.string function, ret.dump, .list (args.map Value.dump)]
  | .cast op value ty => .tuple "Cast" [.atom op.name, value.dump, ty.dump]

/-- The operands of an operation. -/
def operands : Operation → List Value
  | .alloca _ => []
  | .load ptr => [ptr]
  | .store value ptr => [value, ptr]
  | .arith _ lhs rhs | .compare _ lhs rhs => [lhs, rhs]
  | .call _ _ args => args
  | .cast _ value _ => [value]

end Operation

/-- An operation with the value that it defines. -/
structure Instr where
  result : Option Value
  op : Operation
deriving DecidableEq

/-- The text of an instruction. -/
def Instr.text (i : Instr) : String :=
  match i.result with
  | some v => v.text ++ " = " ++ i.op.text
  | none => i.op.text

/-- How a block ends. Blocks are named by their labels. -/
inductive Terminator where
  | ret (value : Option Value)
  | br (target : String)
  | brIf (cond : Value) (yes no : String)
  | unreachable
deriving DecidableEq

namespace Terminator

/-- The text of a terminator. -/
def text : Terminator → String
  | .ret (some v) => "ret " ++ v.typed
  | .ret none => "ret void"
  | .br target => "br label %" ++ target
  | .brIf cond yes no => "br " ++ cond.typed ++ ", label %" ++ yes ++ ", label %" ++ no
  | .unreachable => "unreachable"

/-- The labels that a terminator may go on to. -/
def targets : Terminator → List String
  | .ret _ | .unreachable => []
  | .br target => [target]
  | .brIf _ yes no => [yes, no]

/-- The operands of a terminator. -/
def operands : Terminator → List Value
  | .ret value => value.toList
  | .br _ | .unreachable => []
  | .brIf cond _ _ => [cond]

end Terminator
end ProcLang.IR
