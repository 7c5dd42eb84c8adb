import ProcLang.IR.Ty
import ProcLang.Literal

/-!
# Operands of intermediate code

A value is the result of an instruction, a parameter or a constant, together with its type.
Constants can be converted before the program runs: `Value.fold`.
-/
namespace ProcLang.IR

/-- What an operand is. -/
inductive Value.Kind where
  /-- The result of an instruction, numbered within its function. -/
  | temp (index : Nat)
  | param (name : String)
  | const (value : Literal)
deriving DecidableEq

/-- An operand and its type. -/
structure Value where
  kind : Value.Kind
  ty : Ty
deriving DecidableEq

/-- An integer as the type `t` holds it: 32 bits wrap around. -/
def Ty.narrowInt (t : Ty) (v : Int64) : Int64 :=
  match t with
  | .i32 => v.toInt32.toInt64
  | _ => v

/-- A float as the type `t` holds it: single precision rounds. -/
def Ty.narrowFloat (t : Ty) (v : Double) : Double :=
  match t with
  | .float => v.roundSingle
  | _ => v

namespace Value

/-- An integer constant. -/
def int (v : Int64) (ty : Ty) : Value := ⟨.const (.int v), ty⟩

/-- A float constant. -/
def float (v : Double) (ty : Ty) : Value := ⟨.const (.float v), ty⟩

/-- A truth value. -/
def bool (v : Bool) : Value := ⟨.const (.bool v), .i1⟩

/-- The constant of a literal: integers and floats have 64 bits. -/
def ofLiteral : Literal → Value
  | .int v => int v .i64
  | .float v => float v .double
  | .bool v => bool v

/-- The spelling of a value. Float constants are written by their bits, after rounding to their
type. -/
def text (v : Value) : String :=
  match v.kind with
  | .temp n => s!"%tmp.{n}"
  | .param name => "%" ++ name
  | .const (.int i) => toString i.toInt
  | .const (.bool b) => Literal.boolText b
  | .const (.float x) => (v.ty.narrowFloat x).hex

/-- A value behind its type. -/
def typed (v : Value) : String := v.ty.text ++ " " ++ v.text

/-- The kind of a value laid open. -/
def Kind.dump : Kind → Dump
  | .temp n => .tuple "Tmp" [.atom (toString n)]
  | .param name => .tuple "Param" [.string name]
  | .const (.int i) => .tuple "ConstInt" [.atom (toString i.toInt)]
  | .const (.float x) => .tuple "ConstFloat" [.atom x.text]
  | .const (.bool b) => .tuple "ConstBool" [.atom (Literal.boolText b)]

/-- A value laid open. -/
def dump (v : Value) : Dump := .record "Value" [("kind", v.kind.dump), ("ty", v.ty.dump)]

/-- Whether a literal counts as true: anything but zero. -/
def truth : Literal → Bool
  | .int v => v != 0
  | .float v => !v.isZero
  | .bool v => v

/-- A literal as a whole number. -/
def toInt : Literal → Int64
  | .int v => v
  | .float v => v.toInt64
  | .bool v => if v then 1 else 0

/-- A literal as a double. -/
def toDouble : Literal → Double
  | .int v => .ofInt v.toInt
  | .float v => v
  | .bool v => .ofInt (if v then 1 else 0)

/-- A constant converted to another type; `none` for what is no constant or no number type. -/
def fold (v : Value) (ty : Ty) : Option Value :=
  match v.kind with
  | .const c =>
    if ty.isBool then some (bool (truth c))
    else if ty.isInt then some (int (ty.narrowInt (toInt c)) ty)
    else if ty.isFloat then some (float (ty.narrowFloat (toDouble c)) ty)
    else none
  | _ => none

end Value
end ProcLang.IR
