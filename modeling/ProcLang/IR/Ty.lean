import ProcLang.Text.Dump

/-!
# Types of intermediate code
-/
namespace ProcLang.IR

/-- The types of intermediate values. -/
inductive Ty where
  | void
  | i1
  | i32
  | i64
  | float
  | double
  | ptr (target : Ty)
deriving DecidableEq, Inhabited, Repr

namespace Ty

/-- The spelling of a type; what a pointer points to is not shown. -/
def text : Ty → String
  | .void => "void"
  | .i1 => "i1"
  | .i32 => "i32"
  | .i64 => "i64"
  | .float => "float"
  | .double => "double"
  | .ptr _ => "ptr"

/-- A type laid open. -/
def dump : Ty → Dump
  | .void => .atom "Void"
  | .i1 => .atom "I1"
  | .i32 => .atom "I32"
  | .i64 => .atom "I64"
  | .float => .atom "F32"
  | .double => .atom "F64"
  | .ptr target => .tuple "Pointer" [target.dump]

/-- The integers that can be computed with; truth values are none. -/
def isInt : Ty → Bool
  | .i32 | .i64 => true
  | _ => false

def isFloat : Ty → Bool
  | .float | .double => true
  | _ => false

def isBool : Ty → Bool
  | .i1 => true
  | _ => false

def isNumber (t : Ty) : Bool := t.isInt || t.isFloat

def isPtr : Ty → Bool
  | .ptr _ => true
  | _ => false

def isVoid : Ty → Bool
  | .void => true
  | _ => false

/-- What a pointer points to. -/
def target? : Ty → Option Ty
  | .ptr target => some target
  | _ => none

/-- The size of a number or truth value in bits. -/
def bits? : Ty → Option Nat
  | .i1 => some 1
  | .i32 | .float => some 32
  | .i64 | .double => some 64
  | .void | .ptr _ => none

/-- The size in bits, zero for what has none. -/
def width (t : Ty) : Nat := t.bits?.getD 0

/-- The wider of two types, the first one if they are equally wide. -/
def wider (l r : Ty) : Ty := if l.width < r.width then r else l

/-- The common type of two operands: a float if one of them is, else the wider one. -/
def unify (l r : Ty) : Ty :=
  match l.isFloat, r.isFloat with
  | true, false => l
  | false, true => r
  | _, _ => wider l r

/-- The common type of two operands of a float division. -/
def unifyFloat (l r : Ty) : Ty :=
  wider (if l.isFloat then l else .double) (if r.isFloat then r else .double)

/-- The common type of two operands of an integer division. -/
def unifyInt (l r : Ty) : Ty :=
  wider (if l.isInt then l else .i64) (if r.isInt then r else .i64)

end Ty
end ProcLang.IR
