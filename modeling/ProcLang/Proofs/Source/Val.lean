import ProcLang.Operator
import ProcLang.Proofs.Number.Single
import ProcLang.Ty

/-!
# Values of programs

A value of a program is a number or a truth value of one of the five types. Values are computed with
in their type: integers wrap around, and floats of single precision are rounded after every step.

## Main definitions

* `Val`, `Val.convert` — values, and conversions between the types.
* `Failure` — what can go wrong when a program is evaluated.
* `Operator.common`, `Operator.eval` — the type in which an operator computes, and its result.
-/
namespace ProcLang

/-- A float of single precision. -/
def Single : Type := { x : Double // x.roundSingle = x }

/-- The nearest float of single precision. -/
def Single.round (x : Double) : Single := ⟨x.roundSingle, x.roundSingle_roundSingle⟩

/-- A value of a program. -/
inductive Val where
  | i32 (v : Int32)
  | i64 (v : Int64)
  | f32 (x : Single)
  | f64 (x : Double)
  | bool (b : Bool)

/-- What can go wrong when a program is evaluated. -/
inductive Failure where
  | divideByZero
  | divideOverflow
  /-- The end of a function that should have returned a value. -/
  | unreachable (function : String)
  /-- The program has no meaning here: a name is unknown, or something is used as what it is not. -/
  | meaningless
deriving DecidableEq

namespace Val

/-- The type of a value. -/
def ty : Val → Ty
  | .i32 _ => .i32
  | .i64 _ => .i64
  | .f32 _ => .f32
  | .f64 _ => .f64
  | .bool _ => .bool

/-- The value of a literal. Numbers have 64 bits. -/
def ofLiteral : Literal → Val
  | .int v => .i64 v
  | .float x => .f64 x
  | .bool b => .bool b

/-- A value as a whole number. -/
def toInt64 : Val → Int64
  | .i32 v => v.toInt64
  | .i64 v => v
  | .f32 x => x.val.toInt64
  | .f64 x => x.toInt64
  | .bool b => if b then 1 else 0

/-- A value as a float. -/
def toDouble : Val → Double
  | .i32 v => .ofInt v.toInt
  | .i64 v => .ofInt v.toInt
  | .f32 x => x.val
  | .f64 x => x
  | .bool b => .ofInt (if b then 1 else 0)

/-- Whether a value counts as true: anything but zero. -/
def isTrue : Val → Bool
  | .i32 v => v != 0
  | .i64 v => v != 0
  | .f32 x => !x.val.isZero
  | .f64 x => !x.isZero
  | .bool b => b

/-- A value in another type. -/
def convert (ty : Ty) (v : Val) : Val :=
  match ty with
  | .i32 => .i32 v.toInt64.toInt32
  | .i64 => .i64 v.toInt64
  | .f32 => .f32 (.round v.toDouble)
  | .f64 => .f64 v.toDouble
  | .bool => .bool v.isTrue

/-- Arithmetic on two numbers of one type, given how it is done on integers and floats. -/
def arith (int32 : Int32 → Int32 → Int32) (int64 : Int64 → Int64 → Int64)
    (double : Double → Double → Double) : Val → Val → Except Failure Val
  | .i32 l, .i32 r => .ok (.i32 (int32 l r))
  | .i64 l, .i64 r => .ok (.i64 (int64 l r))
  | .f32 l, .f32 r => .ok (.f32 (.round (double l.val r.val)))
  | .f64 l, .f64 r => .ok (.f64 (double l r))
  | _, _ => .error .meaningless

/-- The quotient of two floats. -/
def quotient : Val → Val → Except Failure Val
  | .f32 l, .f32 r => .ok (.f32 (.round (l.val / r.val)))
  | .f64 l, .f64 r => .ok (.f64 (l / r))
  | _, _ => .error .meaningless

/-- The quotient of two integers toward zero. With 64 bits the only one that is out of range is a
failure; with 32 bits it wraps around. -/
def divide : Val → Val → Except Failure Val
  | .i32 l, .i32 r => if r = 0 then .error .divideByZero else .ok (.i32 (l / r))
  | .i64 l, .i64 r =>
    if r = 0 then .error .divideByZero
    else if l = Int64.minValue ∧ r = -1 then .error .divideOverflow
    else .ok (.i64 (l / r))
  | _, _ => .error .meaningless

/-- How two values of one type compare; `none` if one is not a number. False comes before true. -/
def order : Val → Val → Except Failure (Option Ordering)
  | .i32 l, .i32 r => .ok (some (if l < r then .lt else if r < l then .gt else .eq))
  | .i64 l, .i64 r => .ok (some (if l < r then .lt else if r < l then .gt else .eq))
  | .f32 l, .f32 r => .ok (l.val.order? r.val)
  | .f64 l, .f64 r => .ok (l.order? r)
  | .bool l, .bool r => .ok (some (if l = r then .eq else if r then .lt else .gt))
  | _, _ => .error .meaningless

end Val

/-- The one of two types that comes later in the order `bool`, `i32`, `i64`, `f32`, `f64`. -/
def Ty.later : Ty → Ty → Ty
  | .f64, _ | _, .f64 => .f64
  | .f32, _ | _, .f32 => .f32
  | .i64, _ | _, .i64 => .i64
  | .i32, _ | _, .i32 => .i32
  | .bool, .bool => .bool

namespace Operator

/-- The type in which an operator computes. Truth values are computed with and ordered as
integers. -/
def common (op : Operator) (l r : Ty) : Ty :=
  match op, l, r with
  | .fdiv, .f32, .f32 => .f32
  | .fdiv, _, _ => .f64
  | .idiv, .i32, .i32 => .i32
  | .idiv, _, _ => .i64
  | .eq, l, r => l.later r
  | _, .bool, .bool => .i64
  | _, l, r => l.later r

/-- The result of an operator on values of one type. -/
def apply (op : Operator) (l r : Val) : Except Failure Val :=
  match op with
  | .add => l.arith (· + ·) (· + ·) (· + ·) r
  | .sub => l.arith (· - ·) (· - ·) (· - ·) r
  | .mul => l.arith (· * ·) (· * ·) (· * ·) r
  | .fdiv => l.quotient r
  | .idiv => l.divide r
  | .lt => (l.order r).map fun o => .bool (o == some .lt)
  | .gt => (l.order r).map fun o => .bool (o == some .gt)
  | .eq => (l.order r).map fun o => .bool (o == some .eq)

/-- The result of an operator. -/
def eval (op : Operator) (l r : Val) : Except Failure Val :=
  let ty := op.common l.ty r.ty
  op.apply (l.convert ty) (r.convert ty)

end Operator
end ProcLang
