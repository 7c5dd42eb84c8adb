import ProcLang.Text.Dump

/-!
# Types that can be written in a program
-/
namespace ProcLang

/-- The types of parameters, results and variables. -/
inductive Ty where
  | i32
  | i64
  | f32
  | f64
  | bool
deriving DecidableEq, Inhabited, Repr

namespace Ty

/-- The spelling of a type. -/
def text : Ty → String
  | .i32 => "i32"
  | .i64 => "i64"
  | .f32 => "f32"
  | .f64 => "f64"
  | .bool => "bool"

/-- The type that a word spells. -/
def ofWord? : String → Option Ty
  | "i32" => some .i32
  | "i64" => some .i64
  | "f32" => some .f32
  | "f64" => some .f64
  | "bool" => some .bool
  | _ => none

/-- The name of a type in dumps. -/
def dump : Ty → Dump
  | .i32 => .atom "I32"
  | .i64 => .atom "I64"
  | .f32 => .atom "F32"
  | .f64 => .atom "F64"
  | .bool => .atom "Bool"

@[simp] theorem ofWord?_text (t : Ty) : ofWord? t.text = some t := by cases t <;> rfl

end Ty
end ProcLang
