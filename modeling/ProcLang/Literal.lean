import ProcLang.Number.Layout
import ProcLang.Text.Dump

/-!
# Literals
-/
namespace ProcLang

/-- A value written in a program. -/
inductive Literal where
  | int (value : Int64)
  | float (value : Double)
  | bool (value : Bool)
deriving DecidableEq

namespace Literal

/-- The text of a truth value. -/
def boolText (b : Bool) : String := if b then "true" else "false"

/-- The text of a literal. -/
def text : Literal → String
  | .int v => toString v.toInt
  | .float v => v.text
  | .bool v => boolText v

/-- A literal laid open. -/
def dump : Literal → Dump
  | .int v => .tuple "Integer" [.atom (toString v.toInt)]
  | .float v => .tuple "Float" [.atom v.text]
  | .bool v => .tuple "Bool" [.atom (boolText v)]

end Literal
end ProcLang
