import ProcLang.Operator

/-!
# Expressions

Every node knows where it came from, if it came from a text: a binary expression stands at its
operator, the others at their first token. A return and an assignment are expressions too, though
only a statement may be one.

## Main definitions

* `Expr` — expression trees; `Expr.pos` is where a tree stands.
* `Expr.text` — the prefix form, `(+ 2 (* 3 4))` for `2 + 3 * 4`.
* `Expr.dump` — the tree laid open node by node.
-/
namespace ProcLang

/-- Where a node stands, in dumps. -/
def Position.dump (p : Position) : Dump :=
  .record "FilePosition"
    [("offset", .atom (toString p.offset)), ("length", .atom (toString p.length)),
     ("line", .atom (toString p.line)), ("column", .atom (toString p.column))]

/-- An expression. -/
inductive Expr where
  | literal (value : Literal) (pos : Option Position)
  | var (name : String) (pos : Option Position)
  | binary (op : Operator) (lhs rhs : Expr) (pos : Option Position)
  /-- A call with its arguments in call order. -/
  | call (name : String) (args : List Expr) (pos : Option Position)
  | «return» (values : List Expr) (pos : Option Position)
  /-- A new variable, converted to `ty` if one is given. -/
  | assign (name : String) (ty : Option Ty) (value : Expr) (pos : Option Position)

namespace Expr

/-- Where an expression stands. -/
def pos : Expr → Option Position
  | .literal _ p | .var _ p | .binary _ _ _ p | .call _ _ p | .return _ p | .assign _ _ _ p => p

mutual

/-- The prefix form of an expression. -/
def text : Expr → String
  | .literal value _ => value.text
  | .var name _ => name
  | .binary op lhs rhs _ => "(" ++ op.text ++ " " ++ text lhs ++ " " ++ text rhs ++ ")"
  | .call name args _ => name ++ "(" ++ Dump.separated (texts args) ++ ")"
  | .return [] _ => "return"
  | .return (v :: values) _ => "return " ++ Dump.separated (texts (v :: values))
  | .assign name (some ty) value _ => ty.text ++ " " ++ name ++ " = " ++ text value
  | .assign name none value _ => name ++ " := " ++ text value

def texts : List Expr → List String
  | [] => []
  | e :: es => text e :: texts es

end

/-- A node with named parts, under the name of its kind twice: once as a choice, once as a
record. -/
def node (name : String) (parts : List (String × Dump)) : Dump :=
  .tuple name [.record name parts]

mutual

/-- An expression laid open. -/
def dump : Expr → Dump
  | .literal value pos => .tuple "Lit" [value.dump, .option Position.dump pos]
  | .var name pos => node "Var" [("name", .string name), ("file_pos", .option Position.dump pos)]
  | .binary op lhs rhs pos =>
    node "BinOp" [("operator", op.dump), ("lhs", dump lhs), ("rhs", dump rhs),
      ("file_pos", .option Position.dump pos)]
  | .call name args pos =>
    node "FnCall" [("name", .string name), ("arguments", .list (dumps args)),
      ("file_pos", .option Position.dump pos)]
  | .return values pos =>
    node "Return" [("values", .list (dumps values)), ("file_pos", .option Position.dump pos)]
  | .assign name ty value pos =>
    node "Assign" [("name", .string name), ("ty", .option Ty.dump ty), ("value", dump value),
      ("file_pos", .option Position.dump pos)]

def dumps : List Expr → List Dump
  | [] => []
  | e :: es => dump e :: dumps es

end

end Expr
end ProcLang
