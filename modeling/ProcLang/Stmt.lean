import ProcLang.Expr

/-!
# Statements and declarations

## Main definitions

* `Stmt` — an expression or a `Conditional`, whose `Otherwise` part may chain to another one.
* `Declaration` — a function: its name, parameters, result types and body.
-/
namespace ProcLang

mutual

/-- A statement. -/
inductive Stmt where
  | expr (value : Expr)
  | branch (conditional : Conditional)

/-- One link of a chain of conditionals, standing at its `if`. -/
structure Conditional where
  guard : Expr
  body : List Stmt
  otherwise : Otherwise
  pos : Option Position

/-- What happens when a guard fails. -/
inductive Otherwise where
  | nothing
  | block (body : List Stmt)
  | chain (next : Conditional)

end

/-- A parameter of a function. -/
structure Param where
  name : String
  ty : Ty
deriving DecidableEq, Repr

/-- A function as it is declared. Only the first result type has a meaning. -/
structure Declaration where
  name : String
  params : List Param
  returns : List Ty
  body : List Stmt
  pos : Option Position

/-- A program: its functions in order. -/
abbrev Program := List Declaration

mutual

/-- A statement laid open. -/
def Stmt.dump : Stmt → Dump
  | .expr value => .tuple "Expr" [value.dump]
  | .branch conditional => .tuple "If" [conditional.dump]

def Stmt.dumps : List Stmt → List Dump
  | [] => []
  | s :: ss => s.dump :: Stmt.dumps ss

/-- A conditional laid open. -/
def Conditional.dump : Conditional → Dump
  | ⟨guard, body, otherwise, pos⟩ =>
    .record "If" [("cond", guard.dump), ("body", .list (Stmt.dumps body)),
      ("else_", otherwise.dump), ("file_pos", .option Position.dump pos)]

/-- An alternative laid open. -/
def Otherwise.dump : Otherwise → Dump
  | .nothing => .atom "None"
  | .block body => .tuple "Some" [.tuple "Block" [.list (Stmt.dumps body)]]
  | .chain next => .tuple "Some" [.tuple "If" [next.dump]]

end

/-- A parameter laid open. -/
def Param.dump (p : Param) : Dump :=
  .record "Param" [("name", .string p.name), ("ty", p.ty.dump)]

/-- A declaration laid open. -/
def Declaration.dump (d : Declaration) : Dump :=
  .record "FnDecl" [("name", .string d.name), ("params", .list (d.params.map Param.dump)),
    ("returns", .list (d.returns.map Ty.dump)), ("body", .list (Stmt.dumps d.body)),
    ("file_pos", .option Position.dump d.pos)]

/-- A program laid open, a blank line between two functions and a line feed at the end. -/
def Program.dumpText (p : Program) : String :=
  "\n\n".intercalate (p.map fun d => d.dump.indented) ++ "\n"

end ProcLang
