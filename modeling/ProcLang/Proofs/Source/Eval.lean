import ProcLang.Proofs.Source.Val
import ProcLang.Scope
import ProcLang.Stmt

/-!
# Evaluation of programs

What a program means, read off its tree. A variable is a value in a scope and does not change; an
assignment makes a new one in the innermost scope, and the variables of a conditional's case are
gone behind it. Calls are evaluated up to a depth; a call that is nested deeper has no outcome.

## Main definitions

* `Eval` — computations that may have no outcome or end in a failure.
* `Expr.eval`, `Stmt.evals`, `Declaration.eval` — expressions, statements and functions.
* `Program.eval` — a call of a function of a program.
-/
namespace ProcLang

/-- Computations that may have no outcome or end in a failure. -/
abbrev Eval : Type → Type := ExceptT Failure Option

namespace Eval

/-- No outcome. -/
def outOfDepth {α : Type} : Eval α := ExceptT.mk none

/-- Lifts a computation that always has an outcome. -/
def ofExcept {α : Type} (e : Except Failure α) : Eval α := ExceptT.mk (some e)

/-- What must be there for the program to have a meaning. -/
def ofOption {α : Type} : Option α → Eval α
  | some a => return a
  | none => throw .meaningless

end Eval

/-- How a statement ends: with variables for what follows, or with the end of the function. -/
inductive Control where
  | goes (ρ : Scopes Val)
  | returned (v : Option Val)

/-- The function that a name stands for where the variables are `ρ`. A variable hides it. -/
def Program.callee? (p : Program) (ρ : Scopes Val) (name : String) : Option Declaration :=
  match ρ.lookup? name with
  | some _ => none
  | none => p.find? (·.name == name)

section

variable (p : Program) (call : String → List Val → Eval (Option Val))

/-- A call, given how to evaluate its arguments in the types of the parameters. -/
def Program.invoke (ρ : Scopes Val) (name : String) (arguments : List Ty → Eval (List Val)) :
    Eval (Option Val) := do
  let d ← Eval.ofOption (p.callee? ρ name)
  let args ← arguments (d.params.map (·.ty))
  call d.name args

mutual

/-- The value of an expression. -/
def Expr.eval (ρ : Scopes Val) : Expr → Eval Val
  | .literal c _ => return .ofLiteral c
  | .var name _ => Eval.ofOption (ρ.lookup? name)
  | .binary op l r _ => do
    let x ← l.eval ρ
    let y ← r.eval ρ
    Eval.ofExcept (op.eval x y)
  | .call name args _ => do
    let v ← p.invoke call ρ name (Expr.evals ρ args)
    Eval.ofOption v
  | .return _ _ | .assign _ _ _ _ => throw .meaningless

/-- The values of arguments in the given types. -/
def Expr.evals (ρ : Scopes Val) : List Expr → List Ty → Eval (List Val)
  | [], [] => return []
  | e :: es, ty :: tys => do
    let v ← e.eval ρ
    let vs ← Expr.evals ρ es tys
    return v.convert ty :: vs
  | _, _ => throw .meaningless

end

variable (ret : Option Ty)

/-- An expression as a statement, in a function that returns `ret`. Of the values of a return only
the first one is computed. -/
def Expr.exec (ρ : Scopes Val) : Expr → Eval Control
  | .assign name ty e _ => do
    let v ← e.eval p call ρ
    match ty with
    | some ty => return .goes (ρ.insert name (v.convert ty))
    | none => return .goes (ρ.insert name v)
  | .return [] _ => if ret.isNone then return .returned none else throw .meaningless
  | .return (e :: _) _ => do
    let ty ← Eval.ofOption ret
    let v ← e.eval p call ρ
    return .returned (some (v.convert ty))
  | .call name args _ => do
    let _ ← p.invoke call ρ name (Expr.evals p call ρ args)
    return .goes ρ
  | e => do
    let _ ← e.eval p call ρ
    return .goes ρ

mutual

/-- A statement. -/
def Stmt.eval (ρ : Scopes Val) : Stmt → Eval Control
  | .expr e => e.exec p call ret ρ
  | .branch c => do
    match ← c.eval ρ with
    | .goes _ => return .goes ρ
    | .returned v => return .returned v

/-- Statements one after the other, up to a return. -/
def Stmt.evals (ρ : Scopes Val) : List Stmt → Eval Control
  | [] => return .goes ρ
  | s :: ss => do
    match ← s.eval ρ with
    | .goes ρ => Stmt.evals ρ ss
    | .returned v => return .returned v

/-- A conditional. -/
def Conditional.eval (ρ : Scopes Val) : Conditional → Eval Control
  | ⟨guard, body, otherwise, _⟩ => do
    let v ← guard.eval p call ρ
    if v.isTrue then Stmt.evals ρ.push body else otherwise.eval ρ

/-- What is done when a guard fails. -/
def Otherwise.eval (ρ : Scopes Val) : Otherwise → Eval Control
  | .nothing => return .goes ρ
  | .block body => Stmt.evals ρ.push body
  | .chain c => c.eval ρ

end

/-- Variables for parameters. -/
def Scopes.bindArgs : List Param → List Val → Scopes Val → Scopes Val
  | q :: qs, v :: vs, ρ => bindArgs qs vs (ρ.insert q.name v)
  | _, _, ρ => ρ

/-- A function, given the values of its parameters. -/
def Declaration.eval (d : Declaration) (args : List Val) : Eval (Option Val) := do
  match ← Stmt.evals p call d.returns.head? (.bindArgs d.params args Scopes.empty.push) d.body with
  | .returned v => return v
  | .goes _ => if d.returns.isEmpty then return none else throw (.unreachable d.name)

/-- A call of a function of a program, given how calls in it are evaluated. -/
def Program.callWith (name : String) (args : List Val) : Eval (Option Val) := do
  let d ← Eval.ofOption (p.find? (·.name == name))
  d.eval p call args

end

/-- A call of a function of a program with calls nested up to the given depth. -/
def Program.eval (p : Program) : Nat → String → List Val → Eval (Option Val)
  | 0 => p.callWith fun _ _ => .outOfDepth
  | depth + 1 => p.callWith (p.eval depth)

end ProcLang
