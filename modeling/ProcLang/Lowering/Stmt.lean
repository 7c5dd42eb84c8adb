import ProcLang.Lowering.Expr
import ProcLang.Stmt

/-!
# Lowering of statements

A conditional becomes blocks: one for its body, one that follows the whole, and one for what
happens otherwise. The block with the guard ends by going on to the body or to the alternative,
and both go on to the block that follows unless they have ended otherwise.
-/
namespace ProcLang.Lower

/-- A new variable. -/
def assign (name : String) (ty : Option Ty) (value : Expr) (pos : Option Position) :
    Lower Unit := do
  let v ← expr value
  let v ← match ty with
    | some ty => cast pos v ty.lower
    | none => pure v
  bind pos name v

/-- A return. Only the first value is computed. -/
def «return» (values : List Expr) (pos : Option Position) : Lower Unit := do
  let ret := (← get).code.ret
  match values with
  | [] => perform pos fun code block => code.retVoid block
  | first :: _ =>
    if ret.isVoid then fail .valueFromVoid pos
    else
      let v ← expr first
      let v ← cast pos v ret
      perform pos fun code block => code.retValue block v

/-- An expression as a statement; its value is dropped. -/
def exprStmt : Expr → Lower Unit
  | .assign name ty value pos => assign name ty value pos
  | .return values pos => «return» values pos
  | .call name args pos => do
    let _ ← call name args.length pos (exprs args)
  | e => do
    let _ ← expr e

/-- Lowers a body into a block, in a scope of its own; the result is the block it ends in. -/
def inScope (block : Nat) (body : Lower Unit) : Lower Nat := do
  enter block
  modify fun frame => { frame with scopes := frame.scopes.push }
  body
  modify fun frame => { frame with scopes := frame.scopes.pop }
  return (← get).block

mutual

/-- A statement. -/
def stmt : Stmt → Lower Unit
  | .expr value => exprStmt value
  | .branch c => do
    let _ ← conditional c

/-- Statements one after the other. -/
def stmts : List Stmt → Lower Unit
  | [] => return ()
  | s :: ss => do
    stmt s
    stmts ss

/-- A conditional; the result is the block that follows it, which is then the current one. -/
def conditional : Conditional → Lower Nat
  | ⟨guard, body, other, pos⟩ => do
    let cond ← expr guard
    let cond ← cast pos cond .i1
    let origin := (← get).block
    let yes ← addBlock "if.true"
    let yesEnd ← inScope yes (stmts body)
    let next ← addBlock "if.next"
    let no ← otherwise next pos other
    performAt pos origin fun code block => code.condBr block cond yes no
    branchIfOpen pos yesEnd next
    enter next
    return next

/-- The alternative of a conditional, which goes on to `next`; the result is its first block. -/
def otherwise (next : Nat) (pos : Option Position) : Otherwise → Lower Nat
  | .nothing => return next
  | .block body => do
    let no ← addBlock "if.false"
    let noEnd ← inScope no (stmts body)
    branchIfOpen pos noEnd next
    return no
  | .chain c => do
    let guard ← addBlock "if.guard"
    enter guard
    let inner ← conditional c
    branchIfOpen pos inner next
    return guard

end

end ProcLang.Lower
