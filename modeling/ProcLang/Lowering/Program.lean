import ProcLang.IR.Module
import ProcLang.Lowering.Stmt

/-!
# Lowering of programs

All headers are lowered first, so that a body can call a function that stands further down. The
body of a function depends on the headers only, and not on other bodies.

## Main definitions

* `Generator` — a module that is being built.
* `Generator.run` — lowers a program and keeps what was built, also when it fails.
* `Program.lower` — the module of a program.
-/
namespace ProcLang

/-- A module that is being built. While a body is being lowered `current` holds the function and
the block that instructions go to. -/
structure Generator where
  module : IR.Module
  scopes : Scopes Binding
  current : Option (Nat × Nat)

/-- The type a function returns: the first of its result types, or nothing. -/
def Declaration.ret (d : Declaration) : IR.Ty :=
  match d.returns with
  | [] => .void
  | ty :: _ => ty.lower

/-- The parameters before the first one whose name has been used, and that one. -/
def splitParams (seen : List String) : List Param → List Param × Option Param
  | [] => ([], none)
  | p :: ps =>
    if seen.contains p.name then ([], some p)
    else
      let (distinct, repeated) := splitParams (p.name :: seen) ps
      (p :: distinct, repeated)

namespace Lower

/-- Gives every parameter storage of its own, so that it is read like a variable. -/
def params (pos : Option Position) : List (String × IR.Ty) → Lower Unit
  | [] => return ()
  | (name, ty) :: ps => do
    bind pos name ⟨.param name, ty⟩
    params pos ps

/-- Ends the last block of a body that does not end with a return. -/
def finish (pos : Option Position) : Lower Unit := do
  let frame ← get
  let closed ← build pos fun code block => (code.isClosed block).map (·, code)
  unless closed do
    if frame.code.ret.isVoid then perform pos fun code block => code.retVoid block
    else perform pos fun code block => code.unreachable block

/-- The body of a function. -/
def body (d : Declaration) : Lower Unit := do
  params d.pos (← get).code.params
  stmts d.body
  finish d.pos

end Lower

namespace Generator

/-- A module without functions. -/
def empty (name : String) : Generator := ⟨.empty name, .empty, none⟩

/-- Lowers the header of a function and makes its name known. -/
def declare (d : Declaration) : EStateM LoweringError Generator Unit := fun g =>
  match g.module.addFunction d.name d.ret with
  | .error e => .error ⟨.ir e, d.pos⟩ g
  | .ok (id, module) =>
    let (distinct, repeated) := splitParams [] d.params
    let code := { IR.Function.empty d.name d.ret with
      params := distinct.map fun p => (p.name, p.ty.lower) }
    let module := module.setFunction id code
    match repeated with
    | some p => .error ⟨.repeatedParam p.name d.name, d.pos⟩ { g with module := module }
    | none =>
      .ok () { g with
        module := module
        scopes := g.scopes.insertGlobal d.name (.function code.signature) }

/-- Lowers the body of the function of index `id`, starting from the global scope. -/
def define (id : Nat) (d : Declaration) : EStateM LoweringError Generator Unit := fun g =>
  let scopes := g.scopes.reset.push
  match g.module.function id with
  | .error e => .error ⟨.ir e, d.pos⟩ { g with scopes := scopes }
  | .ok code =>
    match Lower.body d ⟨code.entry, scopes, 0⟩ with
    | .ok () frame =>
      .ok () ⟨g.module.setFunction id frame.code, frame.scopes.pop, none⟩
    | .error e frame =>
      .error e ⟨g.module.setFunction id frame.code, frame.scopes, some (id, frame.block)⟩

/-- Lowers headers. -/
def declareAll : Program → EStateM LoweringError Generator Unit
  | [] => return ()
  | d :: ds => do
    declare d
    declareAll ds

/-- Lowers bodies, the first one being that of the function of index `id`. -/
def defineAll (id : Nat) : Program → EStateM LoweringError Generator Unit
  | [] => return ()
  | d :: ds => do
    define id d
    defineAll (id + 1) ds

/-- Lowers a program into an empty module. -/
def run (name : String) (p : Program) : EStateM.Result LoweringError Generator Unit :=
  (do declareAll p; defineAll 0 p : EStateM LoweringError Generator Unit) (.empty name)

end Generator

/-- The module of a program. -/
def Program.lower (name : String) (p : Program) : Except LoweringError IR.Module :=
  match Generator.run name p with
  | .ok () g => .ok g.module
  | .error e _ => .error e

end ProcLang
