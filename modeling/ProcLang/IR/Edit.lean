import ProcLang.IR.Module

/-!
# Editing a module

Every change to a module is an `Edit`, so that whole runs of changes can be talked about. A change
either fails or hands something back: the index of a function or block, a value, or nothing.

## Main definitions

* `Function.Edit`, `Function.edit` — changes to one function.
* `Module.Edit`, `Module.edit` — changes to a module.
-/
namespace ProcLang.IR

/-- A change to a function. Instructions and terminators go to the block of index `b`. -/
inductive Function.Edit where
  | addParam (name : String) (ty : Ty)
  | entry
  | addBlock (label : String)
  | alloca (b : Nat) (ty : Ty)
  | load (b : Nat) (ptr : Value)
  | store (b : Nat) (value ptr : Value)
  | arith (b : Nat) (op : Arith) (lhs rhs : Value)
  | compare (b : Nat) (op : Relation) (lhs rhs : Value)
  | call (b : Nat) (callee : Signature) (args : List Value)
  | cast (b : Nat) (value : Value) (ty : Ty)
  | br (b target : Nat)
  | condBr (b : Nat) (cond : Value) (yes no : Nat)
  | retValue (b : Nat) (value : Value)
  | retVoid (b : Nat)
  | unreachable (b : Nat)
deriving DecidableEq

/-- A change to a module. -/
inductive Module.Edit where
  | addFunction (name : String) (ret : Ty)
  /-- A change to the function of index `id`. -/
  | function (id : Nat) (e : Function.Edit)
deriving DecidableEq

/-- What a change hands back. -/
inductive Outcome where
  | function (id : Nat)
  | block (index : Nat)
  | value (v : Value)
  | nothing
deriving DecidableEq

namespace Function

/-- A change that hands back a value. -/
def giving (result : Except Error (Value × Function)) : Except Error (Outcome × Function) :=
  result.map fun (v, f) => (.value v, f)

/-- A change that hands back nothing. -/
def silent (result : Except Error Function) : Except Error (Outcome × Function) :=
  result.map fun f => (.nothing, f)

/-- Makes a change. -/
def edit (f : Function) : Edit → Except Error (Outcome × Function)
  | .addParam name ty => giving (.ok (f.addParam name ty))
  | .entry => .ok (.block 0, f.entry)
  | .addBlock label =>
    let (index, f) := f.addBlock label
    .ok (.block index, f)
  | .alloca b ty => giving (f.alloca b ty)
  | .load b ptr => giving (f.load b ptr)
  | .store b value ptr => silent (f.store b value ptr)
  | .arith b op lhs rhs => giving (f.arith b op lhs rhs)
  | .compare b op lhs rhs => giving (f.compare b op lhs rhs)
  | .call b callee args =>
    (f.call b callee args).map fun (v, f) => (v.elim .nothing .value, f)
  | .cast b value ty => giving (f.cast b value ty)
  | .br b target => silent (f.br b target)
  | .condBr b cond yes no => silent (f.condBr b cond yes no)
  | .retValue b value => silent (f.retValue b value)
  | .retVoid b => silent (f.retVoid b)
  | .unreachable b => silent (f.unreachable b)

end Function

/-- Makes a change. -/
def Module.edit (m : Module) : Edit → Except Error (Outcome × Module)
  | .addFunction name ret => (m.addFunction name ret).map fun (id, m) => (.function id, m)
  | .function id e =>
    match m.function id with
    | .error e => .error e
    | .ok f => (f.edit e).map fun (outcome, f) => (outcome, m.setFunction id f)

end ProcLang.IR
