import ProcLang.IR.Module

/-!
# Running intermediate code

A call has a frame of its own: the values of its parameters and of the instructions so far, and
the storage it has reserved. Running takes fuel, one unit for every block that is entered; without
fuel left there is no outcome, which is different from a fault.

## Main definitions

* `Datum`, `Fault` — what is computed, and what can go wrong.
* `Operation.run` — the effect of one operation on a frame.
* `Module.run` — a call of a function of a module.
-/
namespace ProcLang.IR

/-- A value at run time. -/
inductive Datum where
  | int (v : Int64)
  | float (v : Double)
  | bool (v : Bool)
  /-- An index into the storage of a frame. -/
  | ptr (index : Nat)
deriving DecidableEq

/-- A value at run time laid open. -/
def Datum.dump : Datum → Dump
  | .int v => .tuple "Int" [.atom (toString v.toInt)]
  | .float v => .tuple "Float" [.atom v.text]
  | .bool v => .tuple "Bool" [.atom (Literal.boolText v)]
  | .ptr index => .tuple "Ptr" [.atom (toString index)]

/-- The value of a constant. -/
def Datum.ofLiteral : Literal → Datum
  | .int v => .int v
  | .float v => .float v
  | .bool v => .bool v

/-- What can go wrong at run time. -/
inductive Fault where
  | missingFunction
  /-- A parameter without an argument, or a value that has not been defined. -/
  | missingValue
  | badCondition (d : Datum)
  | unreachable (function : String)
  | missingTerminator
  | missingBlock
  | uninitialized
  | loadNonPointer (d : Datum)
  | storeNonPointer (d : Datum)
  | outOfBounds (size index : Nat)
  | fdivOnInts
  | sdivOnFloats
  | invalidOperands (lhs rhs : Datum)
  | invalidCast (op : Conversion) (d : Datum)
  | divideByZero
  | divideOverflow
deriving DecidableEq

/-- What has gone wrong, in words. -/
def Fault.message : Fault → String
  | .missingFunction => "function not found"
  | .missingValue => "no entry found for key"
  | .badCondition d => s!"condition not a bool: {d.dump.inline}"
  | .unreachable function => s!"reached unreachable in {function}"
  | .missingTerminator => "block without terminator"
  | .missingBlock => "branch to unknown block"
  | .uninitialized => "load of uninitialized memory"
  | .loadNonPointer d => s!"load from non pointer: {d.dump.inline}"
  | .storeNonPointer d => s!"store to non pointer: {d.dump.inline}"
  | .outOfBounds size index =>
    s!"index out of bounds: the len is {size} but the index is {index}"
  | .fdivOnInts => "fdiv on integers"
  | .sdivOnFloats => "sdiv on floats"
  | .invalidOperands lhs rhs => s!"invalid operands: {lhs.dump.inline}, {rhs.dump.inline}"
  | .invalidCast op d => s!"invalid cast {op.name} of {d.dump.inline}"
  | .divideByZero => "attempt to divide by zero"
  | .divideOverflow => "attempt to divide with overflow"

/-- Computations that may run out of fuel or end in a fault. -/
abbrev Run : Type → Type := ExceptT Fault Option

/-- No fuel left. -/
def Run.outOfFuel {α : Type} : Run α := ExceptT.mk none

/-- The values of one call. -/
structure Activation where
  params : List (String × Datum)
  temps : Nat → Option Datum
  memory : List (Option Datum)

namespace Activation

/-- At the start of a call. Arguments that are missing are not noticed yet; too many are
dropped. -/
def start (f : Function) (args : List Datum) : Activation :=
  ⟨(f.params.map Prod.fst).zip args, fun _ => none, []⟩

/-- The value of an operand. -/
def get (a : Activation) (v : Value) : Except Fault Datum :=
  match v.kind with
  | .const c => .ok (.ofLiteral c)
  | .temp n =>
    match a.temps n with
    | some d => .ok d
    | none => .error .missingValue
  | .param name =>
    match a.params.lookup name with
    | some d => .ok d
    | none => .error .missingValue

/-- The values of operands. -/
def getAll (a : Activation) : List Value → Except Fault (List Datum)
  | [] => .ok []
  | v :: vs => do
    let d ← a.get v
    let ds ← a.getAll vs
    return d :: ds

/-- Gives a value to what an instruction defines. -/
def set (a : Activation) (result : Option Value) (d : Datum) : Activation :=
  match result with
  | some ⟨.temp n, _⟩ => { a with temps := fun k => if k = n then some d else a.temps k }
  | _ => a

end Activation

namespace Datum

/-- A value as the type `ty` holds it. -/
def narrow (ty : Ty) : Datum → Datum
  | .int v => .int (ty.narrowInt v)
  | .float v => .float (ty.narrowFloat v)
  | d => d

/-- The quotient of two integers toward zero. -/
def divide (l r : Int64) : Except Fault Int64 :=
  if r = 0 then .error .divideByZero
  else if l = Int64.minValue ∧ r = -1 then .error .divideOverflow
  else .ok (l / r)

/-- Arithmetic on integers, which wraps around. -/
def arithInt (op : Arith) (l r : Int64) : Except Fault Int64 :=
  match op with
  | .add => .ok (l + r)
  | .sub => .ok (l - r)
  | .mul => .ok (l * r)
  | .sdiv => divide l r
  | .fdiv => .error .fdivOnInts

/-- Arithmetic on floats. -/
def arithFloat (op : Arith) (l r : Double) : Except Fault Double :=
  match op with
  | .add => .ok (l + r)
  | .sub => .ok (l - r)
  | .mul => .ok (l * r)
  | .fdiv => .ok (l / r)
  | .sdiv => .error .sdivOnFloats

/-- Arithmetic. -/
def arith (op : Arith) (l r : Datum) : Except Fault Datum :=
  match l, r with
  | .int l, .int r => (arithInt op l r).map .int
  | .float l, .float r => (arithFloat op l r).map .float
  | l, r => .error (.invalidOperands l r)

/-- How two values compare; `none` if one is not a number. False comes before true. -/
def order (l r : Datum) : Except Fault (Option Ordering) :=
  match l, r with
  | .int l, .int r => .ok (some (if l < r then .lt else if r < l then .gt else .eq))
  | .float l, .float r => .ok (l.order? r)
  | .bool l, .bool r => .ok (some (if l = r then .eq else if r then .lt else .gt))
  | l, r => .error (.invalidOperands l r)

/-- Whether a relation holds for values that compare in the given way. -/
def holds (op : Relation) (o : Option Ordering) : Bool :=
  match op with
  | .eq => o == some .eq
  | .ne => o != some .eq
  | .lt => o == some .lt
  | .gt => o == some .gt

/-- A conversion, before the value is fitted to its new type. -/
def convert (op : Conversion) (d : Datum) : Except Fault Datum :=
  match op, d with
  | .sext, d | .trunc, d | .fpext, d | .fptrunc, d => .ok d
  | .zext, .bool b => .ok (.int (if b then 1 else 0))
  | .sitofp, .int v => .ok (.float (.ofInt v.toInt))
  | .uitofp, .bool b => .ok (.float (.ofInt (if b then 1 else 0)))
  | .fptosi, .float v => .ok (.int v.toInt64)
  | op, d => .error (.invalidCast op d)

end Datum

namespace Activation

/-- Reserves storage; the value points to it. -/
def alloca (a : Activation) : Datum × Activation :=
  (.ptr a.memory.length, { a with memory := a.memory ++ [none] })

/-- The value in the storage that a pointer points to. -/
def load (a : Activation) (ptr : Value) : Except Fault Datum := do
  match ← a.get ptr with
  | .ptr index =>
    match a.memory[index]? with
    | some (some d) => return d
    | some none => throw .uninitialized
    | none => throw (.outOfBounds a.memory.length index)
  | d => throw (.loadNonPointer d)

/-- Puts a value into the storage that a pointer points to. -/
def store (a : Activation) (value ptr : Value) : Except Fault Activation := do
  let d ← a.get value
  match ← a.get ptr with
  | .ptr index =>
    if index < a.memory.length then return { a with memory := a.memory.set index (some d) }
    else throw (.outOfBounds a.memory.length index)
  | p => throw (.storeNonPointer p)

/-- Arithmetic on two operands, fitted to the type of the first. -/
def arith (a : Activation) (op : Arith) (lhs rhs : Value) : Except Fault Datum := do
  let l ← a.get lhs
  let r ← a.get rhs
  let d ← Datum.arith op l r
  return d.narrow lhs.ty

/-- The comparison of two operands. -/
def compare (a : Activation) (op : Relation) (lhs rhs : Value) : Except Fault Datum := do
  let l ← a.get lhs
  let r ← a.get rhs
  let o ← Datum.order l r
  return .bool (Datum.holds op o)

/-- The conversion of an operand, fitted to its new type. -/
def cast (a : Activation) (op : Conversion) (value : Value) (ty : Ty) : Except Fault Datum := do
  let d ← a.get value
  let d ← Datum.convert op d
  return d.narrow ty

end Activation

/-- Lifts a computation that needs no fuel. -/
def Run.ofExcept {α : Type} (e : Except Fault α) : Run α := ExceptT.mk (some e)

/-- The value of an operation, if it has one, and the activation behind it, given how calls are
run. -/
def Operation.run (call : String → List Datum → Run (Option Datum)) (a : Activation) :
    Operation → Run (Option Datum × Activation)
  | .alloca _ =>
    let (d, a) := a.alloca
    return (some d, a)
  | .load ptr => do return (some (← Run.ofExcept (a.load ptr)), a)
  | .store value ptr => do return (none, ← Run.ofExcept (a.store value ptr))
  | .arith op lhs rhs => do return (some (← Run.ofExcept (a.arith op lhs rhs)), a)
  | .compare op lhs rhs => do return (some (← Run.ofExcept (a.compare op lhs rhs)), a)
  | .cast op value ty => do return (some (← Run.ofExcept (a.cast op value ty)), a)
  | .call function _ args => do
    let ds ← Run.ofExcept (a.getAll args)
    return (← call function ds, a)

/-- The effect of instructions one after the other, given how calls are run. -/
def runInstrs (call : String → List Datum → Run (Option Datum)) (a : Activation) :
    List Instr → Run Activation
  | [] => return a
  | i :: is => do
    let (d, a) ← i.op.run call a
    runInstrs call (match d with | some d => a.set i.result d | none => a) is

/-- Where a block goes on to, or what it returns. -/
inductive Exit where
  | returned (d : Option Datum)
  | jump (label : String)

/-- The effect of a terminator of a block of the function named `function`. -/
def Terminator.run (function : String) (a : Activation) : Terminator → Except Fault Exit
  | .ret none => .ok (.returned none)
  | .ret (some v) => (a.get v).map fun d => .returned (some d)
  | .br target => .ok (.jump target)
  | .brIf cond yes no => do
    match ← a.get cond with
    | .bool true => return .jump yes
    | .bool false => return .jump no
    | d => throw (.badCondition d)
  | .unreachable => .error (.unreachable function)

/-- Runs one block, given how calls are run. -/
def Block.run (call : String → List Datum → Run (Option Datum)) (function : String)
    (a : Activation) (b : Block) : Run (Exit × Activation) := do
  let a ← runInstrs call a b.instrs
  match b.terminator with
  | none => throw .missingTerminator
  | some t => do
    let exit ← Run.ofExcept (t.run function a)
    return (exit, a)

/-- The function of a given name and its first block. -/
def Module.start? (m : Module) (name : String) : Except Fault (Function × Block) :=
  match m.functions.find? (·.name == name) with
  | none => .error .missingFunction
  | some f =>
    match f.blocks with
    | [] => .error (.outOfBounds 0 0)
    | b :: _ => .ok (f, b)

/-- Runs a function from a block on. -/
def Module.runFrom (m : Module) : Nat → Function → Activation → Block → Run (Option Datum)
  | 0, _, _, _ => .outOfFuel
  | fuel + 1, f, a, b => do
    let call (name : String) (args : List Datum) : Run (Option Datum) := do
      let (g, entry) ← Run.ofExcept (m.start? name)
      m.runFrom fuel g (.start g args) entry
    let (exit, a) ← b.run call f.name a
    match exit with
    | .returned d => return d
    | .jump label =>
      match f.blockOf? label with
      | some next => m.runFrom fuel f a next
      | none => throw .missingBlock

/-- Calls a function. The result is a value, or nothing from a function that returns nothing. -/
def Module.run (m : Module) (fuel : Nat) (name : String) (args : List Datum) :
    Run (Option Datum) := do
  let (f, entry) ← Run.ofExcept (m.start? name)
  m.runFrom fuel f (.start f args) entry

end ProcLang.IR
