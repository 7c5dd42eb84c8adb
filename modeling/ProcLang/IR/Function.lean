import ProcLang.IR.Block

/-!
# Functions of intermediate code

A function grows by adding parameters and blocks, and instructions to one of its blocks. Every
operation checks its operands first and then whether the block can take it; if it fails the
function stays as it was.

## Main definitions

* `Function`, `Signature` — a function and what its callers need to know of it.
* `Function.entry`, `Function.addBlock` — blocks; labels are made unique by the block's index.
* `Function.load`, `Function.cast`, `Function.condBr`, … — instructions and terminators, added to
  the block of the given index.
-/
namespace ProcLang.IR

/-- What callers need to know of a function. -/
structure Signature where
  name : String
  params : List Ty
  ret : Ty
deriving DecidableEq

/-- A function. `temps` counts the values that its instructions define. -/
structure Function where
  name : String
  ret : Ty
  params : List (String × Ty)
  blocks : List Block
  temps : Nat
deriving DecidableEq

namespace Function

/-- A function without parameters and blocks. -/
def empty (name : String) (ret : Ty) : Function := ⟨name, ret, [], [], 0⟩

/-- What callers need to know of a function. -/
def signature (f : Function) : Signature := ⟨f.name, f.params.map Prod.snd, f.ret⟩

/-- Adds a parameter behind the others. -/
def addParam (f : Function) (name : String) (ty : Ty) : Value × Function :=
  (⟨.param name, ty⟩, { f with params := f.params ++ [(name, ty)] })

/-- The label of the first block. -/
def entryLabel : String := "entry.0"

/-- The function with its first block, which is made if there is none. -/
def entry (f : Function) : Function :=
  match f.blocks with
  | [] => { f with blocks := [.empty entryLabel] }
  | _ :: _ => f

/-- Adds a block behind the others. Its index makes the label unique. -/
def addBlock (f : Function) (label : String) : Nat × Function :=
  let f := f.entry
  let index := f.blocks.length
  (index, { f with blocks := f.blocks ++ [.empty s!"{label}.{index}"] })

/-- The block of a given index. -/
def block (f : Function) (b : Nat) : Except Error Block :=
  match f.blocks[b]? with
  | some block => .ok block
  | none => .error (.missingBlock b f.name)

/-- The block of a given label. -/
def blockOf? (f : Function) (label : String) : Option Block :=
  f.blocks.find? (·.label == label)

/-- Whether a block has ended. -/
def isClosed (f : Function) (b : Nat) : Except Error Bool :=
  match f.block b with
  | .ok block => .ok block.isClosed
  | .error e => .error e

/-- Puts a block in the place of another. -/
def setBlock (f : Function) (b : Nat) (block : Block) : Function :=
  { f with blocks := f.blocks.set b block }

/-! ## Adding to a block -/

/-- Adds an operation that defines a new value of type `ty`. -/
def define (f : Function) (b : Nat) (ty : Ty) (op : Operation) : Except Error (Value × Function) :=
  match f.block b with
  | .error e => .error e
  | .ok block =>
    if block.isClosed then .error (.resultInClosed op block.label)
    else
      let result : Value := ⟨.temp f.temps, ty⟩
      let block := { block with instrs := block.instrs ++ [⟨some result, op⟩] }
      .ok (result, { f.setBlock b block with temps := f.temps + 1 })

/-- Adds an operation that defines no value. -/
def perform (f : Function) (b : Nat) (op : Operation) : Except Error Function :=
  match f.block b with
  | .error e => .error e
  | .ok block =>
    match block.push ⟨none, op⟩ with
    | .error e => .error e
    | .ok block => .ok (f.setBlock b block)

/-- Ends a block. -/
def terminate (f : Function) (b : Nat) (t : Terminator) : Except Error Function :=
  match f.block b with
  | .error e => .error e
  | .ok block =>
    match block.close t with
    | .error e => .error e
    | .ok block => .ok (f.setBlock b block)

/-! ## Instructions -/

/-- Storage for a value of type `ty`; the result points to it. -/
def alloca (f : Function) (b : Nat) (ty : Ty) : Except Error (Value × Function) :=
  f.define b (.ptr ty) (.alloca ty)

/-- The value that a pointer points to. -/
def load (f : Function) (b : Nat) (ptr : Value) : Except Error (Value × Function) :=
  match ptr.ty.target? with
  | none => .error (.notPointer ptr.ty)
  | some ty => f.define b ty (.load ptr)

/-- Puts a value where a pointer points to. -/
def store (f : Function) (b : Nat) (value ptr : Value) : Except Error Function :=
  match ptr.ty.target? with
  | none => .error (.notPointer ptr.ty)
  | some ty =>
    if ty = value.ty then f.perform b (.store value ptr)
    else .error (.storeMismatch value.ty ty)

/-- Arithmetic on two values of one type. -/
def arith (f : Function) (b : Nat) (op : Arith) (lhs rhs : Value) :
    Except Error (Value × Function) :=
  if lhs.ty ≠ rhs.ty then .error (.operandMismatch lhs.ty rhs.ty)
  else if op.accepts lhs.ty then f.define b lhs.ty (.arith op lhs rhs)
  else .error (.invalidOperand op lhs.ty)

/-- The comparison of two values of one type. -/
def compare (f : Function) (b : Nat) (op : Relation) (lhs rhs : Value) :
    Except Error (Value × Function) :=
  if lhs.ty ≠ rhs.ty then .error (.operandMismatch lhs.ty rhs.ty)
  else if lhs.ty.isVoid || lhs.ty.isPtr then .error (.notComparable lhs.ty)
  else f.define b .i1 (.compare op lhs rhs)

/-- The first argument, counted from `index`, whose type is not that of its parameter. -/
def argumentError? (function : String) (index : Nat) : List Ty → List Value → Option Error
  | ty :: tys, arg :: args =>
    if ty = arg.ty then argumentError? function (index + 1) tys args
    else some (.argumentType index function arg.ty ty)
  | _, _ => none

/-- A call; a function that returns nothing gives no value. -/
def call (f : Function) (b : Nat) (callee : Signature) (args : List Value) :
    Except Error (Option Value × Function) :=
  if callee.params.length ≠ args.length then
    .error (.argumentCount callee.name callee.params.length args.length)
  else
    match argumentError? callee.name 0 callee.params args with
    | some e => .error e
    | none =>
      let op := .call callee.name callee.ret args
      if callee.ret.isVoid then
        match f.perform b op with
        | .ok f => .ok (none, f)
        | .error e => .error e
      else
        match f.define b callee.ret op with
        | .ok (v, f) => .ok (some v, f)
        | .error e => .error e

/-- The zero that numbers of type `ty` are compared with to tell whether they count as true. -/
def zero? (ty : Ty) : Option Value :=
  if ty.isInt then some (.int 0 ty)
  else if ty.isFloat then some (.float .zero ty)
  else none

/-- A value converted to type `ty`. Nothing is added if the value has that type already or is a
constant. -/
def cast (f : Function) (b : Nat) (value : Value) (ty : Ty) : Except Error (Value × Function) :=
  if value.ty = ty then .ok (value, f)
  else
    match value.fold ty with
    | some folded => .ok (folded, f)
    | none =>
      match if ty.isBool then zero? value.ty else none with
      | some zero => f.compare b .ne value zero
      | none =>
        match Conversion.between? value.ty ty with
        | some op => f.define b ty (.cast op value ty)
        | none => .error (.notConvertible value.ty ty)

/-! ## Terminators -/

/-- Goes on to another block. -/
def br (f : Function) (b target : Nat) : Except Error Function :=
  match f.block target with
  | .error e => .error e
  | .ok block => f.terminate b (.br block.label)

/-- Goes on to one of two blocks. -/
def condBr (f : Function) (b : Nat) (cond : Value) (yes no : Nat) : Except Error Function :=
  if cond.ty.isBool then
    match f.block yes with
    | .error e => .error e
    | .ok yes =>
      match f.block no with
      | .error e => .error e
      | .ok no => f.terminate b (.brIf cond yes.label no.label)
  else .error (.conditionType cond.ty)

/-- Returns a value. -/
def retValue (f : Function) (b : Nat) (value : Value) : Except Error Function :=
  if value.ty = f.ret then f.terminate b (.ret (some value))
  else .error (.returnType value.ty f.name f.ret)

/-- Returns nothing. -/
def retVoid (f : Function) (b : Nat) : Except Error Function :=
  if f.ret.isVoid then f.terminate b (.ret none)
  else .error (.returnVoid f.name f.ret)

/-- Ends a block that is never left. -/
def unreachable (f : Function) (b : Nat) : Except Error Function := f.terminate b .unreachable

/-! ## Text -/

/-- A parameter behind its type. -/
def paramText (p : String × Ty) : String := p.2.text ++ " %" ++ p.1

/-- The text of a function, a blank line between two blocks. -/
def text (f : Function) : String :=
  "define " ++ f.ret.text ++ " @" ++ f.name ++ "(" ++ Dump.separated (f.params.map paramText) ++
    ") \x7b\n" ++ "\n".intercalate (f.blocks.map Block.text) ++ "\x7d\n"

end Function
end ProcLang.IR
