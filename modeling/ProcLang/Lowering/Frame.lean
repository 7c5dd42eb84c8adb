import ProcLang.IR.Function
import ProcLang.Lowering.Error
import ProcLang.Scope

/-!
# Building the code of one function

While the body of a function is lowered, its `Frame` holds the code so far, the names in scope and
the block that instructions go to. A `Lower` action that fails keeps the frame it failed in, so
that half-built code can be looked at.
-/
namespace ProcLang

/-- What a name means: a function, or a variable with the pointer to its storage. -/
inductive Binding where
  | function (signature : IR.Signature)
  | slot (storage : IR.Value)
deriving DecidableEq

/-- A function that is being built. -/
structure Frame where
  code : IR.Function
  scopes : Scopes Binding
  /-- The index of the block that instructions go to. -/
  block : Nat

/-- Actions that build code; a failed one keeps its frame. -/
abbrev Lower : Type → Type := EStateM LoweringError Frame

namespace Lower

/-- Fails at a place of the program. -/
def fail {α : Type} (cause : LoweringCause) (pos : Option Position) : Lower α :=
  throw ⟨cause, pos⟩

/-- Performs an operation on the code that gives a value. -/
def build {α : Type} (pos : Option Position)
    (op : IR.Function → Nat → Except IR.Error (α × IR.Function)) : Lower α := fun frame =>
  match op frame.code frame.block with
  | .ok (a, code) => .ok a { frame with code := code }
  | .error e => .error ⟨.ir e, pos⟩ frame

/-- Performs an operation on a given block of the code that gives no value. -/
def performAt (pos : Option Position) (block : Nat)
    (op : IR.Function → Nat → Except IR.Error IR.Function) : Lower Unit := fun frame =>
  match op frame.code block with
  | .ok code => .ok () { frame with code := code }
  | .error e => .error ⟨.ir e, pos⟩ frame

/-- Performs an operation on the current block that gives no value. -/
def perform (pos : Option Position)
    (op : IR.Function → Nat → Except IR.Error IR.Function) : Lower Unit := do
  performAt pos (← get).block op

/-- Converts a value to a type. -/
def cast (pos : Option Position) (value : IR.Value) (ty : IR.Ty) : Lower IR.Value :=
  build pos fun code block => code.cast block value ty

/-- Adds an empty block. -/
def addBlock (label : String) : Lower Nat := fun frame =>
  let (index, code) := frame.code.addBlock label
  .ok index { frame with code := code }

/-- Turns to another block. -/
def enter (block : Nat) : Lower Unit := modify fun frame => { frame with block := block }

/-- What a name means. -/
def lookup? (name : String) : Lower (Option Binding) := do return (← get).scopes.lookup? name

/-- Binds a name to new storage in the innermost scope and puts a value there. -/
def bind (pos : Option Position) (name : String) (value : IR.Value) : Lower Unit := do
  let storage ← build pos fun code block => code.alloca block value.ty
  perform pos fun code block => code.store block value storage
  modify fun frame => { frame with scopes := frame.scopes.insert name (.slot storage) }

/-- Goes on from `block` to `target` unless `block` has ended. -/
def branchIfOpen (pos : Option Position) (block target : Nat) : Lower Unit := do
  let closed ← build pos fun code _ => (code.isClosed block).map (·, code)
  unless closed do
    performAt pos block fun code block => code.br block target

end Lower
end ProcLang
