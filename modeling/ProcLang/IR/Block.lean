import ProcLang.IR.Error

/-!
# Blocks

A block is a run of instructions that is entered at its top and left by its terminator. Once it
has ended nothing can be added to it.
-/
namespace ProcLang.IR

/-- A block of a function. -/
structure Block where
  label : String
  instrs : List Instr
  terminator : Option Terminator
deriving DecidableEq

namespace Block

/-- A block without instructions. -/
def empty (label : String) : Block := ⟨label, [], none⟩

/-- Whether a block has ended. -/
def isClosed (b : Block) : Bool := b.terminator.isSome

/-- Adds an instruction at the end. -/
def push (b : Block) (i : Instr) : Except Error Block :=
  if b.isClosed then .error (.instrInClosed i b.label)
  else .ok { b with instrs := b.instrs ++ [i] }

/-- Ends the block. -/
def close (b : Block) (t : Terminator) : Except Error Block :=
  if b.isClosed then .error (.terminatorInClosed t b.label)
  else .ok { b with terminator := some t }

/-- The texts of the instructions and, last, of the terminator. -/
def lines (b : Block) : List String :=
  b.instrs.map Instr.text ++ b.terminator.toList.map Terminator.text

/-- The text of a block. -/
def text (b : Block) : String :=
  b.label ++ ":\n" ++ String.join (b.lines.map fun l => "  " ++ l ++ "\n")

end Block
end ProcLang.IR
