import ProcLang.IR.Function

/-!
# Modules

A module is a list of functions with different names. A function is known by its index.
-/
namespace ProcLang.IR

/-- A module. -/
structure Module where
  name : String
  functions : List Function
deriving DecidableEq

namespace Module

/-- A module without functions. -/
def empty (name : String) : Module := ⟨name, []⟩

/-- The index of the function of a given name. -/
def lookup? (m : Module) (name : String) : Option Nat :=
  m.functions.findIdx? (·.name == name)

/-- Adds a function without parameters and blocks, unless its name is taken. -/
def addFunction (m : Module) (name : String) (ret : Ty) : Except Error (Nat × Module) :=
  match m.lookup? name with
  | some _ => .error (.duplicateFunction name)
  | none => .ok (m.functions.length, { m with functions := m.functions ++ [.empty name ret] })

/-- The function of a given index. -/
def function (m : Module) (id : Nat) : Except Error Function :=
  match m.functions[id]? with
  | some f => .ok f
  | none => .error (.missingFunction id)

/-- Puts a function in the place of another. -/
def setFunction (m : Module) (id : Nat) (f : Function) : Module :=
  { m with functions := m.functions.set id f }

/-- The text of a module, a blank line between two functions. -/
def text (m : Module) : String :=
  "; ModuleID = '" ++ m.name ++ "'\nsource_filename = \"" ++ m.name ++ "\"\n\n" ++
    "\n".intercalate (m.functions.map Function.text)

end Module
end ProcLang.IR
