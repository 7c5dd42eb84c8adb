import ProcLang.Text.Quoted

/-!
# Dumps of structured values

A `Dump` is a value laid open: names with their parts. It is written either on one line or with
every part on a line of its own, four spaces deeper than its owner.
-/
namespace ProcLang

/-- A structured value laid open. -/
inductive Dump where
  /-- A plain text, such as a number or a bare name. -/
  | atom (text : String)
  /-- A name with unnamed parts, `Some(x)`. -/
  | tuple (name : String) (parts : List Dump)
  /-- A name with named parts, `Point { x: 1, y: 2 }`. -/
  | record (name : String) (parts : List (String × Dump))
  /-- A list, `[a, b]`. -/
  | list (items : List Dump)

namespace Dump

/-- A quoted string. -/
def string (s : String) : Dump := .atom (Text.quoteString s)

/-- A value that may be absent. -/
def option {α : Type} (dump : α → Dump) : Option α → Dump
  | none => .atom "None"
  | some a => .tuple "Some" [dump a]

/-- Parts separated by commas, on one line. -/
def separated (parts : List String) : String := ", ".intercalate parts

mutual

/-- The dump on one line. -/
def inline : Dump → String
  | .atom text => text
  | .tuple name parts => name ++ "(" ++ separated (inlineAll parts) ++ ")"
  | .record name parts => name ++ " \x7b " ++ separated (inlineFields parts) ++ " \x7d"
  | .list items => "[" ++ separated (inlineAll items) ++ "]"

def inlineAll : List Dump → List String
  | [] => []
  | d :: ds => inline d :: inlineAll ds

def inlineFields : List (String × Dump) → List String
  | [] => []
  | (name, d) :: ds => (name ++ ": " ++ inline d) :: inlineFields ds

end

/-- The start of a line at the given depth. -/
def indent (depth : Nat) : String := String.ofList (List.replicate (4 * depth) ' ')

/-- One part per line, each ended by a comma, between an opening and a closing text. -/
def enclosed (depth : Nat) (opening closing : String) (parts : List String) : String :=
  opening ++ "\n" ++ String.join (parts.map fun p => indent (depth + 1) ++ p ++ ",\n")
    ++ indent depth ++ closing

mutual

/-- The dump with every part on a line of its own; `depth` is that of its first line. -/
def indentedAt (depth : Nat) : Dump → String
  | .atom text => text
  | .tuple name parts => enclosed depth (name ++ "(") ")" (indentedAll (depth + 1) parts)
  | .record name parts =>
    enclosed depth (name ++ " \x7b") "\x7d" (indentedFields (depth + 1) parts)
  | .list [] => "[]"
  | .list (i :: items) => enclosed depth "[" "]" (indentedAll (depth + 1) (i :: items))

def indentedAll (depth : Nat) : List Dump → List String
  | [] => []
  | d :: ds => indentedAt depth d :: indentedAll depth ds

def indentedFields (depth : Nat) : List (String × Dump) → List String
  | [] => []
  | (name, d) :: ds => (name ++ ": " ++ indentedAt depth d) :: indentedFields depth ds

end

/-- The dump with every part on a line of its own. -/
def indented (d : Dump) : String := d.indentedAt 0

end Dump
end ProcLang
