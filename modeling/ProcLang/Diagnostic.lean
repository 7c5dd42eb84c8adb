import ProcLang.Position

/-!
# Diagnostics

What a user is told when a program is refused: the kind of fault, a sentence, and where it is.
Every stage has causes of its own and turns them into diagnostics in one place.
-/
namespace ProcLang

namespace Diagnostic

/-- The kinds of fault. -/
inductive Kind where
  | lexical
  | malformedHeader
  | unbalancedBracket
  | unresolvedSymbol
  | unsupportedExpression
  | ambiguousResolution
  | generation
  | file
deriving DecidableEq, Repr

/-- The name of a kind in messages. -/
def Kind.name : Kind → String
  | .lexical => "LexError"
  | .malformedHeader => "MalformedHeader"
  | .unbalancedBracket => "UnbalancedBracket"
  | .unresolvedSymbol => "UnresolvedSymbol"
  | .unsupportedExpression => "UnsupportedExpression"
  | .ambiguousResolution => "AmbiguousResolution"
  | .generation => "CodeGenError"
  | .file => "IoError"

end Diagnostic

/-- A fault as it is reported. -/
structure Diagnostic where
  kind : Diagnostic.Kind
  message : String
  pos : Option Position
deriving DecidableEq, Repr

/-- The line a user reads: kind and place in brackets, then the sentence. -/
def Diagnostic.text (d : Diagnostic) : String :=
  match d.pos with
  | some p => s!"[{d.kind.name} - {p.text}] {d.message}"
  | none => s!"[{d.kind.name}] {d.message}"

end ProcLang
