import ProcLang.Command.Options
import ProcLang.Command.Path
import ProcLang.Declaration.Parser
import ProcLang.Lowering.Program
import ProcLang.Token.Lexer

/-!
# A session of the command

A session reads a file, takes it through the stages and writes what was asked for. It reaches
files, streams and the clock through a `Host` only, so it can be run on the real ones or on files
kept in memory.

## Main definitions

* `FileError` — why a file cannot be used.
* `Host` — what a session needs of its surroundings.
* `Session.run` — a session; it ends with an exit code.
-/
namespace ProcLang

/-- Why a file or directory cannot be used. -/
inductive FileError where
  | notFound
  | alreadyExists
  | notDirectory
  | isDirectory
  | nameTooLong
  | notText
  | other (reason : String)
deriving DecidableEq, Repr

/-- Why a file or directory cannot be used, in words. -/
def FileError.message : FileError → String
  | .notFound => "No such file or directory (os error 2)"
  | .alreadyExists => "File exists (os error 17)"
  | .notDirectory => "Not a directory (os error 20)"
  | .isDirectory => "Is a directory (os error 21)"
  | .nameTooLong => "File name too long (os error 36)"
  | .notText => "stream did not contain valid UTF-8"
  | .other reason => reason

/-- What a session needs of its surroundings. -/
class Host (m : Type → Type) where
  /-- The text of a file. -/
  read : String → m (Except FileError String)
  /-- Makes a directory in one that is there. -/
  makeDirectory : String → m (Except FileError Unit)
  /-- Whether a path leads to a directory. -/
  isDirectory : String → m Bool
  /-- Puts a text into a file. -/
  write : String → String → m (Except FileError Unit)
  /-- Writes a line to the output. -/
  print : String → m Unit
  /-- Writes a line to the error output. -/
  printError : String → m Unit
  /-- A point in time. -/
  now : m Nat
  /-- How long ago a point in time was, in words. -/
  since : Nat → m String

namespace Session

/-- The tokens of a text, one in a line. -/
def tokensText (ts : List Token) : String := "\n".intercalate (ts.map Token.text) ++ "\n"

section
variable {m : Type → Type} [Monad m] [Host m]

/-- Makes a directory in one that is there, unless it is there too. Nothing has a path that is too
long. -/
def ensureDirectory (path : String) : m (Except FileError Unit) := do
  match ← Host.makeDirectory path with
  | .ok () => return .ok ()
  | .error .nameTooLong => return .error .nameTooLong
  | .error e => return if ← Host.isDirectory path then .ok () else .error e

/-- Makes a directory and those it lies in, as far as they are missing. -/
def makeDirectories (path : List String) : m (Except FileError Unit) := do
  if _h : path = [] then return .ok ()
  else
    match ← ensureDirectory (Path.text path) with
    | .error .notFound =>
      match ← makeDirectories (Path.parent path) with
      | .ok () => ensureDirectory (Path.text path)
      | .error e => return .error e
    | result => return result
termination_by path.length
decreasing_by exact Path.length_parent_lt _h

/-- Steps of a session; a failed one ends it. -/
abbrev Step (m : Type → Type) : Type → Type := ExceptT Diagnostic m

/-- Reads the source. -/
def readSource (path : String) : Step m String := do
  match ← (Host.read path : m _) with
  | .ok source => return source
  | .error e =>
    throw ⟨.file, s!"Unable to read source file \"{path}\": {e.message}", none⟩

/-- Writes a file into a directory; the result is its path. -/
def writeOutput (dir name content : String) : Step m String := do
  let failed (path : String) (e : FileError) : Diagnostic :=
    ⟨.file, s!"Unable to write to \"{path}\": {e.message}", none⟩
  match ← (makeDirectories (Path.trimSlashes (Path.parts dir)) : m _) with
  | .error e => throw (failed dir e)
  | .ok () =>
    let path := Path.join dir name
    match ← (Host.write path content : m _) with
    | .error e => throw (failed path e)
    | .ok () => return path

/-- The result of a stage; a fault is reported. -/
def stage {ε α : Type} (report : ε → Diagnostic) (result : Except ε α) : Step m α :=
  match result with
  | .ok a => return a
  | .error e => throw (report e)

/-- Tells about progress, with the time since `start`. -/
def progress (o : Options) (start : Nat) (line : String → String) : Step m Unit := do
  unless o.quiet do
    let time ← (Host.since start : m _)
    (Host.print (line time) : m Unit)

/-- All steps of a session. -/
def steps (o : Options) : Step m Unit := do
  let start ← (Host.now : m _)
  let source ← readSource o.input
  let lexing ← (Host.now : m _)
  let tokens ← stage LexError.diagnostic (lex source)
  progress o lexing fun t => s!"Lexing {o.input} complete ({t})."
  if o.tokens then
    let _ ← writeOutput o.output "tokens.txt" (tokensText tokens)
  let parsing ← (Host.now : m _)
  let program ← stage ParseError.diagnostic (Program.parse tokens)
  progress o parsing fun t => s!"Parsing {o.input} complete ({t})."
  if o.ast then
    (Host.print s!"\nAST after parsing:\n{program.dumpText}" : m Unit)
    let _ ← writeOutput o.output "ast.txt" program.dumpText
  if o.noCompile then
    unless o.quiet do
      (Host.print "Skipping code generation." : m Unit)
  else
    let generating ← (Host.now : m _)
    let module ← stage LoweringError.diagnostic (program.lower o.module)
    progress o generating fun t => s!"Generating complete ({t})."
    let path ← writeOutput o.output (o.module ++ ".ll") module.text
    progress o start fun t => s!"Compiled in {t}."
    (Host.print s!"Output: {path}" : m Unit)

/-- A session; the result is its exit code. -/
def run (o : Options) : m UInt32 := do
  match ← (steps o).run with
  | .ok () => return 0
  | .error d =>
    Host.printError s!"[ERROR] {d.text}"
    return 1

end

end Session
end ProcLang
