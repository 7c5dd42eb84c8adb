import ProcLang.Command.Session

/-!
# The command

Sessions on the files and streams of the system.
-/
namespace ProcLang

/-- The cause of a failed file operation. Some operations give the code with a minus. -/
def FileError.ofSystem : IO.Error → FileError
  | .noFileOrDirectory .. => .notFound
  | .alreadyExists .. => .alreadyExists
  | .inappropriateType _ code _ => if code = 21 then .isDirectory else .notDirectory
  | .invalidArgument file code details =>
    if code = 36 ∨ code = -36 then .nameTooLong
    else .other (toString (IO.Error.invalidArgument file code details))
  | e => .other (toString e)

/-- A file operation with its failures as values. -/
def attempt {α : Type} (action : IO α) : IO (Except FileError α) := do
  try
    return .ok (← action)
  catch e =>
    return .error (.ofSystem e)

/-- A duration in the largest unit that it fills, without trailing zeros. -/
def durationText (nanoseconds : Nat) : String :=
  let (unit, name) :=
    if nanoseconds < 1000 then (1, "ns")
    else if nanoseconds < 1000000 then (1000, "µs")
    else if nanoseconds < 1000000000 then (1000000, "ms")
    else (1000000000, "s")
  let places := (toString (unit + nanoseconds % unit)).toList.tail
  let shown := (places.reverse.dropWhile (· == '0')).reverse
  let fraction := if shown.isEmpty then "" else "." ++ String.ofList shown
  toString (nanoseconds / unit) ++ fraction ++ name

instance : Host IO where
  read path := do
    match ← attempt (IO.FS.readBinFile path) with
    | .error e => return .error e
    | .ok bytes =>
      match String.fromUTF8? bytes with
      | some text => return .ok text
      | none => return .error .notText
  makeDirectory path := attempt (IO.FS.createDir path)
  isDirectory path := do
    match ← attempt (IO.FS.realPath path) with
    | .ok target => target.isDir
    | .error _ => return false
  write path text := attempt (IO.FS.writeFile path text)
  print := IO.println
  printError := IO.eprintln
  now := IO.monoNanosNow
  since start := do return durationText ((← IO.monoNanosNow) - start)

/-- How the command is called. -/
def usage : String :=
  "usage: [-t | --tokens] [-a | --ast] [-n | --no-compile] [-q | --quiet] " ++
    "[-o DIR | --output DIR] [-m NAME | --module NAME] INPUT"

end ProcLang

/-- Compiles the file that the command line names. -/
def main (args : List String) : IO UInt32 := do
  match ProcLang.Options.parse args with
  | some options => ProcLang.Session.run options
  | none =>
    IO.eprintln ProcLang.usage
    return 1
