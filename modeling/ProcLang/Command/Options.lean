/-!
# Command line options

Options may be given in a short form, several of them behind one dash, or in a long form behind
two dashes. A value stands in the same argument, with or without `=`, or in the next one. Behind
`--` everything is a file.

## Main definitions

* `Switch` — the options, with their short and long forms.
* `Options` — what a command line asks for.
* `Options.parse` — reads a command line; every option may be given once, and one file has to be.
-/
namespace ProcLang

/-- The options of the command. -/
inductive Switch where
  | tokens
  | ast
  | noCompile
  | quiet
  | output
  | module
deriving DecidableEq, Repr

namespace Switch

/-- Whether an option has a value. -/
def takesValue : Switch → Bool
  | .output | .module => true
  | .tokens | .ast | .noCompile | .quiet => false

/-- The option of a letter. -/
def ofLetter? : Char → Option Switch
  | 't' => some .tokens
  | 'a' => some .ast
  | 'n' => some .noCompile
  | 'q' => some .quiet
  | 'o' => some .output
  | 'm' => some .module
  | _ => none

/-- The option of a word. -/
def ofWord? : String → Option Switch
  | "tokens" => some .tokens
  | "ast" => some .ast
  | "no-compile" => some .noCompile
  | "quiet" => some .quiet
  | "output" => some .output
  | "module" => some .module
  | _ => none

end Switch

/-- A part of a command line. -/
inductive Argument where
  | file (path : String)
  | switch (s : Switch) (value : Option String)
deriving DecidableEq, Repr

namespace Argument

/-- The value behind an option, without the `=` in front of it. -/
def valueText (cs : List Char) : String := String.ofList (cs.dropWhile (· == '='))

/-- The options behind one dash. The last one may still need a value, which is then `none`;
`none` in all if a letter is no option. -/
def ofLetters? : List Char → Option (List Argument)
  | [] => some []
  | c :: cs =>
    match Switch.ofLetter? c with
    | none => none
    | some s =>
      if s.takesValue then
        some [.switch s (if cs.isEmpty then none else some (valueText cs))]
      else (ofLetters? cs).map (.switch s none :: ·)

/-- The option behind two dashes. A value is dropped if the option has none. -/
def ofLong? (cs : List Char) : Option Argument :=
  let word := cs.dropWhile (· == '-')
  let name := word.takeWhile (· != '=')
  match Switch.ofWord? (String.ofList name) with
  | none => none
  | some s =>
    match word.dropWhile (· != '=') with
    | [] => some (.switch s none)
    | value => some (.switch s (if s.takesValue then some (valueText value) else none))

/-- The parts of one argument in front of a `--`. -/
def ofText? (text : String) : Option (List Argument) :=
  match text.toList with
  | '-' :: '-' :: cs => (ofLong? cs).map ([·])
  | '-' :: c :: cs => ofLetters? (c :: cs)
  | _ => some [.file text]

/-- Whether an argument can be the value of the option before it. -/
def isValue (text : String) : Bool :=
  match text.toList with
  | ['-'] => true
  | '-' :: _ => false
  | _ => true

/-- Whether the last of some parts is an option that still needs its value. -/
def wantsValue (parts : List Argument) : Option Switch :=
  match parts.getLast? with
  | some (.switch s none) => if s.takesValue then some s else none
  | _ => none

/-- The parts of a command line; `none` if there is an unknown option. -/
def ofTexts? : List String → Option (List Argument)
  | [] => some []
  | "--" :: rest => some (rest.map .file)
  | text :: rest =>
    match ofText? text with
    | none => none
    | some parts =>
      match wantsValue parts, rest with
      | some s, next :: rest' =>
        if isValue next then
          (ofTexts? rest').map (parts.dropLast ++ .switch s (some next) :: ·)
        else (ofTexts? (next :: rest')).map (parts ++ ·)
      | _, rest => (ofTexts? rest).map (parts ++ ·)

/-- The files among the parts of a command line. -/
def files (parts : List Argument) : List String :=
  parts.filterMap fun
    | .file path => some path
    | .switch _ _ => none

/-- The options among the parts of a command line. -/
def switches (parts : List Argument) : List (Switch × Option String) :=
  parts.filterMap fun
    | .file _ => none
    | .switch s value => some (s, value)

end Argument

/-- What a command line asks for. -/
structure Options where
  input : String
  /-- The directory that output files are written to. -/
  output : String
  /-- The name of the module, also that of its file. -/
  module : String
  /-- Write the tokens to a file. -/
  tokens : Bool
  /-- Print the program as it was read, and write it to a file. -/
  ast : Bool
  /-- Stop when the program has been read. -/
  noCompile : Bool
  /-- Do not tell about progress. -/
  quiet : Bool
deriving DecidableEq, Repr

/-- Reads a command line; `none` if it cannot be understood. An option that lacks its value has
its usual one. -/
def Options.parse (args : List String) : Option Options :=
  match Argument.ofTexts? args with
  | none => none
  | some parts =>
    let switches := Argument.switches parts
    let given (s : Switch) : Bool := switches.any (·.1 == s)
    let value (s : Switch) (usual : String) : String := ((switches.lookup s).join).getD usual
    if (switches.map Prod.fst).Nodup then
      match Argument.files parts with
      | [input] =>
        some {
          input := input
          output := value .output "."
          module := value .module "main"
          tokens := given .tokens
          ast := given .ast
          noCompile := given .noCompile
          quiet := given .quiet }
      | _ => none
    else none

end ProcLang
