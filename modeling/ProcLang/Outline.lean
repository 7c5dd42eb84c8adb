import ProcLang.ParseError

/-!
# The outline of a program

Before any function is read in full, its tokens are scanned once for where each function starts
and ends and how many parameters it takes. With that outline a call can be told from a variable
even if the function stands further down.

## Main definitions

* `Outline`, `Outline.Entry` — the functions of a program in order.
* `Outline.insert`, `Outline.get?` — a name occurs once.
* `Outline.scan` — the outline of a list of tokens.
* `Outline.outside` — the tokens that belong to no function.
-/
namespace ProcLang

/-- A function in a list of tokens. -/
structure Outline.Entry where
  name : String
  /-- The index of its name. -/
  start : Nat
  /-- The index of the `}` that closes its body. -/
  stop : Nat
  arity : Nat
deriving DecidableEq, Repr

/-- The functions of a program in order. -/
structure Outline where
  entries : List Outline.Entry
deriving DecidableEq, Repr

namespace Outline

/-- No functions. -/
def empty : Outline := ⟨[]⟩

/-- The function of a given name. -/
def get? (o : Outline) (name : String) : Option Entry := o.entries.find? (·.name == name)

/-- Whether a name is that of a function. -/
def contains (o : Outline) (name : String) : Bool := (o.get? name).isSome

/-- How many functions there are. -/
def size (o : Outline) : Nat := o.entries.length

/-- Adds a function behind the others, unless its name is taken. -/
def insert (o : Outline) (e : Entry) : Except ParseError Outline :=
  if o.contains e.name then .error ⟨.duplicateFunction e.name, none⟩
  else .ok ⟨o.entries ++ [e]⟩

/-- A function whose body is not closed yet. -/
structure Opening where
  name : String
  start : Nat
  pos : Position
  arity : Nat
deriving DecidableEq, Repr

/-- What a scan is in the middle of. -/
inductive Mode where
  | outside
  /-- Behind a `::`; `returns` tells whether an `->` has been seen. -/
  | header (f : Opening) (returns : Bool)
  /-- Inside a body, with `depth` braces open besides its own. -/
  | body (f : Opening) (depth : Nat)
deriving DecidableEq, Repr

/-- A scan that has read `index` tokens, the last of them `previous`. -/
structure Scan where
  index : Nat
  previous : Option Token
  mode : Mode
  outline : Outline
deriving DecidableEq

namespace Scan

/-- Before the first token. -/
def start : Scan := ⟨0, none, .outside, .empty⟩

/-- The mode and the outline behind one more token. -/
def next (s : Scan) (t : Token) : Except ParseError (Mode × Outline) :=
  match s.mode with
  | .outside =>
    match t.kind with
    | .symbol .doubleColon =>
      match s.previous with
      | some ⟨.ident name, pos⟩ => .ok (.header ⟨name, s.index - 1, pos, 0⟩ false, s.outline)
      | _ => .error ⟨.missingFunctionName, some t.pos⟩
    | .symbol .braceOpen => .error ⟨.bodyWithoutHeader, some t.pos⟩
    | .symbol .braceClose => .error ⟨.strayBraceClose, some t.pos⟩
    | _ => .ok (.outside, s.outline)
  | .header f returns =>
    match t.kind with
    | .symbol .doubleColon => .error ⟨.headerInHeader f.name, some t.pos⟩
    | .symbol .arrow => .ok (.header f true, s.outline)
    | .symbol .braceOpen => .ok (.body f 0, s.outline)
    | .symbol .braceClose => .error ⟨.strayBraceClose, some t.pos⟩
    | .type _ =>
      .ok (.header (if returns then f else { f with arity := f.arity + 1 }) returns, s.outline)
    | _ => .ok (.header f returns, s.outline)
  | .body f depth =>
    match t.kind with
    | .symbol .braceOpen => .ok (.body f (depth + 1), s.outline)
    | .symbol .braceClose =>
      match depth with
      | depth + 1 => .ok (.body f depth, s.outline)
      | 0 =>
        match s.outline.insert ⟨f.name, f.start, s.index, f.arity⟩ with
        | .ok outline => .ok (.outside, outline)
        | .error e => .error e
    | _ => .ok (.body f depth, s.outline)

/-- Reads one more token. -/
def step (s : Scan) (t : Token) : Except ParseError Scan :=
  match s.next t with
  | .ok (mode, outline) => .ok ⟨s.index + 1, some t, mode, outline⟩
  | .error e => .error e

/-- Reads a list of tokens. -/
def run (s : Scan) : List Token → Except ParseError Scan
  | [] => .ok s
  | t :: ts =>
    match s.step t with
    | .ok s' => s'.run ts
    | .error e => .error e

/-- The outline at the end of the tokens; every body has to be closed by then. -/
def finish (s : Scan) : Except ParseError Outline :=
  match s.mode with
  | .outside => .ok s.outline
  | .header f _ | .body f _ => .error ⟨.unclosedFunction f.name, some f.pos⟩

end Scan

/-- The outline of a list of tokens. -/
def scan (ts : List Token) : Except ParseError Outline :=
  match Scan.start.run ts with
  | .ok s => s.finish
  | .error e => .error e

/-- The tokens from index `start` on that lie in none of the entries. -/
def gaps (ts : List Token) (start : Nat) : List Entry → List Token
  | [] => ts.drop start
  | e :: es => (ts.take e.start).drop start ++ gaps ts (e.stop + 1) es

/-- The tokens that belong to no function. -/
def outside (o : Outline) (ts : List Token) : List Token := gaps ts 0 o.entries

/-- The tokens of a function, from its name to the end of its body. -/
def Entry.tokens (e : Entry) (ts : List Token) : List Token :=
  (ts.take (e.stop + 1)).drop e.start

end Outline
end ProcLang
