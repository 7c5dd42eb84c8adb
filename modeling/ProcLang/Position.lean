/-!
# Positions in a source text

A `Cursor` is a place between two characters; a `Position` is a stretch of text that starts at a
cursor. Offsets and lengths count bytes of the UTF-8 form, lines and columns count from one, and a
column counts characters.
-/
namespace ProcLang

/-- A stretch of source text: its first byte, its bytes, and the line and column it starts at. -/
structure Position where
  offset : Nat
  length : Nat
  line : Nat
  column : Nat
deriving DecidableEq, Inhabited, Repr

/-- The short form used in messages, `line:column`. -/
def Position.text (p : Position) : String := s!"{p.line}:{p.column}"

/-- A place between two characters of a source text. -/
structure Cursor where
  offset : Nat
  line : Nat
  column : Nat
deriving DecidableEq, Repr

namespace Cursor

/-- The place before the first character. -/
def start : Cursor := ⟨0, 1, 1⟩

/-- The place behind the character `c`; a line feed opens a new line. -/
def step (p : Cursor) (c : Char) : Cursor :=
  if c = '\n' then ⟨p.offset + c.utf8Size, p.line + 1, 1⟩
  else ⟨p.offset + c.utf8Size, p.line, p.column + 1⟩

/-- The place behind the characters `cs`. -/
def advance (p : Cursor) (cs : List Char) : Cursor := cs.foldl step p

/-- The stretch of text `cs` that starts at `p`. -/
def span (p : Cursor) (cs : List Char) : Position :=
  ⟨p.offset, (p.advance cs).offset - p.offset, p.line, p.column⟩

@[simp] theorem advance_nil (p : Cursor) : p.advance [] = p := rfl

@[simp] theorem advance_cons (p : Cursor) (c : Char) (cs : List Char) :
    p.advance (c :: cs) = (p.step c).advance cs := rfl

@[simp] theorem advance_append (p : Cursor) (cs ds : List Char) :
    p.advance (cs ++ ds) = (p.advance cs).advance ds := List.foldl_append

end Cursor
end ProcLang
