import ProcLang.Literal
import ProcLang.Position
import ProcLang.Ty

/-!
# Tokens

A token is a word, number or symbol of a program together with where it stands.

## Main definitions

* `Keyword`, `Symbol` — the reserved words and the punctuation, with their spellings.
* `Token.Kind` — what a token is; `Token` adds its position.
-/
namespace ProcLang

/-- The reserved words that are neither types nor truth values. -/
inductive Keyword where
  | «return»
  | «if»
  | «else»
deriving DecidableEq, Repr

namespace Keyword

/-- The name of a keyword in token listings. -/
def name : Keyword → String
  | .return => "Return"
  | .if => "If"
  | .else => "Else"

/-- The spelling of a keyword. -/
def text : Keyword → String
  | .return => "return"
  | .if => "if"
  | .else => "else"

/-- The keyword that a word spells. -/
def ofWord? : String → Option Keyword
  | "return" => some .return
  | "if" => some .if
  | "else" => some .else
  | _ => none

@[simp] theorem ofWord?_text (k : Keyword) : ofWord? k.text = some k := by cases k <;> rfl

end Keyword

/-- The punctuation of a program. A line feed is punctuation too: it ends a statement. -/
inductive Symbol where
  | parenOpen
  | parenClose
  | braceOpen
  | braceClose
  | comma
  | semicolon
  | lineBreak
  | colon
  | equals
  | doubleColon
  | arrow
  | assign
  | doubleEquals
  | plus
  | minus
  | star
  | slash
  | doubleSlash
  | less
  | greater
deriving DecidableEq, Repr

namespace Symbol

/-- The name of a symbol in token listings and messages. -/
def name : Symbol → String
  | .parenOpen => "ParenthesisBegin"
  | .parenClose => "ParenthesisEnd"
  | .braceOpen => "CurlyBracketBegin"
  | .braceClose => "CurlyBracketEnd"
  | .comma => "Comma"
  | .semicolon => "SemiColon"
  | .lineBreak => "LineBreak"
  | .colon => "Colon"
  | .equals => "Equals"
  | .doubleColon => "DoubleColon"
  | .arrow => "Arrow"
  | .assign => "Assign"
  | .doubleEquals => "DoubleEquals"
  | .plus => "Plus"
  | .minus => "Minus"
  | .star => "Mul"
  | .slash => "Div"
  | .doubleSlash => "IntDiv"
  | .less => "Lt"
  | .greater => "Gt"

/-- The characters of a symbol. -/
def spelling : Symbol → List Char
  | .parenOpen => ['(']
  | .parenClose => [')']
  | .braceOpen => ['\x7b']
  | .braceClose => ['\x7d']
  | .comma => [',']
  | .semicolon => [';']
  | .lineBreak => ['\n']
  | .colon => [':']
  | .equals => ['=']
  | .doubleColon => [':', ':']
  | .arrow => ['-', '>']
  | .assign => [':', '=']
  | .doubleEquals => ['=', '=']
  | .plus => ['+']
  | .minus => ['-']
  | .star => ['*']
  | .slash => ['/']
  | .doubleSlash => ['/', '/']
  | .less => ['<']
  | .greater => ['>']

/-- All symbols, longer spellings first. -/
def all : List Symbol :=
  [.doubleColon, .arrow, .assign, .doubleEquals, .doubleSlash, .parenOpen, .parenClose, .braceOpen,
   .braceClose, .comma, .semicolon, .lineBreak, .colon, .equals, .plus, .minus, .star, .slash,
   .less, .greater]

theorem mem_all (s : Symbol) : s ∈ all := by cases s <;> decide

/-- The symbol that starts a text, the longest that fits. -/
def leading? (cs : List Char) : Option Symbol := all.find? fun s => s.spelling.isPrefixOf cs

end Symbol

namespace Token

/-- What a token is. -/
inductive Kind where
  | ident (name : String)
  | literal (value : Literal)
  | type (ty : Ty)
  | keyword (word : Keyword)
  | symbol (mark : Symbol)
  /-- The end of the text. -/
  | eof
deriving DecidableEq

/-- The text of a kind in token listings. -/
def Kind.text : Kind → String
  | .ident name => "Ident(" ++ name ++ ")"
  | .literal value => "Lit(" ++ value.text ++ ")"
  | .type ty => "Type(" ++ ty.text ++ ")"
  | .keyword word => "Kw(" ++ word.name ++ ")"
  | .symbol mark => "Sym(" ++ mark.name ++ ")"
  | .eof => "EOF"

end Token

/-- A token of a program and where it stands. -/
structure Token where
  kind : Token.Kind
  pos : Position
deriving DecidableEq

namespace Token

/-- The text of a token in listings and messages. -/
def text (t : Token) : String := s!"{t.kind.text}, line: {t.pos.line}, column: {t.pos.column}"

/-- Whether a token is the symbol `s`. -/
def isSymbol (t : Token) (s : Symbol) : Bool := t.kind == .symbol s

/-- Whether a token is the keyword `k`. -/
def isKeyword (t : Token) (k : Keyword) : Bool := t.kind == .keyword k

/-- Whether a token is the end of the text. -/
def isEof (t : Token) : Bool := t.kind == .eof

/-- Whether a token ends a statement. -/
def isBreak (t : Token) : Bool := t.isSymbol .lineBreak || t.isSymbol .semicolon

/-- The name of an identifier. -/
def ident? (t : Token) : Option String :=
  match t.kind with
  | .ident name => some name
  | _ => none

end Token
end ProcLang
