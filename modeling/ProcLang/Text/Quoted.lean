import ProcLang.Text.Visible

/-!
# Quoted characters and strings

Inside quotes the quote itself, the backslash and the usual controls are written with a backslash,
and any other character that cannot be shown is written by its code point.
-/
namespace ProcLang.Text

/-- The hexadecimal digits of a code point. -/
def hexDigits (c : Char) : List Char := Nat.toDigits 16 c.toNat

/-- The character `c` as written between two `quote` characters. -/
def escape (quote c : Char) : List Char :=
  if c = '\x00' then ['\\', '0']
  else if c = '\t' then ['\\', 't']
  else if c = '\r' then ['\\', 'r']
  else if c = '\n' then ['\\', 'n']
  else if c = '\\' ∨ c = quote then ['\\', c]
  else if isVisible c then [c]
  else ['\\', 'u', '\x7b'] ++ hexDigits c ++ ['\x7d']

/-- A character in single quotes. -/
def quoteChar (c : Char) : String :=
  String.ofList ('\'' :: escape '\'' c ++ ['\''])

/-- A string in double quotes. -/
def quoteString (s : String) : String :=
  String.ofList ('"' :: s.toList.flatMap (escape '"') ++ ['"'])

end ProcLang.Text
