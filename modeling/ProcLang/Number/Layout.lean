import ProcLang.Number.Shortest

/-!
# The text of a double

`Layout` holds the decisions of a number format: which orders of magnitude are written
positionally and how the special values are spelled. `Double.text` is the format of literals and
dumps: the fewest digits that read back, positional from `1e-4` up to `1e16`, and a positional
number always shows a decimal place.
-/
namespace ProcLang

/-- The decisions of a number format. -/
structure Layout where
  /-- The least order of magnitude that is written positionally. -/
  positionalFrom : Int
  /-- The first order of magnitude above those. -/
  positionalBelow : Int
  infinity : String
  notANumber : String

namespace Layout

/-- Digits with the point behind the one of order zero; `order` is that of the first digit. -/
def positional (digits : List Char) (order : Int) : List Char :=
  match order with
  | .negSucc k => '0' :: '.' :: List.replicate k '0' ++ digits
  | .ofNat k =>
    let whole := digits.take (k + 1)
    let places := digits.drop (k + 1)
    let places := if places.isEmpty then ['0'] else places
    whole ++ List.replicate (k + 1 - whole.length) '0' ++ '.' :: places

/-- One digit before the point, the others behind it, and the order of the first digit. -/
def scientific (digits : List Char) (order : Int) : List Char :=
  match digits with
  | d :: r :: rs => d :: '.' :: r :: rs ++ 'e' :: (toString order).toList
  | _ => digits ++ 'e' :: (toString order).toList

/-- The text of a positive decimal. -/
def decimal (l : Layout) (d : Decimal) : List Char :=
  let digits := Nat.toDigits 10 d.digits
  if l.positionalFrom ≤ d.order ∧ d.order < l.positionalBelow then positional digits d.order
  else scientific digits d.order

/-- The text of a double without its sign. -/
def magnitude (l : Layout) (x : Double) : List Char :=
  if x.isZero then ['0', '.', '0']
  else if x.exponentBits = 2047 then l.infinity.toList
  else l.decimal (x.shortest)

/-- The text of a double. Zero keeps its sign; not a number has none. -/
def text (l : Layout) (x : Double) : String :=
  if x.isNaN then l.notANumber
  else String.ofList (if x.isNegative then '-' :: l.magnitude x else l.magnitude x)

end Layout

/-- The format of literals and dumps. -/
def Double.layout : Layout where
  positionalFrom := -4
  positionalBelow := 16
  infinity := "inf"
  notANumber := "NaN"

/-- The text of a double in literals and dumps. -/
def Double.text (x : Double) : String := Double.layout.text x

/-- The sixteen upper-case hexadecimal digits of the bits of a double, behind `0x`. -/
def Double.hex (x : Double) : String :=
  let digits := (Nat.toDigits 16 x.bits.toNat).map Char.toUpper
  "0x" ++ String.ofList (List.replicate (16 - digits.length) '0' ++ digits)

end ProcLang
