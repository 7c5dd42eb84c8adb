import ProcLang.Number.Double

/-!
# The fewest digits that read back

A double stands for every real number nearer to it than to its neighbours, an interval whose ends
belong to it when its significand is even. `Double.shortest` is the decimal in that interval with
the fewest digits, and of those the nearest to the double. Interval and decimal are compared by
cross-multiplication, in quarter steps, so every comparison is exact.
-/
namespace ProcLang

/-- The decimal `digits * 10 ^ exponent`. -/
structure Decimal where
  digits : Nat
  exponent : Int
deriving DecidableEq, Repr

namespace Decimal

/-- The same number without trailing zeros among its digits. -/
def trimZeros (digits : Nat) (exponent : Int) : Decimal :=
  if digits ≠ 0 ∧ digits % 10 = 0 then trimZeros (digits / 10) (exponent + 1)
  else ⟨digits, exponent⟩
termination_by digits
decreasing_by omega

/-- Numerator and denominator. -/
def ratio (d : Decimal) : Nat × Nat :=
  match d.exponent with
  | .ofNat e => (d.digits * Double.tenPow e, 1)
  | .negSucc e => (d.digits, Double.tenPow (e + 1))

/-- The exponent of the leading digit. -/
def order (d : Decimal) : Int := d.exponent + ((Nat.toDigits 10 d.digits).length - 1 : Nat)

end Decimal

namespace Double

/-- Four times the unit in steps: the quarter steps that make up one. -/
def quarters : Nat := 4 * unit

/-- The lower end of the interval of a positive double, in quarter steps. Below a power of two
the neighbour is only half as far. -/
def lowerEnd (x : Double) : Nat :=
  let gap := if x.fractionBits = 0 ∧ 1 < x.exponentBits then 1 else 2
  4 * x.steps - gap * twoPow x.scale

/-- The upper end of the interval of a positive double, in quarter steps. -/
def upperEnd (x : Double) : Nat := 4 * x.steps + 2 * twoPow x.scale

/-- Whether the decimal `d` reads back as the magnitude of `x`. -/
def readsBack (x : Double) (d : Decimal) : Bool :=
  let (a, b) := d.ratio
  if x.significand % 2 = 0 then
    decide (x.lowerEnd * b ≤ a * quarters) && decide (a * quarters ≤ x.upperEnd * b)
  else
    decide (x.lowerEnd * b < a * quarters) && decide (a * quarters < x.upperEnd * b)

/-- The exponent of the leading decimal digit of a positive double. The least double is above
`10 ^ -324`, so moving the point by 400 places leaves a whole number to count digits in. -/
def decimalOrder (x : Double) : Int :=
  ((Nat.toDigits 10 (x.steps * tenPow 400 / unit)).length : Int) - 401

/-- The multiple of `10 ^ e` just below `x`. -/
def gridBelow (x : Double) (e : Int) : Nat :=
  match e with
  | .ofNat k => x.steps / (unit * tenPow k)
  | .negSucc k => x.steps * tenPow (k + 1) / unit

/-- Whether the point halfway between `c` and `c + 1` on the grid `10 ^ e` is above `x`. -/
def nearerBelow (x : Double) (e : Int) (c : Nat) : Bool :=
  let (a, b) := (⟨2 * c + 1, e⟩ : Decimal).ratio
  decide (2 * x.steps * b < a * unit)

/-- The decimal on the grid `10 ^ e` that reads back as `x`, the nearer one if there are two; a
tie goes up. -/
def onGrid? (x : Double) (e : Int) : Option Decimal :=
  let c := gridBelow x e
  match readsBack x ⟨c, e⟩, readsBack x ⟨c + 1, e⟩ with
  | true, true => some (if nearerBelow x e c then ⟨c, e⟩ else ⟨c + 1, e⟩)
  | true, false => some ⟨c, e⟩
  | false, true => some ⟨c + 1, e⟩
  | false, false => none

/-- The shortest decimal of a positive double; seventeen digits are always enough. -/
def shortest (x : Double) : Decimal :=
  let order := decimalOrder x
  match (List.range 17).findSome? fun (k : Nat) => onGrid? x (order - k) with
  | some d => .trimZeros d.digits d.exponent
  | none => ⟨gridBelow x (order - 16), order - 16⟩

end Double
end ProcLang
