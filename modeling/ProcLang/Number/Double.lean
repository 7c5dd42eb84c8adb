/-!
# Doubles

A double is its 64 bits: a sign, eleven exponent bits and fifty-two fraction bits. The magnitude
of a finite double is a natural number of steps of `2 ^ -1074`, the least positive double.
`Double.steps` reads that number off the bits and `Double.ofSteps` writes it back, so that reading,
rounding, ordering and truncation are plain arithmetic on natural numbers.

## Main definitions

* `Double.steps`, `Double.ofSteps` — a double as a number of steps.
* `Double.ofDecimal`, `Double.ofInt` — the nearest double to a number.
* `Double.roundSingle`, `Double.toInt64` — conversions to smaller sets of numbers.
* `Double.order?` — how two doubles compare.
-/
namespace ProcLang

/-- A number of the 64-bit binary format, as its bits. Infinities count among them, and so do the
bits that are not a number. -/
structure Double where
  bits : UInt64
deriving DecidableEq, Repr

namespace Double

/-- The power `n` of two. -/
def twoPow (n : Nat) : Nat := Nat.pow 2 n

/-- The power `n` of ten. -/
def tenPow (n : Nat) : Nat := Nat.pow 10 n

/-- The number of steps in one, `2 ^ 1074`. -/
def unit : Nat := twoPow 1074

/-- The eleven exponent bits. -/
def exponentBits (x : Double) : Nat := x.bits.toNat / twoPow 52 % twoPow 11

/-- The fifty-two fraction bits. -/
def fractionBits (x : Double) : Nat := x.bits.toNat % twoPow 52

/-- The sign bit. -/
def isNegative (x : Double) : Bool := decide (twoPow 63 ≤ x.bits.toNat)

/-- Whether the bits are not a number. -/
def isNaN (x : Double) : Bool := x.exponentBits == 2047 && x.fractionBits != 0

/-- The significand as a whole number; a subnormal double has no hidden bit. -/
def significand (x : Double) : Nat :=
  if x.exponentBits = 0 then x.fractionBits else twoPow 52 + x.fractionBits

/-- The distance to the next double above, in steps, is `2 ^ scale x`. -/
def scale (x : Double) : Nat := x.exponentBits - 1

/-- The magnitude of a double in steps. An infinity counts as `2 ^ 1024`. -/
def steps (x : Double) : Nat := x.significand * twoPow x.scale

/-- Whether a double is one of the two zeros. -/
def isZero (x : Double) : Bool := x.steps == 0

/-- The bits of the magnitude of `n` steps. Digits that a double cannot hold are dropped. -/
def magnitudeBits (n : Nat) : Nat :=
  if n < twoPow 52 then n
  else (n.log2 - 51) * twoPow 52 + (n / twoPow (n.log2 - 52) - twoPow 52)

/-- The double of `n` steps with the given sign; past the largest double, an infinity. -/
def ofSteps (negative : Bool) (n : Nat) : Double :=
  let magnitude := min (magnitudeBits n) (2047 * twoPow 52)
  ⟨UInt64.ofNat (if negative then twoPow 63 + magnitude else magnitude)⟩

/-! ## Rounding -/

/-- Division to the nearest whole number, a half going to the even neighbour. -/
def roundDiv (n d : Nat) : Nat :=
  let q := n / d
  let r := n % d
  if 2 * r < d then q
  else if d < 2 * r then q + 1
  else if q % 2 = 0 then q else q + 1

/-- The nearest number to `n / d` with at most `precision` binary digits that is a multiple of
`2 ^ least`. -/
def roundRatio (precision least n d : Nat) : Nat :=
  let grid := twoPow (max least ((n / d).log2 + 1 - precision))
  roundDiv n (d * grid) * grid

/-- Zero. -/
def zero : Double := ⟨0⟩

/-- The nearest double to a whole number. -/
def ofInt (i : Int) : Double :=
  ofSteps (decide (i < 0)) (roundRatio 53 0 (i.natAbs * unit) 1)

/-- The nearest double to the decimal number with the given digits, the last `places` of them
behind the point. -/
def ofDecimal (digits places : Nat) : Double :=
  ofSteps false (roundRatio 53 0 (digits * unit) (tenPow places))

/-- Not a number, with what single precision keeps of its bits. -/
def truncateNaN (x : Double) : Double := ⟨(x.bits ||| (1 : UInt64) <<< 51) >>> 29 <<< 29⟩

/-- The nearest single-precision number: 24 binary digits, a multiple of `2 ^ -149`, and an
infinity from `2 ^ 128` on. -/
def roundSingle (x : Double) : Double :=
  if x.isNaN then x.truncateNaN
  else
    let n := roundRatio 24 925 x.steps 1
    ofSteps x.isNegative (if twoPow 128 * unit ≤ n then twoPow 1024 * unit else n)

/-- The whole part, kept within 64 bits at both ends; not a number counts as zero. -/
def toInt64 (x : Double) : Int64 :=
  if x.isNaN then 0
  else if x.isNegative then Int64.ofInt (max Int64.minValue.toInt (-(x.steps / unit : Nat)))
  else Int64.ofInt (min Int64.maxValue.toInt (x.steps / unit : Nat))

/-! ## Order and arithmetic -/

/-- A double in steps with its sign. -/
def signedSteps (x : Double) : Int := if x.isNegative then -(x.steps : Int) else x.steps

/-- How two doubles compare: not at all if one is not a number. The two zeros are equal. -/
def order? (l r : Double) : Option Ordering :=
  if l.isNaN || r.isNaN then none else some (compare l.signedSteps r.signedSteps)

/-- The double that computations run on. -/
def toFloat (x : Double) : Float := Float.ofBits x.bits

/-- The bits of a computed double. -/
def ofFloat (x : Float) : Double := ⟨x.toBits⟩

instance : Add Double := ⟨fun l r => ofFloat (l.toFloat + r.toFloat)⟩

instance : Sub Double := ⟨fun l r => ofFloat (l.toFloat - r.toFloat)⟩

instance : Mul Double := ⟨fun l r => ofFloat (l.toFloat * r.toFloat)⟩

instance : Div Double := ⟨fun l r => ofFloat (l.toFloat / r.toFloat)⟩

end Double
end ProcLang
