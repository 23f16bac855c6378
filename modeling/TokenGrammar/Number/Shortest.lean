import TokenGrammar.Number.Binary64

/-!
# Shortest decimal text of a floating-point number

The text of a finite number has the fewest digits that read back as the same number, and among
those the digits nearest to it. The search tries one digit, then two, and so on: on each decimal
grid only the two neighbours of the number can be hits.

## Main definitions

* `Shortest.digits`: the digits and the power of ten of the first.
* `Layout`: the choices of a number format that are not determined by the digits.
* `Binary64.text`: the text of a number in the general layout.
-/
namespace TokenGrammar.Number

namespace Shortest

/-- A non-negative quotient of whole numbers. -/
structure Ratio where
  num : Nat
  den : Nat

/-- Comparison of quotients by cross multiplication. -/
def Ratio.le (a b : Ratio) : Bool := a.num * b.den ≤ b.num * a.den

/-- Strict comparison of quotients. -/
def Ratio.lt (a b : Ratio) : Bool := a.num * b.den < b.num * a.den

/-- `n · 10 ^ power` as a quotient. -/
def Ratio.ofPower (n : Nat) (power : Int) : Ratio :=
  ⟨n * Nat.pow 10 power.toNat, Nat.pow 10 (-power).toNat⟩

/-- `n · 2 ^ exponent` as a quotient. -/
def Ratio.ofBinary (n : Nat) (exponent : Int) : Ratio :=
  ⟨n * Nat.pow 2 exponent.toNat, Nat.pow 2 (-exponent).toNat⟩

/-- The reals that round to `mantissa · 2 ^ exponent`: four times the mantissa and the two ends, all
in units of `2 ^ (exponent - 2)`. Below a power of two the numbers lie closer together. -/
structure Interval where
  low : Ratio
  value : Ratio
  high : Ratio
  closed : Bool

/-- The interval of a finite number; the ends belong to it if the mantissa is even. -/
def Interval.of (mantissa : Nat) (exponent : Int) : Interval :=
  let unit := exponent - 2
  let below :=
    if mantissa = Nat.pow 2 52 ∧ Binary64.minExponent < exponent then 4 * mantissa - 1
    else 4 * mantissa - 2
  { low := .ofBinary below unit
    value := .ofBinary (4 * mantissa) unit
    high := .ofBinary (4 * mantissa + 2) unit
    closed := mantissa % 2 = 0 }

/-- Whether a quotient reads back as the number of the interval. -/
def Interval.contains (i : Interval) (r : Ratio) : Bool :=
  if i.closed then i.low.le r && r.le i.high else i.low.lt r && r.lt i.high

/-- The power of ten of the first digit of a positive number. The first estimate comes from the
power of two and is at most one too small. -/
def leadingPower (mantissa : Nat) (exponent : Int) : Int :=
  let estimate := Int.fdiv (((mantissa.log2 : Int) + exponent) * 78913) (Nat.pow 2 18)
  if (Ratio.ofPower 1 (estimate + 1)).le (.ofBinary mantissa exponent) then estimate + 1
  else estimate

/-- The hit on one decimal grid, if there is one: the nearer of the two neighbours of the value
that read back, the lower one if both are equally near. -/
def hit? (i : Interval) (unit : Int) : Option Nat :=
  let grid := Ratio.ofPower 1 unit
  let scaled : Ratio := ⟨i.value.num * grid.den, i.value.den * grid.num⟩
  let lower := scaled.num / scaled.den
  let lowerHit := i.contains (.ofPower lower unit)
  let upperHit := i.contains (.ofPower (lower + 1) unit)
  if lowerHit && upperHit then
    if 2 * (scaled.num % scaled.den) ≤ scaled.den then some lower else some (lower + 1)
  else if lowerHit then some lower
  else if upperHit then some (lower + 1)
  else none

/-- Searches the grids with `count` digits and more; seventeen digits always suffice. -/
def search (i : Interval) (leading : Int) (count : Nat) : Nat → Nat × Int
  | 0 => (0, 0)
  | more + 1 =>
    let unit := leading - count + 1
    match hit? i unit with
    | some n => (n, unit)
    | none => search i leading (count + 1) more

/-- A list of digits without the zeros at its end. -/
def stripZeros (cs : List Char) : List Char := (cs.reverse.dropWhile (· = '0')).reverse

/-- The digits of a positive number, without zeros at the end, and the power of ten of the first. -/
def digits (mantissa : Nat) (exponent : Int) : List Char × Int :=
  let leading := leadingPower mantissa exponent
  let (n, unit) := search (.of mantissa exponent) leading 1 17
  let all := decimalText n
  (stripZeros all, unit + all.length - 1)

end Shortest

/-- The choices of a number format: the powers of ten between which digits are written without an
exponent, and the least number of digits of an exponent. -/
structure Layout where
  least : Int
  bound : Int
  exponentWidth : Nat

/-- Numbers from 0.0001 up to, but without, 1000000 are written without an exponent, and an exponent
has a sign and at least two digits. -/
def Layout.general : Layout := ⟨-4, 6, 2⟩

/-- Digits without an exponent, with a point only where a fraction follows. -/
def positional (digits : List Char) (power : Int) : List Char :=
  if power < 0 then ['0', '.'] ++ List.replicate (-power - 1).toNat '0' ++ digits
  else
    let whole := power.toNat + 1
    if digits.length ≤ whole then digits ++ List.replicate (whole - digits.length) '0'
    else digits.take whole ++ '.' :: digits.drop whole

/-- One digit, a fraction if there are more digits, and the exponent. -/
def scientific (width : Nat) (digits : List Char) (power : Int) : List Char :=
  let written := decimalText power.natAbs
  digits.take 1 ++ (if digits.length ≤ 1 then [] else '.' :: digits.drop 1) ++
    ['e', if power < 0 then '-' else '+'] ++ List.replicate (width - written.length) '0' ++ written

/-- Digits in the form that the layout asks for. -/
def Layout.write (l : Layout) (digits : List Char) (power : Int) : List Char :=
  if power < l.least || l.bound ≤ power then scientific l.exponentWidth digits power
  else positional digits power

/-- The text of a number: the shortest digits that read back, in the general layout. -/
def Binary64.text : Binary64 → String
  | .nan => "NaN"
  | .infinity negative => if negative then "-Inf" else "+Inf"
  | .finite negative mantissa exponent =>
    let unsigned :=
      if mantissa = 0 then ['0']
      else
        let (digits, power) := Shortest.digits mantissa exponent
        Layout.general.write digits power
    String.ofList (if negative then '-' :: unsigned else unsigned)

end TokenGrammar.Number
