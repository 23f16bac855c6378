import TokenGrammar.Number.Decimal

/-!
# Binary floating-point numbers of 64 bits

A finite number is a sign, a mantissa below 2 ^ 53 and a power of two from -1074 to 971. Written
decimals are rounded to the nearest such number, a tie to the even mantissa. Everything is whole
number arithmetic, so equality and rounding can be computed inside the logic.

## Main definitions

* `Binary64`: the numbers, with both infinities and one not-a-number.
* `Binary64.ofRatio?`: the number nearest to a quotient, or nothing if it is too large.
* `Binary64.eq`: equality of numbers; zero has two signs, and not-a-number differs from itself.
* `Binary64.read?`: the number nearest to a written decimal.
* `Binary64.le`: a total order up to equality, with not-a-number in front.
* `Binary64.toWord?`: the number as a signed word.
-/
namespace TokenGrammar.Number

/-- A floating-point number with 53 bits of precision. -/
inductive Binary64 where
  /-- Not a number. -/
  | nan
  /-- Positive or negative infinity. -/
  | infinity (negative : Bool)
  /-- The number `± mantissa · 2 ^ exponent`. -/
  | finite (negative : Bool) (mantissa : Nat) (exponent : Int)
deriving Repr, DecidableEq, Inhabited

namespace Binary64

/-- The least power of two of a finite number. -/
def minExponent : Int := -1074

/-- The greatest power of two of a finite number. -/
def maxExponent : Int := 971

/-- `n · 2 ^ k` for a non-negative `k`, and `n` otherwise: one half of a scaling by a power of two,
the other half of which scales a denominator. -/
def shiftUp (n : Nat) (k : Int) : Nat := n * Nat.pow 2 k.toNat

/-- The nearest whole number to a quotient, a tie going to the even one. -/
def roundDiv (num den : Nat) : Nat :=
  let q := num / den
  let r := num % den
  if 2 * r < den then q
  else if den < 2 * r then q + 1
  else if q % 2 = 0 then q else q + 1

/-- The number nearest to `± num / den`, or nothing if it lies beyond the largest finite number. -/
def ofRatio? (negative : Bool) (num den : Nat) : Option Binary64 :=
  if num = 0 then some (.finite negative 0 minExponent)
  else
    let guess : Int := (num.log2 : Int) - den.log2 - 52
    let exponent :=
      if shiftUp num (-guess) < shiftUp (den * Nat.pow 2 52) guess then guess - 1 else guess
    let exponent := max exponent minExponent
    let mantissa := roundDiv (shiftUp num (-exponent)) (shiftUp den exponent)
    let (mantissa, exponent) :=
      if mantissa = Nat.pow 2 53 then (Nat.pow 2 52, exponent + 1) else (mantissa, exponent)
    if maxExponent < exponent then none else some (.finite negative mantissa exponent)

/-- The number nearest to a written decimal, or nothing if it is too large.

Powers of ten far outside the range are settled by the number of digits alone. -/
def ofDecimal? (d : Decimal) : Option Binary64 :=
  let size : Int := (decimalText d.digits).length + d.power
  if d.digits = 0 then ofRatio? d.negative 0 1
  else if 310 < size then none
  else if size < -330 then ofRatio? d.negative 0 1
  else ofRatio? d.negative (d.digits * Nat.pow 10 d.power.toNat)
    (Nat.pow 10 (-d.power).toNat)

/-- The names of the numbers that have no digits, in any case of letters. -/
def ofName? (cs : List Char) : Option Binary64 :=
  let (negative, name) := takeSign cs
  let name := String.ofList (name.map Char.toLower)
  if name = "inf" || name = "infinity" then some (.infinity negative)
  else if name = "nan" && name.length = cs.length then some .nan
  else none

/-- Reads a decimal or the name of a number. -/
def read? (cs : List Char) : Option Binary64 :=
  match Decimal.read? cs with
  | some d => ofDecimal? d
  | none => ofName? cs

/-- Equality of numbers: the two zeros are equal and not-a-number equals nothing. -/
def eq : Binary64 → Binary64 → Bool
  | .infinity a, .infinity b => a == b
  | .finite a m p, .finite b n q => (m == 0 && n == 0) || (a == b && m == n && p == q)
  | _, _ => false

/-- A finite number as a multiple of the least positive one. -/
def units (negative : Bool) (mantissa : Nat) (exponent : Int) : Int :=
  let size : Int := shiftUp mantissa (exponent - minExponent)
  if negative then -size else size

/-- Not-a-number, then the numbers in ascending order. -/
def le : Binary64 → Binary64 → Bool
  | .nan, _ => true
  | _, .nan => false
  | .infinity negative, y => negative || y == .infinity false
  | .finite .., .infinity negative => !negative
  | .finite a m p, .finite b n q => units a m p ≤ units b n q

/-- A finite number without its fraction. -/
def truncated (negative : Bool) (mantissa : Nat) (exponent : Int) : Int :=
  let size : Int := shiftUp mantissa exponent / shiftUp 1 (-exponent)
  if negative then -size else size

/-- The least signed word. -/
def leastWord : Int := -(Nat.pow 2 63 : Nat)

/-- The number without its fraction as a signed word. A number above the power of two that bounds
the words has none; what lies outside otherwise becomes the least word. -/
def toWord? : Binary64 → Option Int
  | .nan => none
  | .infinity negative => if negative then some leastWord else none
  | .finite negative mantissa exponent =>
    let n := truncated negative mantissa exponent
    if (Nat.pow 2 63 : Nat) < n then none
    else if fitsSigned n then some n else some leastWord

@[simp] theorem eq_nan (x : Binary64) : eq .nan x = false := by cases x <;> rfl

end Binary64
end TokenGrammar.Number
