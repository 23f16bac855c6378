/-!
# Written numbers

Reading of the digits of a number: whole numbers in a base, and decimal numbers with a fraction and
an exponent. A decimal number is kept exactly, as a whole number of digits and a power of ten.

## Main definitions

* `digitsValue?`: the whole number written by digits of a base.
* `based?`: the whole number written by digits in the base that stands in front of them.
* `isGrouped`: whether the underscores in a number are well placed.
* `groupedBased?`: the same as `based?` where underscores may divide the digits into groups.
* `Decimal`: sign, digits and power of ten of a written number.
* `Decimal.read?`: the reader for the form `±12.5e-3`.
-/
namespace TokenGrammar.Number

/-- The value of a digit in bases up to sixteen. -/
def digitValue? (c : Char) : Option Nat :=
  let n := c.toNat
  if 0x30 ≤ n && n ≤ 0x39 then some (n - 0x30)
  else if 0x61 ≤ n && n ≤ 0x66 then some (n - 0x57)
  else if 0x41 ≤ n && n ≤ 0x46 then some (n - 0x37)
  else none

/-- A digit that is smaller than the base. -/
def isDigitOf (base : Nat) (c : Char) : Bool :=
  match digitValue? c with
  | some d => d < base
  | none => false

/-- The number written by digits of one base, read from the left after the number `seen`. -/
def digitsFrom (base seen : Nat) : List Char → Nat
  | [] => seen
  | c :: cs => digitsFrom base (seen * base + (digitValue? c).getD 0) cs

/-- The whole number written by a non-empty list of digits of the base. -/
def digitsValue? (base : Nat) (cs : List Char) : Option Nat :=
  if cs.isEmpty || !cs.all (isDigitOf base) then none else some (digitsFrom base 0 cs)

/-- The base and the digits of an unsigned integer: a letter after a zero names the base, and a zero
alone in front stands for base eight. -/
def baseOf : List Char → Nat × List Char
  | '0' :: c :: rest =>
    if c = 'x' || c = 'X' then (16, rest)
    else if c = 'b' || c = 'B' then (2, rest)
    else if c = 'o' || c = 'O' then (8, rest)
    else (8, c :: rest)
  | cs => (10, cs)

/-- The whole number written by digits in the base that stands in front of them. -/
def based? (cs : List Char) : Option Nat :=
  let (base, digits) := baseOf cs
  digitsValue? base digits

/-- Whether each underscore stands between two digits. What counts as a digit is given, and so is
whether a digit stands in front of the text. -/
def isGrouped (isDigit : Char → Bool) (afterDigit : Bool) : List Char → Bool
  | [] => true
  | c :: rest =>
    if c = '_' then
      afterDigit && (rest.head?.map isDigit).getD false && isGrouped isDigit false rest
    else isGrouped isDigit (isDigit c) rest

/-- A text without its underscores. -/
def ungrouped (cs : List Char) : List Char := cs.filter (· ≠ '_')

@[simp] theorem isGrouped_nil (isDigit : Char → Bool) (afterDigit : Bool) :
    isGrouped isDigit afterDigit [] = true := rfl

/-- The whole number written by digits in the base that stands in front of them; underscores may
divide the digits, and one may follow the base. -/
def groupedBased? (cs : List Char) : Option Nat :=
  let (base, digits) := baseOf cs
  if isGrouped (isDigitOf (max base 10)) (base ≠ 10) digits then
    digitsValue? base (ungrouped digits)
  else none

/-- The decimal digits of a number, without leading zeros; zero is one digit. -/
def decimalText (n : Nat) : List Char := Nat.toDigits 10 n

/-- The decimal digits of an integer with a minus sign where it is negative. -/
def integerText (n : Int) : String :=
  match n with
  | .ofNat k => String.ofList (decimalText k)
  | .negSucc k => String.ofList ('-' :: decimalText (k + 1))

/-- The number of values of a machine word of 64 bits. -/
def wordCount : Nat := Nat.pow 2 64

/-- Whether an integer lies in the range of a signed word of 64 bits. -/
def fitsSigned (n : Int) : Bool := -(Nat.pow 2 63 : Nat) ≤ n && n < (Nat.pow 2 63 : Nat)

/-- Whether an integer lies in the range of an unsigned word of 64 bits. -/
def fitsUnsigned (n : Int) : Bool := 0 ≤ n && n < wordCount

/-- A sign in front of a text: whether it is negative, and the rest. -/
def takeSign : List Char → Bool × List Char
  | '-' :: cs => (true, cs)
  | '+' :: cs => (false, cs)
  | cs => (false, cs)

/-- A written number: `± digits · 10 ^ power`. -/
structure Decimal where
  negative : Bool
  digits : Nat
  power : Int
deriving Repr, DecidableEq, Inhabited

namespace Decimal

/-- Reads the exponent part; a missing one counts as zero. -/
def readExponent? : List Char → Option Int
  | [] => some 0
  | c :: cs =>
    if c = 'e' || c = 'E' then
      let (negative, digits) := takeSign cs
      (digitsValue? 10 digits).map fun n => if negative then -(n : Int) else n
    else none

/-- Reads `± whole . fraction e exponent`. A point may stand at either end of the digits, but there
has to be a digit. -/
def read? (cs : List Char) : Option Decimal :=
  let (negative, unsigned) := takeSign cs
  let whole := unsigned.takeWhile (isDigitOf 10)
  let afterWhole := unsigned.dropWhile (isDigitOf 10)
  let (fraction, afterFraction) :=
    match afterWhole with
    | '.' :: rest => (rest.takeWhile (isDigitOf 10), rest.dropWhile (isDigitOf 10))
    | rest => ([], rest)
  match digitsValue? 10 (whole ++ fraction), readExponent? afterFraction with
  | some digits, some exponent => some ⟨negative, digits, exponent - fraction.length⟩
  | _, _ => none

end Decimal
end TokenGrammar.Number
