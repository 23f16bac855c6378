import TokenGrammar.Calendar
import TokenGrammar.Number.Binary64
import TokenGrammar.Text.Base64

/-!
# YAML data

What a scalar stands for: null, a boolean, an integer, a floating-point number, a moment or a text.
The letters of a plain scalar tell; a quoted scalar is a text. A tag in front of a scalar asks for one
kind, and a scalar of another kind is refused. Tags of other kinds make a text of everything.

## Main definitions

* `Datum`: the data.
* `resolve`: the datum of a plain scalar.
* `Datum.ofScalar?`: the datum of a scalar with a tag.
-/
namespace TokenGrammar.Yaml

/-- What a scalar stands for. -/
inductive Datum where
  | null
  | bool (b : Bool)
  /-- An integer that fits a signed word. -/
  | int (n : Int)
  /-- An integer that fits only an unsigned word. -/
  | unsigned (n : Nat)
  | float (x : Number.Binary64)
  | time (t : Moment)
  | text (s : String)
deriving Repr, Inhabited

/-! ## Integers -/

/-- An integer in the range of a word. -/
def wordOf (n : Int) : Option Datum :=
  if Number.fitsSigned n then some (.int n)
  else if Number.fitsUnsigned n then some (.unsigned n.toNat)
  else none

/-- An integer in any base; underscores have been removed. Only a signed word may be negative, and
only an unsigned word without a sign may exceed it. -/
def integer? (cs : List Char) : Option Datum :=
  let (negative, unsigned) := Number.takeSign cs
  match Number.based? unsigned with
  | none => none
  | some n =>
    if unsigned.length = cs.length then wordOf n
    else if negative then wordOf (-(n : Int))
    else if Number.fitsSigned n then some (.int n) else none

/-- An integer whose sign stands after the letter of its base. -/
def innerSigned? (cs : List Char) : Option Datum :=
  let read (base : Nat) (signed : List Char) : Option Datum :=
    let (negative, digits) := Number.takeSign signed
    match Number.digitsValue? base digits with
    | none => none
    | some n =>
      let value : Int := if negative then -n else n
      if Number.fitsSigned value then some (.int value) else none
  match cs with
  | '0' :: 'b' :: rest => read 2 rest
  | '0' :: 'o' :: rest => read 8 rest
  | _ => none

/-! ## Floating-point numbers and moments -/

/-- A decimal number as a floating-point number, unless it is too large. -/
def float? (cs : List Char) : Option Datum :=
  match Number.Decimal.read? cs with
  | some d => (Number.Binary64.ofDecimal? d).map .float
  | none => none

/-- A decimal number that starts with a point; underscores may stand between its digits. -/
def fraction? (cs : List Char) : Option Datum :=
  if Number.isGrouped (Number.isDigitOf 10) false cs then float? (Number.ungrouped cs) else none

/-- A moment: a date, or a date and a time of day. After a letter the zone has to follow, after
blanks it is universal time. -/
def moment? (cs : List Char) : Option Moment :=
  match Moment.readDate? true cs with
  | none => none
  | some (date, []) => some (.ofDate date .universal)
  | some (date, c :: rest) =>
    if c = 'T' || c = 't' then Moment.readOn? date true none rest
    else if c = ' ' then Moment.readOn? date true (some .universal) (rest.dropWhile (· = ' '))
    else none

/-! ## Plain scalars -/

/-- The words that stand for a datum of their own. -/
def word? (text : String) : Option Datum :=
  if ["", "~", "null", "Null", "NULL"].contains text then some .null
  else if ["true", "True", "TRUE"].contains text then some (.bool true)
  else if ["false", "False", "FALSE"].contains text then some (.bool false)
  else if [".nan", ".NaN", ".NAN"].contains text then some (.float .nan)
  else if [".inf", ".Inf", ".INF", "+.inf", "+.Inf", "+.INF"].contains text then
    some (.float (.infinity false))
  else if ["-.inf", "-.Inf", "-.INF"].contains text then some (.float (.infinity true))
  else none

/-- A number that starts with a digit or a sign; all underscores are left out. -/
def number? (cs : List Char) : Option Datum :=
  let plain := Number.ungrouped cs
  (integer? plain).or ((float? plain).or (innerSigned? plain))

/-- The datum of a plain scalar. A number starts with a digit, a sign or a point; a moment is looked
for only where `moments` allows it. -/
def resolve (moments : Bool) (text : String) : Datum :=
  match word? text with
  | some d => d
  | none =>
    match text.toList with
    | [] => .null
    | c :: rest =>
      if c = '.' then (fraction? (c :: rest)).getD (.text text)
      else if c.isDigit || c = '+' || c = '-' then
        let moment := if moments then (moment? (c :: rest)).map Datum.time else none
        (moment.or (number? (c :: rest))).getD (.text text)
      else .text text

/-! ## Tags -/

/-- The tag that asks for the kind of a datum. -/
def Datum.tag : Datum → String
  | .null => "!!null"
  | .bool _ => "!!bool"
  | .int _ | .unsigned _ => "!!int"
  | .float _ => "!!float"
  | .time _ => "!!timestamp"
  | .text _ => "!!str"

/-- A datum of the kind that a tag asks for. An integer may stand for a floating-point number. -/
def Datum.expect? (d : Datum) (tag : String) : Option Datum :=
  if d.tag = tag then some d
  else if tag = "!!float" then
    match d with
    | .int n => (Number.Binary64.ofRatio? (n < 0) n.natAbs 1).map .float
    | _ => none
  else none

/-- The text of bytes that are written in base 64. -/
def binary? (text : String) : Option Datum :=
  (Text.decodeBase64? text.toList).bind fun bytes =>
    (String.fromUTF8? ⟨bytes.toArray⟩).map .text

/-- The datum of a scalar with a tag, which is empty where there is none. -/
def Datum.ofScalar? (tag : String) (quoted : Bool) (text : String) : Option Datum :=
  if tag = "" then some (if quoted then .text text else resolve true text)
  else if tag = "!!binary" then binary? text
  else if ["!!null", "!!bool", "!!int", "!!float", "!!timestamp"].contains tag then
    (resolve (tag = "!!timestamp") text).expect? tag
  else some (.text text)

/-- Whether a scalar is a text by its tag or by its style. -/
def isText (tag : String) (quoted : Bool) (text : String) : Bool :=
  if tag = "" then
    quoted ||
      match resolve true text with
      | .text _ => true
      | _ => false
  else tag = "!!str"

end TokenGrammar.Yaml
