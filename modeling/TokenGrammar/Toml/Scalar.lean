import TokenGrammar.Calendar
import TokenGrammar.Number.Binary64

/-!
# TOML scalars

Strings in the four styles of TOML, the words that stand for booleans and numbers, and moments. A
string reader starts after the opening quotes and gives the characters of the string and the text
after the closing quotes.

## Main definitions

* `readBasic`, `readLiteral`: strings on one line.
* `readLongBasic`, `readLongLiteral`: strings on several lines, between three quotes.
* `Scalar`, `Scalar.ofWord?`: booleans, integers and floating-point numbers.
* `moment?`: dates and times.
-/
namespace TokenGrammar.Toml

/-- A blank within a line. -/
def isSpace (c : Char) : Bool := c = ' ' || c = '\t'

/-- A character that ends a line. -/
def isBreak (c : Char) : Bool := c = '\n' || c = '\r'

/-- The characters of a string and the text after it. -/
abbrev Reading := Option (List Char × List Char)

/-- Puts characters in front of a string that has been read. -/
def Reading.after (cs : List Char) (r : Reading) : Reading :=
  r.map fun (text, rest) => (cs ++ text, rest)

/-! ## Strings on one line -/

/-- Reads to a closing apostrophe; no character has a special meaning. -/
def readLiteral : List Char → Reading
  | [] => none
  | c :: rest =>
    if c = '\'' then some ([], rest)
    else if isBreak c then none
    else (readLiteral rest).after [c]

/-- The characters that stand for others after a backslash. -/
def escape? (c : Char) : Option Char :=
  match c with
  | 'b' => some (Char.ofNat 0x08)
  | 't' => some '\t'
  | 'n' => some '\n'
  | 'f' => some (Char.ofNat 0x0c)
  | 'r' => some '\r'
  | '"' => some '"'
  | '\\' => some '\\'
  | _ => none

/-- The character with a code in hexadecimal digits. -/
def codeChar? (digits : List Char) : Option Char :=
  match Number.digitsValue? 16 digits with
  | some n => if (0xd800 ≤ n && n ≤ 0xdfff) || 0x10ffff < n then none else some (Char.ofNat n)
  | none => none

/-- Reads to a closing quote and replaces what follows a backslash. -/
def readBasic : List Char → Reading
  | [] => none
  | '"' :: rest => some ([], rest)
  | '\\' :: 'u' :: a :: b :: c :: d :: rest =>
    match codeChar? [a, b, c, d] with
    | some u => (readBasic rest).after [u]
    | none => none
  | '\\' :: 'U' :: a :: b :: c :: d :: e :: f :: g :: h :: rest =>
    match codeChar? [a, b, c, d, e, f, g, h] with
    | some u => (readBasic rest).after [u]
    | none => none
  | '\\' :: c :: rest =>
    match escape? c with
    | some u => (readBasic rest).after [u]
    | none => none
  | c :: rest => if c = '\\' || isBreak c then none else (readBasic rest).after [c]

/-! ## Strings on several lines -/

/-- A line break at the start of a long string does not belong to it. -/
def dropFirstBreak : List Char → List Char
  | '\n' :: rest => rest
  | '\r' :: '\n' :: rest => rest
  | cs => cs

/-- The number of times a character stands at the start of a text. -/
def runLength (quote : Char) (cs : List Char) : Nat := (cs.takeWhile (· = quote)).length

/-- The end of a long string at a run of quotes: the last three close it, and up to two before them
belong to it. -/
def closeLong? (quote : Char) (cs : List Char) : Reading :=
  let count := runLength quote cs
  if 6 ≤ count then none else some (List.replicate (count - 3) quote, cs.drop count)

/-- Reads to three closing apostrophes. -/
def readLongLiteral : List Char → Reading
  | [] => none
  | c :: rest =>
    if 3 ≤ runLength '\'' (c :: rest) then closeLong? '\'' (c :: rest)
    else (readLongLiteral rest).after [c]

/-- Whether a text, newest character first, ends with five quotes that no backslash stands before. -/
def endsInFiveQuotes (seen : List Char) : Bool :=
  runLength '"' (seen.take 5) = 5 && (seen.drop 5).head? ≠ some '\\'

/-- Finds three closing quotes; `seen` is what stands before, newest character first. Three quotes
close the string where no fourth follows. Otherwise the first of them belongs to it, unless it and the
quotes around it are five already. -/
def splitLongBasic (seen : List Char) : List Char → Reading
  | [] => none
  | '\\' :: c :: rest => splitLongBasic (c :: '\\' :: seen) rest
  | '"' :: rest =>
    match rest with
    | '"' :: '"' :: after =>
      if after.head? = some '"' then
        if endsInFiveQuotes ('"' :: '"' :: '"' :: seen) then none
        else splitLongBasic ('"' :: seen) rest
      else some (seen.reverse, after)
    | _ => splitLongBasic ('"' :: seen) rest
  | c :: rest => splitLongBasic (c :: seen) rest

/-- Whether only blanks stand before the next break. -/
def endsLine (cs : List Char) : Bool :=
  match cs.dropWhile isSpace with
  | [] => false
  | c :: _ => isBreak c

/-- Replaces what follows a backslash in a long string. A backslash at the end of a line takes all
blanks and breaks after it away; while they are taken away, `joining` holds. -/
def unescapeLong (joining : Bool) : List Char → Option (List Char)
  | [] => some []
  | '\\' :: 'u' :: a :: b :: c :: d :: rest =>
    match codeChar? [a, b, c, d] with
    | some u => (unescapeLong false rest).map (u :: ·)
    | none => none
  | '\\' :: 'U' :: a :: b :: c :: d :: e :: f :: g :: h :: rest =>
    match codeChar? [a, b, c, d, e, f, g, h] with
    | some u => (unescapeLong false rest).map (u :: ·)
    | none => none
  | '\\' :: c :: rest =>
    match escape? c with
    | some u => (unescapeLong false rest).map (u :: ·)
    | none => if endsLine (c :: rest) then unescapeLong true rest else none
  | c :: rest =>
    if joining && (isSpace c || isBreak c) then unescapeLong true rest
    else if c = '\\' then none
    else (unescapeLong false rest).map (c :: ·)

/-- Reads to three closing quotes and replaces what follows a backslash. -/
def readLongBasic (cs : List Char) : Reading :=
  match splitLongBasic [] cs with
  | some (inner, rest) => (unescapeLong false (dropFirstBreak inner)).map (·, rest)
  | none => none

/-! ## Words -/

/-- A scalar that is written as a word. -/
inductive Scalar where
  | bool (b : Bool)
  | int (n : Int)
  | float (x : Number.Binary64)
  | time (t : Moment)
deriving Repr, Inhabited

/-- Whether each underscore in a number stands between two digits of the base. -/
def isGrouped (base : Nat) : List Char → Bool
  | [] => true
  | ['_'] => false
  | '_' :: '_' :: _ => false
  | c :: '_' :: d :: rest =>
    Number.isDigitOf base c && Number.isDigitOf base d && isGrouped base (d :: rest)
  | _ :: rest => isGrouped base rest

/-- A number without its underscores, if they are well placed. -/
def ungroup? (base : Nat) (cs : List Char) : Option (List Char) :=
  if cs.head? = some '_' || !isGrouped base cs then none else some (cs.filter (· ≠ '_'))

/-- Whether digits start with a zero that is not the only one. -/
def hasLeadingZero (digits : List Char) : Bool := digits.head? = some '0' && 1 < digits.length

/-- A whole number in a base. -/
def natural? (base : Nat) (cs : List Char) : Option Nat :=
  match ungroup? base cs with
  | some digits => Number.digitsValue? base digits
  | none => none

/-- An integer: decimal with a sign, or without a sign in base two, eight or sixteen. -/
def integer? (word : List Char) : Option Int :=
  let (negative, digits) := Number.takeSign word
  let magnitude :=
    match word with
    | '0' :: 'x' :: rest => natural? 16 rest
    | '0' :: 'o' :: rest => natural? 8 rest
    | '0' :: 'b' :: rest => natural? 2 rest
    | _ => if hasLeadingZero digits then none else natural? 10 digits
  match magnitude with
  | none => none
  | some n =>
    let value : Int := if negative then -n else n
    if Number.fitsSigned value then some value else none

/-- Whether a digit follows each point of a number. -/
def hasFractions : List Char → Bool
  | [] => true
  | '.' :: rest => (rest.head?.map (Number.isDigitOf 10)).getD false && hasFractions rest
  | _ :: rest => hasFractions rest

/-- A floating-point number: digits with a fraction or an exponent or both. -/
def float? (word : List Char) : Option Number.Binary64 :=
  let (_, unsigned) := Number.takeSign word
  let whole := unsigned.takeWhile fun c => c ≠ '.' && c ≠ 'e' && c ≠ 'E'
  if whole.isEmpty || whole.length = unsigned.length || hasLeadingZero whole || !hasFractions word then
    none
  else
    match ungroup? 10 word with
    | some plain => (Number.Decimal.read? plain).bind Number.Binary64.ofDecimal?
    | none => none

/-- The names of the numbers that have no digits. -/
def named? (word : List Char) : Option Number.Binary64 :=
  let (negative, name) := Number.takeSign word
  if name = ['i', 'n', 'f'] then some (.infinity negative)
  else if name = ['n', 'a', 'n'] then some .nan
  else none

/-- The scalar of a word. -/
def Scalar.ofWord? (word : List Char) : Option Scalar :=
  if word = ['t', 'r', 'u', 'e'] then some (.bool true)
  else if word = ['f', 'a', 'l', 's', 'e'] then some (.bool false)
  else
    match integer? word, float? word, named? word with
    | some n, _, _ => some (.int n)
    | none, some x, _ => some (.float x)
    | none, none, some x => some (.float x)
    | none, none, none => none

/-! ## Moments -/

/-- A character of a moment. A blank may stand in place of the letter before a time of day. -/
def isMomentChar (c : Char) : Bool :=
  Number.isDigitOf 10 c || ['-', ':', 'T', 't', ' ', '.', 'Z', 'z', '+'].contains c

/-- Whether digits with a sign of a date or of a time of day after them start a text. -/
def startsMoment (cs : List Char) : Bool :=
  let after := cs.dropWhile (Number.isDigitOf 10)
  after.length < cs.length && (after.head? = some '-' || after.head? = some ':')

/-- The capital letter of a moment that a small letter or a blank stands for. -/
def momentLetter (c : Char) : Char :=
  if c = 't' || c = ' ' then 'T' else if c = 'z' then 'Z' else c

/-- A zone that is not told; the name tells what is written. -/
def untold (name : String) : Zone := ⟨0, name⟩

/-- A moment: a date and a time of day with or without a zone, a date alone, or a time of day alone.
A time of day alone is on the first day of the year 0. -/
def moment? (word : List Char) : Option Moment :=
  let cs := word.map momentLetter
  match Moment.readDate? false cs with
  | some (date, []) => some (.ofDate date (untold "date-local"))
  | some (date, 'T' :: rest) =>
    (Moment.readOn? date false none rest).or
      (Moment.readOn? date false (some (untold "datetime-local")) rest)
  | some _ => none
  | none => Moment.readOn? (0, 1, 1) false (some (untold "time-local")) cs

end TokenGrammar.Toml
