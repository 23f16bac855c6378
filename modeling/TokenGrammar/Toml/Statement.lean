import TokenGrammar.Toml.Scalar

/-!
# TOML statements

A TOML text is a list of statements, one to a line: the header of a table, the header of an element
of an array of tables, or a key with its value. A value may go on over several lines only in an array
or in a long string.

## Main definitions

* `Key`: a dotted key.
* `Expr`, `Statement`: what is written.
* `statements?`: the statements of a text.
-/
namespace TokenGrammar.Toml

/-- A dotted key: the names of the tables on the way, and the last name. -/
structure Key where
  parents : List String
  last : String
deriving Repr, DecidableEq, Inhabited

/-- All names of a key. -/
def Key.path (k : Key) : List String := k.parents ++ [k.last]

/-- A value as it is written. -/
inductive Expr where
  | text (s : String)
  | scalar (s : Scalar)
  | array (items : List Expr)
  | table (members : List (Key × Expr))
deriving Repr, Inhabited

/-- A statement. -/
inductive Statement where
  /-- A header in single brackets. -/
  | table (key : Key)
  /-- A header in double brackets. -/
  | element (key : Key)
  | assign (key : Key) (value : Expr)
deriving Repr, Inhabited

/-! ## Blanks and comments -/

/-- Passes over blanks within a line. -/
def skipSpaces (cs : List Char) : List Char := cs.dropWhile isSpace

/-- Passes over blanks, breaks and comments; `inComment` tells whether a comment has begun. -/
def skipLines (inComment : Bool) : List Char → List Char
  | [] => []
  | c :: rest =>
    if isBreak c then skipLines false rest
    else if inComment then skipLines true rest
    else if isSpace c then skipLines false rest
    else if c = '#' then skipLines true rest
    else c :: rest

/-- Whether nothing but a comment stands on the rest of a line. -/
def isLineEnd (cs : List Char) : Bool :=
  match skipSpaces cs with
  | [] => true
  | c :: _ => c = '#' || isBreak c

/-! ## Keys -/

/-- A letter of a key without quotes. -/
def isBare (c : Char) : Bool :=
  let n := c.toNat
  (0x41 ≤ n && n ≤ 0x5a) || (0x61 ≤ n && n ≤ 0x7a) || (0x30 ≤ n && n ≤ 0x39) || c = '_' || c = '-'

/-- Reads a name: without quotes, or as a string on one line. -/
def readName? (cs : List Char) : Option (String × List Char) :=
  match cs with
  | '"' :: rest => (readBasic rest).map fun (name, rest) => (String.ofList name, rest)
  | '\'' :: rest => (readLiteral rest).map fun (name, rest) => (String.ofList name, rest)
  | _ =>
    let name := cs.takeWhile isBare
    if name.isEmpty then none else some (String.ofList name, cs.dropWhile isBare)

/-- Reads names with points between them, and passes over the blanks around them. -/
def readNames? (parents : List String) (cs : List Char) : Nat → Option (Key × List Char)
  | 0 => none
  | fuel + 1 =>
    match readName? (skipSpaces cs) with
    | none => none
    | some (name, rest) =>
      match skipSpaces rest with
      | '.' :: rest => readNames? (parents ++ [name]) rest fuel
      | rest => some (⟨parents, name⟩, rest)

/-- Reads a dotted key. -/
def readKey? (cs : List Char) : Option (Key × List Char) := readNames? [] cs (cs.length + 1)

/-- Reads a key and the equals sign after it. -/
def readTarget? (cs : List Char) : Option (Key × List Char) :=
  match readKey? cs with
  | some (key, '=' :: rest) => some (key, rest)
  | _ => none

/-! ## Values -/

/-- A character at which a word ends. -/
def endsWord (c : Char) : Bool :=
  isSpace c || isBreak c || c = ',' || c = ']' || c = '\x7d' || c = '#'

/-- Reads a string in any style. -/
def readText? (cs : List Char) : Option (String × List Char) :=
  let reading : Reading :=
    match cs with
    | '"' :: '"' :: '"' :: rest => readLongBasic rest
    | '"' :: rest => readBasic rest
    | '\'' :: '\'' :: '\'' :: rest => readLongLiteral (dropFirstBreak rest)
    | '\'' :: rest => readLiteral rest
    | _ => none
  reading.map fun (text, rest) => (String.ofList text, rest)

/-- A text without the blanks at its end. -/
def trimmed (cs : List Char) : List Char := (cs.reverse.dropWhile (· = ' ')).reverse

mutual

/-- Reads a value. -/
def readExpr? (cs : List Char) : Nat → Option (Expr × List Char)
  | 0 => none
  | fuel + 1 =>
    match skipSpaces cs with
    | [] => none
    | c :: rest =>
      if c = '[' then (readItems? rest fuel).map fun (items, rest) => (.array items, rest)
      else if c = '\x7b' then
        match skipSpaces rest with
        | '\x7d' :: rest => some (.table [], rest)
        | rest => (readMembers? rest fuel).map fun (members, rest) => (.table members, rest)
      else if c = '"' || c = '\'' then
        (readText? (c :: rest)).map fun (s, rest) => (.text s, rest)
      else if startsMoment (c :: rest) then
        (moment? (trimmed ((c :: rest).takeWhile isMomentChar))).map fun t =>
          (.scalar (.time t), (c :: rest).dropWhile isMomentChar)
      else
        (Scalar.ofWord? ((c :: rest).takeWhile (!endsWord ·))).map fun s =>
          (.scalar s, (c :: rest).dropWhile (!endsWord ·))

/-- Reads the items of an array to its end. A comma may stand after the last. -/
def readItems? (cs : List Char) : Nat → Option (List Expr × List Char)
  | 0 => none
  | fuel + 1 =>
    match skipLines false cs with
    | ']' :: rest => some ([], rest)
    | start =>
      match readExpr? start fuel with
      | none => none
      | some (item, rest) =>
        match skipLines false rest with
        | ',' :: rest => (readItems? rest fuel).map fun (items, rest) => (item :: items, rest)
        | ']' :: rest => some ([item], rest)
        | _ => none

/-- Reads the members of an inline table to its end. No comma may stand after the last. -/
def readMembers? (cs : List Char) : Nat → Option (List (Key × Expr) × List Char)
  | 0 => none
  | fuel + 1 =>
    match readTarget? cs with
    | none => none
    | some (key, rest) =>
      match readExpr? rest fuel with
      | none => none
      | some (value, rest) =>
        match skipSpaces rest with
        | ',' :: rest =>
          (readMembers? rest fuel).map fun (members, rest) => ((key, value) :: members, rest)
        | '\x7d' :: rest => some ([(key, value)], rest)
        | _ => none

end

/-! ## Statements -/

/-- Reads one statement, which starts at a character that is no blank. -/
def readStatement? (cs : List Char) : Option (Statement × List Char) :=
  match cs with
  | '[' :: '[' :: rest =>
    match readKey? rest with
    | some (key, ']' :: ']' :: rest) => some (.element key, rest)
    | _ => none
  | '[' :: rest =>
    match readKey? rest with
    | some (key, ']' :: rest) => some (.table key, rest)
    | _ => none
  | _ =>
    match readTarget? cs with
    | none => none
    | some (key, rest) =>
      (readExpr? rest (2 * rest.length + 1)).map fun (value, rest) => (.assign key value, rest)

/-- Reads statements to the end of the text. -/
def readStatements? (cs : List Char) : Nat → Option (List Statement)
  | 0 => none
  | fuel + 1 =>
    match skipLines false cs with
    | [] => some []
    | start =>
      match readStatement? start with
      | none => none
      | some (statement, rest) =>
        if isLineEnd rest then (readStatements? rest fuel).map (statement :: ·) else none

/-! ## Texts -/

/-- A character that a text may not hold. -/
def isForbidden (c : Char) : Bool :=
  (c.toNat < 0x20 && c ≠ '\t' && !isBreak c) || c.toNat = 0x7f

/-- Whether all characters are allowed and each carriage return stands before a line feed. -/
def isProper : List Char → Bool
  | [] => true
  | c :: rest =>
    !isForbidden c && (c ≠ '\r' || rest.head? = some '\n') && isProper rest

/-- A text without the byte order mark at its start. -/
def dropMark : List Char → List Char
  | c :: rest => if c.toNat = 0xfeff then rest else c :: rest
  | [] => []

/-- The statements of a text. -/
def statements? (text : List Char) : Option (List Statement) :=
  let cs := dropMark text
  if isProper cs then readStatements? cs (cs.length + 1) else none

end TokenGrammar.Toml
