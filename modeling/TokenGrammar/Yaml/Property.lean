import TokenGrammar.Number.Decimal
import TokenGrammar.Yaml.Source

/-!
# YAML anchors, tags and directives

The marks that may stand in front of a node, and the lines that may stand in front of a document. An
anchor names a node so that an alias can repeat it. A tag asks for a kind; it is written in full
between angle brackets, or as a handle and a suffix. A directive tells the version of the format or
what a handle stands for.

## Main definitions

* `readAnchor?`: the name of an anchor or an alias.
* `Tag`, `readTag?`: a tag as it is written.
* `Directive`, `readDirective?`: the directives.
-/
namespace TokenGrammar.Yaml

/-- A letter of a name. -/
def isNameLetter (c : Char) : Bool :=
  let n := c.toNat
  (0x30 ≤ n && n ≤ 0x39) || (0x41 ≤ n && n ≤ 0x5a) || (0x61 ≤ n && n ≤ 0x7a) || c = '_' || c = '-'

/-- The characters at which the name of an anchor may end, apart from blanks and breaks. -/
def endsAnchor (c : Char) : Bool :=
  ['?', ':', ',', ']', '\x7d', '%', '@', Char.ofNat 0x60].contains c

/-- Reads the name of an anchor or an alias after its mark. -/
def readAnchor? (s : Source) : Option (String × Source) :=
  let name := s.rest.takeWhile isNameLetter
  let after := s.advance name.length
  if name.isEmpty || !(startsBlank after.rest || (after.rest.head?.map endsAnchor).getD false) then
    none
  else some (String.ofList name, after)

/-! ## Tags -/

/-- A tag: its handle, which is empty for a tag that is written in full, and its suffix. -/
structure Tag where
  handle : String
  suffix : String
deriving Repr, DecidableEq, Inhabited

/-- A character of a tag. -/
def isTagLetter (c : Char) : Bool :=
  isNameLetter c ||
    [';', '/', '?', ':', '@', '&', '=', '+', '$', ',', '.', '!', '~', '*', '\'', '(', ')', '[',
      ']'].contains c

/-- The byte of two hexadecimal digits after a percent sign. -/
def escapedByte? : List Char → Option (UInt8 × List Char)
  | '%' :: a :: b :: rest => (Number.digitsValue? 16 [a, b]).map fun n => (n.toUInt8, rest)
  | _ => none

/-- The number of bytes of a character from its first byte. -/
def byteCount? (first : UInt8) : Option Nat :=
  if first < 0x80 then some 1
  else if first &&& 0xe0 = 0xc0 then some 2
  else if first &&& 0xf0 = 0xe0 then some 3
  else if first &&& 0xf8 = 0xf0 then some 4
  else none

/-- Reads further escaped bytes of one character. -/
def escapedBytes? (cs : List Char) : Nat → Option (List UInt8 × List Char)
  | 0 => some ([], cs)
  | count + 1 =>
    match escapedByte? cs with
    | none => none
    | some (byte, rest) =>
      if byte &&& 0xc0 = 0x80 then
        (escapedBytes? rest count).map fun (bytes, rest) => (byte :: bytes, rest)
      else none

/-- Reads a character whose bytes are escaped. -/
def escapedChar? (cs : List Char) : Option (List Char × List Char) :=
  match escapedByte? cs with
  | none => none
  | some (first, rest) =>
    match byteCount? first with
    | none => none
    | some count =>
      match escapedBytes? rest (count - 1) with
      | none => none
      | some (bytes, rest) =>
        (String.fromUTF8? ⟨(first :: bytes).toArray⟩).map fun s => (s.toList, rest)

/-- Reads the characters of a tag. -/
def tagLetters? (cs : List Char) : Nat → Option (List Char × List Char)
  | 0 => none
  | fuel + 1 =>
    match cs with
    | [] => some ([], [])
    | c :: rest =>
      if c = '%' then
        match escapedChar? cs with
        | none => none
        | some (seen, rest) =>
          (tagLetters? rest fuel).map fun (later, rest) => (seen ++ later, rest)
      else if isTagLetter c then
        (tagLetters? rest fuel).map fun (later, rest) => (c :: later, rest)
      else some ([], cs)

/-- Reads the characters of a tag, of which there has to be one unless letters stand before them. -/
def readTagText? (cs : List Char) (optional : Bool) : Option (String × List Char) :=
  match tagLetters? cs (cs.length + 1) with
  | some (letters, rest) =>
    if letters.isEmpty && !optional then none else some (String.ofList letters, rest)
  | none => none

/-- Splits off a handle: an exclamation mark, letters, and a second exclamation mark if there is
one. -/
def takeHandle : List Char → List Char × List Char
  | '!' :: rest =>
    let letters := rest.takeWhile isNameLetter
    match rest.dropWhile isNameLetter with
    | '!' :: rest => ('!' :: letters ++ ['!'], rest)
    | rest => ('!' :: letters, rest)
  | cs => ([], cs)

/-- Whether a handle ends with an exclamation mark of its own. -/
def isHandle (handle : List Char) : Bool := 1 < handle.length && handle.getLast? = some '!'

/-- The tag at the start of a text. An exclamation mark alone is a tag of its own. -/
def tagOf? (cs : List Char) : Option (Tag × List Char) :=
  match cs with
  | '!' :: '<' :: rest =>
    match readTagText? rest false with
    | some (suffix, '>' :: rest) => some (⟨"", suffix⟩, rest)
    | _ => none
  | _ =>
    let (handle, rest) := takeHandle cs
    if isHandle handle then
      (readTagText? rest false).map fun (suffix, rest) => (⟨String.ofList handle, suffix⟩, rest)
    else
      (readTagText? rest true).map fun (suffix, rest) =>
        let suffix := String.ofList (handle.drop 1) ++ suffix
        (if suffix = "" then ⟨"", "!"⟩ else ⟨"!", suffix⟩, rest)

/-- Reads a tag, after which a blank or a break has to follow. -/
def readTag? (s : Source) : Option (Tag × Source) :=
  match tagOf? s.rest with
  | some (tag, rest) =>
    if startsBlank rest then some (tag, s.advance (s.rest.length - rest.length)) else none
  | none => none

/-! ## Directives -/

/-- A directive: the version of the format, or a handle and what it stands for. -/
inductive Directive where
  | version (major minor : Nat)
  | handle (name meaning : String)
deriving Repr, DecidableEq, Inhabited

/-- Reads a number of one or two digits. -/
def readVersionPart? (cs : List Char) : Option (Nat × List Char) :=
  let digits := cs.takeWhile (Number.isDigitOf 10)
  if 2 < digits.length then none
  else (Number.digitsValue? 10 digits).map (·, cs.drop digits.length)

/-- Reads a version: two numbers with a point between them. -/
def readVersion? (cs : List Char) : Option (Directive × List Char) :=
  match readVersionPart? (cs.dropWhile isSpace) with
  | some (major, '.' :: rest) =>
    (readVersionPart? rest).map fun (minor, rest) => (.version major minor, rest)
  | _ => none

/-- Reads a handle and what it stands for. -/
def readHandle? (cs : List Char) : Option (Directive × List Char) :=
  let (handle, rest) := takeHandle (cs.dropWhile isSpace)
  if handle = ['!'] || isHandle handle then
    if (rest.head?.map isSpace).getD false then
      match readTagText? (rest.dropWhile isSpace) false with
      | some (meaning, rest) =>
        if startsBlank rest then some (.handle (String.ofList handle) meaning, rest) else none
      | none => none
    else none
  else none

/-- Reads a directive after its mark, to the end of its line. -/
def readDirective? (s : Source) : Option (Directive × Source) :=
  let name := s.rest.takeWhile isNameLetter
  let value := s.rest.drop name.length
  let reading :=
    if !startsBlank value then none
    else if name = ['Y', 'A', 'M', 'L'] then readVersion? value
    else if name = ['T', 'A', 'G'] then readHandle? value
    else none
  match reading with
  | none => none
  | some (directive, rest) =>
    let after := (s.advance (s.rest.length - rest.length)).skipWhile isSpace
    let bare :=
      match after.rest with
      | '#' :: _ => after.skipWhile (!isBreak ·)
      | _ => after
    match bare.rest with
    | [] => some (directive, bare)
    | c :: _ => if isBreak c then some (directive, bare.newline.1) else none

end TokenGrammar.Yaml
