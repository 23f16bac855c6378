/-!
# YAML source text

The text of a YAML stream with the place that has been reached: line, column and index. Five
characters break a line, and a carriage return with a line feed is one break.

## Main definitions

* `Source`: the text that is left and its place.
* `Source.advance`, `Source.newline`: the two ways to move on.
* `Source.skipComments`: a comment and the comments on the lines after it are passed over.
* `Source.skipToContent`: what may stand between lexemes is passed over.
* `Source.skipRemark`: the comment that ends the line of a lexeme is passed over.
-/
namespace TokenGrammar.Yaml

/-- The text that is left, and where it starts. A text that is `marked` has two byte order marks in
front, and loses the first character of each line that starts between lexemes. -/
structure Source where
  rest : List Char
  line : Nat
  column : Nat
  index : Nat
  marked : Bool
deriving Repr, Inhabited

/-- A character that ends a line. -/
def isBreak (c : Char) : Bool :=
  c = '\n' || c = '\r' || c.toNat = 0x85 || c.toNat = 0x2028 || c.toNat = 0x2029

/-- A blank within a line. -/
def isSpace (c : Char) : Bool := c = ' ' || c = '\t'

/-- Whether a text starts with a blank or a break, or is at its end. -/
def startsBlank : List Char → Bool
  | [] => true
  | c :: _ => isSpace c || isBreak c

/-- The characters that a stream may hold. -/
def isAllowed (c : Char) : Bool :=
  let n := c.toNat
  n = 0x09 || n = 0x0a || n = 0x0d || (0x20 ≤ n && n ≤ 0x7e) || n = 0x85 ||
    (0xa0 ≤ n && n ≤ 0xd7ff) || (0xe000 ≤ n && n ≤ 0xfffd) || 0x10000 ≤ n

namespace Source

/-- A byte order mark. -/
def isMark (c : Char) : Bool := c.toNat = 0xfeff

/-- The start of a text; a byte order mark in front is left out. -/
def ofText (text : List Char) : Source :=
  let rest := if (text.head?.map isMark).getD false then text.drop 1 else text
  ⟨rest, 0, 0, 0, rest.length < text.length && (rest.head?.map isMark).getD false⟩

/-- Passes over a number of characters of one line. -/
def advance (s : Source) (count : Nat) : Source :=
  { s with rest := s.rest.drop count, column := s.column + count, index := s.index + count }

/-- Passes over a break, and gives the character that it stands for: the separators of lines and
paragraphs stand for themselves, all others for a line feed. -/
def newline (s : Source) : Source × Char :=
  match s.rest with
  | '\r' :: '\n' :: rest => (⟨rest, s.line + 1, 0, s.index + 2, s.marked⟩, '\n')
  | c :: rest =>
    (⟨rest, s.line + 1, 0, s.index + 1, s.marked⟩,
      if c.toNat = 0x2028 || c.toNat = 0x2029 then c else '\n')
  | [] => (s, '\n')

/-- Passes over the characters of a class that holds no breaks. -/
def skipWhile (s : Source) (p : Char → Bool) : Source :=
  s.advance (s.rest.takeWhile p).length

/-- Whether three characters that mark the start or the end of a document stand at the start of a
line. -/
def atMarker (s : Source) (marker : Char) : Bool :=
  s.column = 0 &&
    match s.rest with
    | a :: b :: c :: rest => a = marker && b = marker && c = marker && startsBlank rest
    | _ => false

/-- Whether a document starts or ends here. -/
def atDocumentMarker (s : Source) : Bool := s.atMarker '-' || s.atMarker '.'

/-- Passes over a text of blanks and breaks. -/
def skipBlankLines (s : Source) : List Char → Source
  | [] => s
  | c :: rest =>
    if isBreak c then
      if c = '\r' && rest.head? = some '\n' then s.skipBlankLines rest
      else s.newline.1.skipBlankLines rest
    else (s.advance 1).skipBlankLines rest

/-- The characters after a comment that are looked at in search of a further comment. -/
def commentReach : Nat := 511

/-- The blanks and breaks between the end of a comment and a further comment, if there is one near
enough. Of the breaks only the carriage return and the line feed are looked past. -/
def gapToComment? (rest : List Char) : Option (List Char) :=
  match rest with
  | [] => none
  | c :: later =>
    let isGap (c : Char) : Bool := isSpace c || c = '\n' || c = '\r'
    let near := later.take commentReach
    if (c = '\n' || c = '\r') && (near.dropWhile isGap).head? = some '#' then
      some (c :: near.takeWhile isGap)
    else none

/-- Passes over the comment that starts here, and over the comments on the lines after it: between
comments tabs may stand where they may not stand before content. -/
def skipComments (s : Source) : Nat → Source
  | 0 => s
  | fuel + 1 =>
    let ended := s.skipWhile (!isBreak ·)
    match gapToComment? ended.rest with
    | some gap => (ended.skipBlankLines gap).skipComments fuel
    | none => ended

/-- Passes over blanks, comments and breaks. In block context a new line is where a key may start,
and there tabs are no blanks. The second result tells whether a key may start. -/
def skipToContent (s : Source) (inFlow keyAllowed : Bool) : Nat → Source × Bool
  | 0 => (s, keyAllowed)
  | fuel + 1 =>
    let start := if s.marked && s.column = 0 then s.advance 1 else s
    let blank := start.skipWhile fun c => c = ' ' || (c = '\t' && (inFlow || !keyAllowed))
    let bare :=
      match blank.rest with
      | '#' :: _ => blank.skipComments (fuel + 1)
      | _ => blank
    match bare.rest with
    | c :: _ =>
      if isBreak c then bare.newline.1.skipToContent inFlow (keyAllowed || !inFlow) fuel
      else (bare, keyAllowed)
    | [] => (bare, keyAllowed)

/-- The blanks after a lexeme that are looked at in search of a comment. -/
def remarkReach : Nat := 512

/-- Passes over the comment on the rest of the line, if there is one near enough. -/
def skipRemark (s : Source) : Source :=
  let blanks := s.rest.takeWhile isSpace
  if blanks.length < remarkReach && (s.rest.drop blanks.length).head? = some '#' then
    s.skipWhile (!isBreak ·)
  else s

end Source
end TokenGrammar.Yaml
