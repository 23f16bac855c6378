import TokenGrammar.Yaml.BlockScalar
import TokenGrammar.Yaml.Property
import TokenGrammar.Yaml.Scalar

/-!
# YAML lexemes

The text of a stream is divided into lexemes. Indentation becomes explicit: a block collection has a
lexeme at its start and one at its end. A key is recognised only at the colon after it, so the place
of each key that is still possible is kept, and the lexeme that announces the key is put in there
afterwards. A comment on the line of a lexeme is passed over with it, so that only comments that
stand alone are looked at together.

## Main definitions

* `Lexeme`: the lexemes; `Lexeme.broken` stands where the text cannot be divided further.
* `PendingKey`: a place where a key may have started.
* `Lexer`: the state of the division.
* `Lexer.step`: the next lexeme.
* `lexemes`: the lexemes of a text.
-/
namespace TokenGrammar.Yaml

/-- The parts of a YAML stream. -/
inductive Lexeme where
  | documentStart
  | documentEnd
  | sequenceStart
  | mappingStart
  /-- The end of a block sequence or a block mapping. -/
  | blockEnd
  | flowSequenceStart
  | flowSequenceEnd
  | flowMappingStart
  | flowMappingEnd
  /-- The dash of a block sequence. -/
  | entry
  /-- The comma of a flow collection. -/
  | flowEntry
  | key
  | value
  | anchor (name : String)
  | alias (name : String)
  | tag (tag : Tag)
  | directive (directive : Directive)
  /-- A scalar; `quoted` holds for all styles but the plain one. -/
  | scalar (quoted : Bool) (text : String)
  | streamEnd
  /-- The text cannot be divided further. -/
  | broken
deriving Repr, DecidableEq, Inhabited

/-- A place where a key may have started: the number of its lexeme and its place in the text. In
block context a key is required where the indentation is exactly that of the collection. -/
structure PendingKey where
  number : Nat
  line : Nat
  column : Nat
  index : Nat
  required : Bool
deriving Repr, Inhabited

/-- The state of the division. `outer` holds the pending keys of the enclosing flow collections, of
which there is one entry for each; `lexemes` holds the newest lexeme first, and `count` is their
number. -/
structure Lexer where
  source : Source
  pending : Option PendingKey
  outer : List (Option PendingKey)
  indent : Int
  indents : List Int
  keyAllowed : Bool
  lexemes : List Lexeme
  count : Nat
deriving Inhabited

namespace Lexer

/-- The state before a text. -/
def ofText (text : List Char) : Lexer := ⟨.ofText text, none, [], -1, [], true, [], 0⟩

/-- Whether the text stands in a flow collection. -/
def inFlow (x : Lexer) : Bool := !x.outer.isEmpty

/-- Adds a lexeme. -/
def emit (x : Lexer) (lexeme : Lexeme) : Lexer :=
  { x with lexemes := lexeme :: x.lexemes, count := x.count + 1 }

/-- Puts a lexeme in front of the lexeme with a number. -/
def emitBefore (x : Lexer) (number : Nat) (lexeme : Lexeme) : Lexer :=
  let later := x.count - number
  { x with
    lexemes := x.lexemes.take later ++ lexeme :: x.lexemes.drop later
    count := x.count + 1 }

/-- Passes over the comment on the line of a lexeme. -/
def dropRemark (x : Lexer) : Lexer := { x with source := x.source.skipRemark }

/-- Adds a lexeme and passes over its characters. -/
def take (x : Lexer) (width : Nat) (lexeme : Lexeme) : Lexer :=
  { x.emit lexeme with source := x.source.advance width }

/-! ## Indentation -/

/-- Closes block collections, innermost first, as long as they are indented more than `column`; the
list holds the indentation around each of them. -/
def closeBlocks (x : Lexer) (column : Int) : List Int → Lexer
  | [] => x
  | outer :: rest =>
    if column < x.indent then
      closeBlocks { x.emit .blockEnd with indent := outer, indents := rest } column rest
    else x

/-- Closes the block collections that are indented more than `column`. -/
def unroll (x : Lexer) (column : Int) : Lexer :=
  if x.inFlow then x else x.closeBlocks column x.indents

/-- Opens a block collection in front of the lexeme with a number, if its column is indented more
than the present one. -/
def roll (x : Lexer) (column number : Nat) (start : Lexeme) : Lexer :=
  if x.inFlow || column ≤ x.indent then x
  else
    { x.emitBefore number start with indent := column, indents := x.indent :: x.indents }

/-! ## Pending keys -/

/-- Forgets the pending key; fails if it was required. -/
def dropKey (x : Lexer) : Option Lexer :=
  match x.pending with
  | some key => if key.required then none else some { x with pending := none }
  | none => some x

/-- Notes that a key may start here. -/
def saveKey (x : Lexer) : Option Lexer :=
  if x.keyAllowed then
    x.dropKey.map fun x =>
      { x with
        pending := some
          { number := x.count
            line := x.source.line
            column := x.source.column
            index := x.source.index
            required := !x.inFlow && x.indent = x.source.column } }
  else some x

/-- Whether the colon here belongs to the pending key, which stands on one line and is not too
long. -/
def isReached (x : Lexer) (key : PendingKey) : Bool :=
  key.line = x.source.line && x.source.index ≤ key.index + 1024

/-! ## Steps -/

/-- The end of the stream. -/
def finish (x : Lexer) : Option Lexer :=
  (x.unroll (-1)).dropKey.map (·.emit .streamEnd)

/-- The start or the end of a document. -/
def marker (x : Lexer) (lexeme : Lexeme) : Option Lexer :=
  (x.unroll (-1)).dropKey.map fun x => { x.take 3 lexeme with keyAllowed := false }

/-- The start of a flow collection. -/
def openFlow (x : Lexer) (lexeme : Lexeme) : Option Lexer :=
  x.saveKey.map fun x =>
    { x.take 1 lexeme with pending := none, outer := x.pending :: x.outer, keyAllowed := true }

/-- The end of a flow collection. -/
def closeFlow (x : Lexer) (lexeme : Lexeme) : Option Lexer :=
  x.dropKey.map fun x =>
    match x.outer with
    | [] => { x.take 1 lexeme with keyAllowed := false }
    | pending :: outer =>
      { x.take 1 lexeme with pending := pending, outer := outer, keyAllowed := false }

/-- A comma in a flow collection. -/
def comma (x : Lexer) : Option Lexer :=
  x.dropKey.map fun x => { x.take 1 .flowEntry with keyAllowed := true }

/-- A dash or a question mark, which opens a block collection where it is the first. -/
def indicator (x : Lexer) (start lexeme : Lexeme) (keyAllowed : Bool) : Option Lexer :=
  if !x.inFlow && !x.keyAllowed then none
  else
    (x.roll x.source.column x.count start).dropKey.map fun x =>
      { x.take 1 lexeme with keyAllowed := keyAllowed }

/-- A colon: it ends the pending key, or else the key announced by a question mark. -/
def colon (x : Lexer) : Option Lexer :=
  match x.pending with
  | some key =>
    if x.isReached key then
      let keyed := (x.emitBefore key.number .key).roll key.column key.number .mappingStart
      some { keyed.take 1 .value with pending := none, keyAllowed := false }
    else if key.required then none
    else bare { x with pending := none }
  | none => bare x
where
  /-- A colon that ends no pending key. -/
  bare (x : Lexer) : Option Lexer :=
    if !x.inFlow && !x.keyAllowed then none
    else
      some { (x.roll x.source.column x.count .mappingStart).take 1 .value with
        keyAllowed := !x.inFlow }

/-- A lexeme with which a key may start, and the source after it. -/
def start (x : Lexer) (reading : Option (Lexeme × Source)) : Option Lexer :=
  match x.saveKey, reading with
  | some x, some (lexeme, after) =>
    some { x.emit lexeme with source := after, keyAllowed := false }
  | _, _ => none

/-- A scalar in quotes. -/
def quoted (x : Lexer) (double : Bool) : Option Lexer :=
  x.start ((readQuoted double (x.source.advance 1)).map fun (text, after) =>
    (.scalar true text, after))

/-- The name of an anchor or of an alias. -/
def name (x : Lexer) (lexeme : String → Lexeme) : Option Lexer :=
  x.start ((readAnchor? (x.source.advance 1)).map fun (name, after) => (lexeme name, after))

/-- A tag. -/
def tag (x : Lexer) : Option Lexer :=
  x.start ((readTag? x.source).map fun (tag, after) => (.tag tag, after))

/-- A scalar without quotes. Where it ends in front of a further line a key may start, and no comment
belongs to its line. -/
def plain (x : Lexer) : Option Lexer :=
  match x.saveKey, readPlain x.inFlow x.indent x.source with
  | some x, some (text, after, broken) =>
    let ended := { x.emit (.scalar false text) with source := after, keyAllowed := broken }
    some (if broken then ended else ended.dropRemark)
  | _, _ => none

/-- A scalar whose lines are indented. -/
def block (x : Lexer) (literal : Bool) : Option Lexer :=
  match x.dropKey, readBlock literal x.indent (x.source.advance 1) with
  | some x, some (text, after) =>
    some { x.emit (.scalar true text) with source := after, keyAllowed := true }
  | _, _ => none

/-- A directive. -/
def directive (x : Lexer) : Option Lexer :=
  match (x.unroll (-1)).dropKey, readDirective? (x.source.advance 1) with
  | some x, some (directive, after) =>
    some { x.emit (.directive directive) with source := after, keyAllowed := false }
  | _, _ => none

/-- The characters with which no plain scalar starts, in the order of their codes apart from the
grave accent at the end. -/
def reserved : List Char :=
  ['!', '"', '#', '%', '&', '\'', '*', ',', '-', ':', '>', '?', '@', '[', ']', '\x7b', '|', '\x7d',
    Char.ofNat 0x60]

/-- Whether a plain scalar starts here. A dash, and outside flow collections a question mark or a
colon, starts one if no blank follows. -/
def startsPlain (inFlow : Bool) : List Char → Bool
  | [] => false
  | c :: rest =>
    (!reserved.contains c && !isSpace c) ||
      ((c = '-' || (!inFlow && (c = '?' || c = ':'))) && !startsBlank rest)

/-- The lexeme at a character, where a comment on its line is passed over with it. -/
def symbol (x : Lexer) (c : Char) (rest : List Char) : Option Lexer :=
  if c = '[' then x.openFlow .flowSequenceStart
  else if c = '\x7b' then x.openFlow .flowMappingStart
  else if c = ']' then x.closeFlow .flowSequenceEnd
  else if c = '\x7d' then x.closeFlow .flowMappingEnd
  else if c = ',' then x.comma
  else if c = '?' && (x.inFlow || startsBlank rest) then x.indicator .mappingStart .key !x.inFlow
  else if c = ':' && (x.inFlow || startsBlank rest) then x.colon
  else if c = '*' then x.name .alias
  else if c = '&' then x.name .anchor
  else if c = '!' then x.tag
  else if c = '\'' then x.quoted false
  else if c = '"' then x.quoted true
  else none

/-- The lexeme at a character that is no blank. -/
def content (x : Lexer) : List Char → Option Lexer
  | [] => x.finish
  | c :: rest =>
    if x.source.column = 0 && c = '%' then x.directive
    else if x.source.atMarker '-' then x.marker .documentStart
    else if x.source.atMarker '.' then x.marker .documentEnd
    else if c = '-' && startsBlank rest then x.indicator .sequenceStart .entry true
    else if (c = '|' || c = '>') && !x.inFlow then x.block (c = '|')
    else if startsPlain x.inFlow (c :: rest) then x.plain
    else (x.symbol c rest).map dropRemark

/-- The number of collections that may stand one inside the other. -/
def maxNesting : Nat := 10000

/-- Whether the collections stand too deep inside each other. -/
def isTooDeep (x : Lexer) : Bool := maxNesting < x.outer.length || maxNesting < x.indents.length

/-- The next lexeme, with the ends of the block collections before it. -/
def step (x : Lexer) : Option Lexer :=
  let (source, keyAllowed) :=
    x.source.skipToContent x.inFlow x.keyAllowed (x.source.rest.length + 1)
  let x := { x with source := source, keyAllowed := keyAllowed }.unroll source.column
  match x.content source.rest with
  | some next => if next.isTooDeep then none else some next
  | none => none

/-- The lexemes that remain readable when the text cannot be divided further: the reader looks two
lexemes ahead, so the last two are out of reach. -/
def readable (x : Lexer) : List Lexeme := (.broken :: x.lexemes.drop 2).reverse

/-- Divides the text to its end; each step passes over a character, so their number bounds the
steps. -/
def run (x : Lexer) : Nat → List Lexeme
  | 0 => x.readable
  | fuel + 1 =>
    match x.step with
    | none => x.readable
    | some next =>
      match next.lexemes with
      | .streamEnd :: _ => next.lexemes.reverse
      | _ => next.run fuel

end Lexer

/-- The lexemes of a text. -/
def lexemes (text : List Char) : List Lexeme :=
  if text.all isAllowed then (Lexer.ofText text).run (text.length + 1) else [.broken]

end TokenGrammar.Yaml
