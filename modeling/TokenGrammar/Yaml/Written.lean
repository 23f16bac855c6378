import TokenGrammar.Yaml.Lexeme

/-!
# YAML nodes as they are written

The lexemes of a stream are read as the node of its first document, in which anchors, aliases and
tags stand as they are written. A block sequence may stand without further indentation as the value
of a key. In a flow sequence a key with its value is a mapping of one pair, and in a flow mapping a
key may stand without a value. Where a node is missing, an empty plain scalar stands in its place.

## Main definitions

* `Written`: scalars, sequences, mappings and aliases.
* `readNode?`: the node at the head of a list of lexemes.
* `WrittenDocument`, `WrittenDocument.ofText?`: the first document of a text.
-/
namespace TokenGrammar.Yaml

/-- What may stand in front of a node. -/
structure Properties where
  anchor : Option String
  tag : Option Tag
deriving Repr, DecidableEq, Inhabited

/-- Nothing stands in front of the node. -/
def Properties.none : Properties := ⟨.none, .none⟩

/-- Whether nothing stands in front of the node. -/
def Properties.isNone (p : Properties) : Bool := p.anchor.isNone && p.tag.isNone

/-- Splits off what stands in front of a node: an anchor and a tag in either order. -/
def takeProperties : List Lexeme → Properties × List Lexeme
  | .anchor name :: .tag tag :: rest => (⟨some name, some tag⟩, rest)
  | .tag tag :: .anchor name :: rest => (⟨some name, some tag⟩, rest)
  | .anchor name :: rest => (⟨some name, .none⟩, rest)
  | .tag tag :: rest => (⟨.none, some tag⟩, rest)
  | ls => (.none, ls)

/-- A node of a document. The pairs of a mapping are in the order of the text. -/
inductive Written where
  | scalar (properties : Properties) (quoted : Bool) (text : String)
  | sequence (properties : Properties) (items : List Written)
  | mapping (properties : Properties) (pairs : List (Written × Written))
  | alias (name : String)
deriving Repr, Inhabited

/-- The node that stands where none is written. -/
def Written.missing : Written := .scalar .none false ""

/-- Whether the first lexeme is one of some lexemes. -/
def startsWith (stops : List Lexeme) : List Lexeme → Bool
  | [] => false
  | l :: _ => stops.contains l

/-- What may stand where a node is read: block collections, and a sequence without indentation. -/
structure Place where
  block : Bool
  indentless : Bool

/-- A node in a block sequence. -/
def Place.item : Place := ⟨true, false⟩

/-- A key or a value of a block mapping. -/
def Place.member : Place := ⟨true, true⟩

/-- A node in a flow collection. -/
def Place.flow : Place := ⟨false, false⟩

/-- A node and the lexemes after it. -/
abbrev Reading (α : Type) := Option (α × List Lexeme)

/-- Passes over the comma between the members of a flow collection; before the first there is none,
and before the end it may be missing. -/
def separated? (first : Bool) (stop : Lexeme) (ls : List Lexeme) : Option (List Lexeme) :=
  if first || startsWith [stop] ls then some ls
  else
    match ls with
    | .flowEntry :: rest => some rest
    | _ => none

mutual

/-- Reads a node. Where only properties stand, the node is an empty plain scalar. -/
def readNode? (place : Place) (ls : List Lexeme) : Nat → Reading Written
  | 0 => none
  | fuel + 1 =>
    let (properties, start) := takeProperties ls
    let missing : Reading Written :=
      if properties.isNone then none else some (.scalar properties false "", start)
    match start with
    | .alias name :: rest => if properties.isNone then some (.alias name, rest) else missing
    | .scalar quoted text :: rest => some (.scalar properties quoted text, rest)
    | .flowSequenceStart :: rest =>
      (flowItems? true rest fuel).map fun (items, rest) => (.sequence properties items, rest)
    | .flowMappingStart :: rest =>
      (flowPairs? true rest fuel).map fun (pairs, rest) => (.mapping properties pairs, rest)
    | .entry :: _ =>
      if place.indentless then
        (indentlessItems? start fuel).map fun (items, rest) => (.sequence properties items, rest)
      else missing
    | .sequenceStart :: rest =>
      if place.block then
        (blockItems? rest fuel).map fun (items, rest) => (.sequence properties items, rest)
      else missing
    | .mappingStart :: rest =>
      if place.block then
        (blockPairs? rest fuel).map fun (pairs, rest) => (.mapping properties pairs, rest)
      else missing
    | .broken :: _ => none
    | _ => missing

/-- Reads a node, or none where one of some lexemes follows. -/
def readOptional? (place : Place) (stops ls : List Lexeme) : Nat → Reading Written
  | 0 => none
  | fuel + 1 => if startsWith stops ls then some (.missing, ls) else readNode? place ls fuel

/-- Reads the items of a block sequence to its end. -/
def blockItems? (ls : List Lexeme) : Nat → Reading (List Written)
  | 0 => none
  | fuel + 1 =>
    match ls with
    | .blockEnd :: rest => some ([], rest)
    | .entry :: rest =>
      match readOptional? .item [.entry, .blockEnd] rest fuel with
      | none => none
      | some (node, rest) => (blockItems? rest fuel).map fun (nodes, rest) => (node :: nodes, rest)
    | _ => none

/-- Reads the items of a sequence without indentation, which ends where no dash follows. -/
def indentlessItems? (ls : List Lexeme) : Nat → Reading (List Written)
  | 0 => none
  | fuel + 1 =>
    match ls with
    | .entry :: rest =>
      match readOptional? .item [.entry, .key, .value, .blockEnd] rest fuel with
      | none => none
      | some (node, rest) =>
        (indentlessItems? rest fuel).map fun (nodes, rest) => (node :: nodes, rest)
    | _ => some ([], ls)

/-- Reads the pairs of a block mapping to its end. -/
def blockPairs? (ls : List Lexeme) : Nat → Reading (List (Written × Written))
  | 0 => none
  | fuel + 1 =>
    match ls with
    | .blockEnd :: rest => some ([], rest)
    | .key :: rest =>
      match readOptional? .member [.key, .value, .blockEnd] rest fuel with
      | none => none
      | some (key, rest) =>
        match readValue? .member [.key, .value, .blockEnd] rest fuel with
        | none => none
        | some (value, rest) =>
          (blockPairs? rest fuel).map fun (pairs, rest) => ((key, value) :: pairs, rest)
    | _ => none

/-- Reads the value of a key; without a colon it is missing. -/
def readValue? (place : Place) (stops ls : List Lexeme) : Nat → Reading Written
  | 0 => none
  | fuel + 1 =>
    match ls with
    | .value :: rest => readOptional? place stops rest fuel
    | _ => some (.missing, ls)

/-- Reads the items of a flow sequence to its end. -/
def flowItems? (first : Bool) (ls : List Lexeme) : Nat → Reading (List Written)
  | 0 => none
  | fuel + 1 =>
    match separated? first .flowSequenceEnd ls with
    | none => none
    | some (.flowSequenceEnd :: rest) => some ([], rest)
    | some (.key :: rest) =>
      match flowPair? rest fuel with
      | none => none
      | some (pair, rest) =>
        (flowItems? false rest fuel).map fun (nodes, rest) => (.mapping .none [pair] :: nodes, rest)
    | some rest =>
      match readNode? .flow rest fuel with
      | none => none
      | some (node, rest) =>
        (flowItems? false rest fuel).map fun (nodes, rest) => (node :: nodes, rest)

/-- Reads the pair of a key in a flow sequence. If the key is missing, what stands in its place is
passed over. -/
def flowPair? (ls : List Lexeme) : Nat → Reading (Written × Written)
  | 0 => none
  | fuel + 1 =>
    match readOptional? .flow [.value, .flowEntry, .flowSequenceEnd] ls fuel with
    | none => none
    | some (key, after) =>
      let rest :=
        if startsWith [.value, .flowEntry, .flowSequenceEnd] ls then after.drop 1 else after
      (readValue? .flow [.flowEntry, .flowSequenceEnd] rest fuel).map fun (value, rest) =>
        ((key, value), rest)

/-- Reads the pairs of a flow mapping to its end. -/
def flowPairs? (first : Bool) (ls : List Lexeme) : Nat → Reading (List (Written × Written))
  | 0 => none
  | fuel + 1 =>
    match separated? first .flowMappingEnd ls with
    | none => none
    | some (.flowMappingEnd :: rest) => some ([], rest)
    | some (.key :: rest) =>
      match readOptional? .flow [.value, .flowEntry, .flowMappingEnd] rest fuel with
      | none => none
      | some (key, rest) =>
        match readValue? .flow [.flowEntry, .flowMappingEnd] rest fuel with
        | none => none
        | some (value, rest) =>
          (flowPairs? false rest fuel).map fun (pairs, rest) => ((key, value) :: pairs, rest)
    | some rest =>
      match readNode? .flow rest fuel with
      | none => none
      | some (key, rest) =>
        (flowPairs? false rest fuel).map fun (pairs, rest) => ((key, .missing) :: pairs, rest)

end

/-! ## Documents -/

/-- The first document of a stream: the directives in front of it and its node. -/
structure WrittenDocument where
  directives : List Directive
  node : Written
deriving Inhabited

namespace WrittenDocument

/-- Whether the lexemes end the first document. -/
def isEnded : List Lexeme → Bool
  | [] => false
  | l :: _ => l != .broken

/-- Splits off the directives in front of a document. -/
def takeDirectives : List Lexeme → List Directive × List Lexeme
  | .directive d :: rest =>
    let (directives, rest) := takeDirectives rest
    (d :: directives, rest)
  | ls => ([], ls)

/-- Reads the node of a document after its start, which may be missing. -/
def readContent? (ls : List Lexeme) (fuel : Nat) : Reading Written :=
  match ls with
  | .directive _ :: _ => some (.missing, ls)
  | _ => readOptional? .item [.documentStart, .documentEnd, .streamEnd] ls fuel

/-- The first document. A stream without a document has none, and after directives a document has to
start. What follows the document is not read. -/
def ofLexemes? (ls : List Lexeme) : Option WrittenDocument :=
  let fuel := 4 * ls.length + 8
  let (directives, start) := takeDirectives ls
  let reading :=
    match start with
    | .streamEnd :: _ => none
    | .documentStart :: rest => readContent? rest fuel
    | _ => if directives.isEmpty then readNode? .item start fuel else none
  match reading with
  | some (node, rest) => if isEnded rest then some ⟨directives, node⟩ else none
  | none => none

/-- The first document of a text. -/
def ofText? (text : List Char) : Option WrittenDocument := ofLexemes? (lexemes text)

end WrittenDocument
end TokenGrammar.Yaml
