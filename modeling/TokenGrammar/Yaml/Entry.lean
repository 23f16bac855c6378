import TokenGrammar.Value.Basic
import TokenGrammar.Yaml.Fit

/-!
# Entries of YAML mappings

A key may stand only once in a mapping. A key for merging adds the pairs of other mappings whose keys
do not stand in the mapping itself; of several merged mappings the first to have a key gives the value.

## Main definitions

* `KeyStyle`, `Node.keyValue`: how keys are read.
* `Node.entries?`: the pairs of a mapping together with those that it merges.
* `Node.named`, `Node.fields`: the entries of a mapping by their names.
-/
namespace TokenGrammar.Yaml

/-- How the keys of a mapping are read: as texts, or as scalars of any type. -/
inductive KeyStyle where
  | text
  | scalar
deriving Repr, DecidableEq, Inhabited

/-- The dynamic value of a datum. -/
def Datum.toValue : Datum → Value
  | .null => .null
  | .bool b => .bool b
  | .int n => .ofInt n
  | .unsigned n => .int .unsigned64 n
  | .float x => .float x
  | .time t => .time t
  | .text s => .text s

namespace Node

/-! ## Keys -/

/-- What tells keys apart while a mapping is checked for repeated keys: the kind of the node and what
is written there. -/
def keyMark : Node → Nat × String
  | .scalar _ _ s => (0, s)
  | .sequence _ => (1, "")
  | .mapping _ => (2, "")
  | .alias anchor _ | .cycle anchor => (3, anchor)

/-- Whether a key stands more than once. -/
def hasRepeatedKey (pairs : List (Node × Node)) : Bool :=
  let marks := pairs.map (·.1.keyMark)
  marks.eraseDups.length != marks.length

/-- Whether a key asks for merging. -/
def isMergeKey : Node → Bool
  | .scalar tag quoted s => s = "<<" && ((tag = "" && !quoted) || tag = "!!merge")
  | _ => false

/-- Whether a key is a text. -/
def isTextKey : Node → Bool
  | .scalar tag quoted s => isText tag quoted s
  | .alias _ target => target.isTextKey
  | _ => false

/-- Whether all keys of a mapping are texts. -/
def hasTextKeys (pairs : List (Node × Node)) : Bool :=
  pairs.all fun (key, _) => key.isTextKey || key.isMergeKey

/-- The value of a key. A null is no text. -/
def keyValue (style : KeyStyle) (key : Node) : Fit Value :=
  match style with
  | .text => key.text.map .text
  | .scalar =>
    match key.datum with
    | .mismatch => .mismatch
    | .null => .given .null
    | .given d => .given d.toValue

/-! ## Merging -/

/-- The keys with their nodes, and the keys that are in use after them. -/
abbrev Gathering := Option (List (Value × Node) × List Value)

/-- Whether a key is in use. -/
def isUsed (used : List Value) (key : Value) : Bool := used.any key.sameAs

/-- The pairs of a mapping itself whose keys are not in use. Null keys are left out where texts are
wanted. -/
def ownPairs? (style : KeyStyle) (used : List Value) : List (Node × Node) → Gathering
  | [] => some ([], used)
  | (key, node) :: rest =>
    if key.isMergeKey then ownPairs? style used rest
    else
      match key.keyValue style with
      | .mismatch => none
      | .null => ownPairs? style used rest
      | .given v =>
        if isUsed used v then ownPairs? style used rest
        else
          (ownPairs? style (v :: used) rest).map fun (pairs, used) => ((v, node) :: pairs, used)

mutual

/-- The pairs of a mapping that is merged into another, with those that it merges itself. -/
def merged? (style : KeyStyle) (used : List Value) : Node → Gathering
  | .mapping pairs =>
    if hasRepeatedKey pairs then none
    else
      match ownPairs? style used pairs with
      | none => none
      | some (own, used) =>
        (mergedPairs? style used pairs).map fun (more, used) => (own ++ more, used)
  | .alias _ target => merged? style used target
  | _ => none

/-- The pairs that a mapping merges, which is what stands under its key for merging: a mapping, or a
sequence of mappings. -/
def mergedPairs? (style : KeyStyle) (used : List Value) : List (Node × Node) → Gathering
  | [] => some ([], used)
  | (key, .sequence nodes) :: rest =>
    if key.isMergeKey then mergedAll? style used nodes else mergedPairs? style used rest
  | (key, node) :: rest =>
    if key.isMergeKey then merged? style used node else mergedPairs? style used rest

/-- The pairs of several mappings that are merged into another; a key of the first is kept. -/
def mergedAll? (style : KeyStyle) (used : List Value) : List Node → Gathering
  | [] => some ([], used)
  | node :: rest =>
    match merged? style used node with
    | none => none
    | some (pairs, used) =>
      (mergedAll? style used rest).map fun (more, used) => (pairs ++ more, used)

end

/-- All pairs of a mapping itself. Null keys are left out where texts are wanted. -/
def allPairs? (style : KeyStyle) (pairs : List (Node × Node)) : Option (List (Value × Node)) :=
  Fit.all ((pairs.filter fun (key, _) => !key.isMergeKey).map fun (key, node) =>
    (key.keyValue style).map (·, node))

/-- The keys of a mapping as scalars, with the key for merging. -/
def usedKeys? (pairs : List (Node × Node)) : Option (List Value) :=
  Fit.all (pairs.map fun (key, _) => key.keyValue .scalar)

/-- The pairs of a mapping and then those that it merges. What is merged does not replace what the
mapping says itself; keys are compared as scalars, so a text that is merged does not meet a number. -/
def entries? (style : KeyStyle) (pairs : List (Node × Node)) : Option (List (Value × Node)) :=
  if hasRepeatedKey pairs then none
  else if pairs.any fun (key, _) => key.isMergeKey then
    match allPairs? style pairs, usedKeys? pairs with
    | some own, some used => (mergedPairs? style used pairs).map fun (more, _) => own ++ more
    | _, _ => none
  else allPairs? style pairs

/-- The entries of a node that is a mapping or null, by their names. -/
def named : Node → Fit (List (String × Node))
  | .mapping pairs =>
    .ofOption ((entries? .text pairs).map (·.filterMap fun (key, node) =>
      match key with
      | .text name => some (name, node)
      | _ => none))
  | .alias _ target => target.named
  | node => if node.isNull then .null else .mismatch

/-- The fields of a record: the entries of a node, in which each name stands once. -/
def fields (node : Node) : Fit (List (String × Node)) :=
  match node.named with
  | .mismatch => .mismatch
  | .null => .null
  | .given entries =>
    let names := entries.map (·.1)
    if names.eraseDups.length = names.length then .given entries else .mismatch

end Node
end TokenGrammar.Yaml
