import TokenGrammar.Yaml.Entry

/-!
# Dynamic values of YAML nodes

Where no kind is wanted a node keeps the type of its scalars. A mapping whose keys are all texts is a
map of texts, and any other has keys of any type; a key that is given again replaces the value.

## Main definitions

* `Node.mapValue`: the map of entries.
* `Node.value?`: the dynamic value of a node.
* `Node.valueList`: the dynamic values of a list.
-/
namespace TokenGrammar.Yaml.Node

/-- Stores a value under a key, in place of the one before. -/
def putKeyed (entries : List (Value × Value)) (key v : Value) : List (Value × Value) :=
  (entries.filter fun entry => !entry.1.sameAs key) ++ [(key, v)]

/-- The map of entries, of which later ones replace earlier ones, in ascending order of the keys. -/
def mapValue (style : KeyStyle) (entries : List (Value × Value)) : Value :=
  let kept := entries.foldl (fun kept entry => putKeyed kept entry.1 entry.2) []
  let sorted := kept.mergeSort fun a b => a.1.keyLe b.1
  match style with
  | .scalar => .keyed sorted
  | .text =>
    .map (sorted.filterMap fun (key, v) =>
      match key with
      | .text name => some (name, v)
      | _ => none)

mutual

/-- The number of nodes that stand one inside the other. -/
def depth : Node → Nat
  | .scalar .. | .cycle _ => 1
  | .sequence nodes => depthAll nodes + 1
  | .mapping pairs => depthPairs pairs + 1
  | .alias _ target => target.depth + 1

/-- The depth of the deepest of several nodes. -/
def depthAll : List Node → Nat
  | [] => 0
  | node :: rest => max node.depth (depthAll rest)

/-- The depth of the deepest node of pairs. -/
def depthPairs : List (Node × Node) → Nat
  | [] => 0
  | (key, node) :: rest => max (max key.depth node.depth) (depthPairs rest)

end

/-- The dynamic value of a node whose depth is at most the given number. -/
def valueWithin? : Nat → Node → Option Value
  | 0, _ => none
  | bound + 1, node =>
    match node with
    | .scalar tag quoted s => (Datum.ofScalar? tag quoted s).map Datum.toValue
    | .sequence nodes => (nodes.mapM (valueWithin? bound)).map .list
    | .mapping pairs =>
      let style := if hasTextKeys pairs then KeyStyle.text else .scalar
      match entries? style pairs with
      | none => none
      | some entries =>
        (entries.mapM fun entry => (valueWithin? bound entry.2).map fun v => (entry.1, v)).map
          (mapValue style)
    | .alias _ target => valueWithin? bound target
    | .cycle _ => none

/-- The dynamic value of a node. -/
def value? (node : Node) : Option Value := valueWithin? node.depth node

/-- A list of dynamic values, among which nulls are kept. -/
def valueList (node : Node) : Fit (List Value) :=
  match node.sequence? with
  | .mismatch => .mismatch
  | .null => .null
  | .given nodes => .ofOption (nodes.mapM value?)

end TokenGrammar.Yaml.Node
