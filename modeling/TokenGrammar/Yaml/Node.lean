import TokenGrammar.Yaml.Written

/-!
# YAML nodes

The node of a document in which each alias carries the node that it repeats, and each tag is written
in its short form. An alias inside the node that it would repeat has nothing to carry.

## Main definitions

* `Node`: scalars, sequences, mappings and aliases.
* `Handles`: what the handles of tags stand for.
* `link?`: the node of what is written.
* `Node.isAffordable`: whether the aliases of a node stay within bounds.
* `Node.ofText?`: the node of the first document of a text.
-/
namespace TokenGrammar.Yaml

/-- A node of a document. The tag of a scalar is empty where there is none; the tags of collections
do not count. -/
inductive Node where
  | scalar (tag : String) (quoted : Bool) (text : String)
  | sequence (items : List Node)
  | mapping (pairs : List (Node × Node))
  /-- A node that was written before under an anchor. -/
  | alias (anchor : String) (target : Node)
  /-- An alias inside the node that it would repeat. -/
  | cycle (anchor : String)
deriving Repr, Inhabited

/-! ## Tags -/

/-- What the handles of tags stand for. -/
abbrev Handles := List (String × String)

/-- What handles stand for without a directive. -/
def Handles.standard : Handles := [("!", "!"), ("!!", "tag:yaml.org,2002:")]

/-- What handles stand for after directives. A handle may be declared once, the version may be told
once, and only one version is known. -/
def Handles.ofDirectives? (directives : List Directive) : Option Handles :=
  let versions := directives.filterMap fun d =>
    match d with
    | .version major minor => some (major, minor)
    | .handle .. => none
  let declared : Handles := directives.filterMap fun d =>
    match d with
    | .handle name meaning => some (name, meaning)
    | .version .. => none
  let names := declared.map (·.1)
  if versions.length ≤ 1 && versions.all (· == (1, 1)) && names.eraseDups.length = names.length then
    some (declared ++ Handles.standard)
  else none

/-- The short form of a tag. -/
def shortTag (tag : String) : String :=
  match tag.dropPrefix? "tag:yaml.org,2002:" with
  | some rest => "!!" ++ rest.toString
  | none => tag

/-- The tag of a node in its short form; a lone exclamation mark asks for nothing. -/
def Handles.tag? (handles : Handles) : Option Tag → Option String
  | none => some ""
  | some ⟨handle, suffix⟩ =>
    let full := if handle = "" then some suffix else (handles.lookup handle).map (· ++ suffix)
    match full with
    | none => none
    | some "" => none
    | some "!" => some ""
    | some tag => some (shortTag tag)

/-! ## Anchors -/

/-- The anchors that were written so far, the newest first, with their nodes; a node that is not
complete is missing. -/
abbrev Anchors := List (String × Option Node)

/-- Opens an anchor in front of a node. -/
def Anchors.enter (anchors : Anchors) : Option String → Anchors
  | some name => (name, none) :: anchors
  | none => anchors

/-- Completes the node of the anchor that was opened when there were `count` anchors, if there was
one. -/
def Anchors.complete (anchors : Anchors) (anchor : Option String) (count : Nat) (node : Node) :
    Anchors :=
  match anchor with
  | some name =>
    let newer := anchors.length - (count + 1)
    anchors.take newer ++ (name, some node) :: anchors.drop (newer + 1)
  | none => anchors

mutual

/-- The node of what is written, and the anchors after it. -/
def link? (handles : Handles) (anchors : Anchors) : Written → Option (Node × Anchors)
  | .scalar properties quoted text =>
    (handles.tag? properties.tag).map fun tag =>
      let node := Node.scalar tag quoted text
      (node, (anchors.enter properties.anchor).complete properties.anchor anchors.length node)
  | .sequence properties items =>
    match handles.tag? properties.tag, linkAll? handles (anchors.enter properties.anchor) items with
    | some _, some (nodes, after) =>
      some (.sequence nodes, after.complete properties.anchor anchors.length (.sequence nodes))
    | _, _ => none
  | .mapping properties pairs =>
    match handles.tag? properties.tag, linkPairs? handles (anchors.enter properties.anchor) pairs with
    | some _, some (nodes, after) =>
      some (.mapping nodes, after.complete properties.anchor anchors.length (.mapping nodes))
    | _, _ => none
  | .alias name =>
    match anchors.lookup name with
    | none => none
    | some none => some (.cycle name, anchors)
    | some (some node) => some (.alias name node, anchors)

/-- The nodes of several that are written. -/
def linkAll? (handles : Handles) (anchors : Anchors) :
    List Written → Option (List Node × Anchors)
  | [] => some ([], anchors)
  | w :: rest =>
    match link? handles anchors w with
    | none => none
    | some (node, anchors) =>
      (linkAll? handles anchors rest).map fun (nodes, anchors) => (node :: nodes, anchors)

/-- The pairs of a mapping that are written. -/
def linkPairs? (handles : Handles) (anchors : Anchors) :
    List (Written × Written) → Option (List (Node × Node) × Anchors)
  | [] => some ([], anchors)
  | (k, v) :: rest =>
    match link? handles anchors k with
    | none => none
    | some (key, anchors) =>
      match link? handles anchors v with
      | none => none
      | some (value, anchors) =>
        (linkPairs? handles anchors rest).map fun (pairs, anchors) => ((key, value) :: pairs, anchors)

end

/-! ## Bounds -/

/-- The number of nodes that a reader meets, and how many of them it meets through aliases. -/
structure Effort where
  met : Nat
  repeated : Nat
deriving Repr, DecidableEq, Inhabited

/-- Whether too many nodes are met through aliases: up to 99 of 100 in a document of moderate size,
and fewer in a larger one, down to 10 of 100. -/
def Effort.isExcessive (e : Effort) : Bool :=
  let low := 400000
  let range := 3600000
  let allowed := 99 * range - 89 * (min e.met (low + range) - low)
  100 < e.repeated && 1000 < e.met && e.met * allowed < e.repeated * (100 * range)

/-- The effort after one more node, unless that is too much. -/
def Effort.more? (e : Effort) (inAlias : Bool) : Option Effort :=
  let next : Effort := ⟨e.met + 1, if inAlias then e.repeated + 1 else e.repeated⟩
  if next.isExcessive then none else some next

mutual

/-- Meets a node and the nodes inside it. -/
def meet? (inAlias : Bool) (e : Effort) : Node → Option Effort
  | .scalar .. | .cycle _ => e.more? inAlias
  | .sequence items =>
    match e.more? inAlias with
    | some e => meetAll? inAlias e items
    | none => none
  | .mapping pairs =>
    match e.more? inAlias with
    | some e => meetPairs? inAlias e pairs
    | none => none
  | .alias _ target =>
    match e.more? inAlias with
    | some e => meet? true e target
    | none => none

/-- Meets several nodes. -/
def meetAll? (inAlias : Bool) (e : Effort) : List Node → Option Effort
  | [] => some e
  | node :: rest =>
    match meet? inAlias e node with
    | some e => meetAll? inAlias e rest
    | none => none

/-- Meets the pairs of a mapping. -/
def meetPairs? (inAlias : Bool) (e : Effort) : List (Node × Node) → Option Effort
  | [] => some e
  | (key, value) :: rest =>
    match meet? inAlias e key with
    | none => none
    | some e =>
      match meet? inAlias e value with
      | some e => meetPairs? inAlias e rest
      | none => none

end

namespace Node

/-- Whether the aliases of a node stay within bounds. -/
def isAffordable (node : Node) : Bool := (meet? false ⟨0, 0⟩ node).isSome

/-- The node of the first document of a text. -/
def ofText? (text : List Char) : Option Node :=
  match WrittenDocument.ofText? text with
  | none => none
  | some document =>
    match Handles.ofDirectives? document.directives with
    | none => none
    | some handles =>
      match link? handles [] document.node with
      | some (node, _) => if node.isAffordable then some node else none
      | none => none

end Node
end TokenGrammar.Yaml
