import TokenGrammar.Text.Blank

/-!
# Labelled trees

A tree is a label with ordered subtrees. It is printed one line after the other, with connectors in
front of the lines: every subtree hangs on a branch, and a label of several lines keeps its later
lines under the branch.

## Main definitions

* `Tree`: the trees.
* `Tree.printItems`: the lines of subtrees behind a margin.
* `Tree.print`: the text of a tree.
-/
namespace TokenGrammar

/-- A label with ordered subtrees. -/
inductive Tree where
  | node (text : String) (items : List Tree)
deriving Inhabited

namespace Tree

/-- What holds of a tree as soon as it holds of its subtrees holds of every tree. -/
@[elab_as_elim, induction_eliminator]
theorem induct {motive : Tree → Prop}
    (node : ∀ text items, (∀ t ∈ items, motive t) → motive (.node text items)) (t : Tree) :
    motive t :=
  match t with
  | .node text items => node text items fun t _ => induct node t

/-- A tree without subtrees. -/
def leaf (text : String) : Tree := .node text []

/-- The label of a tree. -/
def text : Tree → String
  | .node text _ => text

/-- The subtrees of a tree. -/
def items : Tree → List Tree
  | .node _ items => items

/-- What stands in front of the first line of a subtree. -/
def branch (last : Bool) : List Char :=
  (if last then "└── " else "├── ").toList

/-- What stands in front of all other lines of a subtree. -/
def continuation (last : Bool) : List Char :=
  (if last then "    " else "│   ").toList

/-- A line with its end. -/
def line (cs : List Char) : List Char := cs ++ ['\n']

/-- The lines of a label behind a margin: the branch before the first, the continuation before the
others. -/
def printLabel (margin : List Char) (last : Bool) (text : String) : List Char :=
  match Text.splitOn '\n' text.toList with
  | [] => []
  | first :: rest =>
    line (margin ++ branch last ++ first) ++
      rest.flatMap fun l => line (margin ++ continuation last ++ l)

mutual

/-- A subtree behind a margin; `last` tells whether another one follows. -/
def printItem (margin : List Char) (last : Bool) : Tree → List Char
  | .node text items => printLabel margin last text ++ printItems (margin ++ continuation last) items

/-- Subtrees behind a margin, each on its own branch. -/
def printItems (margin : List Char) : List Tree → List Char
  | [] => []
  | t :: rest => printItem margin rest.isEmpty t ++ printItems margin rest

end

/-- The text of a tree: its label, and its subtrees behind an empty margin. -/
def print : Tree → String
  | .node text items => String.ofList (line text.toList ++ printItems [] items)

end Tree
end TokenGrammar
