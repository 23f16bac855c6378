import TokenGrammar.Tree.Basic

/-!
# Shared trees

Trees that are shared by reference: a tree may hang on several branches, and a subtree added to it
shows on all of them. A forest stores every tree once, with the handles of its subtrees. Printing
follows the handles; the tree of a handle is the unfolding of what is stored.

## Main definitions

* `Forest`: the stored trees; a handle is a position in the list.
* `Forest.new`, `Forest.add`, `Forest.attach`: the three operations that change a forest.
* `Forest.print`: the text of a stored tree, unless printing it does not end.
* `Forest.tree`: the unfolding of a handle.
-/
namespace TokenGrammar

/-- A stored tree: its label and the handles of its subtrees. -/
structure Forest.Entry where
  text : String
  items : List Nat
deriving Repr, DecidableEq, Inhabited

/-- Trees that are shared by reference. -/
structure Forest where
  entries : List Forest.Entry
deriving Repr, DecidableEq, Inhabited

namespace Forest

/-- No trees. -/
def empty : Forest := ⟨[]⟩

/-- A fresh tree without subtrees, and its handle. -/
def new (f : Forest) (text : String) : Forest × Nat := (⟨f.entries ++ [⟨text, []⟩]⟩, f.entries.length)

/-- Hangs the tree `child` on the tree `parent`, after the subtrees that are there. -/
def attach (f : Forest) (parent child : Nat) : Forest :=
  ⟨f.entries.modify parent fun e => { e with items := e.items ++ [child] }⟩

/-- Hangs a fresh tree on the tree `parent`, and gives its handle. -/
def add (f : Forest) (parent : Nat) (text : String) : Forest × Nat :=
  let (grown, child) := f.new text
  (grown.attach parent child, child)

/-! ## Printing -/

/-- Stored trees behind a margin, each on its own branch, where `printItem` prints one of them. -/
def printItems (printItem : List Char → Bool → Nat → Option (List Char)) (margin : List Char) :
    List Nat → Option (List Char)
  | [] => some []
  | handle :: rest =>
    match printItem margin rest.isEmpty handle, printItems printItem margin rest with
    | some first, some others => some (first ++ others)
    | _, _ => none

/-- A stored tree behind a margin, unless a path from it has more than `depth` trees; `last` tells
whether another one follows. -/
def printItem (f : Forest) : Nat → List Char → Bool → Nat → Option (List Char)
  | 0, _, _, _ => none
  | depth + 1, margin, last, handle =>
    match f.entries[handle]? with
    | none => none
    | some e =>
      (printItems (f.printItem depth) (margin ++ Tree.continuation last) e.items).map
        (Tree.printLabel margin last e.text ++ ·)

/-- The text of a stored tree. There is none if a path from it has more trees than are stored: such
a path comes back to where it was, and printing goes round with it for ever. -/
def print (f : Forest) (handle : Nat) : Option String :=
  match f.entries[handle]? with
  | none => none
  | some e =>
    (printItems (f.printItem f.entries.length) [] e.items).map fun below =>
      String.ofList (Tree.line e.text.toList ++ below)

/-! ## Unfolding -/

/-- The unfolding of a handle to a depth. -/
def unfold (f : Forest) : Nat → Nat → Tree
  | 0, _ => .leaf ""
  | depth + 1, handle =>
    match f.entries[handle]? with
    | none => .leaf ""
    | some e => .node e.text (e.items.map (f.unfold depth))

/-- The tree of a handle. No path without a repetition is longer than the number of stored trees,
so this depth unfolds all of a forest in which no tree contains itself. -/
def tree (f : Forest) (handle : Nat) : Tree := f.unfold f.entries.length handle

end Forest
end TokenGrammar
