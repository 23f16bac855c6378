import TokenGrammar.Tree.Basic
import TokenGrammar.Value.Basic

/-!
# Values as trees

A node, a binary operation and a list are drawn with a branch for each part; every other value is a
leaf with its text. A label in front of the value names it.
-/
namespace TokenGrammar.Tree

/-- A label before a text, with a colon between them; an empty label is left out. -/
def labelled (label text : String) : String := if label = "" then text else label ++ ": " ++ text

mutual

/-- The tree of a value, with a label at its root. -/
def ofValue (label : String) : Value → Tree
  | .node tag children => .node (labelled label tag) (ofValues children)
  | .binary left op right => .node (labelled label op) [ofValue "" left, ofValue "" right]
  | .list items =>
    .node (labelled label ("[" ++ Number.integerText items.length ++ "]")) (ofValues items)
  | v => .node (labelled label v.render) []

/-- The trees of several values, without labels. -/
def ofValues : List Value → List Tree
  | [] => []
  | v :: vs => ofValue "" v :: ofValues vs

end

@[simp] theorem ofValues_eq_map (vs : List Value) : ofValues vs = vs.map (ofValue "") := by
  induction vs with
  | nil => rfl
  | cons v vs ih => simp [ofValues, ih]

end TokenGrammar.Tree
