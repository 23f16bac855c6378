import TokenGrammar.Strategy.Basic

/-!
# Node strategies

The strategies that build generic nodes: one gathers everything under a tag, the other builds
left-nested nodes from the passes of a binary loop.
-/
namespace TokenGrammar

/-- The constructor of a node with a tag, which takes any number of values. -/
def Constructor.node (tag : String) : Constructor ParamType Value :=
  .function ⟨[], some .any, [.value (.exactly .node)]⟩ fun children => .value (.node tag children)

/-- A value alone stands for itself; any other number of values becomes a node. -/
def foldNode (tag : String) : List Value → Value
  | [v] => v
  | data => .node tag data

namespace Strategy

/-- The strategy that gathers all captured values in a node. -/
def node (tag : String) : Strategy := .construct (.node tag)

/-- The strategy that folds the passes of a binary loop into left-nested nodes. -/
def fold (tag : String) : Strategy := .transform (some (.unnamed fun data => .ok (foldNode tag data)))

end Strategy

/-! ## Values -/

/-- Where every value may be passed, the values are the arguments. -/
theorem Value.argumentsFrom_any (results : List (ResultType ParamType)) (position : Nat)
    (data : List Value) :
    Value.types.argumentsFrom ⟨[], some .any, results⟩ position data = .ok data := by
  induction data generalizing position with
  | nil => rfl
  | cons v vs ih =>
    have hargument : Value.types.argument ⟨[], some .any, results⟩ position v = .ok v := by
      cases v <;> rfl
    rw [TypeSystem.argumentsFrom, hargument, ih]
    rfl

namespace Strategy

/-- A node is made of everything that was captured. -/
@[simp] theorem adapt_node (tag : String) (data : List Value) :
    (node tag).adapt data = .ok (.node tag data) := by
  have harguments :
      Value.types.arguments ⟨[], some .any, [.value (.exactly .node)]⟩ data = .ok data := by
    rw [TypeSystem.arguments, if_pos (by simp [Signature.takes]), Value.argumentsFrom_any]
  simp only [adapt, node, apply, TypeSystem.construct, Constructor.node, Constructor.fault?,
    Signature.isConstructor, harguments, if_true]
  rfl

/-- Folding never fails. -/
@[simp] theorem adapt_fold (tag : String) (data : List Value) :
    (fold tag).adapt data = .ok (foldNode tag data) := rfl

end Strategy
end TokenGrammar
