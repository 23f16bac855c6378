import TokenGrammar.Yaml.Datum
import TokenGrammar.Yaml.Node

/-!
# What a YAML node gives

A reader wants a text, an integer, a boolean or a list, and a node gives it, is null, or is of another
kind. Texts are taken as they are written, so a plain number may stand for a text.

## Main definitions

* `Fit`: what a node gives where something is wanted.
* `Node.datum`, `Node.text`, `Node.integer`, `Node.boolean`: the readers of scalars.
* `Node.items`: the reader of lists.
-/
namespace TokenGrammar.Yaml

/-- What a node gives where something is wanted: it is of another kind, it is null, or it gives a
value. -/
inductive Fit (α : Type) where
  | mismatch
  | null
  | given (a : α)
deriving Repr, Inhabited

namespace Fit

variable {α β σ : Type}

/-- A value that may be missing because of a mismatch. -/
def ofOption : Option α → Fit α
  | none => .mismatch
  | some a => .given a

/-- Applies a function to the value of a fit. -/
def map (f : α → β) : Fit α → Fit β
  | .mismatch => .mismatch
  | .null => .null
  | .given a => .given (f a)

/-- The value of a fit, or a default in place of null. -/
def orDefault (default : α) : Fit α → Option α
  | .mismatch => none
  | .null => some default
  | .given a => some a

/-- Changes a record by the value of a fit; null leaves it as it is. -/
def set (fit : Fit α) (put : α → σ) (record : σ) : Option σ :=
  match fit with
  | .mismatch => none
  | .null => some record
  | .given a => some (put a)

/-- The values of fits without the nulls, if all fit. -/
def all : List (Fit α) → Option (List α)
  | [] => some []
  | .mismatch :: _ => none
  | .null :: fits => all fits
  | .given a :: fits => (all fits).map (a :: ·)

end Fit

namespace Node

/-! ## Scalars -/

/-- What a scalar stands for, where a scalar is wanted. -/
def datum : Node → Fit Datum
  | .scalar tag quoted s =>
    match Datum.ofScalar? tag quoted s with
    | none => .mismatch
    | some .null => .null
    | some d => .given d
  | .alias _ target => target.datum
  | _ => .mismatch

/-- The text of a scalar as it is written. -/
def written : Node → String
  | .scalar _ _ s => s
  | .alias _ target => target.written
  | _ => ""

/-- Whether a node is a null. -/
def isNull (node : Node) : Bool :=
  match node.datum with
  | .null => true
  | _ => false

/-- A text: any scalar but null, as it is written. -/
def text (node : Node) : Fit String :=
  node.datum.map fun d =>
    match d with
    | .text s => s
    | _ => node.written

/-- An integer: a number that fits a signed word; a fraction does not count. -/
def integer (node : Node) : Fit Int :=
  match node.datum with
  | .mismatch => .mismatch
  | .null => .null
  | .given (.int n) => .given n
  | .given (.float x) => .ofOption x.toWord?
  | .given _ => .mismatch

/-- The booleans that are written as words. -/
def wordBoolean (s : String) : Fit Bool :=
  if ["y", "Y", "yes", "Yes", "YES", "on", "On", "ON"].contains s then .given true
  else if ["n", "N", "no", "No", "NO", "off", "Off", "OFF"].contains s then .given false
  else .mismatch

/-- A boolean: a plain `true` or `false`, or a word in any style. -/
def boolean (node : Node) : Fit Bool :=
  match node.datum with
  | .mismatch => .mismatch
  | .null => .null
  | .given (.bool b) => .given b
  | .given (.text s) => wordBoolean s
  | .given _ => .mismatch

/-! ## Sequences -/

/-- The items of a sequence; null has none. -/
def sequence? : Node → Fit (List Node)
  | .sequence nodes => .given nodes
  | .alias _ target => target.sequence?
  | node => if node.isNull then .null else .mismatch

/-- A list; its null elements are left out. -/
def items {α : Type} (element : Node → Fit α) (node : Node) : Fit (List α) :=
  match node.sequence? with
  | .mismatch => .mismatch
  | .null => .null
  | .given nodes => .ofOption (Fit.all (nodes.map element))

end Node
end TokenGrammar.Yaml
