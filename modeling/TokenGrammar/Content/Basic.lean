import TokenGrammar.Atom.Shorthand

/-!
# Content

The content of a variation is a list of items: atoms, choices between atoms, and loops over further
content. A binary loop repeats an operator with its operand and folds what was captured before every
pass; a block loop repeats a statement with its separator and gathers every pass.

These are the items that are meant to be. The items of a loop that was made beforehand are taken
unread, and so an item of a foreign type may stand there.

## Main definitions

* `Either`: a choice between atoms, together with what was wrong when it was made.
* `Item`, `Content`: the items and their lists.
* `Content.render`: the text of content.
* `Content.refs`: the rules that content refers to.
* `Content.size`: the number of items at every level.
-/
namespace TokenGrammar

/-- What is wrong with something offered as a candidate of a choice. -/
inductive CandidateError where
  | shorthand (error : ShorthandError)
  | type (name : String)
deriving Repr, DecidableEq

/-- The wording of a candidate error. -/
def CandidateError.message : CandidateError → String
  | .shorthand error => error.message
  | .type name => "either candidate must be a string or Atom, not " ++ name

/-- A choice: the first candidate that matches is taken. A malformed candidate is left out and the
first fault is kept, to be reported when the choice is added to a variation. -/
structure Either where
  candidates : List Atom
  fault : Option CandidateError
deriving Inhabited

/-- The candidates with bars between them. -/
def Either.render (e : Either) : String :=
  "(" ++ " | ".intercalate (e.candidates.map Atom.render) ++ ")"

/-- The two kinds of loops. -/
inductive LoopKind where
  | binary
  | block
deriving Repr, DecidableEq, Inhabited

/-- The word for a loop in the text of content. -/
def LoopKind.render : LoopKind → String
  | .binary => "binary"
  | .block => "block"

/-- One item of content. -/
inductive Item where
  | atom (a : Atom)
  | either (e : Either)
  | loop (kind : LoopKind) (body : List Item)
  /-- Something else in the place of an item, such as a pointer to one or nothing at all, with the
  name of its type and its text. -/
  | foreign (type text : String)
deriving Inhabited

/-- The items of a variation, in order. -/
abbrev Content := List Item

mutual

/-- The text of an item. -/
def Item.render : Item → String
  | .atom a => a.render
  | .either e => e.render
  | .loop kind body => kind.render ++ "\x7b" ++ " ".intercalate (Item.renderAll body) ++ "\x7d"
  | .foreign _ text => text

/-- The texts of several items. -/
def Item.renderAll : List Item → List String
  | [] => []
  | i :: is => i.render :: Item.renderAll is

end

mutual

/-- The rules that an item refers to, at any level. -/
def Item.refs : Item → List String
  | .atom a => if a.isRule then [a.name] else []
  | .either e => (e.candidates.filter Atom.isRule).map Atom.name
  | .loop _ body => Item.refsAll body
  | .foreign _ _ => []

/-- The rules that several items refer to. -/
def Item.refsAll : List Item → List String
  | [] => []
  | i :: is => i.refs ++ Item.refsAll is

end

mutual

/-- The number of items that an item is made of, itself included. -/
def Item.size : Item → Nat
  | .atom _ | .either _ | .foreign _ _ => 1
  | .loop _ body => 1 + Item.sizeAll body

/-- The number of items at every level. -/
def Item.sizeAll : List Item → Nat
  | [] => 0
  | i :: is => i.size + Item.sizeAll is

end

namespace Content

/-- The items of content with blanks between them. -/
def render (c : Content) : String := " ".intercalate (Item.renderAll c)

/-- The rules that content refers to, at any level. -/
def refs (c : Content) : List String := Item.refsAll c

/-- The number of items of content at every level. -/
def size (c : Content) : Nat := Item.sizeAll c

end Content
end TokenGrammar
