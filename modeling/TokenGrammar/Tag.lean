import TokenGrammar.Text.Blank

/-!
# Node tags

Tags of nodes are normalised, so that `binary_op`, `binary-op` and `BinaryOp` name the same node.
Blanks around a tag are removed; then ASCII letters and digits are kept and everything else is
dropped. A letter is capitalised at the start, after a digit, and after one of the separators; any
other dropped character takes a pending capital back.

## Main definitions

* `Tag.camel`: the pass over the characters, with the pending capital as its state.
* `Tag.normalize`: the normal form of a tag.
-/
namespace TokenGrammar.Tag

/-- An ASCII letter. -/
def isLetter (c : Char) : Bool := c.isUpper || c.isLower

/-- The characters between words. -/
def isSeparator (c : Char) : Bool := c = '_' || c = ' ' || c = '-' || c = '.'

/-- The letters and digits of a tag; `capital` tells whether the next letter is capitalised. -/
def camel (capital : Bool) : List Char → List Char
  | [] => []
  | c :: cs =>
    if isLetter c then (if capital then c.toUpper else c) :: camel false cs
    else if c.isDigit then c :: camel true cs
    else camel (isSeparator c) cs

/-- The one abbreviation that is read as a word: a tag that consists of it. -/
def expand (cs : List Char) : List Char := if cs = ['I', 'D'] then ['i', 'd'] else cs

/-- The normal form of a tag. -/
def normalize (tag : String) : String :=
  String.ofList (camel true (expand (Text.trim tag.toList)))

end TokenGrammar.Tag
