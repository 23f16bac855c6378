import TokenGrammar.Grammar.ConfigError

/-!
# Validation

The problems of a grammar, in a fixed order: first the start rule, then the variations sorted by
rule, and for each variation the shape of its content before the names of undefined rules.

## Main definitions

* `Item.shapeErrors`: choices without candidates and loops that are empty, nested or not last. A
  foreign item is passed over.
* `Variation.problems`: the problems of one variation.
* `Grammar.problems`: the problems of a grammar; a grammar is well formed if there are none.
-/
namespace TokenGrammar

/-- What is wrong with a loop as such. A loop inside a loop is reported before one that is not
last, and that before one that is empty. -/
def loopErrors (rule : String) (variation : Nat) (inLoop last : Bool) (kind : LoopKind)
    (body : Content) : List ConfigError :=
  if inLoop then [⟨rule, .nestedLoop variation (.loop kind body)⟩]
  else if !last then [⟨rule, .loopNotLast variation (.loop kind body)⟩]
  else if body.isEmpty then [⟨rule, .emptyLoop variation⟩]
  else []

mutual

/-- What is wrong with the shape of an item; `last` tells whether it ends its content. -/
def Item.shapeErrors (rule : String) (variation : Nat) (inLoop last : Bool) :
    Item → List ConfigError
  | .atom _ | .foreign _ _ => []
  | .either e => if e.candidates.isEmpty then [⟨rule, .emptyEither variation⟩] else []
  | .loop kind body =>
    loopErrors rule variation inLoop last kind body ++ Item.allShapeErrors rule variation true body

/-- What is wrong with the shape of content, item by item. -/
def Item.allShapeErrors (rule : String) (variation : Nat) (inLoop : Bool) :
    List Item → List ConfigError
  | [] => []
  | i :: is =>
    i.shapeErrors rule variation inLoop is.isEmpty ++ Item.allShapeErrors rule variation inLoop is

end

/-- The problems of the variation that has the number `index` among those of its rule. -/
def Variation.problems (g : Grammar) (rule : String) (index : Nat) (v : Variation) :
    List ConfigError :=
  Item.allShapeErrors rule index false v.content ++
    ((sortedNames v.content.refs).filter (!g.has ·)).map fun name => ⟨rule, .undefinedRef index name⟩

namespace Grammar

/-- What is wrong with the start rule. -/
def startProblems (g : Grammar) : List ConfigError :=
  if g.start = "" then [⟨"", .noStart⟩]
  else if !g.has g.start then [⟨g.start, .undefinedStart⟩]
  else []

/-- The problems of the variations of a rule, the first of which has the number `index`. -/
def variationProblems (g : Grammar) (rule : String) (index : Nat) : List Variation → List ConfigError
  | [] => []
  | v :: vs => v.problems g rule index ++ g.variationProblems rule (index + 1) vs

/-- The problems of one rule. -/
def ruleProblems (g : Grammar) (rule : String) : List ConfigError :=
  g.variationProblems rule 0 (g.variationsOf rule)

/-- All problems of a grammar. -/
def problems (g : Grammar) : List ConfigError :=
  g.startProblems ++ g.ruleNames.flatMap g.ruleProblems

end Grammar
end TokenGrammar
