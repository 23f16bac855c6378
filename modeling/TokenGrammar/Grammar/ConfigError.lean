import TokenGrammar.Content.Part
import TokenGrammar.Grammar.Basic
import TokenGrammar.Tree.Basic

/-!
# Configuration errors

A configuration error is a mistake in a grammar rather than in an input. It names the rule that it
is about, or no rule if it concerns the whole grammar. Several of them are shown as a tree.

## Main definitions

* `Operation`: the calls that can be refused.
* `ConfigFault`, `ConfigError`: what is wrong, and where.
* `ConfigError.report`: the text for a list of errors.
-/
namespace TokenGrammar

/-- The calls of a builder that can be refused. -/
inductive Operation where
  | extend
  | binaryLoop
  | blockLoop
  | ignoring
  | preventRollback
deriving Repr, DecidableEq, Inhabited

/-- The name of a call in messages. -/
def Operation.name : Operation → String
  | .extend => "From"
  | .binaryLoop => "BinaryLoop"
  | .blockLoop => "BlockLoop"
  | .ignoring => "Ignoring"
  | .preventRollback => "PreventRollback"

/-- What is wrong with a grammar. -/
inductive ConfigFault where
  /-- A problem in the caller's own words. -/
  | other (text : String)
  | emptyRuleName
  | globalIgnore (error : IgnoreError)
  | refused (operation : Operation) (error : PartError)
  | ignoring (error : IgnoreError)
  | finalized (operation : Operation)
  | finalizedTwice (content : Content)
  | neverFinalized (content : Content)
  | noStrategy
  | strategy (fault : StrategyFault)
  | noStart
  | undefinedStart
  | undefinedRule
  | emptyEither (variation : Nat)
  | nestedLoop (variation : Nat) (item : Item)
  | loopNotLast (variation : Nat) (item : Item)
  | emptyLoop (variation : Nat)
  | undefinedRef (variation : Nat) (name : String)
deriving Inhabited

/-- The wording of a fault. -/
def ConfigFault.message : ConfigFault → String
  | .other text => text
  | .emptyRuleName => "empty rule name"
  | .globalIgnore error => "IgnoreGlobally: " ++ error.message
  | .refused operation error => operation.name ++ ": " ++ error.message
  | .ignoring error => Operation.ignoring.name ++ ": " ++ error.message
  | .finalized operation => operation.name ++ " called on a finalized variation"
  | .finalizedTwice content => "variation " ++ content.render ++ " finalized twice"
  | .neverFinalized content => "variation " ++ content.render ++ " was never finalized"
  | .noStrategy => "nil strategy"
  | .strategy fault => fault.message
  | .noStart => "no start rule"
  | .undefinedStart => "start rule is not defined"
  | .undefinedRule => "rule is not defined"
  | .emptyEither i => "variation " ++ Number.integerText i ++ " has an empty either"
  | .nestedLoop i item =>
    "variation " ++ Number.integerText i ++ " nests " ++ item.render ++ " inside a loop"
  | .loopNotLast i item =>
    "variation " ++ Number.integerText i ++ ": " ++ item.render ++ " must be the last item"
  | .emptyLoop i => "variation " ++ Number.integerText i ++ " has an empty loop"
  | .undefinedRef i name =>
    "variation " ++ Number.integerText i ++ " references undefined rule $" ++ name

/-- A fault and the rule that it is about; the empty name stands for the whole grammar. -/
structure ConfigError where
  rule : String
  fault : ConfigFault
deriving Inhabited

namespace ConfigError

/-- A reference to a rule that does not exist. -/
def undefinedRule (rule : String) : ConfigError := ⟨rule, .undefinedRule⟩

/-- The wording of an error. -/
def message (e : ConfigError) : String :=
  if e.rule = "" then "grammar: " ++ e.fault.message
  else "grammar: rule(" ++ e.rule ++ ") - " ++ e.fault.message

/-- The text for a list of errors: one error alone is its own text, any other number is a tree that
starts on a new line. -/
def report : List ConfigError → String
  | [e] => e.message
  | es => "\n" ++ (Tree.node "invalid grammar" (es.map fun e => .leaf e.message)).print

end ConfigError
end TokenGrammar
