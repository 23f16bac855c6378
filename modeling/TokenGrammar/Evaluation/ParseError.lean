import TokenGrammar.Grammar.ConfigError

/-!
# Parse errors

What can end a parse without a value: an input that no variation accepts, an input of which only the
front is accepted, or a recursion that goes too deep; as errors of the grammar, a rule that does not
exist and a strategy that gives no value; and an item that the evaluation has no case for, where it
breaks down.

## Main definitions

* `ErrorKind`: the three kinds, with their code numbers.
* `ParseError`: an error of the input, with its place.
* `Fault`: everything that ends a parse.
-/
namespace TokenGrammar

/-- The kinds of parse errors. A code number outside the list is kept. -/
inductive ErrorKind where
  | unexpectedToken
  | trailingInput
  | depthExceeded
  | unknown (code : Int)
deriving Repr, DecidableEq, Inhabited

namespace ErrorKind

/-- The kind with a code number. -/
def ofCode (code : Int) : ErrorKind :=
  if code = 1 then .unexpectedToken
  else if code = 2 then .trailingInput
  else if code = 3 then .depthExceeded
  else .unknown code

/-- The name of a kind. -/
def render : ErrorKind → String
  | .unexpectedToken => "unexpected token"
  | .trailingInput => "trailing input"
  | .depthExceeded => "depth exceeded"
  | .unknown code => "ErrorKind(" ++ Number.integerText code ++ ")"

/-- The wording of an error of a kind at a place. Where there is no token, the input has ended. -/
def wording (kind : ErrorKind) (rule : String) (token : Option Token) (index : Int) : String :=
  let place :=
    match token with
    | none => "end of input"
    | some t => "token " ++ t.render
  let what :=
    match kind with
    | .trailingInput => "unconsumed input: " ++ place
    | .depthExceeded => "recursion too deep"
    | .unexpectedToken | .unknown _ => "unexpected " ++ place
  "rule(" ++ rule ++ ") - " ++ what ++ " at index " ++ Number.integerText index

end ErrorKind

/-- An error of the input. The result is the value of the accepted front of an input with a rest,
and null for the other kinds. -/
structure ParseError where
  kind : ErrorKind
  rule : String
  index : Nat
  token : Option Token
  result : Value
deriving Inhabited

namespace ParseError

/-- The error at an index of the input, with the token that stands there. -/
def atIndex (kind : ErrorKind) (rule : String) (tokens : List Token) (index : Nat) : ParseError :=
  ⟨kind, rule, index, tokens[index]?, .null⟩

/-- The wording of a parse error. -/
def message (e : ParseError) : String := e.kind.wording e.rule e.token e.index

end ParseError

/-- Everything that ends a parse at once. -/
inductive Fault where
  | config (error : ConfigError)
  | parse (error : ParseError)
  | adapt (error : AdaptError)
  /-- The evaluation came to an item that is none. -/
  | inconceivable
deriving Inhabited

/-- The wording of a fault. -/
def Fault.message : Fault → String
  | .config error => error.message
  | .parse error => error.message
  | .adapt error => error.message
  | .inconceivable => "inconceivable"

/-- The wording of a fault in a trace. A breakdown leaves every rule without value and error. -/
def Fault.traceMessage : Fault → String
  | .adapt error => error.traceMessage
  | .inconceivable => "<nil>"
  | fault => fault.message

end TokenGrammar
