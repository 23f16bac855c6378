import TokenGrammar.Strategy.Constructor

/-!
# Strategies

A strategy turns the values that a variation captured into the value of the rule. It passes the
first value on, selects one, transforms the list with a function, or calls a constructor. What a
function breaks down with is caught and reported as an error of the strategy. A breakdown that comes
with nothing goes unnoticed, and the strategy gives null.

## Main definitions

* `Strategy`: the four strategies.
* `recovered`: what is made of a breakdown.
* `TypeSystem.construct`: the result of a constructor.
* `Strategy.fault?`: why a strategy may not be used in a grammar.
* `Strategy.adapt`: the value of a rule, or the reason why there is none.
-/
namespace TokenGrammar

/-- The word that stands for a function where functions are not told apart. -/
def anyFunction : String := "func"

/-- A function on captured values, and the name that a trace shows for it. The error of the function
is what it broke down with, if anything. -/
structure Transform where
  name : String
  run : List Value → Except (Option String) Value
deriving Inhabited

/-- A function without a name of its own. -/
def Transform.unnamed (run : List Value → Except (Option String) Value) : Transform :=
  ⟨anyFunction, run⟩

/-- How a variation makes its value. -/
inductive Strategy where
  /-- The first captured value, or null if nothing was captured. -/
  | pass
  /-- The captured value at an index. -/
  | select (index : Int)
  /-- The result of a function, which may be missing. -/
  | transform (f : Option Transform)
  /-- The result of a constructor. -/
  | construct (c : Constructor ParamType Value)
deriving Inhabited

/-- Why a strategy may not be used in a grammar. -/
inductive StrategyFault where
  | noTransform
  | negativeIndex (index : Int)
  | constructor (fault : ConstructorFault)
deriving Repr, DecidableEq

/-- The wording of a strategy fault. -/
def StrategyFault.message : StrategyFault → String
  | .noTransform => "nil transform"
  | .negativeIndex index => "negative select index " ++ Number.integerText index
  | .constructor fault => fault.message

/-- Why a strategy gave no value. -/
inductive AdaptFault where
  | tooFew (captured : Nat)
  /-- A selection at a negative index. -/
  | outOfRange (index : Int)
  | unusable (fault : ConstructorFault)
  | gate (error : GateError)
  | failed (cause : String)
  | crashed (cause : String)
deriving Repr, DecidableEq

/-- The fault without its cause. -/
def AdaptFault.summary : AdaptFault → String
  | .tooFew captured => "only " ++ Number.integerText captured ++ " value(s) captured"
  | .outOfRange index =>
    "runtime error: index out of range [" ++ Number.integerText index ++ "]"
  | .unusable _ => "invalid constructor"
  | .gate error => error.message
  | .failed _ => "constructor failed"
  | .crashed _ => "panicked"

/-- The cause of a fault, where something else is to blame. -/
def AdaptFault.cause? : AdaptFault → Option String
  | .tooFew _ | .outOfRange _ | .gate _ => none
  | .unusable fault => some fault.message
  | .failed cause | .crashed cause => some cause

/-- Whether a function broke down. -/
def AdaptFault.isCrash : AdaptFault → Bool
  | .crashed _ => true
  | _ => false

/-- The fault with its cause. -/
def AdaptFault.message (fault : AdaptFault) : String :=
  fault.summary ++
    match fault.cause? with
    | none => ""
    | some cause => ": " ++ cause

/-! ## Breakdowns and constructions -/

/-- What is made of a breakdown: an error with its cause. Without one it looks like no breakdown at
all, and there is no result either. -/
def recovered {ν : Type} (null : ν) : Option String → Except AdaptFault ν
  | some cause => .error (.crashed cause)
  | none => .ok null

/-- The value of a construction: a constructor that cannot be used is not called, and neither is
one whose gate refuses the values. -/
def TypeSystem.construct {τ ν : Type} (T : TypeSystem τ ν) (c : Constructor τ ν) (data : List ν) :
    Except AdaptFault ν :=
  match c.fault? T, c with
  | some fault, _ => .error (.unusable fault)
  | none, .function s body =>
    match T.arguments s data with
    | .error e => .error (.gate e)
    | .ok args =>
      match body args with
      | .value v => .ok v
      | .failed cause => .error (.failed cause)
      | .crashed cause => recovered T.null cause
  | none, _ => .error (.unusable .missing)

/-! ## Strategies and their errors -/

/-- A strategy that gave no value: its name in messages and in a trace, and the fault. -/
structure AdaptError where
  strategy : String
  tracedAs : String
  fault : AdaptFault
deriving Repr, DecidableEq

/-- The wording of an adapt error: strategy, summary and cause. -/
def AdaptError.message (e : AdaptError) : String := e.strategy ++ ": " ++ e.fault.message

/-- The wording of an adapt error in a trace. -/
def AdaptError.traceMessage (e : AdaptError) : String := e.tracedAs ++ ": " ++ e.fault.message

namespace Strategy

/-- The name of a strategy; functions are not told apart, but unusable ones are marked. -/
def render : Strategy → String
  | .pass => "pass"
  | .select index => "select(" ++ Number.integerText index ++ ")"
  | .transform (some _) => "transform(" ++ anyFunction ++ ")"
  | .transform none => "transform(?)"
  | .construct c =>
    if (c.fault? Value.types).isSome then "construct(?)" else "construct(" ++ anyFunction ++ ")"

/-- The name of a strategy in a trace, where a transform shows the name of its function. -/
def traceName : Strategy → String
  | .transform (some f) => "transform(" ++ f.name ++ ")"
  | s => s.render

/-- The reason why a strategy may not be used in a grammar, if there is one. -/
def fault? : Strategy → Option StrategyFault
  | .pass => none
  | .select index => if index < 0 then some (.negativeIndex index) else none
  | .transform f => if f.isNone then some .noTransform else none
  | .construct c => (c.fault? Value.types).map .constructor

/-- What calling a missing function breaks down with. -/
def missingFunction : String := "runtime error: invalid memory address or nil pointer dereference"

/-- The value of a selection. -/
def selected (index : Int) (data : List Value) : Except AdaptFault Value :=
  match index with
  | .ofNat i =>
    match data[i]? with
    | some v => .ok v
    | none => .error (.tooFew data.length)
  | .negSucc _ => .error (.outOfRange index)

/-- The value of a transformation. -/
def transformed (f : Option Transform) (data : List Value) : Except AdaptFault Value :=
  match f with
  | none => recovered .null (some missingFunction)
  | some f =>
    match f.run data with
    | .ok v => .ok v
    | .error cause => recovered .null cause

/-- The value that a strategy makes of captured data, or what went wrong. -/
def apply : Strategy → List Value → Except AdaptFault Value
  | .pass, data => .ok (data.head?.getD .null)
  | .select index, data => selected index data
  | .transform f, data => transformed f data
  | .construct c, data => Value.types.construct c data

/-- The value that a strategy makes of captured data; an error carries the strategy's name. -/
def adapt (s : Strategy) (data : List Value) : Except AdaptError Value :=
  (s.apply data).mapError fun fault => ⟨s.render, s.traceName, fault⟩

@[simp] theorem adapt_pass_nil : adapt .pass [] = .ok .null := rfl

@[simp] theorem adapt_pass_cons (v : Value) (vs : List Value) : adapt .pass (v :: vs) = .ok v := rfl

end Strategy
end TokenGrammar
