import TokenGrammar.Token.Basic

/-!
# Constructors

A constructor is a function with a signature that makes a result from captured values. The gate in
front of it checks the number of values and the type of each, puts the zero of the parameter's type
in the place of a null, and only then calls the function.

The gate knows nothing of types but what it asks of them: the type of a value, which types can be
assigned to which, their names and their zeros. So it is written for any types that answer this.

## Main definitions

* `TypeSystem`: what the gate asks of types and values.
* `Signature`: what a constructor takes and returns.
* `Constructor`: a function, or something offered in the place of one.
* `Constructor.fault?`: why a constructor cannot be used at all.
* `TypeSystem.arguments`: the gate, which gives the arguments of the call or the reason against it.
* `ParamType`, `Value.types`: the types for captured values.
-/
namespace TokenGrammar

/-- Types and their values, as far as calls depend on them. All values but null have a type, and
what stands for null as an argument can be assigned like any other value. -/
structure TypeSystem (τ ν : Type) where
  null : ν
  type? : ν → Option τ
  name : τ → String
  /-- Whether values of the first type can be assigned to the second. -/
  assignable : τ → τ → Bool
  zero : τ → ν
  type?_eq_none_iff : ∀ v, type? v = none ↔ v = null
  assignable_zero : ∀ t u, type? (zero t) = some u → assignable u t = true

/-- The name of the type of a value in messages. -/
def TypeSystem.typeName {τ ν : Type} (T : TypeSystem τ ν) (v : ν) : String :=
  match T.type? v with
  | none => "<nil>"
  | some t => T.name t

/-! ## Signatures -/

/-- The type of one result of a function. -/
inductive ResultType (τ : Type) where
  | value (type : τ)
  | error
deriving Repr, DecidableEq, Inhabited

/-- The name of a result type in messages. -/
def ResultType.render {τ : Type} (name : τ → String) : ResultType τ → String
  | .value type => name type
  | .error => "error"

/-- What a function takes and returns. The type `rest?` serves all values after the fixed ones. -/
structure Signature (τ : Type) where
  params : List τ
  rest? : Option τ
  results : List (ResultType τ)
deriving Repr, DecidableEq, Inhabited

namespace Signature

variable {τ : Type}

/-- The text of a signature in messages. -/
def render (name : τ → String) (s : Signature τ) : String :=
  let params := s.params.map name ++ (s.rest?.map fun t => "..." ++ name t).toList
  let results :=
    match s.results.map (ResultType.render name) with
    | [] => ""
    | [result] => " " ++ result
    | many => " (" ++ ", ".intercalate many ++ ")"
  "func(" ++ ", ".intercalate params ++ ")" ++ results

/-- A constructor returns a value, or a value and an error. -/
def isConstructor (s : Signature τ) : Bool :=
  match s.results with
  | [_] => true
  | [_, .error] => true
  | _ => false

/-- Whether the function takes `count` values. -/
def takes (s : Signature τ) (count : Nat) : Bool :=
  match s.rest? with
  | none => count == s.params.length
  | some _ => s.params.length ≤ count

/-- The type of the parameter at a position; the rest type serves every position after the fixed
parameters. -/
def param? (s : Signature τ) (position : Nat) : Option τ := s.params[position]? <|> s.rest?

end Signature

/-! ## Constructors -/

/-- How the call of a constructor ended. -/
inductive Reply (ν : Type) where
  | value (v : ν)
  | failed (cause : String)
  /-- A breakdown with what it was for, or without anything. -/
  | crashed (cause : Option String)
deriving Inhabited

/-- What is offered as a constructor. -/
inductive Constructor (τ ν : Type) where
  /-- A value that is no function. -/
  | notFunction (v : ν)
  /-- A missing function. -/
  | missing
  /-- A function with its signature. -/
  | function (signature : Signature τ) (body : List ν → Reply ν)
deriving Inhabited

/-- Why a constructor cannot be used. -/
inductive ConstructorFault where
  | notFunction (typeName : String)
  | missing
  | results (signature : String)
deriving Repr, DecidableEq

/-- The wording of a constructor fault. -/
def ConstructorFault.message : ConstructorFault → String
  | .notFunction typeName => "node constructor must be a func, not " ++ typeName
  | .missing => "nil node constructor"
  | .results signature => "node constructor " ++ signature ++ " must return (node) or (node, error)"

/-- The reason why a constructor cannot be used, if there is one. -/
def Constructor.fault? {τ ν : Type} (T : TypeSystem τ ν) : Constructor τ ν → Option ConstructorFault
  | .notFunction v => some (.notFunction (T.typeName v))
  | .missing => some .missing
  | .function s _ => if s.isConstructor then none else some (.results (s.render T.name))

/-! ## The gate -/

/-- Why captured values cannot be passed to a constructor. -/
inductive GateError where
  | arity (signature : String) (count : Nat)
  | type (typeName param : String) (position : Nat)
deriving Repr, DecidableEq

/-- The wording of a gate error. -/
def GateError.message : GateError → String
  | .arity signature count => signature ++ " cannot take " ++ Number.integerText count ++ " value(s)"
  | .type typeName param position =>
    "cannot use " ++ typeName ++ " as " ++ param ++ " in argument " ++ Number.integerText position

namespace TypeSystem

variable {τ ν : Type} (T : TypeSystem τ ν)

/-- The argument for one captured value, or the reason against it. A function that takes the values
has a parameter for each. -/
def argument (s : Signature τ) (position : Nat) (v : ν) : Except GateError ν :=
  match s.param? position, T.type? v with
  | none, _ => .error (.arity (s.render T.name) (position + 1))
  | some param, none => .ok (T.zero param)
  | some param, some type =>
    if T.assignable type param then .ok v
    else .error (.type (T.typeName v) (T.name param) position)

/-- The arguments for values from a position on; the first misfit ends the check. -/
def argumentsFrom (s : Signature τ) (position : Nat) : List ν → Except GateError (List ν)
  | [] => .ok []
  | v :: vs =>
    match T.argument s position v with
    | .error e => .error e
    | .ok a => (argumentsFrom s (position + 1) vs).map (a :: ·)

/-- The arguments of the call: the number of values is checked first, then each type in order. -/
def arguments (s : Signature τ) (data : List ν) : Except GateError (List ν) :=
  if s.takes data.length then T.argumentsFrom s 0 data
  else .error (.arity (s.render T.name) data.length)

end TypeSystem

/-! ## Captured values -/

/-- The types of parameters for captured values. -/
inductive ParamType where
  /-- Any value. -/
  | any
  /-- Any value with a text of its own: tokens, nodes, pairs and binary operations. -/
  | labelled
  /-- Values of one type. -/
  | exactly (type : ValueType)
  /-- A pointer to values of one type; among captured values, only null is one. -/
  | pointer (type : ValueType)
deriving Repr, DecidableEq, Inhabited

namespace ParamType

/-- The name of a parameter type in messages. -/
def name : ParamType → String
  | .any => "interface \x7b\x7d"
  | .labelled => "fmt.Stringer"
  | .exactly type => type.name
  | .pointer type => "*" ++ type.name

/-- Whether values of a type can be passed for a parameter of another. -/
def assignable (type : ParamType) : ParamType → Bool
  | .any => true
  | .labelled =>
    [.labelled, .exactly .time, .exactly .token, .exactly .node, .exactly .pair,
      .exactly .binary].contains type
  | wanted => type == wanted

/-- The zero of a value type. -/
def zeroOf : ValueType → Value
  | .text => .text ""
  | .bool => .bool false
  | .int kind => .int kind 0
  | .float => .float (.finite false 0 Number.Binary64.minExponent)
  | .time => .time ⟨1, 1, 1, 0, 0, 0, 0, .universal⟩
  | .list => .list []
  | .map => .map []
  | .keyed => .keyed []
  | .token => .token "" .null
  | .node => .node "" []
  | .pair => .pair (.token "" .null) (.token "" .null)
  | .binary => .binary .null "" .null

/-- What takes the place of a null argument; types without a zero of their own keep the null. -/
def zero : ParamType → Value
  | .exactly type => zeroOf type
  | .any | .labelled | .pointer _ => .null

theorem type?_zeroOf (t : ValueType) : (zeroOf t).type? = some t := by
  cases t <;> rfl

end ParamType

theorem Value.type?_eq_none_iff {v : Value} : v.type? = none ↔ v = .null := by
  cases v <;> simp [Value.type?]

/-- The types for captured values. -/
def Value.types : TypeSystem ParamType Value where
  null := .null
  type? v := v.type?.map .exactly
  name := ParamType.name
  assignable := ParamType.assignable
  zero := ParamType.zero
  type?_eq_none_iff v := by rw [Option.map_eq_none_iff, Value.type?_eq_none_iff]
  assignable_zero t u h := by
    cases t with
    | exactly type =>
      rw [ParamType.zero, ParamType.type?_zeroOf] at h
      cases h
      exact beq_self_eq_true (ParamType.exactly type)
    | _ => cases h

end TokenGrammar
