import TokenGrammar.Builder
import TokenGrammar.Strategy.Node
import TokenGrammar.Tag

/-!
# Grammar documents

A document declares a grammar: the start rule, the ignore set, the depth limit, and for each rule a
list of variation specs. Exactly one of the four strategies has to be set in a spec. Compiling turns
the document into the steps of a builder; what is wrong with a shorthand or a reference is found by
the builder, what is wrong with the declaration itself ends the compilation.

## Main definitions

* `VariationSpec`, `Document`: the declarations.
* `CompileError`: a spec that cannot be turned into a variation.
* `Document.steps`: the builder steps of a document.
* `Document.grammar`: the grammar of a document.
-/
namespace TokenGrammar

/-- The declaration of a variation. A list that is missing is not the same as an empty one. -/
structure VariationSpec where
  items : Option (List Value)
  binaryLoop : Option (List Value)
  blockLoop : Option (List Value)
  ignore : Option (List String)
  preventRollback : Bool
  pass : Bool
  select : Option Int
  node : String
  fold : String
deriving Inhabited

/-- A spec in which nothing is declared. -/
def VariationSpec.empty : VariationSpec := ⟨none, none, none, none, false, false, none, "", ""⟩

/-- The declaration of a grammar. Each rule is declared once; the order of the rules is free. -/
structure Document where
  start : String
  ignore : List String
  maxDepth : Int
  rules : List (String × List VariationSpec)
deriving Inhabited

/-- A document in which nothing is declared. -/
def Document.empty : Document := ⟨"", [], 0, []⟩

/-- Why a spec cannot be turned into a variation. -/
inductive SpecFault where
  | noStrategy
  | conflict (strategies : List String)
  | candidate (v : Value)
  | item (v : Value)
deriving Inhabited

/-- The wording of a spec fault. -/
def SpecFault.message : SpecFault → String
  | .noStrategy => "missing strategy: want one of pass, select, node, fold"
  | .conflict strategies => "conflicting strategies [" ++ " ".intercalate strategies ++ "]"
  | .candidate v => "either candidate " ++ v.render ++ " (" ++ v.typeName ++ ") is not a string"
  | .item v => "item " ++ v.render ++ " (" ++ v.typeName ++ ") is neither a string nor a list"

/-- A faulty spec: its rule, its number among the specs of the rule, and the fault. -/
structure CompileError where
  rule : String
  variation : Nat
  fault : SpecFault
deriving Inhabited

/-- The wording of a compile error. -/
def CompileError.message (e : CompileError) : String :=
  "rule(" ++ e.rule ++ ") variation " ++ Number.integerText e.variation ++ ": " ++ e.fault.message

/-! ## Items -/

/-- The part of a candidate, which has to be a text. -/
def candidatePart : Value → Except SpecFault Part
  | .text s => .ok (.shorthand s)
  | v => .error (.candidate v)

/-- The parts of candidates; the first that is no text is the fault. -/
def candidateParts : List Value → Except SpecFault (List Part)
  | [] => .ok []
  | v :: vs =>
    match candidatePart v with
    | .error e => .error e
    | .ok p => (candidateParts vs).map (p :: ·)

/-- The part of an item: a text is shorthand, a list is a choice. -/
def itemPart : Value → Except SpecFault Part
  | .text s => .ok (.shorthand s)
  | .list candidates => (candidateParts candidates).map fun ps => .item (.either (.oneOf ps))
  | v => .error (.item v)

/-- The parts of items; the first faulty item is the fault. -/
def itemParts : List Value → Except SpecFault (List Part)
  | [] => .ok []
  | v :: vs =>
    match itemPart v with
    | .error e => .error e
    | .ok p => (itemParts vs).map (p :: ·)

/-- The parts of a list that may be missing. -/
def itemParts? : Option (List Value) → Except SpecFault (Option (List Part))
  | none => .ok none
  | some vs => (itemParts vs).map some

namespace VariationSpec

/-- The strategies that are set in a spec. -/
def strategies (s : VariationSpec) : List Strategy :=
  (if s.pass then [.pass] else []) ++ (s.select.map .select).toList ++
    (if s.node = "" then [] else [.node (Tag.normalize s.node)]) ++
    (if s.fold = "" then [] else [.fold (Tag.normalize s.fold)])

/-- The strategy of a spec, of which there has to be exactly one. -/
def strategy (s : VariationSpec) : Except SpecFault Strategy :=
  match s.strategies with
  | [] => .error .noStrategy
  | [strategy] => .ok strategy
  | many => .error (.conflict (many.map Strategy.render))

/-- The builder steps of a spec on the chain with the number `chain`. The strategy is looked at
first, then the three lists in order. -/
def steps (s : VariationSpec) (rule : String) (chain : Nat) : Except SpecFault (List Step) :=
  match s.strategy, itemParts? s.items, itemParts? s.binaryLoop, itemParts? s.blockLoop with
  | .error e, _, _, _ => .error e
  | _, .error e, _, _ => .error e
  | _, _, .error e, _ => .error e
  | _, _, _, .error e => .error e
  | .ok strategy, .ok items, .ok binary, .ok block =>
    .ok (Builder.chainSteps chain rule items binary block
      (s.ignore.map fun atoms => atoms.map .shorthand) s.preventRollback (some strategy))

end VariationSpec

namespace Document

/-- The steps of the specs of a rule; the first spec has the number `index` among those of the rule
and gets the chain with the number `chain`. -/
def specSteps (rule : String) (index chain : Nat) :
    List VariationSpec → Except CompileError (List Step)
  | [] => .ok []
  | spec :: rest =>
    match spec.steps rule chain with
    | .error fault => .error ⟨rule, index, fault⟩
    | .ok steps => (specSteps rule (index + 1) (chain + 1) rest).map (steps ++ ·)

/-- The specs of a rule. -/
def specsOf (d : Document) (rule : String) : List VariationSpec := (d.rules.lookup rule).getD []

/-- The steps of rules in the given order, of which the first spec gets the chain `chain`. -/
def ruleSteps (d : Document) (chain : Nat) : List String → Except CompileError (List Step)
  | [] => .ok []
  | rule :: rest =>
    match specSteps rule 0 chain (d.specsOf rule) with
    | .error e => .error e
    | .ok steps => (d.ruleSteps (chain + (d.specsOf rule).length) rest).map (steps ++ ·)

/-- The declared rules in ascending order. -/
def ruleNames (d : Document) : List String := sortedNames (d.rules.map (·.1))

/-- The builder steps of a document: start rule, ignore set, then the rules in ascending order. -/
def steps (d : Document) : Except CompileError (List Step) :=
  (d.ruleSteps 0 d.ruleNames).map fun steps =>
    .startFrom d.start :: .ignoreGlobally (d.ignore.map .shorthand) :: steps

/-- What is wrong with a document: its declarations, or the grammar that they build. -/
inductive Problem where
  | compile (error : CompileError)
  | config (errors : List ConfigError)
deriving Inhabited

/-- The wording of a problem. -/
def Problem.message : Problem → String
  | .compile error => error.message
  | .config errors => ConfigError.report errors

/-- The grammar of a document. -/
def grammar (d : Document) : Except Problem Grammar :=
  match d.steps with
  | .error e => .error (.compile e)
  | .ok steps =>
    match (Builder.empty.run steps).build with
    | .error errors => .error (.config errors)
    | .ok g => .ok g

end Document
end TokenGrammar
