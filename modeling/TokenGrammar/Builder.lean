import TokenGrammar.Grammar.Validation

/-!
# Builder

A grammar is put together by steps on a builder. A chain collects what belongs to one variation and
is closed by a finalizer, which commits the variation; chains may be interleaved. Misuse does not
stop the building: it is recorded, and every later attempt to take the grammar fails.

## Main definitions

* `Chain`: a variation in the making; a chain is known by its number.
* `Builder`: the state of the building.
* `Step`: the calls on a builder, and `Builder.apply` what they do.
* `Builder.build`: the grammar, or everything that is wrong with it.
-/
namespace TokenGrammar

/-- A variation in the making. -/
structure Chain where
  rule : String
  content : Content
  ignore : Option IgnoreSet
  preventRollback : Bool
  finalized : Bool
deriving Inhabited

/-- The chain that a rule starts with. -/
def Chain.fresh (rule : String) : Chain := ⟨rule, [], none, false, false⟩

/-- The variation that a chain commits. -/
def Chain.toVariation (c : Chain) (s : Strategy) : Variation :=
  ⟨c.rule, c.content, s, c.ignore, c.preventRollback⟩

/-- How a call adds items to a chain: one after the other, or as the body of a loop. -/
inductive Extension where
  | items
  | loop (kind : LoopKind)
deriving Repr, DecidableEq, Inhabited

/-- The call that an extension belongs to. -/
def Extension.operation : Extension → Operation
  | .items => .extend
  | .loop .binary => .binaryLoop
  | .loop .block => .blockLoop

/-- The items that an extension adds. -/
def Extension.wrap : Extension → Content → Content
  | .items, content => content
  | .loop kind, content => [.loop kind content]

/-- A call on a builder. Chains are numbered in the order of the `rule` calls, from zero. -/
inductive Step where
  /-- Opens a chain for a rule. -/
  | rule (name : String)
  /-- Adds items to a chain. -/
  | extend (chain : Nat) (extension : Extension) (parts : List Part)
  /-- Gives a chain an ignore set of its own, or adds to the one it has. -/
  | ignoring (chain : Nat) (parts : List Part)
  /-- Keeps the trivia that the variation skips at its end. -/
  | preventRollback (chain : Nat)
  /-- Finalizes a chain with a strategy, which may be missing. -/
  | finish (chain : Nat) (strategy : Option Strategy)
  /-- Adds to the global ignore set. -/
  | ignoreGlobally (parts : List Part)
  /-- Sets the start rule. -/
  | startFrom (rule : String)
deriving Inhabited

/-- The state of the building: what is committed, the chains, and the recorded misuse. -/
structure Builder where
  start : String
  ignore : IgnoreSet
  variations : List Variation
  chains : List Chain
  errors : List ConfigError
deriving Inhabited

namespace Builder

/-- The builder before any call. -/
def empty : Builder := ⟨"", [], [], [], []⟩

/-- Records a misuse and changes nothing else. -/
def refuse (b : Builder) (rule : String) (fault : ConfigFault) : Builder :=
  { b with errors := b.errors ++ [⟨rule, fault⟩] }

/-- Replaces the chain with a number. -/
def setChain (b : Builder) (number : Nat) (c : Chain) : Builder :=
  { b with chains := b.chains.set number c }

/-- Adds a variation after all others. -/
def commit (b : Builder) (v : Variation) : Builder :=
  { b with variations := b.variations ++ [v] }

/-- Opens a chain. An empty name is a misuse, but the chain is opened all the same. -/
def openChain (b : Builder) (name : String) : Builder :=
  let noted := if name = "" then b.refuse "" .emptyRuleName else b
  { noted with chains := noted.chains ++ [Chain.fresh name] }

/-- Changes an open chain; a call on a finalized chain is a misuse. -/
def onOpen (b : Builder) (number : Nat) (operation : Operation) (change : Chain → Builder) : Builder :=
  match b.chains[number]? with
  | none => b
  | some c => if c.finalized then b.refuse c.rule (.finalized operation) else change c

/-- Adds items to a chain, all of them or none. -/
def extend (b : Builder) (number : Nat) (extension : Extension) (parts : List Part) : Builder :=
  b.onOpen number extension.operation fun c =>
    match Content.ofParts parts with
    | .error e => b.refuse c.rule (.refused extension.operation e)
    | .ok content => b.setChain number { c with content := c.content ++ extension.wrap content }

/-- Adds to the ignore set of a chain, which then replaces the global one even if it is empty. -/
def ignoring (b : Builder) (number : Nat) (parts : List Part) : Builder :=
  b.onOpen number .ignoring fun c =>
    match IgnoreSet.ofParts parts with
    | .error e => b.refuse c.rule (.ignoring e)
    | .ok set => b.setChain number { c with ignore := some (c.ignore.getD [] ++ set) }

/-- Sets the rollback flag of a chain. -/
def preventRollback (b : Builder) (number : Nat) : Builder :=
  b.onOpen number .preventRollback fun c => b.setChain number { c with preventRollback := true }

/-- Closes a chain and commits its variation. A missing or unusable strategy is a misuse that still
closes the chain. -/
def finish (b : Builder) (number : Nat) (strategy : Option Strategy) : Builder :=
  match b.chains[number]? with
  | none => b
  | some c =>
    if c.finalized then b.refuse c.rule (.finalizedTwice c.content)
    else
      let closed := b.setChain number { c with finalized := true }
      match strategy with
      | none => closed.refuse c.rule .noStrategy
      | some s =>
        match s.fault? with
        | some fault => closed.refuse c.rule (.strategy fault)
        | none => closed.commit (c.toVariation s)

/-- Adds to the global ignore set, all of the parts or none. -/
def ignoreGlobally (b : Builder) (parts : List Part) : Builder :=
  match IgnoreSet.ofParts parts with
  | .error e => b.refuse "" (.globalIgnore e)
  | .ok set => { b with ignore := b.ignore ++ set }

/-- What a call does. -/
def apply (b : Builder) : Step → Builder
  | .rule name => b.openChain name
  | .extend chain extension parts => b.extend chain extension parts
  | .ignoring chain parts => b.ignoring chain parts
  | .preventRollback chain => b.preventRollback chain
  | .finish chain strategy => b.finish chain strategy
  | .ignoreGlobally parts => b.ignoreGlobally parts
  | .startFrom rule => { b with start := rule }

/-- What a sequence of calls does. -/
def run (b : Builder) (steps : List Step) : Builder := steps.foldl apply b

@[simp] theorem run_nil (b : Builder) : b.run [] = b := rfl

@[simp] theorem run_cons (b : Builder) (s : Step) (ss : List Step) :
    b.run (s :: ss) = (b.apply s).run ss := rfl

theorem run_append (b : Builder) (ss ts : List Step) : b.run (ss ++ ts) = (b.run ss).run ts :=
  List.foldl_append

/-- The grammar of what is committed, valid or not. -/
def grammar (b : Builder) : Grammar := ⟨b.start, b.ignore, b.variations⟩

/-- An error for every chain that is still open. -/
def openErrors (b : Builder) : List ConfigError :=
  (b.chains.filter (!·.finalized)).map fun c => ⟨c.rule, .neverFinalized c.content⟩

/-- Everything that is wrong: recorded misuse, then open chains, then the grammar itself. -/
def problems (b : Builder) : List ConfigError := b.errors ++ b.openErrors ++ b.grammar.problems

/-- The grammar, if nothing is wrong. -/
def build (b : Builder) : Except (List ConfigError) Grammar :=
  if b.problems.isEmpty then .ok b.grammar else .error b.problems

/-- The steps of a whole chain, from its opening to its finalizer; a part that is missing is not
called. The chain gets the number `number`. -/
def chainSteps (number : Nat) (name : String) (items binary block ignore : Option (List Part))
    (preventRollback : Bool) (strategy : Option Strategy) : List Step :=
  [.rule name] ++ (items.map (.extend number .items)).toList ++
    (binary.map (.extend number (.loop .binary))).toList ++
    (block.map (.extend number (.loop .block))).toList ++
    (ignore.map (.ignoring number)).toList ++
    (if preventRollback then [.preventRollback number] else []) ++ [.finish number strategy]

end Builder
end TokenGrammar
