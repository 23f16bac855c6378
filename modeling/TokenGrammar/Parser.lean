import TokenGrammar.Evaluation.Rule

/-!
# Parsing

A parse evaluates a rule on all tokens: the whole input has to be consumed. The report holds the
value or the fault, and the record of the evaluation for a trace.

## Main definitions

* `defaultDepth`, `effectiveDepth`: the limit on nested rules.
* `Report`: how a parse ended.
* `Grammar.parseRule`, `Grammar.parse`: a parse from a given rule, and from the start rule.
-/
namespace TokenGrammar

/-- The limit on nested rules where none is given. -/
def defaultDepth : Nat := 4096

/-- The limit in force: a limit that is not positive stands for the default. -/
def effectiveDepth (limit : Int) : Nat := if limit ≤ 0 then defaultDepth else limit.toNat

/-- How a parse ended, and the rules that were evaluated. -/
structure Report where
  result : Except Fault Value
  calls : List Call
deriving Inhabited

/-- A parse that ended before any rule was evaluated. -/
def Report.refused (fault : Fault) : Report := ⟨.error fault, []⟩

/-- The lines of the trace of a parse. -/
def Report.trace (r : Report) : List String := Call.trace r.calls

namespace Grammar

/-- The result of a parse from the end of the evaluation of its rule: a mismatch is an error of the
rule that was asked for, and so is a success before the end of the input. -/
def conclusion (rule : String) (tokens : List Token) (r : Run Value) : Except Fault Value :=
  match r.outcome with
  | .value x =>
    if r.cursor.index < tokens.length then
      .error (.parse { ParseError.atIndex .trailingInput rule tokens r.cursor.index with result := x })
    else .ok x
  | .mismatch i => .error (.parse (.atIndex .unexpectedToken rule tokens i))
  | .fatal fault => .error fault

/-- Parses tokens from a rule. -/
def parseRule (g : Grammar) (limit : Int) (rule : String) (tokens : List Token) : Report :=
  if g.has rule then
    let r := Setting.evaluate ⟨g, tokens⟩ (effectiveDepth limit) rule .origin
    ⟨conclusion rule tokens r, r.calls⟩
  else .refused (.config (.undefinedRule rule))

/-- Parses tokens from the start rule. -/
def parse (g : Grammar) (limit : Int) (tokens : List Token) : Report :=
  if g.start = "" then .refused (.config ⟨"", .noStart⟩) else g.parseRule limit g.start tokens

/-- Parses tokens from a given rule or, without one, from the start rule. -/
def parseFrom (g : Grammar) (limit : Int) (rule : Option String) (tokens : List Token) : Report :=
  match rule with
  | some rule => g.parseRule limit rule tokens
  | none => g.parse limit tokens

end Grammar
end TokenGrammar
