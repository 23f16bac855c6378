import TokenGrammar.Evaluation.Attempt

/-!
# Rules

The evaluation of a rule tries its variations in order, each from the same cursor, and takes the
first that succeeds. Rules that evaluate rules nest, up to a depth; the recursion is on the depth
that is left, so every evaluation ends.

## Main definitions

* `Setting.choose`: the ordered choice between variations.
* `Setting.evaluate`: the evaluation of a rule.
-/
namespace TokenGrammar.Setting

/-- The end of a variation that succeeded: trivia at its end is given back, unless the variation
prevents it, and the strategy makes the value. -/
def conclude (s : Setting) (v : Variation) (start : Cursor) (data : List Value) (stop : Cursor)
    (calls : List Call) : Run Value :=
  let c := if v.preventRollback then stop else s.rollback v start.index stop
  match v.strategy.adapt data with
  | .ok x => ⟨.value x, c, calls⟩
  | .error e => ⟨.fatal (.adapt e), c, calls⟩

/-- The first of the variations that succeeds. If none does, the failure is the furthest one, and
the cursor is where it was. -/
def choose (s : Setting) (call : Caller) (start : Cursor) (furthest : Nat) :
    List Variation → Run Value
  | [] => ⟨.mismatch furthest, start, []⟩
  | v :: rest =>
    let r := s.attempt call v start
    match r.outcome with
    | .value data => s.conclude v start data r.cursor r.calls
    | .mismatch i => (s.choose call start (max furthest i) rest).after r.calls
    | .fatal e => ⟨.fatal e, r.cursor, r.calls⟩

/-- The end of an evaluation for a reason other than the input. -/
def abort (fault : Fault) (c : Cursor) : Run Value := ⟨.fatal fault, c, []⟩

/-- What the evaluation of a rule does, given how the rules below it are evaluated; without that,
the depth is exhausted. A rule without variations is refused before the depth is looked at. -/
def enter (s : Setting) (below : Option Caller) (rule : String) (c : Cursor) : Run Value :=
  match s.grammar.variationsOf rule with
  | [] => abort (.config (.undefinedRule rule)) c
  | vs =>
    match below with
    | none => abort (.parse (.atIndex .depthExceeded rule s.tokens c.index)) c
    | some call => s.choose call c 0 vs

/-- The evaluation of a rule at a cursor, with `depth` levels of rules left. -/
def evaluate (s : Setting) : (depth : Nat) → Caller
  | 0, rule, c => (s.enter none rule c).record rule c
  | depth + 1, rule, c => (s.enter (some (s.evaluate depth)) rule c).record rule c

end TokenGrammar.Setting
