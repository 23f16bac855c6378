import TokenGrammar.Evaluation.ParseError

/-!
# Runs

The evaluation of a rule, a choice or a variation starts at a cursor and ends in a run: an outcome,
the cursor where it stopped, and a record of the rules that were evaluated on the way. A mismatch
can be recovered from by another alternative; a fatal outcome ends the whole parse.

## Main definitions

* `Cursor`: where the evaluation stands and where the last match ended.
* `Outcome`, `Call`, `Run`: how an evaluation ends.
* `Event`, `Call.events`: the record as a list of entries and exits, and its lines.
-/
namespace TokenGrammar

/-- A place in the input: the index of the next token, and the end of the last token that an atom
matched. What lies between the two was skipped as trivia. -/
structure Cursor where
  index : Nat
  matched : Nat
deriving Repr, DecidableEq, Inhabited

/-- The cursor before the first token. -/
def Cursor.origin : Cursor := ⟨0, 0⟩

/-- How an evaluation ends. -/
inductive Outcome (α : Type) where
  /-- It succeeded. -/
  | value (a : α)
  /-- It failed at an index, and an alternative may be tried. -/
  | mismatch (index : Nat)
  /-- The parse is over. -/
  | fatal (fault : Fault)
deriving Inhabited

/-- The record of the evaluation of a rule: where it was entered, which rules were evaluated inside
it, and how it ended. -/
inductive Call where
  | mk (rule : String) (index : Nat) (inner : List Call) (outcome : Outcome Value)
deriving Inhabited

/-- The end of an evaluation: outcome, cursor, and the rules evaluated on the way. -/
structure Run (α : Type) where
  outcome : Outcome α
  cursor : Cursor
  calls : List Call
deriving Inhabited

/-- The run with earlier calls in front of its own. -/
def Run.after {α : Type} (earlier : List Call) (r : Run α) : Run α :=
  { r with calls := earlier ++ r.calls }

@[simp] theorem Run.outcome_after {α : Type} (earlier : List Call) (r : Run α) :
    (r.after earlier).outcome = r.outcome := rfl

@[simp] theorem Run.cursor_after {α : Type} (earlier : List Call) (r : Run α) :
    (r.after earlier).cursor = r.cursor := rfl

@[simp] theorem Run.calls_after {α : Type} (earlier : List Call) (r : Run α) :
    (r.after earlier).calls = earlier ++ r.calls := rfl

/-- The evaluation of a rule as one call: the calls inside it become part of its record. -/
def Run.record (rule : String) (start : Cursor) (r : Run Value) : Run Value :=
  { r with calls := [.mk rule start.index r.calls r.outcome] }

@[simp] theorem Run.outcome_record (rule : String) (start : Cursor) (r : Run Value) :
    (r.record rule start).outcome = r.outcome := rfl

@[simp] theorem Run.cursor_record (rule : String) (start : Cursor) (r : Run Value) :
    (r.record rule start).cursor = r.cursor := rfl

/-! ## Traces -/

/-- An entry into a rule or an exit from it, at a depth of nesting. -/
inductive Event where
  | enter (depth : Nat) (rule : String) (index : Nat)
  | exit (depth : Nat) (rule : String) (outcome : Outcome Value)
deriving Inhabited

/-- The two halves of an exit line: the value and the error, of which one is missing. -/
def Outcome.render : Outcome Value → String
  | .value v => v.render ++ " <nil>"
  | .mismatch index => "<nil> no match at index " ++ Number.integerText index
  | .fatal fault => "<nil> " ++ fault.traceMessage

/-- The blanks in front of a line: two for each level of nesting. -/
def Event.indent (depth : Nat) : String := String.ofList (List.replicate (2 * depth) ' ')

/-- The line of an event. -/
def Event.render : Event → String
  | .enter depth rule index =>
    indent depth ++ "--> " ++ rule ++ " @" ++ Number.integerText index
  | .exit depth rule outcome => indent depth ++ "<-- " ++ rule ++ ": " ++ outcome.render

mutual

/-- The events of a call at a depth: its entry, the events inside it one level deeper, its exit. -/
def Call.events (depth : Nat) : Call → List Event
  | .mk rule index inner outcome =>
    .enter depth rule index :: (Call.allEvents (depth + 1) inner ++ [.exit depth rule outcome])

/-- The events of several calls at a depth, one call after the other. -/
def Call.allEvents (depth : Nat) : List Call → List Event
  | [] => []
  | c :: cs => c.events depth ++ Call.allEvents depth cs

end

/-- The lines of a trace. -/
def Call.trace (calls : List Call) : List String := (Call.allEvents 0 calls).map Event.render

end TokenGrammar
