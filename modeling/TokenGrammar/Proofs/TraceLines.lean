import TokenGrammar.Proofs.Nesting

/-!
# Lines of traces

A line of a trace can be read again. The blanks in front give the level, an arrow tells an entry from
an exit, and an entry names its rule and its index. The names of rules may hold any character, so
the index is looked for at the end of the line. In the line of an exit the name of the rule is
followed by what the rule ended in, and nothing marks where the name is over; but the rule is the
last one that was entered and not left, so a reader that remembers the rules knows its name.

## Main definitions

* `Outcome.results`: the value and the error that a rule ended in.
* `Event.Reading`: what a line says.
* `Event.readLine`, `Event.readLines`: the reader of one line, and of the lines of a trace.

## Main results

* `Call.readLines_trace`: from the lines of a trace its events are read.
-/
namespace TokenGrammar

/-- What a rule ended in, as a value and an error. One of the two is missing. -/
def Outcome.results : Outcome Value → Option String × Option String
  | .value v => (some v.render, none)
  | .mismatch index => (none, some ("no match at index " ++ Number.integerText index))
  | .fatal fault => (none, some fault.traceMessage)

theorem Outcome.render_eq (outcome : Outcome Value) :
    outcome.render =
      outcome.results.1.getD "<nil>" ++ " " ++ outcome.results.2.getD "<nil>" := by
  cases outcome with
  | value v =>
    have hnil : " <nil>" = " " ++ "<nil>" := by decide
    calc v.render ++ " <nil>" = v.render ++ (" " ++ "<nil>") := congrArg (v.render ++ ·) hnil
      _ = v.render ++ " " ++ "<nil>" := String.append_assoc.symm
  | mismatch index =>
    have hfront : "<nil> no match at index " = "<nil>" ++ " " ++ "no match at index " := by decide
    calc "<nil> no match at index " ++ Number.integerText index
        = "<nil>" ++ " " ++ "no match at index " ++ Number.integerText index :=
          congrArg (· ++ Number.integerText index) hfront
      _ = "<nil>" ++ " " ++ ("no match at index " ++ Number.integerText index) :=
          String.append_assoc
  | fatal fault =>
    have hfront : "<nil> " = "<nil>" ++ " " := by decide
    exact congrArg (· ++ fault.traceMessage) hfront

namespace Event

/-- What a line of a trace says: an entry with its rule and index, or an exit with its rule and what
it ended in, at a level. -/
inductive Reading where
  | enter (depth : Nat) (rule : String) (index : Nat)
  | exit (depth : Nat) (rule : String) (result : String)
deriving Repr, DecidableEq

/-- What the line of an event has to say. -/
def reading : Event → Reading
  | .enter depth rule index => .enter depth rule index
  | .exit depth rule outcome =>
    let (value?, error?) := outcome.results
    .exit depth rule (value?.getD "<nil>" ++ " " ++ error?.getD "<nil>")

/-! ## Reading -/

/-- The rule and the index of an entry. The digits at the end are the index. -/
def readEntry (cs : List Char) : Option (String × Nat) :=
  let digits := (cs.reverse.takeWhile Char.isDigit).reverse
  match cs.reverse.dropWhile Char.isDigit with
  | '@' :: ' ' :: name => some (String.ofList name.reverse, Nat.ofDigitChars 10 digits 0)
  | _ => none

/-- What a rule ended in, after its name. -/
def readExit (rule : String) (cs : List Char) : Option String :=
  (cs.dropPrefix? (rule.toList ++ [':', ' '])).map String.ofList

/-- What a line says, and the rules that are entered and not left after it. -/
def readLine (entered : List String) (line : String) : Option (Reading × List String) :=
  let depth := (line.toList.takeWhile (· == ' ')).length / 2
  match line.toList.dropWhile (· == ' ') with
  | '-' :: '-' :: '>' :: ' ' :: cs =>
    (readEntry cs).map fun (rule, index) => (.enter depth rule index, rule :: entered)
  | '<' :: '-' :: '-' :: ' ' :: cs =>
    match entered with
    | [] => none
    | rule :: outer => (readExit rule cs).map fun result => (.exit depth rule result, outer)
  | _ => none

/-- What the lines of a trace say, one after the other. -/
def readLines (entered : List String) : List String → Option (List Reading)
  | [] => some []
  | line :: lines =>
    (readLine entered line).bind fun (r, entered) => (readLines entered lines).map (r :: ·)

theorem readLines_cons {entered entered' : List String} {line : String} {r : Reading}
    (h : readLine entered line = some (r, entered')) (lines : List String) :
    readLines entered (line :: lines) = (readLines entered' lines).map (r :: ·) := by
  rw [readLines, h, Option.bind_some]

/-! ## Reading what was written -/

theorem readEntry_written (rule : String) (index : Nat) :
    readEntry (rule.toList ++ [' ', '@'] ++ Number.decimalText index) = some (rule, index) := by
  have hdigits : ∀ c ∈ (Number.decimalText index).reverse, c.isDigit = true :=
    fun c hc => Nat.isDigit_of_mem_toDigits (by decide) (by decide) (List.mem_reverse.mp hc)
  have hreverse : (rule.toList ++ [' ', '@'] ++ Number.decimalText index).reverse =
      (Number.decimalText index).reverse ++ '@' :: ' ' :: rule.toList.reverse := by
    simp
  have hstop : Char.isDigit '@' = false := by decide
  have hvalue : Nat.ofDigitChars 10 (Number.decimalText index) 0 = index :=
    Nat.ofDigitChars_toDigits (by decide) (by decide)
  rw [readEntry, hreverse, List.takeWhile_append_of_pos hdigits, List.dropWhile_append_of_pos hdigits]
  simp [hstop, hvalue]

theorem readExit_written (rule result : String) :
    readExit rule (rule.toList ++ [':', ' '] ++ result.toList) = some result := by
  have hrest : (rule.toList ++ [':', ' '] ++ result.toList).dropPrefix? (rule.toList ++ [':', ' ']) =
      some result.toList :=
    List.dropPrefix?_eq_some_iff.mpr ⟨_, rfl, beq_self_eq_true _⟩
  rw [readExit, hrest, Option.map_some, String.ofList_toList]

/-- The blanks in front of a line end at its arrow. -/
theorem blanks_written (depth : Nat) {c : Char} (hc : (c == ' ') = false) (cs : List Char) :
    ((List.replicate (2 * depth) ' ' ++ c :: cs).takeWhile (· == ' ')).length / 2 = depth ∧
      (List.replicate (2 * depth) ' ' ++ c :: cs).dropWhile (· == ' ') = c :: cs := by
  have hblanks : ∀ b ∈ List.replicate (2 * depth) ' ', (b == ' ') = true := by simp
  constructor
  · rw [List.takeWhile_append_of_pos hblanks, List.takeWhile_cons, hc]
    simp
  · rw [List.dropWhile_append_of_pos hblanks, List.dropWhile_cons, hc]
    simp

theorem readLine_enter (entered : List String) (depth : Nat) (rule : String) (index : Nat) :
    readLine entered (render (.enter depth rule index)) =
      some (.enter depth rule index, rule :: entered) := by
  have hline : (render (.enter depth rule index)).toList = List.replicate (2 * depth) ' ' ++
      '-' :: '-' :: '>' :: ' ' :: (rule.toList ++ [' ', '@'] ++ Number.decimalText index) := by
    simp [render, indent, Number.integerText]
  obtain ⟨hdepth, hrest⟩ := blanks_written depth (c := '-') (by decide)
    ('-' :: '>' :: ' ' :: (rule.toList ++ [' ', '@'] ++ Number.decimalText index))
  rw [readLine, hline, hdepth, hrest]
  simp only [readEntry_written, Option.map_some]

theorem readLine_exit (rule : String) (outer : List String) (depth : Nat)
    (outcome : Outcome Value) :
    readLine (rule :: outer) (render (.exit depth rule outcome)) =
      some (.exit depth rule outcome.render, outer) := by
  have hline : (render (.exit depth rule outcome)).toList = List.replicate (2 * depth) ' ' ++
      '<' :: '-' :: '-' :: ' ' :: (rule.toList ++ [':', ' '] ++ outcome.render.toList) := by
    simp [render, indent]
  obtain ⟨hdepth, hrest⟩ := blanks_written depth (c := '<') (by decide)
    ('-' :: '-' :: ' ' :: (rule.toList ++ [':', ' '] ++ outcome.render.toList))
  rw [readLine, hline, hdepth, hrest]
  simp only [readExit_written, Option.map_some]

end Event

namespace Call

open Event (readLines)

/-- The lines of recorded rules are read, whatever rules are entered around them, and the reader goes
on with these. The recursion is that of the events of a record. -/
theorem readLines_allEvents (base : Nat) (entered more : List String) : (calls : List Call) →
    readLines entered ((allEvents base calls).map Event.render ++ more) =
      (readLines entered more).map ((allEvents base calls).map Event.reading ++ ·)
  | [] => by simp [allEvents]
  | .mk rule index inner outcome :: cs => by
    have hinner := readLines_allEvents (base + 1) (rule :: entered)
      (Event.render (.exit base rule outcome) :: ((allEvents base cs).map Event.render ++ more)) inner
    have hrest := readLines_allEvents base entered more cs
    have hentry := Event.readLine_enter entered base rule index
    have hexit := Event.readLine_exit rule entered base outcome
    rw [allEvents_cons]
    simp only [List.map_cons, List.map_append, List.cons_append, List.append_assoc]
    rw [Event.readLines_cons hentry, hinner, Event.readLines_cons hexit, hrest]
    simp [Function.comp_def, Event.reading, Outcome.render_eq]

/-- From the lines of a trace its events are read: for each the level, the rule, the direction, and
the index or what the rule ended in. -/
theorem readLines_trace (calls : List Call) :
    readLines [] (trace calls) = some ((allEvents 0 calls).map Event.reading) := by
  have hlines := readLines_allEvents 0 [] [] calls
  rwa [List.append_nil, readLines, Option.map_some, List.append_nil] at hlines

end Call
end TokenGrammar
