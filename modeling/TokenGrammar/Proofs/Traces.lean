import TokenGrammar.Proofs.Exhaustion
import TokenGrammar.Proofs.TraceLines
import TokenGrammar.Proofs.Tracer

/-!
# Traces of parses

The trace of a parse is one block of nested entries and exits, whatever the parse ends in. A tracer
that counts levels and defers exits logs the events of the record of the parse, and from their lines
the events can be read again. How the events nest is a matter of the record. What the evaluation
contributes are two properties of its records: no rule starts before the one that called it, and the
depth limit is reached at most once. The rule that finds no level left ends the evaluation, so that
after its exit all that is left to do is to leave the rules around it with the same fault.

Both are properties of everything that is recorded up to some point, and are carried from item to
item and from level to level.

## Main definitions

* `Event.Stops`: events that keep above a depth, or stop the evaluation when they reach it.
* `Grammar.events`: the events of the parse of a rule.
-/
namespace TokenGrammar

/-- Events that stay above the bottom, in an evaluation that ended in a fault or in none; or those
in which a rule was entered at the bottom. This rule is left at once with the fault of the
evaluation, which it brought about, and so are all rules that had been entered before it. -/
inductive Event.Stops (tokens : List Token) (bottom : Nat) : Option Fault → List Event → Prop
  | above {fault : Option Fault} {events : List Event} (h : ∀ e ∈ events, e.depth < bottom) :
      Stops tokens bottom fault events
  | reached {before after : List Event} {rule : String} {index : Nat} {fault : Fault}
      (cause : fault = .config (.undefinedRule rule) ∨
        fault = .parse (.atIndex .depthExceeded rule tokens index))
      (front : ∀ e ∈ before, e.depth < bottom)
      (back : ∀ e ∈ after, ∃ depth name, e = .exit depth name (.fatal fault) ∧ depth < bottom) :
      Stops tokens bottom (some fault)
        (before ++ .enter bottom rule index :: .exit bottom rule (.fatal fault) :: after)

namespace Event

variable {tokens : List Token} {bottom : Nat} {fault : Option Fault} {events events' : List Event}

/-- An evaluation that goes on has not reached the bottom. -/
theorem Stops.above_of_none (h : Stops tokens bottom none events) :
    ∀ e ∈ events, e.depth < bottom := by
  cases h with
  | above h => exact h

/-- Events above the bottom, and those of what came then. -/
theorem Stops.append (h : ∀ e ∈ events, e.depth < bottom) (h' : Stops tokens bottom fault events') :
    Stops tokens bottom fault (events ++ events') := by
  cases h' with
  | above h' => exact .above (List.forall_mem_append.mpr ⟨h, h'⟩)
  | reached cause front back =>
    rw [← List.append_assoc]
    exact .reached cause (List.forall_mem_append.mpr ⟨h, front⟩) back

/-- The exit of a rule that is evaluated above the bottom carries the fault along. -/
theorem Stops.exit {depth : Nat} (hdepth : depth < bottom) (rule : String)
    {outcome : Outcome Value} (h : Stops tokens bottom outcome.fault? events) :
    Stops tokens bottom outcome.fault? (events ++ [.exit depth rule outcome]) := by
  generalize hfault : outcome.fault? = fault at h ⊢
  cases h with
  | above h => exact .above (List.forall_mem_append.mpr ⟨h, List.forall_mem_singleton.mpr hdepth⟩)
  | reached cause front back =>
    rename_i f
    have hfatal : outcome = .fatal f := by
      cases outcome with
      | value x => cases hfault
      | mismatch i => cases hfault
      | fatal e => cases hfault; rfl
    subst hfatal
    rw [List.append_assoc]
    refine .reached cause front (List.forall_mem_append.mpr ⟨back, ?_⟩)
    exact List.forall_mem_singleton.mpr ⟨depth, rule, rfl, hdepth⟩

theorem Stops.depth_le (h : Stops tokens bottom fault events) : ∀ e ∈ events, e.depth ≤ bottom := by
  cases h with
  | above h => exact fun e he => Nat.le_of_lt (h e he)
  | reached cause front back =>
    intro e he
    rw [List.mem_append, List.mem_cons, List.mem_cons] at he
    obtain he | rfl | rfl | he := he
    · exact Nat.le_of_lt (front e he)
    · exact Nat.le_refl _
    · exact Nat.le_refl _
    · obtain ⟨depth, name, rfl, hlt⟩ := back e he
      exact Nat.le_of_lt hlt

/-- An event at the bottom belongs to the rule that was nested too deep, if every rule exists. -/
theorem Stops.of_bottom (h : Stops tokens bottom fault events)
    (hconfig : ∀ e, fault ≠ some (.config e)) {e : Event} (he : e ∈ events)
    (hdepth : e.depth = bottom) :
    ∃ before after name index,
      let fault := .parse (.atIndex .depthExceeded name tokens index)
      events = before ++ .enter bottom name index :: .exit bottom name (.fatal fault) :: after ∧
        (∀ f ∈ before, f.depth < bottom) ∧
        ∀ f ∈ after, ∃ depth rule', f = .exit depth rule' (.fatal fault) ∧ depth < bottom := by
  cases h with
  | above h =>
    have hlt := h e he
    omega
  | reached cause front back =>
    obtain rfl | rfl := cause
    · exact absurd rfl (hconfig _)
    · exact ⟨_, _, _, _, rfl, front, back⟩

end Event

/-! ## Records -/

namespace Call

open Event (Stops)

/-- What is recorded with some levels left, at every depth at which it may be recorded. -/
def Stopping (tokens : List Token) (levels : Nat) (_ : Nat) (fault : Option Fault)
    (calls : List Call) : Prop :=
  ∀ base, Stops tokens (base + levels) fault (allEvents base calls)

theorem composes_stopping (tokens : List Token) (levels : Nat) :
    Composes (Stopping tokens levels) where
  nil _ _ _ := .above (List.forall_mem_nil _)
  append h _ h' base := by
    rw [allEvents_append]
    exact (h' base).append (h base).above_of_none

theorem allAscend_of_le {start start' : Nat} (h : start ≤ start') {calls : List Call}
    (hcalls : AllAscend start' calls) : AllAscend start calls := by
  induction calls with
  | nil => trivial
  | cons c cs ih => exact ⟨Nat.le_trans h hcalls.1, hcalls.2.1, ih hcalls.2.2⟩

theorem allAscend_append {start : Nat} {calls calls' : List Call} (h : AllAscend start calls)
    (h' : AllAscend start calls') : AllAscend start (calls ++ calls') := by
  induction calls with
  | nil => exact h'
  | cons c cs ih => exact ⟨h.1, h.2.1, ih h.2.2⟩

theorem composes_allAscend : Composes fun start _ calls => AllAscend start calls where
  nil _ _ := trivial
  append h hle h' := allAscend_append h (allAscend_of_le hle h')

end Call

namespace Setting

open Call (Stopping AllAscend)

/-- No rule is entered before the rule that calls it. -/
theorem recorded_allAscend (s : Setting) (depth : Nat) :
    Recorded (fun start _ calls => AllAscend start calls) (s.readRule depth) := by
  refine s.recorded_readRule (Q := fun _ start _ calls => AllAscend start calls)
    (fun _ => Call.composes_allAscend) ?_ ?_ depth
  · intro rule i fault _
    exact ⟨Nat.le_refl i, trivial, trivial⟩
  · intro depth rule i inner outcome hinner
    exact ⟨Nat.le_refl i, hinner, trivial⟩

/-- The levels that are left are used up only by the rule that ends the evaluation. -/
theorem recorded_stopping (s : Setting) (depth : Nat) :
    Recorded (Stopping s.tokens depth) (s.readRule depth) := by
  refine s.recorded_readRule (Call.composes_stopping s.tokens) ?_ ?_ depth
  · intro rule i fault hfault base
    have hfront : ∀ e ∈ [], Event.depth e < base + 0 := List.forall_mem_nil _
    exact .reached hfault hfront (List.forall_mem_nil _)
  · intro depth rule i inner outcome hinner base
    have hbelow : base < base + (depth + 1) := by omega
    have hinside := hinner (base + 1)
    rw [show base + 1 + depth = base + (depth + 1) by omega] at hinside
    rw [Call.allEvents_cons]
    have hentry : ∀ e ∈ [Event.enter base rule i], e.depth < base + (depth + 1) :=
      List.forall_mem_singleton.mpr hbelow
    exact .append hentry (hinside.exit hbelow rule)

end Setting

/-! ## Parses -/

namespace Grammar

variable {g : Grammar}

/-- The events of a parse from a rule, whose lines are its trace. -/
def events (g : Grammar) (limit : Int) (rule : String) (tokens : List Token) : List Event :=
  Call.allEvents 0 (g.parseRule limit rule tokens).calls

/-- The evaluation of a rule leaves one record, which ends in the way of the evaluation. -/
theorem exists_calls_evaluate (s : Setting) (depth : Nat) (rule : String) (c : Cursor) :
    ∃ inner, (s.evaluate depth rule c).calls =
      [.mk rule c.index inner (s.evaluate depth rule c).outcome] := by
  cases depth <;> exact ⟨_, rfl⟩

/-- **The trace is a well-nested record**: a tracer that follows the evaluation, with a counter of
levels and with exits that are deferred, logs it and ends with its counter at zero and with nothing
deferred; and from the lines of the trace it is read again. It is one block, from the entry of the
rule that was asked for to its exit with the value or the error that the evaluation ended with. Every
entry has exactly one exit, for the same rule at the same depth; what lies between them is deeper,
and what lies directly between them is one level deeper and starts at the same index or later. No
event is deeper than the limit. One at the limit belongs to the rule that was nested too deep, and
after this rule all others are left with the same fault. -/
theorem parseRule_events (hg : g.Built) {rule : String} (hr : g.has rule = true) (limit : Int)
    (tokens : List Token) :
    let run := Setting.evaluate ⟨g, tokens⟩ (effectiveDepth limit) rule .origin
    let noted := Setting.evaluateNoted ⟨g, tokens⟩ (effectiveDepth limit) rule .origin
    let events := g.events limit rule tokens
    (noted.toRun = run ∧
        Tracer.replay (effectiveDepth limit) .start noted.notes = some ⟨0, [], events⟩) ∧
      Event.readLines [] (g.parseRule limit rule tokens).trace = some (events.map Event.reading) ∧
      (g.parseRule limit rule tokens).trace = events.map Event.render ∧
      (g.parseRule limit rule tokens).result = conclusion rule tokens run ∧
      (∃ inner, Event.Balanced inner ∧
        events = .enter 0 rule 0 :: (inner ++ [.exit 0 rule run.outcome])) ∧
      Event.WellNested events ∧
      (∀ e ∈ events, e.depth ≤ effectiveDepth limit) ∧
      ∀ e ∈ events, e.depth = effectiveDepth limit →
        ∃ before after name index,
          let fault := .parse (.atIndex .depthExceeded name tokens index)
          events = before ++ .enter (effectiveDepth limit) name index ::
              .exit (effectiveDepth limit) name (.fatal fault) :: after ∧
            (∀ f ∈ before, f.depth < effectiveDepth limit) ∧
            ∀ f ∈ after, ∃ depth rule', f = .exit depth rule' (.fatal fault) ∧
              depth < effectiveDepth limit := by
  intro run noted events
  have hread : run = Setting.readRule ⟨g, tokens⟩ (effectiveDepth limit) rule .origin := by
    rw [← Setting.evaluate_eq_readRule (s := ⟨g, tokens⟩) hg.wellFormed]
  have hevents : events = Call.allEvents 0 run.calls := by
    simp only [events, Grammar.events, parseRule, hr, if_true, run]
  have hreplay : Tracer.replay (effectiveDepth limit) .start noted.notes = some ⟨0, [], events⟩ := by
    rw [hevents]
    exact Setting.replay_evaluateNoted ⟨g, tokens⟩ (effectiveDepth limit) rule .origin
  have hresult : (g.parseRule limit rule tokens).result = conclusion rule tokens run :=
    parseRule_result hr limit tokens
  have hascend : Call.AllAscend 0 run.calls := by
    rw [hread]
    exact Setting.recorded_allAscend ⟨g, tokens⟩ _ rule .origin Cursor.ordered_origin
  have hstops : Event.Stops tokens (effectiveDepth limit) run.outcome.fault? events := by
    have hstopping := Setting.recorded_stopping ⟨g, tokens⟩ (effectiveDepth limit) rule .origin
      Cursor.ordered_origin 0
    rwa [Nat.zero_add, ← hread, ← hevents] at hstopping
  refine ⟨⟨Setting.toRun_evaluateNoted _ _ _ _, hreplay⟩, Call.readLines_trace _, rfl, hresult, ?_,
    ?_, ?_, ?_⟩
  · obtain ⟨inner, hcalls⟩ := exists_calls_evaluate ⟨g, tokens⟩ (effectiveDepth limit) rule .origin
    refine ⟨Call.allEvents 1 inner, Call.balanced_allEvents 1 inner, ?_⟩
    rw [hevents, hcalls]
    exact Call.allEvents_cons 0 rule 0 inner run.outcome []
  · rw [hevents]
    exact Call.wellNested_allEvents 0 hascend
  · exact hstops.depth_le
  · have hconfig : ∀ e, run.outcome.fault? ≠ some (.config e) := by
      intro e he
      rw [conclusion_of_fault he] at hresult
      exact (endsIn_parseRule hg hr limit tokens).ne_config e hresult
    intro e he hdepth
    exact hstops.of_bottom hconfig he hdepth

/-- With two levels, the gap in front of the brackets is found to be empty, and the one inside them
is nested too deep. -/
theorem parseRule_events_terms :
    let fault := Fault.parse (.atIndex .depthExceeded "gap" bracketed 1)
    terms.Built ∧ terms.has "term" = true ∧
      (terms.parseRule 2 "term" bracketed).trace =
        ["--> term @0", "  --> gap @0", "  <-- gap: <nil> <nil>", "  --> term @1", "    --> gap @1",
          "    <-- gap: <nil> rule(gap) - recursion too deep at index 1",
          "  <-- term: <nil> rule(gap) - recursion too deep at index 1",
          "<-- term: <nil> rule(gap) - recursion too deep at index 1"] ∧
      terms.events 2 "term" bracketed =
        [.enter 0 "term" 0, .enter 1 "gap" 0, .exit 1 "gap" (.value .null), .enter 1 "term" 1,
          .enter 2 "gap" 1, .exit 2 "gap" (.fatal fault), .exit 1 "term" (.fatal fault),
          .exit 0 "term" (.fatal fault)] ∧
      Tracer.replay 2 .start (Setting.evaluateNoted ⟨terms, bracketed⟩ 2 "term" .origin).notes =
        some ⟨0, [], terms.events 2 "term" bracketed⟩ ∧
      Event.readLines [] (terms.parseRule 2 "term" bracketed).trace =
        some ((terms.events 2 "term" bracketed).map Event.reading) ∧
      Event.WellNested (terms.events 2 "term" bracketed) ∧
      (∀ e ∈ terms.events 2 "term" bracketed, e.depth ≤ 2) ∧
      (terms.parseRule 2 "term" bracketed).result = .error fault := by
  have hr : terms.has "term" = true := rfl
  obtain ⟨⟨-, hreplay⟩, hlines, -, hresult, -, hnested, hdepth, -⟩ :=
    parseRule_events terms_built hr 2 bracketed
  exact ⟨terms_built, hr, by decide +kernel, rfl, hreplay, hlines, hnested, hdepth, hresult⟩

end Grammar
end TokenGrammar
