import TokenGrammar.Proofs.Depth

/-!
# Left recursion through first variations

A rule starts with the first item of its first variation. If this is another rule, that rule is
called at the same place, before anything was matched and before a later variation had a chance. So
where such first calls never come to an end, every level of rules is used up at one place, and the
rule that finds no level left is told by counting along the sequence.

A rule that ends in a fault wherever it is called ends every parse that calls it. This is seen in
the record of the parse: the entry of the rule tells the depth and the index of the call, and the
fault of the call is the fault of everything around it, be it a later pass of a loop, a candidate of
a choice or a variation with others behind it.

## Main definitions

* `Grammar.firstCall?`: the rule that a rule calls first.
* `Setting.Dooms`: a rule that ends in a fault wherever it is called.
* `Call.Condemned`: records in which a fault accounts for every entry of a rule.
-/
namespace TokenGrammar

/-- The rule that stands first in the first variation of a rule, if a rule stands there. -/
def Grammar.firstCall? (g : Grammar) (rule : String) : Option String :=
  match g.variationsOf rule with
  | [] => none
  | v :: _ =>
    match v.content with
    | .atom a :: _ => if a.isRule then some a.name else none
    | _ => none

theorem Grammar.firstCall?_eq_some_iff {g : Grammar} {rule name : String} :
    g.firstCall? rule = some name ↔ ∃ v vs a rest, g.variationsOf rule = v :: vs ∧
      v.content = .atom a :: rest ∧ a.isRule = true ∧ a.name = name := by
  constructor
  · intro h
    rw [firstCall?] at h
    split at h
    · cases h
    · next v vs hvs =>
      split at h
      · next a rest hcontent =>
        split at h
        · next hrule => exact ⟨v, vs, a, rest, hvs, hcontent, hrule, Option.some.inj h⟩
        · cases h
      · cases h
  · rintro ⟨v, vs, a, rest, hvs, hcontent, hrule, rfl⟩
    simp [firstCall?, hvs, hcontent, hrule]

/-- A rule with a first call is defined. -/
theorem Grammar.has_of_firstCall? {g : Grammar} {rule name : String}
    (h : g.firstCall? rule = some name) : g.has rule = true := by
  obtain ⟨v, vs, -, -, hvs, -⟩ := firstCall?_eq_some_iff.mp h
  rw [has_iff, hvs]
  exact List.cons_ne_nil v vs

namespace Setting

variable {s : Setting} {call : Caller} {c : Cursor}

/-! ## First calls -/

/-- A fault of the first call is the fault of the rule. -/
theorem fatal_of_firstCall {rule name : String} (h : s.grammar.firstCall? rule = some name)
    {fault : Fault} (hcall : (call name c).outcome = .fatal fault) :
    (s.readChoice call c 0 (s.grammar.variationsOf rule)).outcome = .fatal fault := by
  obtain ⟨v, vs, a, rest, hvs, hcontent, hrule, rfl⟩ := Grammar.firstCall?_eq_some_iff.mp h
  have hitem : (s.matchItem call v c (.atom a)).outcome = .fatal fault := by
    simp only [matchItem, matchOne, matchAtom, hrule, if_true, hcall]
  have hread : (s.read call v c).outcome = .fatal fault := by
    simp only [read, hcontent, readContent, hitem]
  simp only [hvs, readChoice, hread]

/-- The fault of a rule that is called at an index when no level is left. -/
def tooDeep (s : Setting) (rule : String) (index : Nat) : Fault :=
  .parse (.atIndex .depthExceeded rule s.tokens index)

/-- Along an endless sequence of first calls every level is used up, and the cursor stays where it
is. The induction is on the levels left, for all places of the sequence at once. -/
theorem readRule_firstCalls {rules : Nat → String}
    (hcalls : ∀ n, s.grammar.firstCall? (rules n) = some (rules (n + 1))) (levels n : Nat)
    (c : Cursor) :
    (s.readRule levels (rules n) c).outcome =
      .fatal (s.tooDeep (rules (n + levels)) c.index) := by
  have hdefined : ∀ n, s.grammar.has (rules n) = true :=
    fun n => Grammar.has_of_firstCall? (hcalls n)
  induction levels generalizing n with
  | zero =>
    rw [readRule_zero (hdefined n)]
    rfl
  | succ levels ih =>
    rw [readRule_succ (hdefined n), Run.outcome_record]
    refine fatal_of_firstCall (hcalls n) ?_
    have hnext := ih (n + 1)
    rwa [show n + 1 + levels = n + (levels + 1) by omega] at hnext

end Setting

/-! ## Rules that end every parse -/

/-- In a record with some levels left, the fault accounts for every entry of the rule: by the levels
that were left at the entry, and by its index. -/
def Call.Condemned (rule : String) (blame : Nat → Nat → Fault) (levels : Nat)
    (fault : Option Fault) (x : Call) : Prop :=
  ∀ base depth index, .enter depth rule index ∈ x.events base →
    base ≤ depth ∧ depth ≤ base + levels ∧ fault = some (blame (base + levels - depth) index)

/-- An evaluation that goes on has not entered the rule. -/
theorem Call.lasting_condemned {rule : String} {blame : Nat → Nat → Fault} {levels : Nat} :
    Call.Lasting (Call.Condemned rule blame levels) := by
  intro x fault h base depth index hmem
  have hnone := (h base depth index hmem).2.2
  cases hnone

theorem Call.mem_allEvents {base : Nat} {calls : List Call} {e : Event} :
    e ∈ Call.allEvents base calls ↔ ∃ x ∈ calls, e ∈ x.events base := by
  induction calls with
  | nil => simp [Call.allEvents]
  | cons x xs ih => simp [Call.allEvents, ih]

namespace Setting

variable {s : Setting}

/-- The rule ends in a fault wherever it is called, which the levels left and the index tell. -/
def Dooms (s : Setting) (rule : String) (blame : Nat → Nat → Fault) : Prop :=
  ∀ levels c, (s.readRule levels rule c).outcome = .fatal (blame levels c.index)

/-- The entry of the call itself is accounted for by its end, and the entries inside it by the calls
inside it, which have one level less. -/
theorem condemned_record {rule name : String} {blame : Nat → Nat → Fault} {levels : Nat}
    {c : Cursor} {r : Run Value}
    (hown : name = rule → r.outcome = .fatal (blame levels c.index))
    (hinner : ∀ base depth index, .enter depth rule index ∈ Call.allEvents (base + 1) r.calls →
      base + 1 ≤ depth ∧ depth ≤ base + levels ∧
        r.outcome.fault? = some (blame (base + levels - depth) index)) :
    Call.Kept (Call.Condemned rule blame levels) (r.record name c).outcome.fault?
      (r.record name c).calls := by
  refine List.forall_mem_singleton.mpr ?_
  intro base depth index hmem
  rw [Call.events, List.mem_cons, List.mem_append, List.mem_singleton] at hmem
  rcases hmem with hentry | hmem | hexit
  · cases hentry
    refine ⟨Nat.le_refl _, Nat.le_add_right _ _, ?_⟩
    rw [Run.outcome_record, hown rfl, Nat.add_sub_cancel_left]
    rfl
  · obtain ⟨hge, hle, hfault⟩ := hinner base depth index hmem
    exact ⟨by omega, hle, hfault⟩
  · cases hexit

/-- Whatever rule is evaluated, a doomed rule that is entered on the way accounts for its end. -/
theorem records_condemned {rule : String} {blame : Nat → Nat → Fault} (h : s.Dooms rule blame)
    (levels : Nat) : Records (Call.Condemned rule blame levels) (s.readRule levels) := by
  induction levels with
  | zero =>
    intro name c _
    refine condemned_record ?_ ?_
    · rintro rfl
      exact h 0 c
    · intro base depth index hmem
      rw [enter] at hmem
      split at hmem <;> cases hmem
  | succ levels ih =>
    intro name c hc
    refine condemned_record ?_ ?_
    · rintro rfl
      exact h (levels + 1) c
    · intro base depth index hmem
      split at hmem
      · cases hmem
      · next vs hvs =>
        have hkept := records_readChoice (s.steady_readRule levels)
          Call.lasting_condemned ih hc 0 (s.grammar.variationsOf name)
        obtain ⟨x, hx, hevent⟩ := Call.mem_allEvents.mp hmem
        obtain ⟨hge, hle, hfault⟩ := hkept x hx (base + 1) depth index hevent
        refine ⟨hge, by omega, ?_⟩
        rw [show base + (levels + 1) - depth = base + 1 + levels - depth by omega]
        exact hfault

end Setting

/-! ## Parses -/

namespace Grammar

variable {g : Grammar}

/-- An evaluation that ends in a fault is a parse that does. -/
theorem conclusion_of_fault {rule : String} {tokens : List Token} {r : Run Value} {fault : Fault}
    (h : r.outcome.fault? = some fault) : conclusion rule tokens r = .error fault := by
  rw [conclusion]
  cases ho : r.outcome with
  | value x => rw [ho] at h; cases h
  | mismatch i => rw [ho] at h; cases h
  | fatal e =>
    rw [ho] at h
    exact congrArg Except.error (Option.some.inj h)

/-- A parse that enters a doomed rule ends in the fault of that call. -/
theorem parseRule_of_dooms (hg : g.WellFormed) {tokens : List Token} {rule : String}
    {blame : Nat → Nat → Fault} (h : Setting.Dooms ⟨g, tokens⟩ rule blame) {limit : Int}
    {start : String} {depth index : Nat}
    (hmem : .enter depth rule index ∈ Call.allEvents 0 (g.parseRule limit start tokens).calls) :
    depth ≤ effectiveDepth limit ∧
      (g.parseRule limit start tokens).result =
        .error (blame (effectiveDepth limit - depth) index) := by
  by_cases hr : g.has start = true
  · rw [parseRule_result hr]
    simp only [parseRule, hr, if_true] at hmem
    rw [Setting.evaluate_eq_readRule (s := ⟨g, tokens⟩) hg] at hmem ⊢
    have hkept := Setting.records_condemned h (effectiveDepth limit) start .origin
      Cursor.ordered_origin
    obtain ⟨x, hx, hevent⟩ := Call.mem_allEvents.mp hmem
    obtain ⟨-, hle, hfault⟩ := hkept x hx 0 depth index hevent
    rw [Nat.zero_add] at hle hfault
    exact ⟨hle, conclusion_of_fault hfault⟩
  · rw [parseRule, if_neg hr] at hmem
    cases hmem

/-- **Left recursion through first variations exhausts the depth**: if the first calls from a rule
on never come to an end, a parse of this rule ends at the first token with the rule that is as many
calls away as there are levels, whatever the later variations would match. The same happens at every
cursor with the levels that are left there; and a parse of any rule that enters this one, at some
depth and index, ends there. -/
theorem parseRule_firstCalls (hg : g.Built) {rules : Nat → String}
    (hcalls : ∀ n, g.firstCall? (rules n) = some (rules (n + 1))) (limit : Int)
    (tokens : List Token) :
    (g.parseRule limit (rules 0) tokens).result =
        .error (.parse (.atIndex .depthExceeded (rules (effectiveDepth limit)) tokens 0)) ∧
      (∀ levels c, (Setting.evaluate ⟨g, tokens⟩ levels (rules 0) c).outcome =
        .fatal (.parse (.atIndex .depthExceeded (rules levels) tokens c.index))) ∧
      ∀ start depth index,
        .enter depth (rules 0) index ∈ Call.allEvents 0 (g.parseRule limit start tokens).calls →
        depth ≤ effectiveDepth limit ∧
          (g.parseRule limit start tokens).result = .error (.parse
            (.atIndex .depthExceeded (rules (effectiveDepth limit - depth)) tokens index)) := by
  have hw := hg.wellFormed
  have hdooms : Setting.Dooms ⟨g, tokens⟩ (rules 0)
      fun levels index => Setting.tooDeep ⟨g, tokens⟩ (rules levels) index := by
    intro levels c
    have hend := Setting.readRule_firstCalls (s := ⟨g, tokens⟩) hcalls levels 0 c
    rwa [Nat.zero_add] at hend
  have hevaluate : ∀ levels c, (Setting.evaluate ⟨g, tokens⟩ levels (rules 0) c).outcome =
      .fatal (.parse (.atIndex .depthExceeded (rules levels) tokens c.index)) := by
    intro levels c
    rw [Setting.evaluate_eq_readRule (s := ⟨g, tokens⟩) hw]
    exact hdooms levels c
  refine ⟨?_, hevaluate, ?_⟩
  · rw [parseRule_result (has_of_firstCall? (hcalls 0)), conclusion, hevaluate]
    rfl
  · intro start depth index hmem
    exact parseRule_of_dooms hw hdooms hmem

/-- Blocks of statements. A statement starts with a call, a call with a member, and a member with a
call again, but all of them could be a name. -/
def members : Grammar :=
  ⟨"block", [.token "NL"],
    [⟨"block", [.atom (.token "OPEN"), .loop .block [.either ⟨[.rule "call", .token "NAME"], none⟩,
        .atom (Atom.token "SEMI").skipped]], .pass, none, false⟩,
      ⟨"block", [.atom (.token "OPEN")], .pass, none, false⟩,
      ⟨"call", [.atom (.rule "member"), .atom (.token "ARGS")], .pass, none, false⟩,
      ⟨"call", [.atom (.token "NAME")], .pass, none, false⟩,
      ⟨"member", [.atom (.rule "call"), .atom (.token "DOT")], .pass, none, false⟩,
      ⟨"member", [.atom (.token "NAME")], .pass, none, false⟩]⟩

theorem members_built : members.Built := by
  refine ⟨[.ignoreGlobally [.item (.atom (.token "NL"))], .startFrom "block"] ++
    (members.variations.zipIdx.flatMap fun (v, number) => variationSteps number v), ?_⟩
  rfl

/-- A block of one name. -/
def nameBlock : List Token := [.bare "OPEN", .bare "NL", .bare "NAME", .bare "SEMI"]

/-- The call in the block is the first candidate of a choice in a loop. It is entered at the token
after the bracket, with four of five levels left, and neither the other candidate nor the other
variation of the block is tried. -/
theorem parseRule_firstCalls_members :
    members.Built ∧
      (∀ n, members.firstCall? (if n % 2 = 0 then "call" else "member") =
        some (if (n + 1) % 2 = 0 then "call" else "member")) ∧
      (members.parseRule 5 "call" [.bare "NAME"]).result =
        .error (.parse (.atIndex .depthExceeded "member" [.bare "NAME"] 0)) ∧
      (members.parseRule 5 "block" nameBlock).result =
        .error (.parse (.atIndex .depthExceeded "call" nameBlock 1)) := by
  have hcalls : ∀ n, members.firstCall? (if n % 2 = 0 then "call" else "member") =
      some (if (n + 1) % 2 = 0 then "call" else "member") := by
    intro n
    rcases Nat.mod_two_eq_zero_or_one n with h | h
    · rw [if_pos h, if_neg (by omega)]
      rfl
    · rw [if_neg (by omega), if_pos (by omega)]
      rfl
  have hentered : Event.enter 1 "call" 1 ∈
      Call.allEvents 0 (members.parseRule 5 "block" nameBlock).calls :=
    List.mem_of_getElem? (i := 1) rfl
  obtain ⟨hcall, -, -⟩ := parseRule_firstCalls members_built hcalls 5 [.bare "NAME"]
  obtain ⟨-, -, habort⟩ := parseRule_firstCalls members_built hcalls 5 nameBlock
  exact ⟨members_built, hcalls, hcall, (habort "block" 1 1 hentered).2⟩

end Grammar
end TokenGrammar
