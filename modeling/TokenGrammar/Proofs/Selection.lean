import TokenGrammar.Proofs.Provenance
import TokenGrammar.Proofs.Safety

/-!
# What a document can fail to adapt

The strategies of a document are total but for one. Passing on gives null where nothing was
captured, a node takes any number of values, null among them, and so does a fold. A selection gives
nothing if fewer values were captured than its index asks for, and this is the only way in which the
strategies of a compiled document end a parse: a negative index does not get past the builder.

It does not matter on which data a strategy is called. A binary loop calls it on whatever there is
before every pass, also on nothing at all or on one value that was folded before.

Nor can a document bring in an item that is not meant to be one: every item of a compiled document is
written in it.

## Main definitions

* `AdaptError.Selects`: a selection that asked for more than was captured.
-/
namespace TokenGrammar

/-- A selection at an index found fewer values than it asks for. -/
def AdaptError.Selects (e : AdaptError) (index captured : Nat) : Prop :=
  captured ≤ index ∧ e.strategy = "select(" ++ Number.integerText index ++ ")" ∧
    e.fault.message = "only " ++ Number.integerText captured ++ " value(s) captured"

/-- A selection that may be used fails on data that is too short, and says so. -/
theorem Strategy.selects_of_adapt {index : Int} {data : List Value} {e : AdaptError}
    (husable : (Strategy.select index).fault? = none)
    (h : (Strategy.select index).adapt data = .error e) :
    ∃ n : Nat, index = n ∧ e.Selects n data.length := by
  cases index with
  | negSucc i => simp [fault?, Int.negSucc_lt_zero] at husable
  | ofNat n =>
    refine ⟨n, rfl, ?_⟩
    simp only [adapt, apply, selected] at h
    cases hget : data[n]? with
    | some x =>
      rw [hget] at h
      cases h
    | none =>
      rw [hget] at h
      cases h
      exact ⟨List.getElem?_eq_none_iff.mp hget, rfl, String.append_empty⟩

namespace VariationSpec

variable {s : VariationSpec} {strategy : Strategy}

/-- The strategies that a spec can set. -/
theorem mem_strategies (h : strategy ∈ s.strategies) :
    strategy = .pass ∨ (∃ index, s.select = some index ∧ strategy = .select index) ∨
      (∃ tag, strategy = .node tag) ∨ ∃ tag, strategy = .fold tag := by
  simp only [strategies, List.mem_append, Option.mem_toList, Option.map_eq_some_iff] at h
  rcases h with ((h | ⟨index, hindex, rfl⟩) | h) | h
  · split at h
    · exact .inl (List.mem_singleton.mp h)
    · cases h
  · exact .inr (.inl ⟨index, hindex, rfl⟩)
  · split at h
    · cases h
    · exact .inr (.inr (.inl ⟨_, List.mem_singleton.mp h⟩))
  · split at h
    · cases h
    · exact .inr (.inr (.inr ⟨_, List.mem_singleton.mp h⟩))

/-- Of the strategies that a spec can set, only a selection fails. -/
theorem selects_of_adapt (h : s.strategy = .ok strategy) (husable : strategy.fault? = none)
    {data : List Value} {e : AdaptError} (hadapt : strategy.adapt data = .error e) :
    ∃ n : Nat, s.select = some (n : Int) ∧ e.Selects n data.length := by
  have hmem : strategy ∈ s.strategies := by
    rw [strategies_of_strategy h]
    exact List.mem_singleton_self strategy
  rcases mem_strategies hmem with rfl | ⟨index, hselect, rfl⟩ | ⟨tag, rfl⟩ | ⟨tag, rfl⟩
  · cases hadapt
  · obtain ⟨n, rfl, hselects⟩ := Strategy.selects_of_adapt husable hadapt
    exact ⟨n, hselect, hselects⟩
  · rw [Strategy.adapt_node] at hadapt
    cases hadapt
  · rw [Strategy.adapt_fold] at hadapt
    cases hadapt

end VariationSpec

namespace Document

variable {d : Document} {g : Grammar}

/-- A parse that a strategy ends was ended by a selection of the document. -/
theorem selects_of_parseRule (hd : d.grammar = .ok g) {rule : String} (hr : g.has rule = true)
    {limit : Int} {tokens : List Token} {e : AdaptError}
    (h : (g.parseRule limit rule tokens).result = .error (.adapt e)) :
    ∃ name, ∃ s ∈ d.specsOf name, ∃ n k : Nat, s.select = some (n : Int) ∧ e.Selects n k := by
  have hdescribes := describes_of_grammar hd
  have hends := Grammar.endsIn_parseRule hdescribes.built hr limit tokens
  rw [h] at hends
  cases hends with
  | @adapt v data _ mem refused _ =>
    obtain ⟨s, hs, hdeclares⟩ := hdescribes.exists_spec mem
    have husable := hdescribes.built.strategy_usable mem
    obtain ⟨n, hselect, hselects⟩ :=
      VariationSpec.selects_of_adapt hdeclares.strategy husable refused
    exact ⟨v.rule, s, hs, n, data.length, hselect, hselects⟩

/-- A compiled document holds nothing but what is written in it. -/
theorem not_holdsForeign (hd : d.grammar = .ok g) : ¬ g.HoldsForeign := by
  intro ⟨v, hv, type, text, hitem⟩
  obtain ⟨s, -, hdeclares⟩ := (describes_of_grammar hd).exists_spec hv
  obtain ⟨x, -, p, -, hp⟩ := hdeclares.writes hitem
  exact p.toItem_ne_foreign type text hp

/-- **Documents fail to adapt only through a selection**: if a document compiles, a parse of a
defined rule ends with a value, with an error of the input, or because a selection that the document
declares asked for a value past those that were captured. Without a selection in the document, no
strategy ends a parse. -/
theorem parseRule_adapt_select (hd : d.grammar = .ok g) {rule : String} (hr : g.has rule = true)
    (limit : Int) (tokens : List Token) :
    ((∃ x, (g.parseRule limit rule tokens).result = .ok x) ∨
      (∃ e, (g.parseRule limit rule tokens).result = .error (.parse e)) ∨
      ∃ e, (g.parseRule limit rule tokens).result = .error (.adapt e) ∧
        ∃ name, ∃ s ∈ d.specsOf name, ∃ n k : Nat, s.select = some (n : Int) ∧ e.Selects n k) ∧
    ((∀ name, ∀ s ∈ d.specsOf name, s.select = none) →
      ∀ e, (g.parseRule limit rule tokens).result ≠ .error (.adapt e)) := by
  constructor
  · cases hresult : (g.parseRule limit rule tokens).result with
    | ok x => exact .inl ⟨x, rfl⟩
    | error fault =>
      have hends := Grammar.endsIn_parseRule (describes_of_grammar hd).built hr limit tokens
      cases fault with
      | config e => exact absurd hresult (hends.ne_config e)
      | inconceivable => exact absurd (hends.holdsForeign hresult) (not_holdsForeign hd)
      | parse e => exact .inr (.inl ⟨e, rfl⟩)
      | adapt e => exact .inr (.inr ⟨e, rfl, selects_of_parseRule hd hr hresult⟩)
  · intro hnone e hresult
    obtain ⟨name, s, hs, n, k, hselect, -⟩ := selects_of_parseRule hd hr hresult
    rw [hnone name s hs] at hselect
    cases hselect

/-- A sum with a strategy that is called at the entry of its loop. -/
def sumSpec (select : Option Int) : VariationSpec :=
  { VariationSpec.empty with
    items := some [.text "@INT"]
    binaryLoop := some [.text "@ADD&", .text "@INT"]
    pass := select.isNone
    select := select }

/-- A document whose only rule passes the first operand of a sum on, or selects another. -/
def operandDocument (select : Option Int) : Document :=
  ⟨"operand", [], 0, [("operand", [sumSpec select])]⟩

/-- The grammar of operands, with the strategy of its only variation. -/
def operands (strategy : Strategy) : Grammar :=
  ⟨"operand", [], [⟨"operand", [.atom (.token "INT"),
    .loop .binary [.atom (Atom.token "ADD").skipped, .atom (.token "INT")]], strategy, none,
    false⟩]⟩

/-- The selection of the second operand ends the parse before there is one. Without it, no parse
ends in this way. -/
theorem parseRule_adapt_select_operands :
    (operandDocument (some 1)).grammar = .ok (operands (.select 1)) ∧
      (∃ e, ((operands (.select 1)).parseRule 9 "operand"
          [.bare "INT", .bare "ADD", .bare "INT"]).result = .error (.adapt e) ∧
        e.message = "select(1): only 1 value(s) captured" ∧
        ∃ name, ∃ s ∈ (operandDocument (some 1)).specsOf name, ∃ n k : Nat,
          s.select = some (n : Int) ∧ e.Selects n k) ∧
      (operandDocument none).grammar = .ok (operands .pass) ∧
      (∀ name, ∀ s ∈ (operandDocument none).specsOf name, s.select = none) ∧
      ∀ tokens e, ((operands .pass).parseRule 9 "operand" tokens).result ≠ .error (.adapt e) := by
  have hselect : (operandDocument (some 1)).grammar = .ok (operands (.select 1)) := rfl
  have hpass : (operandDocument none).grammar = .ok (operands .pass) := rfl
  have hnone : ∀ name, ∀ s ∈ (operandDocument none).specsOf name, s.select = none := by
    intro name s hs
    simp only [specsOf, operandDocument, List.lookup_cons] at hs
    split at hs
    · obtain rfl := List.mem_singleton.mp hs
      rfl
    · cases hs
  have hdefined : ∀ strategy, (operands strategy).has "operand" = true := fun _ => rfl
  have hends := (parseRule_adapt_select hselect (hdefined _) 9
    [.bare "INT", .bare "ADD", .bare "INT"]).1
  refine ⟨hselect, ?_, hpass, hnone, fun tokens => ?_⟩
  · rcases hends with ⟨x, hx⟩ | ⟨e, he⟩ | ⟨e, he, hdeclared⟩
    · cases hx
    · cases he
    · refine ⟨e, he, ?_, hdeclared⟩
      cases he
      rfl
  · exact (parseRule_adapt_select hpass (hdefined _) 9 tokens).2 hnone

end Document
end TokenGrammar
