import TokenGrammar.Proofs.Machine
import TokenGrammar.Proofs.Validity

/-!
# How parses with built grammars end

Validation looks at every reference of a grammar, also inside choices and loops, and evaluation goes
only where these references lead. So no parse with a built grammar meets a rule that does not exist,
and what can end it early is a recursion that goes too deep or a strategy that refuses. There is one
thing that validation does not look at: an item that is no atom, choice or loop. The evaluation has
no case for such an item, and where the grammar holds one, the parse may break down at it.

## Main definitions

* `Grammar.HoldsForeign`: a grammar with an item that the evaluation has no case for.
* `Setting.Excuses`: what can end an evaluation at once.
* `Grammar.EndsIn`: the ways in which a parse can end.
-/
namespace TokenGrammar

/-! ## Strategies -/

theorem recovered_ne_outOfRange {ν : Type} (null : ν) (cause : Option String) (n : Int) :
    recovered null cause ≠ .error (.outOfRange n) := by
  cases cause <;> simp [recovered]

/-- A selection that a grammar may use never looks before the first value. -/
theorem Strategy.apply_ne_outOfRange {s : Strategy} (h : s.fault? = none) (data : List Value)
    (n : Int) : s.apply data ≠ .error (.outOfRange n) := by
  cases s with
  | pass => simp [apply]
  | select index =>
    have hindex : ¬ index < 0 := by
      intro hneg
      simp [fault?, hneg] at h
    cases index with
    | negSucc i => exact absurd (Int.negSucc_lt_zero i) hindex
    | ofNat i =>
      simp only [apply, selected]
      split <;> simp
  | transform f =>
    simp only [apply, transformed]
    split
    · exact recovered_ne_outOfRange _ _ n
    · split
      · simp
      · exact recovered_ne_outOfRange _ _ n
  | construct c =>
    simp only [apply, TypeSystem.construct]
    split
    · simp
    · split
      · simp
      · split
        · simp
        · simp
        · exact recovered_ne_outOfRange _ _ n
    · simp

theorem Strategy.adapt_fault_ne_outOfRange {s : Strategy} (h : s.fault? = none) {data : List Value}
    {e : AdaptError} (he : s.adapt data = .error e) (n : Int) : e.fault ≠ .outOfRange n := by
  rw [adapt] at he
  cases ha : s.apply data with
  | ok x => rw [ha] at he; cases he
  | error fault =>
    rw [ha] at he
    cases he
    intro hn
    exact apply_ne_outOfRange h data n (by rw [ha]; exact congrArg _ hn)

/-! ## Fatal outcomes -/

/-- Some variation of the grammar has a foreign item, at the top or in its loop. -/
def Grammar.HoldsForeign (g : Grammar) : Prop :=
  ∃ v ∈ g.variations, ∃ type text, .foreign type text ∈ v.content.items

namespace Setting

variable {s : Setting} {call : Caller} {v : Variation}

theorem fatal_matchAtom {a : Atom} {c : Cursor} {e : Fault}
    (h : (s.matchAtom call v a c).outcome = .fatal e) :
    a.isRule = true ∧ (call a.name c).outcome = .fatal e := by
  rw [matchAtom] at h
  split at h
  · next hrule => exact ⟨hrule, h⟩
  · exact ((s.ends_matchToken v a c).of_fatal h).elim

theorem fatal_matchEither {start : Cursor} {furthest : Nat} {candidates : List Atom} {e : Fault}
    (h : (s.matchEither call v start furthest candidates).outcome = .fatal e) :
    ∃ a ∈ candidates, a.isRule = true ∧ (call a.name start).outcome = .fatal e := by
  induction candidates generalizing furthest with
  | nil => cases h
  | cons a rest ih =>
    simp only [matchEither] at h
    cases hr : (s.matchAtom call v a start).outcome with
    | value x => simp [hr] at h
    | mismatch i =>
      simp only [hr] at h
      obtain ⟨b, hb, hfatal⟩ := ih h
      exact ⟨b, List.mem_cons_of_mem _ hb, hfatal⟩
    | fatal e' =>
      simp only [hr, Outcome.fatal.injEq] at h
      exact ⟨a, List.mem_cons_self, fatal_matchAtom (h ▸ hr)⟩

/-- An item ends the parse through a rule that it refers to, called where the item began, or because
it is a foreign one. -/
theorem fatal_matchItem {item : Item} {c : Cursor} {e : Fault}
    (h : (s.matchItem call v c item).outcome = .fatal e) :
    (∃ name ∈ item.refs, (call name c).outcome = .fatal e) ∨
      (∃ type text, item = .foreign type text) ∧ e = .inconceivable := by
  cases item with
  | atom a =>
    simp only [matchItem, matchOne] at h
    cases hr : (s.matchAtom call v a c).outcome with
    | value x => simp [hr] at h
    | mismatch i => simp [hr] at h
    | fatal e' =>
      simp only [hr, Outcome.fatal.injEq] at h
      obtain ⟨hrule, hcall⟩ := fatal_matchAtom (h ▸ hr)
      exact .inl ⟨a.name, by simp [Item.refs, hrule], hcall⟩
  | either choice =>
    obtain ⟨a, ha, hrule, hcall⟩ := fatal_matchEither h
    refine .inl ⟨a.name, ?_, hcall⟩
    rw [Item.refs, List.mem_map]
    exact ⟨a, List.mem_filter.mpr ⟨ha, hrule⟩, rfl⟩
  | loop kind body => cases h
  | foreign type text =>
    cases h
    exact .inr ⟨⟨type, text, rfl⟩, rfl⟩

theorem fatal_conclude {start stop : Cursor} {data : List Value} {calls : List Call} {e : Fault}
    (h : (s.conclude v start data stop calls).outcome = .fatal e) :
    ∃ a, v.strategy.adapt data = .error a ∧ e = .adapt a := by
  simp only [conclude] at h
  cases ha : v.strategy.adapt data with
  | ok x => simp [ha] at h
  | error a =>
    simp only [ha, Outcome.fatal.injEq] at h
    exact ⟨a, rfl, h.symm⟩

/-- A choice is ended by the reading of one of its variations, or by its strategy at the end. -/
theorem fatal_readChoice {start : Cursor} {furthest : Nat} {vs : List Variation} {e : Fault}
    (h : (s.readChoice call start furthest vs).outcome = .fatal e) :
    ∃ v ∈ vs, (s.read call v start).outcome = .fatal e ∨
      ∃ data a, v.strategy.adapt data = .error a ∧ e = .adapt a := by
  induction vs generalizing furthest with
  | nil => cases h
  | cons v rest ih =>
    simp only [readChoice] at h
    cases hr : (s.read call v start).outcome with
    | value data =>
      simp only [hr] at h
      obtain ⟨a, ha⟩ := fatal_conclude h
      exact ⟨v, List.mem_cons_self, .inr ⟨data, a, ha⟩⟩
    | mismatch i =>
      simp only [hr] at h
      obtain ⟨u, hu, hfatal⟩ := ih h
      exact ⟨u, List.mem_cons_of_mem _ hu, hfatal⟩
    | fatal e' =>
      simp only [hr, Outcome.fatal.injEq] at h
      exact ⟨v, List.mem_cons_self, .inl (h ▸ hr)⟩

/-- What can end a parse at once: a defined rule nested too deep, a strategy of the grammar, or a
foreign item. -/
inductive Excuses (s : Setting) : Fault → Prop
  | depth {rule : String} {i : Nat} (defined : s.grammar.has rule = true)
      (inside : i ≤ s.tokens.length) :
      Excuses s (.parse (.atIndex .depthExceeded rule s.tokens i))
  | adapt {v : Variation} {data : List Value} {e : AdaptError} (mem : v ∈ s.grammar.variations)
      (refused : v.strategy.adapt data = .error e) : Excuses s (.adapt e)
  | foreign (held : s.grammar.HoldsForeign) : Excuses s .inconceivable

/-- The induction is on the levels left: a fatal outcome is the strategy's or that of a foreign item,
or comes from a call one level below, at a rule that validation found defined and a cursor inside
the input. -/
theorem excuses_of_readRule (hg : s.grammar.WellFormed) {depth : Nat} {rule : String} {c : Cursor}
    {e : Fault} (hrule : s.grammar.has rule = true) (hc : c.index ≤ s.tokens.length)
    (h : (s.readRule depth rule c).outcome = .fatal e) : s.Excuses e := by
  induction depth generalizing rule c with
  | zero =>
    rw [readRule_zero hrule, Run.outcome_record, abort, Outcome.fatal.injEq] at h
    exact h ▸ .depth hrule hc
  | succ depth ih =>
    rw [readRule_succ hrule, Run.outcome_record] at h
    obtain ⟨v, hv, hfatal⟩ := fatal_readChoice h
    have hmem := (Grammar.mem_variationsOf.mp hv).1
    rcases hfatal with hread | ⟨data, a, ha, rfl⟩
    · rcases (s.ends_readContent (s.readRule depth) v [] c v.content).of_fatal hread with
        ⟨item, hitem, mid, hreach, hfatal⟩ | ⟨data, a, ha, rfl⟩
      · rcases fatal_matchItem hfatal with ⟨name, hname, hcall⟩ | ⟨⟨type, text, rfl⟩, rfl⟩
        · have hdef := (hg.resolves hmem item hitem).2 name hname
          have hmid := (hreach.advances (s.steady_readRule depth)).inside hc
          exact ih hdef hmid hcall
        · exact .foreign ⟨v, hmem, type, text, hitem⟩
      · exact .adapt hmem ha
    · exact .adapt hmem ha

end Setting

/-! ## Parses -/

/-- How a parse of a rule can end, given the evaluation of that rule. -/
inductive Grammar.EndsIn (g : Grammar) (rule : String) (tokens : List Token) (r : Run Value) :
    Except Fault Value → Prop
  /-- A value, with nothing left of the input. -/
  | value {x : Value} (outcome : r.outcome = .value x) (cursor : r.cursor.index = tokens.length) :
      EndsIn g rule tokens r (.ok x)
  /-- A value for the front of the input, and the first token after it. -/
  | trailing {x : Value} {i : Nat} {t : Token} (outcome : r.outcome = .value x)
      (cursor : r.cursor.index = i) (token : tokens[i]? = some t) :
      EndsIn g rule tokens r (.error (.parse ⟨.trailingInput, rule, i, some t, x⟩))
  /-- A failure of the rule, at a token or at the end of the input. -/
  | unexpected {i : Nat} (outcome : r.outcome = .mismatch i) (inside : i ≤ tokens.length) :
      EndsIn g rule tokens r (.error (.parse ⟨.unexpectedToken, rule, i, tokens[i]?, .null⟩))
  /-- A defined rule that was nested too deep. -/
  | depth {nested : String} {i : Nat} (defined : g.has nested = true) (inside : i ≤ tokens.length) :
      EndsIn g rule tokens r (.error (.parse ⟨.depthExceeded, nested, i, tokens[i]?, .null⟩))
  /-- A strategy of the grammar that gave an error and did not break down at a negative index. -/
  | adapt {v : Variation} {data : List Value} {e : AdaptError} (mem : v ∈ g.variations)
      (refused : v.strategy.adapt data = .error e) (proper : ∀ n, e.fault ≠ .outOfRange n) :
      EndsIn g rule tokens r (.error (.adapt e))
  /-- A breakdown at a foreign item of the grammar. -/
  | foreign (held : g.HoldsForeign) : EndsIn g rule tokens r (.error .inconceivable)

namespace Grammar

variable {g : Grammar}

theorem EndsIn.ne_config {rule : String} {tokens : List Token} {r : Run Value}
    {result : Except Fault Value} (h : g.EndsIn rule tokens r result) (e : ConfigError) :
    result ≠ .error (.config e) := by
  cases h <;> simp

theorem EndsIn.holdsForeign {rule : String} {tokens : List Token} {r : Run Value}
    {result : Except Fault Value} (h : g.EndsIn rule tokens r result)
    (hr : result = .error .inconceivable) : g.HoldsForeign := by
  cases h with
  | foreign held => exact held
  | _ => cases hr

theorem parseRule_result {rule : String} (h : g.has rule = true) (limit : Int)
    (tokens : List Token) :
    (g.parseRule limit rule tokens).result =
      conclusion rule tokens
        (Setting.evaluate ⟨g, tokens⟩ (effectiveDepth limit) rule .origin) := by
  simp [parseRule, h]

theorem endsIn_parseRule (hg : g.Built) {rule : String} (hr : g.has rule = true) (limit : Int)
    (tokens : List Token) :
    g.EndsIn rule tokens (Setting.evaluate ⟨g, tokens⟩ (effectiveDepth limit) rule .origin)
      (g.parseRule limit rule tokens).result := by
  have hw := hg.wellFormed
  rw [parseRule_result hr, Setting.evaluate_eq_readRule (s := ⟨g, tokens⟩) hw]
  have hsteady := Setting.steady_readRule ⟨g, tokens⟩ (effectiveDepth limit) rule .origin
  have hfatal : ∀ e, (Setting.readRule ⟨g, tokens⟩ (effectiveDepth limit) rule .origin).outcome =
      .fatal e → Setting.Excuses ⟨g, tokens⟩ e :=
    fun _ h => Setting.excuses_of_readRule hw hr (Nat.zero_le _) h
  generalize Setting.readRule ⟨g, tokens⟩ (effectiveDepth limit) rule .origin = r
    at hsteady hfatal ⊢
  rw [conclusion]
  cases ho : r.outcome with
  | value x =>
    have hinside := (hsteady.of_value ho).inside (Nat.zero_le _)
    dsimp only
    split
    · next hlt =>
      rw [ParseError.atIndex, List.getElem?_eq_getElem hlt]
      exact .trailing ho rfl (List.getElem?_eq_getElem hlt)
    · next hge => exact .value ho (Nat.le_antisymm hinside (Nat.le_of_not_lt hge))
  | mismatch i =>
    have hahead := (hsteady.of_mismatch ho).2.2
    exact .unexpected ho (by simpa [Cursor.origin] using hahead)
  | fatal e =>
    cases hfatal e ho with
    | depth defined inside => exact .depth defined inside
    | adapt mem refused =>
      exact .adapt mem refused (Strategy.adapt_fault_ne_outOfRange (hg.strategy_usable mem) refused)
    | foreign held => exact .foreign held

theorem parse_eq_parseRule (hg : g.WellFormed) (limit : Int) (tokens : List Token) :
    g.parse limit tokens = g.parseRule limit g.start tokens := by
  rw [parse, if_neg hg.start_nonempty]

end Grammar
end TokenGrammar
