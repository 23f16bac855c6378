import TokenGrammar.Proofs.Rollback

/-!
# Wrapped rules

A rule whose only variation is another rule, captured and passed on, is that rule one level further
down. It calls the rule where it was called itself, takes over its value, its failure or its fault,
and has nothing left to do but to give back trivia.

There is none to give back. The wrapper may ignore tokens that the wrapped rule has matched, but
what was matched stays consumed; and where no variation prevents rollback, the wrapped rule has
ended right after its last match or has not moved at all. So its end is at the floor below which
nothing is given back, whatever the wrapper ignores.

## Main definitions

* `Variation.Wraps`: a variation that is one rule, captured and passed on.
* `Grammar.Renames`: results that differ at most in the rule that an error of the input names.
-/
namespace TokenGrammar

/-- The variation is one rule atom, which is captured, and its value is passed on. What it ignores
is free. -/
structure Variation.Wraps (v : Variation) (a : Atom) : Prop where
  content : v.content = [.atom a]
  isRule : a.isRule = true
  captured : a.skip = false
  pass : v.strategy = .pass

namespace Setting

variable {s : Setting} {call : Caller} {v : Variation} {a : Atom} {c c' : Cursor}

/-! ## One level further down -/

/-- The reading of a wrapper is that of the rule. -/
theorem read_wrapper (hv : v.Wraps a) (c : Cursor) :
    s.read call v c =
      let r := call a.name c
      match r.outcome with
      | .value x => ⟨.value [x], r.cursor, r.calls⟩
      | .mismatch i => ⟨.mismatch i, r.cursor, r.calls⟩
      | .fatal e => ⟨.fatal e, r.cursor, r.calls⟩ := by
  simp only [read, hv.content, readContent, matchItem, matchOne, matchAtom, hv.isRule, if_true,
    Setting.captured, hv.captured]
  cases (call a.name c).outcome with
  | value x => simp [Run.after]
  | mismatch i => rfl
  | fatal e => rfl

/-- A choice with a wrapper alone ends as the rule does. If it succeeds, the wrapper settles at the
end of the rule. -/
theorem readChoice_wrapper (hv : v.Wraps a) (c : Cursor) :
    let r := s.readChoice call c 0 [v]
    r.outcome = (call a.name c).outcome ∧
      ∀ x, r.outcome = .value x → r.cursor = s.settled v c (call a.name c).cursor := by
  simp only [readChoice, read_wrapper hv, conclude_eq, hv.pass, Strategy.outcome]
  cases hr : (call a.name c).outcome with
  | value x => simp
  | mismatch i => simp
  | fatal e => simp

theorem readRule_wrapper {w : String} (honly : s.grammar.variationsOf w = [v]) (hv : v.Wraps a)
    (depth : Nat) (c : Cursor) :
    let r := s.readRule (depth + 1) w c
    r.outcome = (s.readRule depth a.name c).outcome ∧
      ∀ x, r.outcome = .value x →
        r.cursor = s.settled v c (s.readRule depth a.name c).cursor := by
  have hw : s.grammar.has w = true := by
    rw [Grammar.has_iff, honly]
    exact List.cons_ne_nil v []
  rw [readRule_succ hw, honly]
  exact readChoice_wrapper hv c

/-! ## Nothing to give back -/

/-- A cursor that stands right after the last match, or where it began, is where any variation
settles: this is the floor of the way back. -/
theorem Follows.settled_eq {hits : List Hit} (h : s.Follows True c hits c') (v : Variation) :
    s.settled v c c' = c' := by
  have hfloor : c'.index ≤ max c.index c'.matched := by
    have hindex := h.index trivial
    have hmatched := h.matched
    rcases Hit.after_cases hits with hnone | ⟨a, _, hlast⟩
    · rw [hnone] at hindex
      omega
    · rw [hlast] at hindex hmatched
      omega
  rw [settled]
  split
  · rfl
  · rw [rollback, giveBack_of_le_floor hfloor]

/-- A wrapper that prevents rollback, or in a grammar where nothing does, stays where the rule that
it wraps has ended. -/
theorem settled_wrapper (hg : s.grammar.WellFormed)
    (hroll : v.preventRollback = true ∨ ∀ u ∈ s.grammar.variations, u.preventRollback = false)
    (hc : c.Ordered) {depth : Nat} {rule : String} {x : Value}
    (hx : (s.readRule depth rule c).outcome = .value x) :
    s.settled v c (s.readRule depth rule c).cursor = (s.readRule depth rule c).cursor := by
  rcases hroll with hprevents | hnone
  · rw [settled, if_pos hprevents]
  · have htracks : s.Tracks True (s.evaluateNoted depth) :=
      tracks_evaluateNoted (fun _ => hnone) depth
    have hrun : (s.evaluateNoted depth rule c).toRun = s.readRule depth rule c := by
      rw [toRun_evaluateNoted, evaluate_eq_readRule hg]
    rw [← hrun] at hx ⊢
    exact ((htracks rule c hc).of_value hx).settled_eq v

end Setting

/-! ## Parses -/

namespace Grammar

/-- Results of two rules on one input that are the same, but for the rule that is named where an
error concerns the rule which was asked for. -/
inductive Renames (rule rule' : String) : Except Fault Value → Except Fault Value → Prop
  | value {x : Value} : Renames rule rule' (.ok x) (.ok x)
  | trailing {i : Nat} {t : Option Token} {x : Value} :
      Renames rule rule' (.error (.parse ⟨.trailingInput, rule, i, t, x⟩))
        (.error (.parse ⟨.trailingInput, rule', i, t, x⟩))
  | unexpected {i : Nat} {t : Option Token} {x : Value} :
      Renames rule rule' (.error (.parse ⟨.unexpectedToken, rule, i, t, x⟩))
        (.error (.parse ⟨.unexpectedToken, rule', i, t, x⟩))
  | depth {nested : String} {i : Nat} {t : Option Token} {x : Value} :
      Renames rule rule' (.error (.parse ⟨.depthExceeded, nested, i, t, x⟩))
        (.error (.parse ⟨.depthExceeded, nested, i, t, x⟩))
  | adapt {e : AdaptError} : Renames rule rule' (.error (.adapt e)) (.error (.adapt e))
  | inconceivable : Renames rule rule' (.error .inconceivable) (.error .inconceivable)

/-- Evaluations that end in the same way, at the same place if they succeed, give results that are
the same up to the rule. -/
theorem renames_conclusion {rule rule' : String} {tokens : List Token} {r r' : Run Value}
    (houtcome : r.outcome = r'.outcome)
    (hcursor : ∀ x, r.outcome = .value x → r.cursor.index = r'.cursor.index)
    (hfault : ∀ e, r.outcome = .fatal e →
      Renames rule rule' (.error e) (.error e)) :
    Renames rule rule' (conclusion rule tokens r) (conclusion rule' tokens r') := by
  rw [conclusion, conclusion, ← houtcome]
  cases ho : r.outcome with
  | value x =>
    dsimp only
    rw [hcursor x ho]
    split
    · exact .trailing
    · exact .value
  | mismatch i => exact .unexpected
  | fatal e => exact hfault e ho

/-- **A wrapper is transparent**: a rule whose only variation is another rule, captured and passed
on, gives with one more level what this rule gives: the same value, the same error of the input
under the name of the rule that was asked for, or the same fault. The wrapper may ignore anything.
It has to prevent rollback, unless no variation of the grammar does. -/
theorem parseRule_wrapper {g : Grammar} (hg : g.Built) {w : String} {v : Variation} {a : Atom}
    (honly : g.variationsOf w = [v]) (hv : v.Wraps a)
    (hroll : v.preventRollback = true ∨ ∀ u ∈ g.variations, u.preventRollback = false)
    {limit limit' : Int} (hlimit : effectiveDepth limit' = effectiveDepth limit + 1)
    (tokens : List Token) :
    Renames w a.name (g.parseRule limit' w tokens).result
      (g.parseRule limit a.name tokens).result := by
  have hw := hg.wellFormed
  have hmem : v ∈ g.variationsOf w := honly ▸ List.mem_cons_self
  obtain ⟨hvariation, rfl⟩ := mem_variationsOf.mp hmem
  have hdefined : g.has a.name = true := by
    refine hw.refs_defined v hvariation a.name ?_
    simp [hv.content, Content.refs, Item.refsAll, Item.refs, hv.isRule]
  rw [parseRule_result (has_rule hvariation), parseRule_result hdefined, hlimit,
    Setting.evaluate_eq_readRule (s := ⟨g, tokens⟩) hw,
    Setting.evaluate_eq_readRule (s := ⟨g, tokens⟩) hw]
  obtain ⟨houtcome, hcursor⟩ := Setting.readRule_wrapper (s := ⟨g, tokens⟩) honly hv
    (effectiveDepth limit) .origin
  refine renames_conclusion houtcome ?_ ?_
  · intro x hx
    rw [hcursor x hx, Setting.settled_wrapper hw hroll Cursor.ordered_origin (houtcome ▸ hx)]
  · intro e he
    have hexcuses := Setting.excuses_of_readRule (s := ⟨g, tokens⟩) hw hdefined (Nat.zero_le _)
      (houtcome ▸ he)
    cases hexcuses with
    | depth _ _ => exact .depth
    | adapt _ _ => exact .adapt
    | foreign _ => exact .inconceivable

/-- A page wraps its items. Line ends are trivia for the page, but the one that an item has matched
is not given back, so the first line end too many is trailing input of both rules. -/
theorem parseRule_wrapper_pages :
    pages.Built ∧ pages.variationsOf "page" = [pageVariation] ∧
      pageVariation.Wraps (.rule "items") ∧
      (∀ u ∈ pages.variations, u.preventRollback = false) ∧
      effectiveDepth 10 = effectiveDepth 9 + 1 ∧
      (pages.parseRule 9 "items" twoItems).result =
        .error (.parse ⟨.trailingInput, "items", 4, some (.bare "NL"), .token "ITEM" .null⟩) ∧
      (pages.parseRule 10 "page" twoItems).result =
        .error (.parse ⟨.trailingInput, "page", 4, some (.bare "NL"), .token "ITEM" .null⟩) := by
  have honly : pages.variationsOf "page" = [pageVariation] := rfl
  have hwraps : pageVariation.Wraps (.rule "items") := ⟨rfl, rfl, rfl, rfl⟩
  have hroll : ∀ u ∈ pages.variations, u.preventRollback = false := by
    simp [pages, pageVariation, itemsVariation]
  have hlimit : effectiveDepth 10 = effectiveDepth 9 + 1 := by decide
  have hitems : (pages.parseRule 9 "items" twoItems).result =
      .error (.parse ⟨.trailingInput, "items", 4, some (.bare "NL"), .token "ITEM" .null⟩) := rfl
  have hrenames := parseRule_wrapper pages_built honly hwraps (.inr hroll) hlimit twoItems
  refine ⟨pages_built, honly, hwraps, hroll, hlimit, hitems, ?_⟩
  generalize (pages.parseRule 10 "page" twoItems).result = result at hrenames ⊢
  have hname : (Atom.rule "items").name = "items" := rfl
  rw [hname, hitems] at hrenames
  cases hrenames
  rfl

end Grammar
end TokenGrammar
