import TokenGrammar.Proofs.Discipline
import TokenGrammar.Proofs.Provenance

/-!
# Breakdowns

A parse with a built grammar does not go wrong, with one exception. An item that is no atom, choice
or loop is refused as a part of a call, but in a loop that was made beforehand nothing looks at it:
not the call, and not the validation either. The grammar is built, and the parse that comes to the
item breaks down. Such items are the only reason for it.

## Main results

* `Builder.buries_of_holdsForeign`: a foreign item of a built grammar was buried by some call.
* `Grammar.parseRule_safe`: how parses end, and what a breakdown tells of the calls.
* `Grammar.parseRule_breaksDown`: a grammar that is built, and whose parses break down.
-/
namespace TokenGrammar

theorem Content.occurs_of_mem_items {i : Item} {content : Content} (h : i ∈ content.items) :
    Item.Occurs i content := by
  fun_induction Content.items content with
  | case1 => cases h
  | case2 kind body rest ih =>
    refine Item.occurs_cons_iff.mpr (.inr ?_)
    rcases List.mem_append.mp h with hbody | hrest
    · exact .inl ⟨kind, body, rfl, .here hbody⟩
    · exact .inr (ih hrest)
  | case3 j rest _ ih =>
    refine Item.occurs_cons_iff.mpr ?_
    rcases List.mem_cons.mp h with rfl | hrest
    · exact .inl rfl
    · exact .inr (.inr (ih hrest))

/-- No part becomes a foreign item, so one that a built grammar holds was in a ready-made loop. -/
theorem Builder.buries_of_holdsForeign {steps : List Step} {g : Grammar}
    (h : (empty.run steps).build = .ok g) (hforeign : g.HoldsForeign) :
    ∃ step ∈ steps, ∃ type text, step.Buries (.foreign type text) := by
  obtain ⟨v, hv, type, text, hitem⟩ := hforeign
  obtain ⟨step, hstep, hfrom⟩ :=
    occurs_of_build h hv (by simp) (Content.occurs_of_mem_items hitem)
  rcases hfrom with ⟨p, -, hp⟩ | hburied
  · exact absurd hp (p.toItem_ne_foreign type text)
  · exact ⟨step, hstep, type, text, hburied⟩

namespace Grammar

/-- **Built grammars do not go wrong, as long as no call buries a foreign item.** A parse of a
defined rule ends in a value, in an error of the input, in a defined rule that was nested too deep,
in an error of one of the strategies, or in a breakdown, and then some call was made with a
ready-made loop that holds a foreign item. No token is looked at outside the input, and a parse from
the start rule reports no mistake of the grammar, least of all a missing start rule. -/
theorem parseRule_safe {steps : List Step} {g : Grammar}
    (hbuild : (Builder.empty.run steps).build = .ok g) {rule : String} (hr : g.has rule = true)
    (limit : Int) (tokens : List Token) :
    let noted := Setting.evaluateNoted ⟨g, tokens⟩ (effectiveDepth limit) rule .origin
    g.EndsIn rule tokens (Setting.evaluate ⟨g, tokens⟩ (effectiveDepth limit) rule .origin)
        (g.parseRule limit rule tokens).result ∧
      ((g.parseRule limit rule tokens).result = .error .inconceivable →
        ∃ step ∈ steps, ∃ type text, step.Buries (.foreign type text)) ∧
      noted.toRun = Setting.evaluate ⟨g, tokens⟩ (effectiveDepth limit) rule .origin ∧
      (∀ i, .look i ∈ noted.notes → i < tokens.length) ∧
      ∀ e, (g.parse limit tokens).result ≠ .error (.config e) := by
  intro noted
  have hg : g.Built := ⟨steps, hbuild⟩
  have hends := endsIn_parseRule hg hr limit tokens
  have hvouched := Setting.vouched_origin (s := ⟨g, tokens⟩) hg.wellFormed (effectiveDepth limit) rule
  refine ⟨hends, fun h => ?_, Setting.toRun_evaluateNoted _ _ _ _, fun i hi => ?_, ?_⟩
  · exact Builder.buries_of_holdsForeign hbuild (hends.holdsForeign h)
  · exact (hvouched (.look i) hi).1
  · rw [parse_eq_parseRule hg.wellFormed]
    exact (endsIn_parseRule hg hg.wellFormed.start_defined limit tokens).ne_config

/-- The sum that is not finished is given up for its first integer, and the rest is left. -/
theorem parseRule_safe_sums :
    (Builder.empty.run sumsSteps).build = .ok sums ∧ sums.has "sum" = true ∧
      sums.EndsIn "sum" unfinishedSum (Setting.evaluate ⟨sums, unfinishedSum⟩ 9 "sum" .origin)
        (.error (.parse ⟨.trailingInput, "sum", 1, some (.bare "ADD"), .token "INT" .null⟩)) := by
  have hbuild : (Builder.empty.run sumsSteps).build = .ok sums := rfl
  have hr : sums.has "sum" = true := rfl
  exact ⟨hbuild, hr, (parseRule_safe hbuild hr 9 unfinishedSum).1⟩

/-- The item that is none. -/
def nullItem : Item := .foreign "<nil>" "<nil>"

/-- Calls of which one is made with a ready-made loop over nothing. -/
def buryingSteps : List Step :=
  [.startFrom "a", .rule "a", .extend 0 .items [.item (.loop .block [nullItem])],
    .finish 0 (some .pass)]

/-- The grammar of these calls. -/
def buryingGrammar : Grammar := ⟨"a", [], [⟨"a", [.loop .block [nullItem]], .pass, none, false⟩]⟩

/-- The item that is none is refused as a part, but not in a ready-made loop. The grammar is built,
its rule is defined, and the parse of no tokens breaks down. -/
theorem parseRule_breaksDown :
    (∃ fault, (Part.item nullItem).toItem = .error fault) ∧
      (Builder.empty.run buryingSteps).build = .ok buryingGrammar ∧
      buryingGrammar.has "a" = true ∧
      (buryingGrammar.parseRule 1 "a" []).result = .error .inconceivable :=
  ⟨⟨_, rfl⟩, rfl, rfl, rfl⟩

end Grammar
end TokenGrammar
