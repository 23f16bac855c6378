import TokenGrammar.Proofs.Provenance

/-!
# Candidates of choices

A choice is made from parts before it is given to a builder. A part that is no candidate is left
out, and only the fault of the choice tells that it was there. So nothing is lost without notice as
long as the fault is looked at wherever a choice comes in.

A call looks at the fault of a choice that is one of its parts, and an ignore set refuses choices in
any case. The items of a loop that was made beforehand are taken as they are: this is the only way
in on which a fault is not seen, and a choice in the grammar that has fewer candidates than parts
came in on it.

## Main definitions

* `Part.IsCandidate`: the parts that become candidates.
* `Step.Gives`: a call is made with a choice, at any depth of its parts.
* `Step.Checks`, `Step.Hides`: the two ways of being given.
-/
namespace TokenGrammar

/-! ## Choices and their parts -/

/-- A part that can be a candidate: an atom, or a text that reads as one. -/
def Part.IsCandidate (p : Part) : Prop :=
  (∃ a, p = .item (.atom a)) ∨ ∃ text a, p = .shorthand text ∧ Atom.read text = .ok a

theorem Part.isCandidate_iff {p : Part} : p.IsCandidate ↔ ∃ a, p.candidate = .ok a := by
  cases p with
  | value v =>
    cases v with
    | text s =>
      rw [Part.candidate]
      cases hread : Atom.read s with
      | error e => simp [Part.IsCandidate, Except.mapError, hread]
      | ok a => simp [Part.IsCandidate, Except.mapError, hread]
    | _ => simp [Part.IsCandidate, Part.candidate]
  | item i =>
    cases i with
    | atom a => simp [Part.IsCandidate, Part.candidate]
    | _ => simp [Part.IsCandidate, Part.candidate]

namespace Either

theorem candidates_oneOf (ps : List Part) :
    (oneOf ps).candidates = ps.filterMap (·.candidate.toOption) := by
  induction ps with
  | nil => rfl
  | cons p ps ih =>
    rw [oneOf, List.filterMap_cons, ← ih]
    cases p.candidate with
    | error e => rfl
    | ok a => rfl

theorem fault_oneOf_eq_none_iff {ps : List Part} :
    (oneOf ps).fault = none ↔ ∀ p ∈ ps, p.IsCandidate := by
  induction ps with
  | nil => simp [oneOf]
  | cons p ps ih =>
    rw [oneOf, List.forall_mem_cons, ← ih, Part.isCandidate_iff]
    cases p.candidate with
    | error e => simp
    | ok a => simp

/-- A choice has as many candidates as parts exactly if it carries no fault. -/
theorem length_oneOf_iff {ps : List Part} :
    (oneOf ps).candidates.length = ps.length ↔ (oneOf ps).fault = none := by
  rw [candidates_oneOf, List.filterMap_length_eq_length, fault_oneOf_eq_none_iff]
  refine forall₂_congr fun p _ => ?_
  rw [Part.isCandidate_iff]
  cases p.candidate with
  | error e => simp [Except.toOption]
  | ok a => simp [Except.toOption]

end Either

/-! ## Where choices come in -/

namespace Step

/-- A call is made with a choice: it is one of the parts, or inside a loop that is one of them. -/
def Gives (step : Step) (e : Either) : Prop :=
  ∃ i, .item i ∈ step.parts ∧ Item.Occurs (.either e) [i]

/-- A call looks at a choice: it is one of the parts, or in a part of an ignore set. -/
inductive Checks (e : Either) : Step → Prop
  | part {step : Step} (mem : .item (.either e) ∈ step.parts) : Checks e step
  | ignoring {n : Nat} {parts : List Part} {i : Item} (mem : .item i ∈ parts)
      (occurs : Item.Occurs (.either e) [i]) : Checks e (.ignoring n parts)
  | ignoreGlobally {parts : List Part} {i : Item} (mem : .item i ∈ parts)
      (occurs : Item.Occurs (.either e) [i]) : Checks e (.ignoreGlobally parts)

/-- A call adds a choice to a chain in a loop that was made beforehand. -/
def Hides (step : Step) (e : Either) : Prop := step.Buries (.either e)

end Step

theorem Item.occurs_either_singleton_iff {e : Either} {i : Item} :
    Item.Occurs (.either e) [i] ↔
      i = .either e ∨ ∃ kind body, i = .loop kind body ∧ Item.Occurs (.either e) body := by
  rw [Item.occurs_cons_iff, or_iff_left Item.not_occurs_nil, eq_comm]

variable {step : Step} {e : Either}

theorem Step.gives_iff : step.Gives e ↔ step.Checks e ∨ step.Hides e := by
  constructor
  · rintro ⟨i, hmem, hoccurs⟩
    rcases Item.occurs_either_singleton_iff.mp hoccurs with rfl | ⟨kind, body, rfl, hbody⟩
    · exact .inl (.part hmem)
    · cases step with
      | extend n extension parts => exact .inr ⟨n, extension, parts, kind, body, rfl, hmem, hbody⟩
      | ignoring n parts => exact .inl (.ignoring hmem hoccurs)
      | ignoreGlobally parts => exact .inl (.ignoreGlobally hmem hoccurs)
      | _ => cases hmem
  · rintro (hchecks | ⟨n, extension, parts, kind, body, rfl, hmem, hbody⟩)
    · cases hchecks with
      | part hmem => exact ⟨_, hmem, .here List.mem_cons_self⟩
      | ignoring hmem hoccurs => exact ⟨_, hmem, hoccurs⟩
      | ignoreGlobally hmem hoccurs => exact ⟨_, hmem, hoccurs⟩
    · exact ⟨_, hmem, .inside List.mem_cons_self hbody⟩

/-- What holds a choice is no atom, so it is no trivia. -/
theorem Part.rejectedAsTrivia_of_occurs {i : Item} (h : Item.Occurs (.either e) [i]) :
    (Part.item i).RejectedAsTrivia := by
  rcases Item.occurs_either_singleton_iff.mp h with rfl | ⟨kind, body, rfl, -⟩
  · trivial
  · trivial

/-- A call that looks at a choice with a fault is a misuse. -/
theorem Calls.misuse_of_checks {front : List Step}
    (hopen : ∀ n, step.chain? = some n → n < (opened front).length) (h : step.Checks e)
    (hfault : e.fault ≠ none) : Misuse front step := by
  cases h with
  | ignoring hmem hoccurs =>
    exact ⟨hopen _ rfl, .inr ⟨_, hmem, Part.rejectedAsTrivia_of_occurs hoccurs⟩⟩
  | ignoreGlobally hmem hoccurs => exact ⟨_, hmem, Part.rejectedAsTrivia_of_occurs hoccurs⟩
  | part hmem =>
    cases step with
    | extend n extension parts => exact ⟨hopen n rfl, .inr ⟨_, hmem, hfault⟩⟩
    | ignoring n parts => exact ⟨hopen n rfl, .inr ⟨_, hmem, trivial⟩⟩
    | ignoreGlobally parts => exact ⟨_, hmem, trivial⟩
    | _ => cases hmem

/-! ## Choices in grammars -/

namespace Builder

/-- In a grammar, only a loop that was made beforehand may hold a choice with a fault. -/
theorem fault_of_build {steps : List Step} {g : Grammar}
    (h : (empty.run steps).build = .ok g) {v : Variation} (hv : v ∈ g.variations)
    (he : Item.Occurs (.either e) v.content) : e.fault = none ∨ ∃ step ∈ steps, step.Hides e := by
  obtain ⟨step, hstep, hfrom⟩ := occurs_of_build h hv (by simp) he
  rcases hfrom with ⟨p, -, hp⟩ | hburied
  · exact .inl (Part.fault_of_toItem hp)
  · exact .inr ⟨step, hstep, hburied⟩

/-- **Malformed candidates are noticed unless a ready-made loop hides them.** A choice is given to a
call where the call looks at it or in a loop that was made beforehand. In the first case, a part
that is no candidate spoils the builder for good. So in a grammar, a choice has a candidate for each
of its parts, or some call hid it in a loop. -/
theorem build_notices_malformed (ps : List Part) :
    (∀ step : Step, step.Gives (.oneOf ps) ↔ step.Checks (.oneOf ps) ∨ step.Hides (.oneOf ps)) ∧
      (∀ front step back, (∀ n, step.chain? = some n → n < (Calls.opened front).length) →
        step.Checks (.oneOf ps) → (∃ p ∈ ps, ¬ p.IsCandidate) →
        ∃ errors, (empty.run (front ++ step :: back)).build = .error errors) ∧
      ∀ steps g, (empty.run steps).build = .ok g → ∀ v ∈ g.variations,
        Item.Occurs (.either (.oneOf ps)) v.content →
        (Either.oneOf ps).candidates.length = ps.length ∨
          ∃ step ∈ steps, step.Hides (.oneOf ps) := by
  refine ⟨fun step => Step.gives_iff, ?_, fun steps g hbuild v hv hoccurs => ?_⟩
  · rintro front step back hopen hchecks ⟨p, hp, hmalformed⟩
    have hfault : (Either.oneOf ps).fault ≠ none :=
      fun hnone => hmalformed (Either.fault_oneOf_eq_none_iff.mp hnone p hp)
    exact build_error_of_errors (errors_of_misuse (Calls.misuse_of_checks hopen hchecks hfault))
  · rw [Either.length_oneOf_iff]
    exact fault_of_build hbuild hv hoccurs

/-- Two parts of which the second is no candidate, since it lacks a sigil. -/
def halfMalformed : List Part := [.shorthand "@A", .shorthand "bad"]

theorem exists_malformed : ∃ p ∈ halfMalformed, ¬ p.IsCandidate := by
  have hfault : (Either.oneOf halfMalformed).fault ≠ none := by decide
  simpa only [Ne, Either.fault_oneOf_eq_none_iff, not_forall, exists_prop] using hfault

/-- Calls for a grammar, one of which is made with a choice in a ready-made loop. -/
def hidingSteps : List Step :=
  [.startFrom "a", .rule "a",
    .extend 0 .items [.item (.loop .block [.either (.oneOf halfMalformed)])], .finish 0 (some .pass)]

/-- The grammar of these calls. -/
def hidingGrammar : Grammar :=
  ⟨"a", [], [⟨"a", [.loop .block [.either (.oneOf halfMalformed)]], .pass, none, false⟩]⟩

theorem build_hidingSteps : (empty.run hidingSteps).build = .ok hidingGrammar := rfl

theorem occurs_hidden : Item.Occurs (.either (.oneOf halfMalformed))
    [.loop .block [.either (.oneOf halfMalformed)]] :=
  .inside List.mem_cons_self (.here List.mem_cons_self)

/-- The choice spoils the builder if it is a part of its own. In the grammar in which it has lost a
part, a loop hides it. -/
theorem build_notices_malformed_part :
    (∀ back, ∃ errors, (empty.run ([.rule "a"] ++
      .extend 0 .items [.item (.either (.oneOf halfMalformed))] :: back)).build = .error errors) ∧
      (empty.run hidingSteps).build = .ok hidingGrammar ∧
      ∃ step ∈ hidingSteps, step.Hides (.oneOf halfMalformed) := by
  obtain ⟨-, hchecked, hgrammar⟩ := build_notices_malformed halfMalformed
  refine ⟨fun back => hchecked _ _ _ ?_ (.part List.mem_cons_self) exists_malformed,
    build_hidingSteps, ?_⟩
  · rintro n ⟨⟩
    exact Nat.zero_lt_one
  · have hlost : (Either.oneOf halfMalformed).candidates.length ≠ halfMalformed.length := by decide
    exact (hgrammar _ _ build_hidingSteps _ List.mem_cons_self occurs_hidden).resolve_left hlost

/-- A malformed candidate in a ready-made loop is dropped, and nothing tells of it. -/
theorem build_drops_malformed :
    (∃ p ∈ halfMalformed, ¬ p.IsCandidate) ∧
      (∃ step ∈ hidingSteps, step.Gives (.oneOf halfMalformed)) ∧
      (empty.run hidingSteps).build = .ok hidingGrammar ∧
      ∃ v ∈ hidingGrammar.variations, Item.Occurs (.either (.oneOf halfMalformed)) v.content ∧
        (Either.oneOf halfMalformed).candidates.length = 1 ∧ halfMalformed.length = 2 := by
  have hgives : ∃ step ∈ hidingSteps, step.Gives (.oneOf halfMalformed) :=
    ⟨_, .tail _ (.tail _ (.head _)), _, List.mem_cons_self, occurs_hidden⟩
  exact ⟨exists_malformed, hgives, build_hidingSteps, _, List.mem_cons_self, occurs_hidden, rfl,
    rfl⟩

end Builder
end TokenGrammar
