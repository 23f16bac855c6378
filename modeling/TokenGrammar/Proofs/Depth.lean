import TokenGrammar.Proofs.Records

/-!
# The depth limit

The limit on nested rules cuts an evaluation off and changes nothing else. A rule that is nested too
deep ends the parse at once: no other variation, no other candidate and no loop with a finished pass
takes its place. So an evaluation that stays within its limit runs in the same way under every
larger one.

Both halves are about runs side by side and runs as a whole. Two evaluations of one input with
different levels left agree until the one with fewer of them runs out; and every fault in the record
of an evaluation, however deep, is the fault in which the evaluation ends.

## Main definitions

* `Fault.IsDepth`: the faults of rules that are nested too deep.
* `Call.faults`: all faults in the record of a call.
* `Setting.deepening`: the simulation of an evaluation by one with more levels left.
-/
namespace TokenGrammar

/-- A rule was nested too deep. -/
def Fault.IsDepth (f : Fault) : Prop := ∃ e, f = .parse e ∧ e.kind = .depthExceeded

/-! ## More levels -/

namespace Setting

/-- The evaluation of the same input by the same grammar, where the first run may end too deep. -/
def deepening (s : Setting) : Simulation s s := .refl s Fault.IsDepth

/-- With more levels left, rules do the same or were nested too deep before. The induction is on the
levels of the first run: without any of them, a defined rule is excused. -/
theorem deepening_readRule (s : Setting) {m n : Nat} (h : m ≤ n) :
    s.deepening.Callers (s.readRule m) (s.readRule n) := by
  induction m generalizing n with
  | zero =>
    rintro rule c _ rfl
    by_cases hr : s.grammar.has rule = true
    · rw [readRule_zero hr]
      exact .left ⟨_, rfl, rfl⟩
    · have hnone : s.grammar.variationsOf rule = [] := by
        rwa [Grammar.has_iff, not_not] at hr
      cases n <;> simp only [readRule, enter, hnone] <;> exact .fatal rfl
  | succ m ih =>
    obtain ⟨n, rfl⟩ : ∃ k, n = k + 1 := ⟨n - 1, by omega⟩
    exact Simulation.readRule_succ (ih (Nat.le_of_succ_le_succ h))

end Setting

/-! ## Faults in records -/

mutual

/-- The faults in which a recorded rule and the rules inside it ended. -/
def Call.faults : Call → List Fault
  | .mk _ _ inner outcome => Call.allFaults inner ++ outcome.fault?.toList

/-- The faults in several records. -/
def Call.allFaults : List Call → List Fault
  | [] => []
  | c :: cs => c.faults ++ Call.allFaults cs

end

theorem Call.mem_allFaults {calls : List Call} {f : Fault} :
    f ∈ Call.allFaults calls ↔ ∃ x ∈ calls, f ∈ x.faults := by
  induction calls with
  | nil => simp [Call.allFaults]
  | cons c cs ih => simp [Call.allFaults, ih]

/-- The faults in the record of a call are that in which the evaluation ended. -/
def Call.Blames (fault : Option Fault) (x : Call) : Prop := ∀ f ∈ x.faults, fault = some f

/-- An evaluation goes on only if there was no fault. -/
theorem Call.lasting_blames : Call.Lasting Call.Blames :=
  fun _ _ h f hf => nomatch h f hf

theorem Call.Kept.allFaults {fault : Option Fault} {calls : List Call}
    (h : Call.Kept Call.Blames fault calls) : ∀ f ∈ Call.allFaults calls, fault = some f := by
  intro f hf
  obtain ⟨x, hx, hmem⟩ := Call.mem_allFaults.mp hf
  exact h x hx f hmem

/-- The record of a rule holds the faults inside it and its own, which are the same. -/
theorem Call.kept_record {rule : String} {i : Nat} {inner : List Call} {outcome : Outcome Value}
    (h : Call.Kept Call.Blames outcome.fault? inner) :
    Call.Kept Call.Blames outcome.fault? [.mk rule i inner outcome] := by
  refine List.forall_mem_singleton.mpr fun f hf => ?_
  rw [Call.faults, List.mem_append, Option.mem_toList] at hf
  rcases hf with hf | hf
  · exact h.allFaults f hf
  · exact hf

namespace Setting

/-- A fault inside a rule is the fault of the rule, at every depth. -/
theorem records_readRule (s : Setting) (depth : Nat) : Records Call.Blames (s.readRule depth) := by
  refine s.recorded_readRule (Q := fun _ _ => Call.Kept Call.Blames)
    (fun _ => Call.lasting_blames.composes) ?_ ?_ depth
  · intro rule i fault _
    exact Call.kept_record .nil
  · intro depth rule i inner outcome hinner
    exact Call.kept_record hinner

end Setting

/-! ## Parses -/

namespace Grammar

variable {g : Grammar}

/-- **The depth limit is monotone**: a parse that is not nested too deep ends in the same way, with
the same value or the same error, under every limit that is not smaller. And no rule that is nested
too deep is passed over: a fault anywhere in the record of a parse is its result. -/
theorem parseRule_eq_of_le (hg : g.Built) {rule : String} (hr : g.has rule = true)
    {limit limit' : Int} (hle : effectiveDepth limit ≤ effectiveDepth limit')
    (tokens : List Token) :
    ((∀ e, (g.parseRule limit rule tokens).result = .error (.parse e) → e.kind ≠ .depthExceeded) →
      (g.parseRule limit' rule tokens).result = (g.parseRule limit rule tokens).result) ∧
    ∀ f ∈ Call.allFaults (g.parseRule limit rule tokens).calls,
      (g.parseRule limit rule tokens).result = .error f := by
  have heval : ∀ depth, Setting.evaluate ⟨g, tokens⟩ depth = Setting.readRule ⟨g, tokens⟩ depth :=
    Setting.evaluate_eq_readRule (s := ⟨g, tokens⟩) hg.wellFormed
  constructor
  · intro hshallow
    rw [parseRule_result hr, heval] at hshallow
    rw [parseRule_result hr, parseRule_result hr, heval, heval]
    have hruns := Setting.deepening_readRule ⟨g, tokens⟩ hle rule .origin .origin rfl
    refine (Alignment.conclusion_eq hruns ?_ rule tokens).symm
    rintro _ hfatal ⟨e, rfl, hkind⟩
    exact hshallow e (by rw [conclusion, hfatal]) hkind
  · intro f hf
    have hkept := Setting.records_readRule ⟨g, tokens⟩ (effectiveDepth limit) rule .origin
      Cursor.ordered_origin
    rw [parseRule_result hr]
    simp only [parseRule, hr, if_true, heval] at hf ⊢
    have hfault := hkept.allFaults f hf
    generalize Setting.readRule ⟨g, tokens⟩ (effectiveDepth limit) rule .origin = r at hfault ⊢
    rw [conclusion]
    cases ho : r.outcome with
    | fatal e =>
      rw [ho] at hfault
      exact congrArg Except.error (Option.some.inj hfault)
    | value x => rw [ho] at hfault; cases hfault
    | mismatch i => rw [ho] at hfault; cases hfault

/-- A term in brackets, with a gap in front of it. -/
def nestedVariation : Variation :=
  ⟨"term", [.atom (Atom.rule "gap").skipped, .atom (Atom.token "OPEN").skipped,
      .atom (.rule "term"), .atom (Atom.token "CLOSE").skipped],
    .pass, none, false⟩

/-- An integer without a gap, with or without brackets. -/
def flatVariations : List Variation :=
  [⟨"term", [.atom (.token "INT")], .pass, none, false⟩,
    ⟨"term", [.atom (Atom.token "OPEN").skipped, .atom (.token "INT"),
      .atom (Atom.token "CLOSE").skipped], .select 0, none, false⟩]

/-- A gap may be empty. -/
def gapVariations : List Variation :=
  [⟨"gap", [.atom (.token "GAP")], .pass, none, false⟩, ⟨"gap", [], .pass, none, false⟩]

/-- Terms in brackets. -/
def terms : Grammar := ⟨"term", [], nestedVariation :: flatVariations ++ gapVariations⟩

theorem terms_built : terms.Built := by
  refine ⟨.startFrom "term" ::
    (terms.variations.zipIdx.flatMap fun (v, number) => variationSteps number v), ?_⟩
  rfl

/-- An integer in brackets. -/
def bracketed : List Token := [.bare "OPEN", .bare "INT", .bare "CLOSE"]

/-- With one level, the gap in front of the brackets is nested too deep, and the variation without a
gap is not tried. Three levels are enough, and nine do the same. -/
theorem parseRule_eq_of_le_terms :
    terms.Built ∧ terms.has "term" = true ∧ effectiveDepth 1 ≤ effectiveDepth 9 ∧
      (terms.parseRule 1 "term" bracketed).result =
        .error (.parse (.atIndex .depthExceeded "gap" bracketed 0)) ∧
      effectiveDepth 3 ≤ effectiveDepth 9 ∧
      (∀ e, (terms.parseRule 3 "term" bracketed).result = .error (.parse e) →
        e.kind ≠ .depthExceeded) ∧
      (terms.parseRule 9 "term" bracketed).result = .ok (.token "INT" .null) := by
  have hr : terms.has "term" = true := rfl
  have hle : effectiveDepth 1 ≤ effectiveDepth 9 := by decide
  have hle' : effectiveDepth 3 ≤ effectiveDepth 9 := by decide
  have hraised : Fault.parse (.atIndex .depthExceeded "gap" bracketed 0) ∈
      Call.allFaults (terms.parseRule 1 "term" bracketed).calls := List.mem_of_getElem? (i := 0) rfl
  have hshallow : ∀ e, (terms.parseRule 3 "term" bracketed).result = .error (.parse e) →
      e.kind ≠ .depthExceeded := by
    rintro e ⟨⟩
  obtain ⟨-, hfault⟩ := parseRule_eq_of_le terms_built hr hle bracketed
  obtain ⟨hsame, -⟩ := parseRule_eq_of_le terms_built hr hle' bracketed
  exact ⟨terms_built, hr, hle, hfault _ hraised, hle', hshallow, hsame hshallow⟩

end Grammar
end TokenGrammar
