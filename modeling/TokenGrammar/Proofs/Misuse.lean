import Mathlib.Data.List.Induction
import TokenGrammar.Proofs.Calls
import TokenGrammar.Proofs.Compilation

/-!
# Misuse of a builder

Whether a call is a misuse is seen from the calls before it: they tell which chains were opened and
which of these were closed since. Every misuse is recorded with one error when it happens, no other
call records anything, and no call takes anything back. So a builder gives a grammar exactly if none
of its calls was a misuse, all its chains are closed and what was committed is well formed; after the
first misuse it never gives one again.

A call on a chain that is not opened yet cannot be made by a caller, who knows a chain from its
opening only. Such a call has no effect, and it is left out wherever the calls on a chain are meant.

## Main definitions

* `Calls.opened`: the rules of the chains that were opened.
* `Calls.reaching`: the calls that are not made on chains still unopened.
* `Calls.Closed`: the chains that were closed.
* `Calls.Misuse`: misuse after a sequence of calls.
-/
namespace TokenGrammar

/-- The rule that a call opens a chain for, if it opens one. -/
def Step.opens? : Step → Option String
  | .rule name => some name
  | _ => none

theorem Step.opens?_eq_none {step : Step} {n : Nat} (on : step.chain? = some n) :
    step.opens? = none := by
  cases step with
  | rule _ => cases on
  | _ => rfl

/-! ## Histories -/

namespace Calls

/-- The rules of the chains that are opened, in the order of the chains' numbers. -/
def opened (steps : List Step) : List String := steps.filterMap Step.opens?

/-- The calls that reach something when `count` chains were opened before: all but those on chains
that are not opened yet. -/
def reaching : Nat → List Step → List Step
  | _, [] => []
  | count, step :: rest =>
    (if step.chain?.all (· < count) then [step] else []) ++
      reaching (count + step.opens?.toList.length) rest

/-- A chain is closed by any finalizer that is called after the chain was opened. -/
def Closed (steps : List Step) (n : Nat) : Prop := ∃ strategy, .finish n strategy ∈ reaching 0 steps

/-- Whether a call is a misuse after other calls. -/
def Misuse (steps : List Step) (step : Step) : Prop :=
  step.Misused (· < (opened steps).length) (Closed steps)

variable {steps : List Step} {step : Step} {n : Nat}

theorem opened_concat (steps : List Step) (step : Step) :
    opened (steps ++ [step]) = opened steps ++ step.opens?.toList := by
  rw [opened, List.filterMap_append]
  cases h : step.opens? <;> simp [opened, h]

theorem reaching_concat (count : Nat) (steps : List Step) (step : Step) :
    reaching count (steps ++ [step]) = reaching count steps ++
      if step.chain?.all (· < count + (opened steps).length) then [step] else [] := by
  induction steps generalizing count with
  | nil => exact List.append_nil _
  | cons s steps ih =>
    have hcount : count + s.opens?.toList.length + (opened steps).length =
        count + (opened (s :: steps)).length := by
      cases h : s.opens? with
      | none => simp [opened, h]
      | some name =>
        simp [opened, h]
        omega
    rw [List.cons_append, reaching, ih, hcount, reaching, List.append_assoc]

theorem closed_concat : Closed (steps ++ [step]) n ↔
    Closed steps n ∨ n < (opened steps).length ∧ ∃ strategy, step = .finish n strategy := by
  simp only [Closed, reaching_concat, List.mem_append, exists_or]
  refine or_congr_right ?_
  constructor
  · rintro ⟨strategy, h⟩
    split at h
    · next hreach =>
      obtain rfl := List.mem_singleton.mp h
      exact ⟨by simpa [Step.chain?] using hreach, strategy, rfl⟩
    · cases h
  · rintro ⟨hlt, strategy, rfl⟩
    exact ⟨strategy, by simp [Step.chain?, hlt]⟩

end Calls

/-! ## The chains of a builder -/

namespace Builder

variable {b b' : Builder} {step : Step} {n : Nat}

theorem length_chains_apply (b : Builder) (step : Step) :
    (b.apply step).chains.length = b.chains.length + step.opens?.toList.length := by
  have hout := b.outcome_apply step
  generalize b.apply step = b' at hout ⊢
  cases hout with
  | refused e _ => cases step <;> simp [spoilt, Step.touch, Step.opens?]
  | goes _ go =>
    cases go with
    | ignores _ => rfl
    | starts => rfl
    | moves move =>
      cases move with
      | opens _ => simp [Step.opens?]
      | passes on _ => simp [Step.opens?_eq_none on]
      | acts on _ _ _ => simp [Step.opens?_eq_none on]

/-- An opening closes nothing. -/
theorem closed_append_fresh {chains : List Chain} {name : String} :
    (∃ c, (chains ++ [Chain.fresh name])[n]? = some c ∧ c.finalized = true) ↔
      ∃ c, chains[n]? = some c ∧ c.finalized = true := by
  refine exists_congr fun c => ?_
  rw [List.getElem?_append]
  split
  · rfl
  · next hlt =>
    rw [List.getElem?_eq_none (Nat.not_lt.mp hlt)]
    constructor
    · rintro ⟨h, hf⟩
      obtain rfl := List.mem_singleton.mp (List.mem_of_getElem? h)
      cases hf
    · exact nofun

theorem closed_modify_close {chains : List Chain} {m : Nat} :
    (∃ c, (chains.modify m Chain.close)[n]? = some c ∧ c.finalized = true) ↔
      (∃ c, chains[n]? = some c ∧ c.finalized = true) ∨ n < chains.length ∧ m = n := by
  rw [List.getElem?_modify]
  by_cases hlt : n < chains.length
  · by_cases hmn : m = n <;> simp [hmn, hlt, Chain.close]
  · simp [hlt]

/-- A call leaves the chains alone, or it opens one, or it is a finalizer that closes its chain. -/
theorem closed_spoilt (e : ConfigError) : (b.spoilt step e).Closed n ↔
    b.Closed n ∨ b.Opened n ∧ ∃ strategy, step = .finish n strategy := by
  cases step with
  | rule name => simpa [spoilt, Closed, Step.touch] using closed_append_fresh
  | finish m strategy =>
    simp only [spoilt, Closed, Opened, Step.touch, closed_modify_close]
    simp
  | _ => simp [spoilt, Closed, Step.touch]

theorem finalized_of_acts {c c' : Chain} {vs : List Variation} (act : step.Acts c c' vs)
    (on : step.chain? = some n) (unclosed : c.finalized = false) :
    c'.finalized = true ↔ ∃ strategy, step = .finish n strategy := by
  cases act with
  | finish usable =>
    cases on
    exact ⟨fun _ => ⟨_, rfl⟩, fun _ => rfl⟩
  | _ => simp [unclosed]

theorem closed_of_goes (h : b.Goes step b') : b'.Closed n ↔
    b.Closed n ∨ b.Opened n ∧ ∃ strategy, step = .finish n strategy := by
  cases h with
  | ignores _ => simp [Closed]
  | starts => simp [Closed]
  | moves move =>
    cases move with
    | opens named => simpa [Closed] using closed_append_fresh
    | @passes _ m on unopened =>
      refine ⟨.inl, fun h => h.elim id ?_⟩
      rintro ⟨hopen, strategy, rfl⟩
      cases on
      exact absurd hopen (Nat.not_lt.mpr unopened)
    | @acts _ m c c' vs on has unclosed act =>
      obtain ⟨hlt, -⟩ := List.getElem?_eq_some_iff.mp has
      by_cases hmn : m = n
      · subst hmn
        rw [Closed, closed_iff has, unclosed, ← finalized_of_acts act on unclosed]
        simp [Opened, hlt]
      · have hne : ∀ strategy, step ≠ .finish n strategy := by
          rintro strategy rfl
          exact hmn (Option.some.inj on).symm
        simp [Closed, hmn, hne]

/-- Nothing but a finalizer closes a chain, and every finalizer closes its chain. -/
theorem closed_apply : (b.apply step).Closed n ↔
    b.Closed n ∨ b.Opened n ∧ ∃ strategy, step = .finish n strategy := by
  have hout := b.outcome_apply step
  generalize b.apply step = b' at hout ⊢
  cases hout with
  | refused e _ => exact closed_spoilt e
  | goes _ go => exact closed_of_goes go

theorem length_chains_run (steps : List Step) :
    (empty.run steps).chains.length = (Calls.opened steps).length := by
  induction steps using List.reverseRecOn with
  | nil => rfl
  | append_singleton steps step ih =>
    rw [run_append, run_cons, run_nil, length_chains_apply, ih, Calls.opened_concat,
      List.length_append]

theorem opened_run (steps : List Step) :
    (empty.run steps).Opened n ↔ n < (Calls.opened steps).length := by
  rw [Opened, length_chains_run]

theorem closed_run (steps : List Step) : (empty.run steps).Closed n ↔ Calls.Closed steps n := by
  induction steps using List.reverseRecOn with
  | nil => simp [Closed, Calls.Closed, empty, Calls.reaching]
  | append_singleton steps step ih =>
    rw [run_append, run_cons, run_nil, closed_apply, ih, opened_run, Calls.closed_concat]

/-- The calls before tell what the state of the builder tells. -/
theorem refuses_run_iff {steps : List Step} :
    (empty.run steps).Refuses step ↔ Calls.Misuse steps step := by
  have hopened : (empty.run steps).Opened = (· < (Calls.opened steps).length) :=
    funext fun _ => propext (opened_run steps)
  have hclosed : (empty.run steps).Closed = Calls.Closed steps :=
    funext fun _ => propext (closed_run steps)
  rw [Refuses, Calls.Misuse, hopened, hclosed]

/-! ## What is recorded -/

variable {steps : List Step}

theorem run_concat (b : Builder) (steps : List Step) (step : Step) :
    b.run (steps ++ [step]) = (b.run steps).apply step := by
  rw [run_append, run_cons, run_nil]

theorem errors_of_misuse {later : List Step} (h : Calls.Misuse steps step) :
    (empty.run (steps ++ step :: later)).errors ≠ [] := by
  intro hnil
  rw [run_append, run_cons] at hnil
  exact not_refuses_of_errors_eq_nil (errors_of_run hnil) (refuses_run_iff.mpr h)

theorem errors_of_proper (h : ¬ Calls.Misuse steps step) :
    (empty.run (steps ++ [step])).errors = (empty.run steps).errors := by
  rw [run_concat]
  exact (goes_of_not_refuses (mt refuses_run_iff.mp h)).errors

/-- The record is empty as long as no call was a misuse. -/
theorem errors_run_eq_nil_iff : (empty.run steps).errors = [] ↔
    ∀ front step back, steps = front ++ step :: back → ¬ Calls.Misuse front step := by
  constructor
  · rintro hnil front step back rfl hmisuse
    exact errors_of_misuse hmisuse hnil
  · intro hproper
    induction steps using List.reverseRecOn with
    | nil => rfl
    | append_singleton steps step ih =>
      rw [errors_of_proper (hproper steps step [] rfl)]
      refine ih fun front step' back heq => hproper front step' (back ++ [step]) ?_
      rw [heq, List.append_assoc, List.cons_append]

theorem openErrors_eq_nil_iff : b.openErrors = [] ↔ ∀ n, b.Opened n → b.Closed n := by
  rw [openErrors, List.map_eq_nil_iff, List.filter_eq_nil_iff]
  constructor
  · intro h n hlt
    exact ⟨b.chains[n], List.getElem?_eq_getElem hlt, by simpa using h _ (List.getElem_mem hlt)⟩
  · intro h c hc
    obtain ⟨n, hn⟩ := List.mem_iff_getElem?.mp hc
    have hf : c.finalized = true := (closed_iff hn).mp (h n (opened_iff.mpr ⟨c, hn⟩))
    simp [hf]

theorem build_ok_iff : (∃ g, b.build = .ok g) ↔
    b.errors = [] ∧ (∀ n, b.Opened n → b.Closed n) ∧ b.grammar.WellFormed := by
  simp only [build_eq_ok_iff, exists_and_left, exists_eq', and_true]
  rw [problems, List.append_eq_nil_iff, List.append_eq_nil_iff, openErrors_eq_nil_iff,
    Grammar.problems_eq_nil_iff, and_assoc]

theorem build_error_of_errors (h : b.errors ≠ []) : ∃ errors, b.build = .error errors := by
  cases hb : b.build with
  | error errors => exact ⟨errors, rfl⟩
  | ok g => exact absurd (build_ok_iff.mp ⟨g, hb⟩).1 h

/-- **Misuse is recorded once and for ever.** A builder gives a grammar exactly if no call so far was
a misuse, every chain was closed and the grammar is well formed. A misuse adds one error and changes
nothing else, but an opening still opens its chain and a finalizer still closes its own; on a chain
that was closed before, it changes no chain at all. After a misuse the builder gives no grammar,
whatever calls follow. A call that is no misuse records nothing. -/
theorem misuse_lasts (steps : List Step) :
    ((∃ g, (empty.run steps).build = .ok g) ↔
      (∀ front step back, steps = front ++ step :: back → ¬ Calls.Misuse front step) ∧
      (∀ n < (Calls.opened steps).length, Calls.Closed steps n) ∧
      (empty.run steps).grammar.WellFormed) ∧
    ∀ step,
      (Calls.Misuse steps step →
        (∃ e, empty.run (steps ++ [step]) =
          { empty.run steps with
            errors := (empty.run steps).errors ++ [e]
            chains := step.touch (empty.run steps).chains }) ∧
        (∀ n, step.chain? = some n → Calls.Closed steps n →
          (empty.run (steps ++ [step])).chains = (empty.run steps).chains) ∧
        ∀ later, ∃ errors, (empty.run (steps ++ step :: later)).build = .error errors) ∧
      (¬ Calls.Misuse steps step →
        (empty.run (steps ++ [step])).errors = (empty.run steps).errors) := by
  refine ⟨?_, fun step => ⟨fun hmisuse => ⟨?_, ?_, ?_⟩, errors_of_proper⟩⟩
  · simp only [build_ok_iff, errors_run_eq_nil_iff, opened_run, closed_run]
  · rw [run_concat]
    exact apply_of_refuses (refuses_run_iff.mpr hmisuse)
  · intro n on hclosed
    obtain ⟨c, has, hf⟩ := (closed_run steps).mpr hclosed
    obtain ⟨e, he⟩ := apply_of_closed on has hf
    rw [run_concat, he]
  · intro later
    exact build_error_of_errors (errors_of_misuse hmisuse)

-- The good part of a call is not kept when another part of it is rejected.
example : (empty.run [.rule "a", .extend 0 .items
      [.item (.atom (.token "X")), .value (.text "X")]]).chains.map (·.content) = [[]] :=
  rfl

end Builder
end TokenGrammar
