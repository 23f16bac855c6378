import Mathlib.Data.List.Nodup
import TokenGrammar.Proofs.Misuse

/-!
# Chains and their histories

Chains may be interleaved, but each of them is what its own calls made of it: the items that were
added, in the order of the calls, the ignore set if one was given, and the flag. What is committed
follows the order of the finalizers, whatever the order of the openings. This holds after every
sequence of calls without misuse, and so wherever a builder gives a grammar.

Taking the grammar changes nothing in a builder, so it is not among the calls: a grammar may be taken
after any front of a sequence.

## Main definitions

* `Calls.madeOn`: the calls on one chain.
* `Calls.chain`: the chain that its calls make.
* `Calls.finalizers`: the finalizers, each with its chain and its strategy.
* `Calls.declared`: the variation that a finalizer commits.
* `Builder.Mirrors`: a builder that is what the calls made of it.
-/
namespace TokenGrammar

/-! ## What single calls contribute -/

namespace Step

/-- The items that a call adds to its chain. -/
def added : Step → Content
  | .extend _ extension parts =>
    match Content.ofParts parts with
    | .ok content => extension.wrap content
    | .error _ => []
  | _ => []

/-- Whether a call gives its chain an ignore set. -/
def isIgnoring : Step → Bool
  | .ignoring _ _ => true
  | _ => false

/-- The atoms that a call adds to the ignore set of its chain. -/
def ignored : Step → IgnoreSet
  | .ignoring _ parts =>
    match IgnoreSet.ofParts parts with
    | .ok set => set
    | .error _ => []
  | _ => []

/-- Whether a call sets the rollback flag of its chain. -/
def isPreventRollback : Step → Bool
  | .preventRollback _ => true
  | _ => false

/-- Whether a call closes its chain. -/
def isFinish : Step → Bool
  | .finish _ _ => true
  | _ => false

/-- The chain and the strategy of a finalizer. -/
def finalizer? : Step → Option (Nat × Strategy)
  | .finish n (some s) => some (n, s)
  | _ => none

/-- The atoms that a call adds to the global ignore set. -/
def ignoredGlobally : Step → IgnoreSet
  | .ignoreGlobally parts =>
    match IgnoreSet.ofParts parts with
    | .ok set => set
    | .error _ => []
  | _ => []

/-- The start rule that a call sets. -/
def start? : Step → Option String
  | .startFrom name => some name
  | _ => none

theorem chain?_of_finalizer? {step : Step} {f : Nat × Strategy} (h : step.finalizer? = some f) :
    step.chain? = some f.1 := by
  cases step with
  | finish n strategy =>
    cases strategy with
    | none => cases h
    | some s =>
      cases h
      rfl
  | _ => cases h

end Step

/-- The chain for a rule after calls on it. -/
def Chain.ofCalls (rule : String) (calls : List Step) : Chain where
  rule := rule
  content := calls.flatMap Step.added
  ignore := if calls.any Step.isIgnoring then some (calls.flatMap Step.ignored) else none
  preventRollback := calls.any Step.isPreventRollback
  finalized := calls.any Step.isFinish

theorem Chain.ofCalls_nil (rule : String) : Chain.ofCalls rule [] = .fresh rule := rfl

theorem Step.ignored_eq_nil {step : Step} (h : step.isIgnoring = false) : step.ignored = [] := by
  cases step with
  | ignoring _ _ => cases h
  | _ => rfl

/-- Without a call for an ignore set there is nothing in it. -/
theorem Chain.getD_ignore_ofCalls (rule : String) (calls : List Step) :
    (Chain.ofCalls rule calls).ignore.getD [] = calls.flatMap Step.ignored := by
  rw [Chain.ofCalls]
  split
  · rfl
  · next h =>
    rw [List.any_eq_true] at h
    refine (List.flatMap_eq_nil_iff.mpr fun step hstep => Step.ignored_eq_nil ?_).symm
    exact Bool.eq_false_iff.mpr fun hs => h ⟨step, hstep, hs⟩

/-- A call that acts on a chain adds itself to the history of the chain. -/
theorem Step.Acts.eq_ofCalls {step : Step} {rule : String} {calls : List Step} {c' : Chain}
    {vs : List Variation} (act : step.Acts (.ofCalls rule calls) c' vs) :
    c' = .ofCalls rule (calls ++ [step]) := by
  cases act with
  | extend read =>
    simp [Chain.ofCalls, added, isIgnoring, ignored, isPreventRollback, isFinish, read]
  | ignoring read =>
    rw [Chain.getD_ignore_ofCalls]
    simp [Chain.ofCalls, added, isIgnoring, ignored, isPreventRollback, isFinish, read]
  | preventRollback =>
    simp [Chain.ofCalls, added, isIgnoring, ignored, isPreventRollback, isFinish]
  | finish usable =>
    simp [Chain.ofCalls, added, isIgnoring, ignored, isPreventRollback, isFinish, Chain.close]

/-! ## Histories of chains -/

namespace Calls

/-- The calls on a chain, in order. -/
def madeOn (steps : List Step) (n : Nat) : List Step :=
  (reaching 0 steps).filter (·.chain? == some n)

/-- The chain with a number, as its calls made it. -/
def chain (steps : List Step) (n : Nat) : Chain :=
  .ofCalls ((opened steps)[n]?.getD "") (madeOn steps n)

/-- The finalizers in the order of the calls, each with its chain and its strategy. -/
def finalizers (steps : List Step) : List (Nat × Strategy) :=
  (reaching 0 steps).filterMap Step.finalizer?

/-- The variation of a finalizer: what the calls on its chain declare. -/
def declared (steps : List Step) (f : Nat × Strategy) : Variation :=
  (chain steps f.1).toVariation f.2

variable {steps : List Step} {step : Step} {n : Nat}

theorem reaching_concat_of_unopened (on : step.chain? = some n) (h : (opened steps).length ≤ n) :
    reaching 0 (steps ++ [step]) = reaching 0 steps := by
  simp [reaching_concat, on, Nat.not_lt.mpr h]

theorem reaching_concat_of_opened (on : step.chain? = some n) (h : n < (opened steps).length) :
    reaching 0 (steps ++ [step]) = reaching 0 steps ++ [step] := by
  simp [reaching_concat, on, h]

theorem madeOn_concat_of_ne (h : step.chain? ≠ some n) :
    madeOn (steps ++ [step]) n = madeOn steps n := by
  rw [madeOn, reaching_concat]
  split <;> simp [madeOn, h]

theorem madeOn_concat_of_opened (on : step.chain? = some n) (h : n < (opened steps).length) :
    madeOn (steps ++ [step]) n = madeOn steps n ++ [step] := by
  simp [madeOn, reaching_concat_of_opened on h, on]

/-- Nothing is made on a chain before it is opened. -/
theorem madeOn_eq_nil (h : (opened steps).length ≤ n) : madeOn steps n = [] := by
  induction steps using List.reverseRecOn with
  | nil => rfl
  | append_singleton steps step ih =>
    have hle : (opened steps).length ≤ n := by
      rw [opened_concat, List.length_append] at h
      omega
    by_cases on : step.chain? = some n
    · rw [madeOn, reaching_concat_of_unopened on hle]
      exact ih hle
    · rw [madeOn_concat_of_ne on, ih hle]

/-- A chain that no call is made on stays what it is. -/
theorem chain_concat (h : n < (opened steps).length)
    (hmade : madeOn (steps ++ [step]) n = madeOn steps n) :
    chain (steps ++ [step]) n = chain steps n := by
  rw [chain, hmade, opened_concat, List.getElem?_append_left h, chain]

theorem declared_concat {f : Nat × Strategy} (h : f.1 < (opened steps).length)
    (hne : step.chain? ≠ some f.1) : declared (steps ++ [step]) f = declared steps f := by
  rw [declared, chain_concat h (madeOn_concat_of_ne hne), declared]

theorem finalizers_concat (steps : List Step) (step : Step) :
    finalizers (steps ++ [step]) = finalizers steps ++
      if step.chain?.all (· < (opened steps).length) then step.finalizer?.toList else [] := by
  rw [finalizers, reaching_concat, List.filterMap_append, finalizers, Nat.zero_add]
  split
  · cases h : step.finalizer? <;> simp [h]
  · rfl

/-- The chains with a finalizer, after one more call. -/
theorem mem_finalizers_concat :
    n ∈ (finalizers (steps ++ [step])).map Prod.fst ↔
      n ∈ (finalizers steps).map Prod.fst ∨
        n < (opened steps).length ∧ ∃ s, step = .finish n (some s) := by
  rw [finalizers_concat, List.map_append, List.mem_append]
  refine or_congr_right ?_
  cases step with
  | finish m strategy =>
    cases strategy with
    | none => simp [Step.finalizer?]
    | some s =>
      by_cases hm : m < (opened steps).length
      · have hsame : n = m ↔ n < (opened steps).length ∧ m = n :=
          ⟨fun h => ⟨h ▸ hm, h.symm⟩, fun h => h.2.symm⟩
        simpa [Step.chain?, Step.finalizer?, hm] using hsame
      · have hnone : n < (opened steps).length → m ≠ n := fun hn h => hm (h ▸ hn)
        simpa [Step.chain?, hm] using hnone
  | _ => simp [Step.finalizer?]

/-- A call on a chain without a finalizer gives no chain a second one. -/
theorem nodup_finalizers_concat (h : ((finalizers steps).map Prod.fst).Nodup)
    (hne : ∀ n ∈ (finalizers steps).map Prod.fst, step.chain? ≠ some n) :
    ((finalizers (steps ++ [step])).map Prod.fst).Nodup := by
  rw [finalizers_concat, List.map_append]
  split
  · cases hf : step.finalizer? with
    | none => simpa using h
    | some f =>
      have hon : step.chain? = some f.1 := Step.chain?_of_finalizer? hf
      refine List.nodup_append.mpr ⟨h, List.nodup_singleton f.1, ?_⟩
      rintro n hn m hm rfl
      exact hne n hn (List.mem_singleton.mp hm ▸ hon)
  · simpa using h

end Calls

theorem Step.Moves.no_global {step : Step} {chains chains' : List Chain} {vs : List Variation}
    (move : step.Moves chains chains' vs) : step.start? = none ∧ step.ignoredGlobally = [] := by
  have onChain : ∀ {n}, step.chain? = some n → step.start? = none ∧ step.ignoredGlobally = [] := by
    intro n on
    cases step with
    | ignoreGlobally _ | startFrom _ => cases on
    | _ => exact ⟨rfl, rfl⟩
  cases move with
  | opens _ => exact ⟨rfl, rfl⟩
  | passes on _ => exact onChain on
  | acts on _ _ _ => exact onChain on

/-! ## Builders and histories -/

namespace Builder

/-- A builder that is what the calls made of it. -/
structure Mirrors (b : Builder) (steps : List Step) : Prop where
  start : b.start = (steps.filterMap Step.start?).getLast?.getD ""
  ignore : b.ignore = steps.flatMap Step.ignoredGlobally
  length : b.chains.length = (Calls.opened steps).length
  chains : ∀ n < (Calls.opened steps).length, b.chains[n]? = some (Calls.chain steps n)
  variations : b.variations = (Calls.finalizers steps).map (Calls.declared steps)
  closed : ∀ n, n ∈ (Calls.finalizers steps).map Prod.fst ↔ b.Closed n
  nodup : ((Calls.finalizers steps).map Prod.fst).Nodup

variable {b b' : Builder} {step : Step} {steps : List Step} {n : Nat}

theorem mirrors_empty : empty.Mirrors [] where
  start := rfl
  ignore := rfl
  length := rfl
  chains := nofun
  variations := rfl
  closed := by simp [Closed, empty, Calls.finalizers, Calls.reaching]
  nodup := List.nodup_nil

/-- A call leaves alone the chains that it is not made on. -/
theorem Goes.getElem?_chains (go : b.Goes step b') (hlt : n < b.chains.length)
    (hne : step.chain? ≠ some n) : b'.chains[n]? = b.chains[n]? := by
  cases go with
  | ignores _ => rfl
  | starts => rfl
  | moves move =>
    cases move with
    | opens _ => exact List.getElem?_append_left hlt
    | passes _ _ => rfl
    | @acts _ m _ _ _ on _ _ _ =>
      have hmn : m ≠ n := fun heq => hne (heq ▸ on)
      exact List.getElem?_set_ne hmn

/-- A call on an open chain acts on it. -/
theorem Goes.acts_of_chain? (go : b.Goes step b') (hlt : n < b.chains.length)
    (hon : step.chain? = some n) : ∃ c c' vs, b.chains[n]? = some c ∧ c.finalized = false ∧
      step.Acts c c' vs ∧ b'.chains[n]? = some c' ∧ b'.variations = b.variations ++ vs := by
  cases go with
  | ignores _ => cases hon
  | starts => cases hon
  | moves move =>
    cases move with
    | opens _ => cases hon
    | passes on unopened =>
      obtain rfl := Option.some.inj (on.symm.trans hon)
      exact absurd hlt (Nat.not_lt.mpr unopened)
    | acts on has unclosed act =>
      obtain rfl := Option.some.inj (on.symm.trans hon)
      exact ⟨_, _, _, has, unclosed, act, List.getElem?_set_self hlt, rfl⟩

/-- A call in order is not made on a closed chain. -/
theorem Goes.chain?_ne (go : b.Goes step b') (hclosed : b.Closed n) : step.chain? ≠ some n := by
  intro hon
  obtain ⟨c, c', vs, has, unclosed, -⟩ := go.acts_of_chain? hclosed.opened hon
  exact Bool.false_ne_true (unclosed.symm.trans ((closed_iff has).mp hclosed))

/-- A finalizer in order has a strategy. -/
theorem Goes.exists_strategy {strategy : Option Strategy} (go : b.Goes (.finish n strategy) b')
    (hopen : b.Opened n) : ∃ s, strategy = some s := by
  obtain ⟨c, c', vs, -, -, act, -⟩ := go.acts_of_chain? hopen rfl
  cases act with
  | @finish _ s => exact ⟨s, rfl⟩

namespace Mirrors

theorem opened_iff (h : b.Mirrors steps) : b.Opened n ↔ n < (Calls.opened steps).length := by
  rw [Opened, h.length]

theorem start_of_goes (h : b.Mirrors steps) (go : b.Goes step b') :
    b'.start = ((steps ++ [step]).filterMap Step.start?).getLast?.getD "" := by
  rw [List.filterMap_append]
  cases go with
  | moves move => simpa [move.no_global.1] using h.start
  | ignores _ => simpa [Step.start?] using h.start
  | starts => simp [Step.start?]

theorem ignore_of_goes (h : b.Mirrors steps) (go : b.Goes step b') :
    b'.ignore = (steps ++ [step]).flatMap Step.ignoredGlobally := by
  rw [List.flatMap_append, ← h.ignore]
  cases go with
  | moves move => simp [move.no_global.2]
  | ignores read => simp [Step.ignoredGlobally, read]
  | starts => simp [Step.ignoredGlobally]

theorem length_of_goes (h : b.Mirrors steps) (go : b.Goes step b') :
    b'.chains.length = (Calls.opened (steps ++ [step])).length := by
  rw [← go.apply_eq, length_chains_apply, h.length, Calls.opened_concat, List.length_append]

/-- A call on an open chain makes of it what the history of the chain then says. -/
theorem chain_of_acts (h : b.Mirrors steps) (hon : step.chain? = some n)
    (hn : n < (Calls.opened steps).length) {c c' : Chain} {vs : List Variation}
    (has : b.chains[n]? = some c) (act : step.Acts c c' vs) :
    c' = Calls.chain (steps ++ [step]) n := by
  obtain rfl := Option.some.inj ((h.chains n hn).symm.trans has)
  rw [act.eq_ofCalls, Calls.chain, Calls.madeOn_concat_of_opened hon hn, Calls.opened_concat,
    List.getElem?_append_left hn]

/-- A chain that a call opens has no history yet. -/
theorem chain_of_opens (h : b.Mirrors steps) (go : b.Goes step b')
    (hnew : (Calls.opened steps).length ≤ n) (hn : n < (Calls.opened (steps ++ [step])).length) :
    b'.chains[n]? = some (Calls.chain (steps ++ [step]) n) := by
  rw [Calls.opened_concat, List.length_append] at hn
  cases go with
  | ignores _ | starts => exact absurd hn (Nat.not_lt.mpr hnew)
  | moves move =>
    cases move with
    | passes on _ | acts on _ _ _ =>
      rw [Step.opens?_eq_none on] at hn
      exact absurd hn (Nat.not_lt.mpr hnew)
    | @opens name _ =>
      have hlen : (Calls.opened steps).length = n := Nat.le_antisymm hnew (Nat.le_of_lt_succ hn)
      have hne : (Step.rule name).chain? ≠ some n := by simp [Step.chain?]
      have hmade : Calls.madeOn (steps ++ [.rule name]) n = [] := by
        rw [Calls.madeOn_concat_of_ne hne, Calls.madeOn_eq_nil hnew]
      rw [Calls.chain, hmade, Calls.opened_concat, Chain.ofCalls_nil, ← hlen, ← h.length]
      simp [Step.opens?, h.length]

theorem chains_of_goes (h : b.Mirrors steps) (go : b.Goes step b')
    (hn : n < (Calls.opened (steps ++ [step])).length) :
    b'.chains[n]? = some (Calls.chain (steps ++ [step]) n) := by
  by_cases hold : n < (Calls.opened steps).length
  · have hlt : b.Opened n := h.opened_iff.mpr hold
    by_cases hon : step.chain? = some n
    · obtain ⟨c, c', vs, has, -, act, has', -⟩ := go.acts_of_chain? hlt hon
      rw [has', h.chain_of_acts hon hold has act]
    · rw [go.getElem?_chains hlt hon, h.chains n hold,
        Calls.chain_concat hold (Calls.madeOn_concat_of_ne hon)]
  · exact h.chain_of_opens go (Nat.not_lt.mp hold) hn

theorem variations_of_goes (h : b.Mirrors steps) (go : b.Goes step b') :
    b'.variations = (Calls.finalizers (steps ++ [step])).map (Calls.declared (steps ++ [step])) := by
  have hold : (Calls.finalizers steps).map (Calls.declared (steps ++ [step])) = b.variations := by
    rw [h.variations]
    refine List.map_congr_left fun f hf => ?_
    have hclosed : b.Closed f.1 := (h.closed f.1).mp (List.mem_map_of_mem hf)
    exact Calls.declared_concat (h.opened_iff.mp hclosed.opened) (go.chain?_ne hclosed)
  rw [Calls.finalizers_concat, List.map_append, hold]
  cases go with
  | ignores _ => simp [Step.finalizer?]
  | starts => simp [Step.finalizer?]
  | moves move =>
    cases move with
    | opens _ => simp [Step.finalizer?]
    | passes on unopened => simp [on, ← h.length, Nat.not_lt.mpr unopened]
    | @acts _ n c c' vs on has unclosed act =>
      have hn : n < (Calls.opened steps).length := h.opened_iff.mp (Builder.opened_iff.mpr ⟨c, has⟩)
      have hc' : c' = Calls.chain (steps ++ [step]) n := h.chain_of_acts on hn has act
      simp only [on, Option.all_some, decide_eq_true hn, if_true]
      cases act with
      | finish usable =>
        cases on
        simp [Step.finalizer?, Calls.declared, ← hc', Chain.close, Chain.toVariation]
      | _ => simp [Step.finalizer?]

theorem closed_of_goes (h : b.Mirrors steps) (go : b.Goes step b') (n : Nat) :
    n ∈ (Calls.finalizers (steps ++ [step])).map Prod.fst ↔ b'.Closed n := by
  rw [Calls.mem_finalizers_concat, h.closed, Builder.closed_of_goes go, h.opened_iff]
  refine or_congr_right (and_congr_right fun hn => ⟨?_, ?_⟩)
  · rintro ⟨s, rfl⟩
    exact ⟨some s, rfl⟩
  · rintro ⟨strategy, rfl⟩
    obtain ⟨s, rfl⟩ := go.exists_strategy (h.opened_iff.mpr hn)
    exact ⟨s, rfl⟩

theorem nodup_of_goes (h : b.Mirrors steps) (go : b.Goes step b') :
    ((Calls.finalizers (steps ++ [step])).map Prod.fst).Nodup :=
  Calls.nodup_finalizers_concat h.nodup fun n hn => go.chain?_ne ((h.closed n).mp hn)

theorem concat (h : b.Mirrors steps) (go : b.Goes step b') : b'.Mirrors (steps ++ [step]) where
  start := h.start_of_goes go
  ignore := h.ignore_of_goes go
  length := h.length_of_goes go
  chains _ := h.chains_of_goes go
  variations := h.variations_of_goes go
  closed := h.closed_of_goes go
  nodup := h.nodup_of_goes go

end Mirrors

/-- Calls without misuse make the builder that their histories tell. -/
theorem mirrors_run (h : (empty.run steps).errors = []) : (empty.run steps).Mirrors steps := by
  induction steps using List.reverseRecOn with
  | nil => exact mirrors_empty
  | append_singleton steps step ih =>
    rw [run_concat] at h ⊢
    have hgo : (empty.run steps).Goes step _ := goes_of_errors_eq_nil h
    have hfront : (empty.run steps).errors = [] := hgo.errors ▸ h
    exact (ih hfront).concat hgo

/-! ## Built grammars and histories -/

variable {g : Grammar}

theorem mirrors_of_build (h : (empty.run steps).build = .ok g) :
    (empty.run steps).Mirrors steps ∧ g = (empty.run steps).grammar :=
  ⟨mirrors_run (build_ok_iff.mp ⟨g, h⟩).1, (build_eq_ok_iff.mp h).2.symm⟩

/-- The variations of a rule follow the finalizers of its chains. -/
theorem variationsOf_of_build (h : (empty.run steps).build = .ok g) (rule : String) :
    g.variationsOf rule =
      ((Calls.finalizers steps).filter fun f => (Calls.opened steps)[f.1]? == some rule).map
        fun f => (Chain.ofCalls rule (Calls.madeOn steps f.1)).toVariation f.2 := by
  obtain ⟨hmirrors, rfl⟩ := mirrors_of_build h
  have hnamed : ∀ f ∈ Calls.finalizers steps, ∃ name, (Calls.opened steps)[f.1]? = some name := by
    intro f hf
    have hclosed := (hmirrors.closed f.1).mp (List.mem_map_of_mem hf)
    exact ⟨_, List.getElem?_eq_getElem (hmirrors.opened_iff.mp hclosed.opened)⟩
  have hrule : (Calls.finalizers steps).filter ((·.rule == rule) ∘ Calls.declared steps) =
      (Calls.finalizers steps).filter fun f => (Calls.opened steps)[f.1]? == some rule := by
    refine List.filter_congr fun f hf => ?_
    obtain ⟨name, hname⟩ := hnamed f hf
    simp [Calls.declared, Calls.chain, Chain.ofCalls, Chain.toVariation, hname]
  rw [Grammar.variationsOf, grammar, hmirrors.variations, List.filter_map, hrule]
  refine List.map_congr_left fun f hf => ?_
  have hname : (Calls.opened steps)[f.1]? = some rule := by simpa using (List.mem_filter.mp hf).2
  rw [Calls.declared, Calls.chain, hname, Option.getD_some]

/-- Every chain has exactly one finalizer. -/
theorem finalizers_of_build (h : (empty.run steps).build = .ok g) :
    ((Calls.finalizers steps).map Prod.fst).Perm (List.range (Calls.opened steps).length) := by
  obtain ⟨hmirrors, -⟩ := mirrors_of_build h
  obtain ⟨-, hclosed, -⟩ := build_ok_iff.mp ⟨g, h⟩
  refine (List.perm_ext_iff_of_nodup hmirrors.nodup List.nodup_range).mpr fun n => ?_
  rw [hmirrors.closed, List.mem_range, ← hmirrors.opened_iff]
  exact ⟨Closed.opened, hclosed n⟩

theorem start_of_build (h : (empty.run steps).build = .ok g) :
    (steps.filterMap Step.start?).getLast? = some g.start := by
  obtain ⟨hmirrors, rfl⟩ := mirrors_of_build h
  have hstart := hmirrors.start
  obtain ⟨-, -, hwf⟩ := build_ok_iff.mp ⟨_, h⟩
  cases hlast : (steps.filterMap Step.start?).getLast? with
  | none =>
    rw [hlast] at hstart
    exact absurd hstart hwf.start_nonempty
  | some rule =>
    rw [hlast] at hstart
    exact congrArg some hstart.symm

end Builder
end TokenGrammar
