import Mathlib.Logic.Equiv.Basic
import TokenGrammar.Proofs.Histories

/-!
# Interleaved chains

Two neighbouring calls that concern different chains may change places: the grammar that is built
stays the same, unless both calls are finalizers of chains for the same rule. The two orders lead to
builders that differ in the numbers of the chains and in the order in which variations of different
rules were committed, and in nothing else; every later call keeps it so.

A chain is known by the number of its opening. Where two openings change places, their chains change
numbers, and the calls that follow are to be read with the new ones.

## Main definitions

* `Step.chainAt`: the chain that a call concerns, be it by its opening.
* `Step.rename`: a call with chains numbered anew.
* `Calls.numbering`: the numbers after two neighbouring calls changed places.
* `Calls.Rivals`: finalizers for the same rule.
* `Builder.Alike`: builders that differ in the numbers of chains and the order of commitments.
-/
namespace TokenGrammar

namespace Step

/-- The chain that a call concerns when `count` chains are there: the one that it is made on, or the
one that it opens. -/
def chainAt (count : Nat) : Step → Option Nat
  | .rule _ => some count
  | step => step.chain?

/-- A call with its chain numbered anew. -/
def rename (σ : Equiv.Perm Nat) : Step → Step
  | .extend n extension parts => .extend (σ n) extension parts
  | .ignoring n parts => .ignoring (σ n) parts
  | .preventRollback n => .preventRollback (σ n)
  | .finish n strategy => .finish (σ n) strategy
  | .rule name => .rule name
  | .ignoreGlobally parts => .ignoreGlobally parts
  | .startFrom name => .startFrom name

variable {σ : Equiv.Perm Nat} {step : Step} {n count : Nat}

theorem chain?_rename (on : step.chain? = some n) : (step.rename σ).chain? = some (σ n) := by
  cases step with
  | rule _ | ignoreGlobally _ | startFrom _ => cases on
  | extend _ _ _ | ignoring _ _ | preventRollback _ | finish _ _ =>
    cases on
    rfl

theorem chainAt_of_chain? (on : step.chain? = some n) : step.chainAt count = some n := by
  cases step with
  | rule _ => cases on
  | _ => exact on

theorem Acts.rename {c c' : Chain} {vs : List Variation} (act : step.Acts c c' vs) :
    (step.rename σ).Acts c c' vs := by
  cases act with
  | extend read => exact .extend read
  | ignoring read => exact .ignoring read
  | preventRollback => exact .preventRollback
  | finish usable => exact .finish usable

end Step

namespace Calls

/-- The numbers of the chains after the calls `x` and `y` changed places, when `count` chains were
opened before: two openings exchange their chains. -/
def numbering (count : Nat) : Step → Step → Equiv.Perm Nat
  | .rule _, .rule _ => Equiv.swap count (count + 1)
  | _, _ => Equiv.refl Nat

theorem numbering_eq_refl {count : Nat} {x y : Step} (h : ∀ a b, x = .rule a → y ≠ .rule b) :
    numbering count x y = Equiv.refl Nat := by
  rw [numbering]
  rintro a b rfl rfl
  exact h a b rfl rfl

/-- Whether two calls are finalizers of chains for the same rule. -/
def Rivals (steps : List Step) (x y : Step) : Prop :=
  ∃ rule n m s t, x = .finish n s ∧ y = .finish m t ∧
    (opened steps)[n]? = some rule ∧ (opened steps)[m]? = some rule

end Calls

/-- Whether a grammar is well formed is seen from its start rule and the variations of its rules. -/
theorem Grammar.WellFormed.of_variationsOf {g g' : Grammar} (hg : g.WellFormed)
    (hstart : g'.start = g.start) (hvs : ∀ rule, g'.variationsOf rule = g.variationsOf rule) :
    g'.WellFormed := by
  have hhas : ∀ rule, g'.has rule = g.has rule := by
    intro rule
    rw [Bool.eq_iff_iff, has_iff, has_iff, hvs]
  have hmem : ∀ v ∈ g'.variations, v ∈ g.variations := by
    intro v hv
    have hof : v ∈ g'.variationsOf v.rule := mem_variationsOf.mpr ⟨hv, rfl⟩
    rw [hvs] at hof
    exact (mem_variationsOf.mp hof).1
  constructor
  · rw [hstart]
    exact hg.start_nonempty
  · rw [hstart, hhas]
    exact hg.start_defined
  · exact fun v hv => hg.shaped v (hmem v hv)
  · intro v hv name hname
    rw [hhas]
    exact hg.refs_defined v (hmem v hv) name hname

/-! ## Calls on alike builders -/

namespace Builder

/-- Builders that differ only in the numbers of their chains and in the order in which variations of
different rules were committed. -/
structure Alike (σ : Equiv.Perm Nat) (b b' : Builder) : Prop where
  start : b'.start = b.start
  ignore : b'.ignore = b.ignore
  errors : b'.errors = b.errors
  length : b'.chains.length = b.chains.length
  fixed : ∀ n, b.chains.length ≤ n → σ n = n
  chains : ∀ n, b'.chains[σ n]? = b.chains[n]?
  variations : ∀ rule, b'.grammar.variationsOf rule = b.grammar.variationsOf rule

variable {σ : Equiv.Perm Nat} {b b' b₁ : Builder} {step : Step} {n : Nat}

theorem Alike.refl (b : Builder) : Alike (Equiv.refl Nat) b b where
  start := rfl
  ignore := rfl
  errors := rfl
  length := rfl
  fixed _ _ := rfl
  chains _ := rfl
  variations _ := rfl

/-- Calls that are not both openings change places without new numbers. -/
theorem Alike.same {count : Nat} {x y : Step} (b : Builder) (h : ∀ a b, x = .rule a → y ≠ .rule b) :
    Alike (Calls.numbering count x y) b b := by
  rw [Calls.numbering_eq_refl h]
  exact .refl b

namespace Alike

theorem opened_iff (h : Alike σ b b') : b'.Opened (σ n) ↔ b.Opened n := by
  rw [Builder.opened_iff, Builder.opened_iff, h.chains]

theorem chains_open (h : Alike σ b b') (c : Chain) (n : Nat) :
    (b'.chains ++ [c])[σ n]? = (b.chains ++ [c])[n]? := by
  by_cases hlt : n < b.chains.length
  · rw [List.getElem?_append_left (h.opened_iff.mpr hlt), List.getElem?_append_left hlt, h.chains]
  · have hle : b.chains.length ≤ n := Nat.not_lt.mp hlt
    rw [h.fixed n hle, List.getElem?_append_right hle,
      List.getElem?_append_right (h.length ▸ hle), h.length]

theorem chains_set (h : Alike σ b b') (n : Nat) (c : Chain) (m : Nat) :
    (b'.chains.set (σ n) c)[σ m]? = (b.chains.set n c)[m]? := by
  have hlt : σ n < b'.chains.length ↔ n < b.chains.length := h.opened_iff
  simp only [List.getElem?_set, h.chains, hlt, EmbeddingLike.apply_eq_iff_eq]

theorem variations_append (h : Alike σ b b') (vs : List Variation) (rule : String) :
    (b'.variations ++ vs).filter (·.rule == rule) = (b.variations ++ vs).filter (·.rule == rule) := by
  have hold : b'.variations.filter (·.rule == rule) = b.variations.filter (·.rule == rule) :=
    h.variations rule
  rw [List.filter_append, List.filter_append, hold]

theorem moves (h : Alike σ b b') {chains : List Chain} {vs : List Variation}
    (move : step.Moves b.chains chains vs) :
    ∃ b₁', b'.Goes (step.rename σ) b₁' ∧
      Alike σ { b with chains := chains, variations := b.variations ++ vs } b₁' := by
  cases move with
  | @opens name named =>
    refine ⟨_, .moves (.opens named), ?_⟩
    exact
      { h with
        length := by simp [h.length]
        fixed := fun n hn => h.fixed n (Nat.le_trans (by simp) hn)
        chains := h.chains_open _
        variations := h.variations_append [] }
  | @passes _ n on unopened =>
    have hn : b'.chains.length ≤ σ n := by
      rw [h.fixed n unopened, h.length]
      exact unopened
    refine ⟨_, .moves (.passes (Step.chain?_rename on) hn), ?_⟩
    exact { h with variations := h.variations_append [] }
  | @acts _ n c c' _ on has unclosed act =>
    have has' : b'.chains[σ n]? = some c := (h.chains n).trans has
    refine ⟨_, .moves (.acts (Step.chain?_rename on) has' unclosed act.rename), ?_⟩
    exact
      { h with
        length := by simp [h.length]
        fixed := fun n hn => h.fixed n (by simpa using hn)
        chains := h.chains_set n c'
        variations := h.variations_append vs }

theorem goes (h : Alike σ b b') (go : b.Goes step b₁) :
    ∃ b₁', b'.Goes (step.rename σ) b₁' ∧ Alike σ b₁ b₁' := by
  cases go with
  | moves move => exact h.moves move
  | ignores read => exact ⟨_, .ignores read, { h with ignore := by rw [h.ignore] }⟩
  | starts => exact ⟨_, .starts, { h with start := rfl }⟩

/-- Calls in order keep builders alike. -/
theorem run (h : Alike σ b b') {steps : List Step} (herrors : (b.run steps).errors = []) :
    Alike σ (b.run steps) (b'.run (steps.map (Step.rename σ))) := by
  induction steps generalizing b b' with
  | nil => exact h
  | cons step steps ih =>
    have hgo : b.Goes step (b.apply step) := goes_of_errors_eq_nil (errors_of_run herrors)
    obtain ⟨b₁', hgo', halike⟩ := h.goes hgo
    rw [List.map_cons, run_cons, run_cons, hgo'.apply_eq]
    exact ih halike herrors

/-- Alike builders give grammars with the same rules. -/
theorem build (h : Alike σ b b') {g : Grammar} (hbuild : b.build = .ok g) :
    ∃ g', b'.build = .ok g' ∧ g'.start = g.start ∧ g'.ignore = g.ignore ∧
      ∀ rule, g'.variationsOf rule = g.variationsOf rule := by
  obtain ⟨herrors, hclosed, hwf⟩ := build_ok_iff.mp ⟨g, hbuild⟩
  obtain rfl : b.grammar = g := (build_eq_ok_iff.mp hbuild).2
  have hclosed' : ∀ n, b'.Opened n → b'.Closed n := by
    intro n hn
    obtain ⟨m, rfl⟩ := σ.surjective n
    obtain ⟨c, has, hf⟩ := hclosed m (h.opened_iff.mp hn)
    exact ⟨c, (h.chains m).trans has, hf⟩
  have hwf' : b'.grammar.WellFormed := hwf.of_variationsOf h.start h.variations
  obtain ⟨g', hg'⟩ := build_ok_iff.mpr ⟨h.errors.trans herrors, hclosed', hwf'⟩
  obtain rfl : b'.grammar = g' := (build_eq_ok_iff.mp hg').2
  exact ⟨_, hg', h.start, h.ignore, h.variations⟩

end Alike
end Builder

/-! ## Neighbouring calls -/

namespace Step.Moves

variable {x y : Step} {cs cs₁ cs₂ : List Chain} {vs ws : List Variation}

theorem swap_opens {a : String} (named : a ≠ "") (hy : y.Moves (cs ++ [.fresh a]) cs₂ ws)
    (apart : y.chainAt (cs.length + 1) ≠ some cs.length) (hcall : ∀ b, y ≠ .rule b) :
    ∃ cs', y.Moves cs cs' ws ∧ (Step.rule a).Moves cs' cs₂ [] := by
  cases hy with
  | opens _ => exact absurd rfl (hcall _)
  | passes on unopened =>
    rw [List.length_append] at unopened
    exact ⟨cs, .passes on (Nat.le_of_succ_le unopened), .opens named⟩
  | @acts _ m c c' _ on has unclosed act =>
    have hne : m ≠ cs.length := fun heq => apart (heq ▸ chainAt_of_chain? on)
    have hlt : m < cs.length := by
      have hm : m < (cs ++ [Chain.fresh a]).length := (List.getElem?_eq_some_iff.mp has).1
      rw [List.length_append, List.length_singleton] at hm
      omega
    rw [List.getElem?_append_left hlt] at has
    rw [List.set_append_left _ _ hlt]
    exact ⟨cs.set m c', .acts on has unclosed act, .opens named⟩

theorem swap_passes {n : Nat} (on : x.chain? = some n) (unopened : cs.length ≤ n)
    (hy : y.Moves cs cs₂ ws) (apart : y.chainAt cs.length ≠ some n) :
    ∃ cs', y.Moves cs cs' ws ∧ x.Moves cs' cs₂ [] := by
  refine ⟨cs₂, hy, .passes on ?_⟩
  cases hy with
  | opens _ =>
    have hne : cs.length ≠ n := fun heq => apart (congrArg some heq)
    rw [List.length_append, List.length_singleton]
    omega
  | passes _ _ => exact unopened
  | acts _ _ _ _ => rwa [List.length_set]

theorem swap_acts {n : Nat} {c c' : Chain} (on : x.chain? = some n) (has : cs[n]? = some c)
    (unclosed : c.finalized = false) (act : x.Acts c c' vs) (hy : y.Moves (cs.set n c') cs₂ ws)
    (apart : y.chainAt cs.length ≠ some n) : ∃ cs', y.Moves cs cs' ws ∧ x.Moves cs' cs₂ vs := by
  have hlt : n < cs.length := (List.getElem?_eq_some_iff.mp has).1
  cases hy with
  | @opens b named =>
    have has' : (cs ++ [Chain.fresh b])[n]? = some c := by rw [List.getElem?_append_left hlt, has]
    rw [← List.set_append_left _ _ hlt]
    exact ⟨_, .opens named, .acts on has' unclosed act⟩
  | passes on' unopened' =>
    rw [List.length_set] at unopened'
    exact ⟨cs, .passes on' unopened', .acts on has unclosed act⟩
  | @acts _ m d d' _ on' has' unclosed' act' =>
    have hne : n ≠ m := fun heq => apart (heq ▸ chainAt_of_chain? on')
    rw [List.getElem?_set_ne hne] at has'
    have has'' : (cs.set m d')[n]? = some c := by rw [List.getElem?_set_ne hne.symm, has]
    rw [List.set_comm _ _ hne]
    exact ⟨_, .acts on' has' unclosed' act', .acts on has'' unclosed act⟩

/-- What two calls on different chains make of the chains does not depend on their order, unless
both open one. -/
theorem swap (hx : x.Moves cs cs₁ vs) (hy : y.Moves cs₁ cs₂ ws)
    (apart : x.chainAt cs.length ≠ y.chainAt cs₁.length)
    (hopen : ∀ a b, x = .rule a → y ≠ .rule b) :
    ∃ cs', y.Moves cs cs' ws ∧ x.Moves cs' cs₂ vs := by
  cases hx with
  | @opens a named =>
    rw [List.length_append] at apart
    exact swap_opens named hy apart.symm fun b => hopen a b rfl
  | passes on unopened =>
    rw [chainAt_of_chain? on] at apart
    exact swap_passes on unopened hy apart.symm
  | acts on has unclosed act =>
    rw [chainAt_of_chain? on, List.length_set] at apart
    exact swap_acts on has unclosed act hy apart.symm

/-- What is committed is a variation of the finalizer's chain. -/
theorem committed (move : x.Moves cs cs₁ vs) {v : Variation} (hv : v ∈ vs) :
    ∃ n s c, x = .finish n s ∧ cs[n]? = some c ∧ v.rule = c.rule := by
  cases move with
  | opens _ => cases hv
  | passes _ _ => cases hv
  | acts on has _ act =>
    cases act with
    | finish usable =>
      cases on
      obtain rfl := List.mem_singleton.mp hv
      exact ⟨_, _, _, rfl, has, rfl⟩
    | _ => cases hv

end Step.Moves

/-- The order in which variations of different rules are committed does not matter for any rule. -/
theorem filter_append_comm {vs ws : List Variation} (h : ∀ v ∈ vs, ∀ w ∈ ws, v.rule ≠ w.rule)
    (rule : String) :
    (vs ++ ws).filter (·.rule == rule) = (ws ++ vs).filter (·.rule == rule) := by
  rw [List.filter_append, List.filter_append]
  by_cases hvs : ∃ v ∈ vs, v.rule = rule
  · obtain ⟨v, hv, rfl⟩ := hvs
    have hws : ws.filter (·.rule == v.rule) = [] := by
      refine List.filter_eq_nil_iff.mpr fun w hw => ?_
      simpa using (h v hv w hw).symm
    rw [hws, List.append_nil, List.nil_append]
  · have hnil : vs.filter (·.rule == rule) = [] := by
      refine List.filter_eq_nil_iff.mpr fun v hv => ?_
      simpa using fun hrule => hvs ⟨v, hv, hrule⟩
    rw [hnil, List.append_nil, List.nil_append]

namespace Builder

variable {b b₁ b₂ : Builder} {x y : Step}

/-- Whether two calls are finalizers of chains that the builder holds for the same rule. -/
def Rivals (b : Builder) (x y : Step) : Prop :=
  ∃ n m s t c d, x = .finish n s ∧ y = .finish m t ∧ b.chains[n]? = some c ∧
    b.chains[m]? = some d ∧ c.rule = d.rule

/-- Two openings exchange the numbers of their chains. -/
theorem getElem?_swap (cs : List Chain) (c d : Chain) (n : Nat) :
    (cs ++ [c] ++ [d])[Equiv.swap cs.length (cs.length + 1) n]? = (cs ++ [d] ++ [c])[n]? := by
  rw [List.append_assoc, List.append_assoc]
  by_cases hlt : n < cs.length
  · rw [Equiv.swap_apply_of_ne_of_ne (by omega) (by omega), List.getElem?_append_left hlt,
      List.getElem?_append_left hlt]
  · obtain ⟨k, rfl⟩ := Nat.exists_eq_add_of_le (Nat.not_lt.mp hlt)
    match k with
    | 0 => simp
    | 1 => simp
    | k + 2 =>
      rw [Equiv.swap_apply_of_ne_of_ne (by omega) (by omega)]
      simp

theorem alike_openings (b : Builder) (c d : Chain) :
    Alike (Equiv.swap b.chains.length (b.chains.length + 1))
      { b with chains := b.chains ++ [c] ++ [d] } { b with chains := b.chains ++ [d] ++ [c] } where
  start := rfl
  ignore := rfl
  errors := rfl
  length := by simp
  fixed n hn := by
    simp only [List.length_append, List.length_singleton] at hn
    exact Equiv.swap_apply_of_ne_of_ne (by omega) (by omega)
  chains n := getElem?_swap b.chains d c n
  variations _ := rfl

theorem moves_swap {cs₁ cs₂ : List Chain} {vs ws : List Variation} (hx : x.Moves b.chains cs₁ vs)
    (hy : y.Moves cs₁ cs₂ ws) (apart : x.chainAt b.chains.length ≠ y.chainAt cs₁.length)
    (hrivals : ¬ b.Rivals x y) :
    ∃ b' b'', b.Goes y b' ∧ b'.Goes x b'' ∧
      Alike (Calls.numbering b.chains.length x y)
        { b with chains := cs₂, variations := b.variations ++ vs ++ ws } b'' := by
  -- Two openings are the only calls that lead to different chains, so they are taken apart.
  by_cases hopen : ∃ a b, x = .rule a ∧ y = .rule b
  · obtain ⟨a, a', rfl, rfl⟩ := hopen
    cases hx with
    | passes on _ | acts on _ _ _ => cases on
    | opens named =>
      cases hy with
      | passes on _ | acts on _ _ _ => cases on
      | opens named' =>
        refine ⟨_, _, .moves (.opens named'), .moves (.opens named), ?_⟩
        simp only [List.append_nil]
        exact b.alike_openings _ _
  · have hcalls : ∀ a b, x = .rule a → y ≠ .rule b := fun a b hxa hyb => hopen ⟨a, b, hxa, hyb⟩
    obtain ⟨cs', hy', hx'⟩ := hx.swap hy apart hcalls
    refine ⟨_, _, .moves hy', .moves hx', ?_⟩
    rw [Calls.numbering_eq_refl hcalls]
    have hdifferent : ∀ v ∈ vs, ∀ w ∈ ws, v.rule ≠ w.rule := by
      intro v hv w hw
      obtain ⟨n, s, c, hxn, hc, hvc⟩ := hx.committed hv
      obtain ⟨m, t, d, hym, hd, hwd⟩ := hy'.committed hw
      exact fun hrule => hrivals ⟨n, m, s, t, c, d, hxn, hym, hc, hd, hvc ▸ hwd ▸ hrule⟩
    refine { Alike.refl _ with variations := fun rule => ?_ }
    simp only [Grammar.variationsOf, grammar, List.append_assoc, List.filter_append b.variations]
    rw [filter_append_comm hdifferent]

/-- Neighbouring calls on different chains may change places, unless they commit variations of the
same rule. -/
theorem Goes.swap (hx : b.Goes x b₁) (hy : b₁.Goes y b₂)
    (apart : x.chainAt b.chains.length ≠ y.chainAt b₁.chains.length)
    (hrivals : ¬ b.Rivals x y) :
    ∃ b' b'', b.Goes y b' ∧ b'.Goes x b'' ∧
      Alike (Calls.numbering b.chains.length x y) b₂ b'' := by
  cases hx with
  | moves hmx =>
    cases hy with
    | moves hmy => exact moves_swap hmx hmy apart hrivals
    | ignores read => exact ⟨_, _, .ignores read, .moves hmx, .same _ fun _ _ _ => nofun⟩
    | starts => exact ⟨_, _, .starts, .moves hmx, .same _ fun _ _ _ => nofun⟩
  | ignores read =>
    cases hy with
    | moves hmy => exact ⟨_, _, .moves hmy, .ignores read, .same _ fun _ _ h => nomatch h⟩
    | ignores _ | starts => exact absurd rfl apart
  | starts =>
    cases hy with
    | moves hmy => exact ⟨_, _, .moves hmy, .starts, .same _ fun _ _ h => nomatch h⟩
    | ignores _ | starts => exact absurd rfl apart

/-! ## Faithful building -/

variable {steps : List Step} {g : Grammar}

/-- A chain is for the rule that it was opened for. -/
theorem Mirrors.rule_of_chain (h : b.Mirrors steps) {n : Nat} {c : Chain}
    (has : b.chains[n]? = some c) : (Calls.opened steps)[n]? = some c.rule := by
  have hn : n < (Calls.opened steps).length := h.opened_iff.mp (Builder.opened_iff.mpr ⟨c, has⟩)
  obtain rfl := Option.some.inj ((h.chains n hn).symm.trans has)
  simp [Calls.chain, Chain.ofCalls, List.getElem?_eq_getElem hn]

theorem Mirrors.rivals (h : b.Mirrors steps) (hrivals : b.Rivals x y) : Calls.Rivals steps x y := by
  obtain ⟨n, m, s, t, c, d, hx, hy, hc, hd, hrule⟩ := hrivals
  exact ⟨c.rule, n, m, s, t, hx, hy, h.rule_of_chain hc, hrule ▸ h.rule_of_chain hd⟩

/-- Neighbouring calls may change places. -/
theorem build_swap {front back : List Step}
    (h : (empty.run (front ++ x :: y :: back)).build = .ok g)
    (apart : x.chainAt (Calls.opened front).length ≠
      y.chainAt (Calls.opened (front ++ [x])).length)
    (hrivals : ¬ Calls.Rivals front x y) :
    ∃ g', (empty.run (front ++ y :: x ::
        back.map (Step.rename (Calls.numbering (Calls.opened front).length x y)))).build = .ok g' ∧
      g'.start = g.start ∧ g'.ignore = g.ignore ∧
      ∀ rule, g'.variationsOf rule = g.variationsOf rule := by
  have herrors := (build_ok_iff.mp ⟨g, h⟩).1
  rw [run_append, run_cons, run_cons] at h herrors
  -- None of the calls was a misuse.
  have hy : (((empty.run front).apply x).apply y).errors = [] := errors_of_run herrors
  have hgoy := goes_of_errors_eq_nil hy
  have hx : ((empty.run front).apply x).errors = [] := hgoy.errors ▸ hy
  have hgox := goes_of_errors_eq_nil hx
  have hfront : (empty.run front).errors = [] := hgox.errors ▸ hx
  rw [← length_chains_run, ← length_chains_run, run_concat] at apart
  obtain ⟨b', b'', hgoy', hgox', halike⟩ :=
    hgox.swap hgoy apart (mt (mirrors_run hfront).rivals hrivals)
  rw [length_chains_run] at halike
  -- From here on the builders stay alike.
  rw [run_append, run_cons, run_cons, hgoy'.apply_eq, hgox'.apply_eq]
  exact (halike.run herrors).build h

/-- **The builder is faithful to any interleaving of chains.** Where calls lead to a grammar, the
variations of a rule are those of its chains in the order of their finalizers, each chain having
exactly one; a variation has the items that the calls on its chain added, an ignore set of its own
exactly if a call on its chain gave it one, and then what these calls gave, and the flag exactly if a
call on its chain set it. The global ignore set collects all calls for it and the start rule is the
last one set. Two neighbouring calls that do not concern the same chain may change places, unless both
are finalizers for the same rule: the grammar has the same start rule, ignore set and rules. -/
theorem build_faithful (steps : List Step) (g : Grammar)
    (h : (empty.run steps).build = .ok g) :
    (∀ rule, g.variationsOf rule =
      ((Calls.finalizers steps).filter fun f => (Calls.opened steps)[f.1]? == some rule).map
        fun f =>
          { rule := rule
            content := (Calls.madeOn steps f.1).flatMap Step.added
            strategy := f.2
            ignore :=
              if (Calls.madeOn steps f.1).any Step.isIgnoring then
                some ((Calls.madeOn steps f.1).flatMap Step.ignored)
              else none
            preventRollback := (Calls.madeOn steps f.1).any Step.isPreventRollback }) ∧
    ((Calls.finalizers steps).map Prod.fst).Perm (List.range (Calls.opened steps).length) ∧
    g.ignore = steps.flatMap Step.ignoredGlobally ∧
    (steps.filterMap Step.start?).getLast? = some g.start ∧
    ∀ front x y back, steps = front ++ x :: y :: back →
      x.chainAt (Calls.opened front).length ≠ y.chainAt (Calls.opened (front ++ [x])).length →
      ¬ Calls.Rivals front x y →
      ∃ g', (empty.run (front ++ y :: x ::
          back.map (Step.rename (Calls.numbering (Calls.opened front).length x y)))).build = .ok g' ∧
        g'.start = g.start ∧ g'.ignore = g.ignore ∧
        ∀ rule, g'.variationsOf rule = g.variationsOf rule := by
  refine ⟨variationsOf_of_build h, finalizers_of_build h, ?_, start_of_build h, ?_⟩
  · obtain ⟨hmirrors, rfl⟩ := mirrors_of_build h
    exact hmirrors.ignore
  · rintro front x y back rfl apart hrivals
    exact build_swap h apart hrivals

/-- Calls on two chains that are in the making at the same time; the second one is closed first. -/
def plaitedCalls : List Step :=
  [.extend 1 .items [.shorthand "@INT"], .ignoring 1 [.shorthand "@NL"],
    .extend 0 .items [.shorthand "$item"],
    .extend 0 (.loop .block) [.shorthand "@COMMA&", .item (.atom (.rule "item"))],
    .finish 1 (some .pass), .preventRollback 0, .finish 0 (some (.select 1))]

/-- The grammar of the two chains. -/
def plaited : Grammar :=
  ⟨"pair", [], [⟨"item", [.atom (.token "INT")], .pass, some [.token "NL"], false⟩,
    ⟨"pair", [.atom (.rule "item"),
      .loop .block [.atom (Atom.token "COMMA").skipped, .atom (.rule "item")]], .select 1, none,
      true⟩]⟩

/-- The two openings change places, and their chains change numbers. -/
theorem build_faithful_plaited :
    (empty.run (.startFrom "pair" :: .rule "pair" :: .rule "item" :: plaitedCalls)).build =
        .ok plaited ∧
      ∃ g', (empty.run (.startFrom "pair" :: .rule "item" :: .rule "pair" ::
          plaitedCalls.map (Step.rename (Equiv.swap 0 1)))).build = .ok g' ∧
        ∀ rule, g'.variationsOf rule = plaited.variationsOf rule := by
  have hbuild : (empty.run
      ([.startFrom "pair"] ++ .rule "pair" :: .rule "item" :: plaitedCalls)).build =
    .ok plaited := by cbv
  have hrivals : ¬ Calls.Rivals [.startFrom "pair"] (.rule "pair") (.rule "item") := by
    rintro ⟨_, _, _, _, _, hfinish, -⟩
    cases hfinish
  obtain ⟨-, -, -, -, hswap⟩ := build_faithful _ plaited hbuild
  obtain ⟨g', hg', -, -, hrules⟩ := hswap _ _ _ plaitedCalls rfl (by decide) hrivals
  exact ⟨hbuild, g', hg', hrules⟩

end Builder
end TokenGrammar
