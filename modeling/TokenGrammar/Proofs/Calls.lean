import Mathlib.Data.List.Basic
import TokenGrammar.Builder

/-!
# What calls do

A call on a builder is a misuse or it is in order, and this is seen from the call itself and from
what is known of its chain: whether it was opened, and whether it was closed since. A misuse adds one
error to the record; only an opening and a finalizer do something to the chains besides. A call that
is in order records nothing: it opens a chain, changes one chain that is open, closes it and commits
its variation, or changes what belongs to no chain.

What a call does is said here once, and everything about sequences of calls is derived from it.

## Main definitions

* `Part.Rejected`, `Part.RejectedAsTrivia`: the parts that spoil a call.
* `Strategy.Invalid`: the strategies that spoil a finalizer.
* `Step.Misused`: misuse, for what is known of the chains.
* `Step.Acts`, `Step.Moves`: what a call in order makes of its chain and of all chains, and what it
  commits.
* `Builder.Refuses`, `Builder.Goes`: the two ways of a call, and `Builder.Outcome` where they lead.
-/
namespace TokenGrammar

/-! ## Parts -/

/-- A part that is no content: malformed shorthand, a choice that carries a fault, or a value or an
item of any other type. -/
def Part.Rejected : Part → Prop
  | .value (.text s) => ∃ e, Atom.read s = .error e
  | .value _ => True
  | .item (.either e) => e.fault ≠ none
  | .item (.foreign _ _) => True
  | .item _ => False

/-- A part that may not stand in an ignore set: anything but an atom for tokens. -/
def Part.RejectedAsTrivia : Part → Prop
  | .value (.text s) => ∀ a, Atom.read s = .ok a → a.isRule = true
  | .item (.atom a) => a.isRule = true
  | _ => True

theorem Part.rejected_iff {p : Part} : p.Rejected ↔ ∃ e, p.toItem = .error e := by
  cases p with
  | value v =>
    cases v with
    | text s =>
      rw [Part.Rejected, Part.toItem]
      cases Atom.read s with
      | error e => simp [Except.map, Except.mapError]
      | ok a => simp [Except.map, Except.mapError]
    | _ => simp [Part.Rejected, Part.toItem]
  | item i =>
    cases i with
    | atom a => simp [Part.Rejected, Part.toItem]
    | loop kind body => simp [Part.Rejected, Part.toItem]
    | foreign type text => simp [Part.Rejected, Part.toItem]
    | either e =>
      rw [Part.Rejected, Part.toItem]
      cases e.fault with
      | none => simp
      | some fault => simp

/-- A part is rejected as trivia unless its item is an atom for tokens. -/
theorem Part.rejectedAsTrivia_iff {p : Part} :
    p.RejectedAsTrivia ↔ ∀ a, p.toItem = .ok (.atom a) → a.isRule = true := by
  cases p with
  | value v =>
    cases v with
    | text s =>
      rw [Part.RejectedAsTrivia, Part.toItem]
      cases Atom.read s with
      | error e => simp [Except.map, Except.mapError]
      | ok a => simp [Except.map, Except.mapError]
    | _ => simp [Part.RejectedAsTrivia, Part.toItem]
  | item i =>
    cases i with
    | atom a => simp [Part.RejectedAsTrivia, Part.toItem]
    | loop kind body => simp [Part.RejectedAsTrivia, Part.toItem]
    | foreign type text => simp [Part.RejectedAsTrivia, Part.toItem]
    | either e =>
      rw [Part.toItem]
      cases e.fault with
      | none => simp [Part.RejectedAsTrivia]
      | some fault => simp [Part.RejectedAsTrivia]

/-- One rejected part spoils a whole list of parts, and nothing else does. -/
theorem Content.ofParts_eq_error_iff {ps : List Part} :
    (∃ e, Content.ofParts ps = .error e) ↔ ∃ p ∈ ps, p.Rejected := by
  induction ps with
  | nil => exact ⟨nofun, nofun⟩
  | cons p ps ih =>
    rw [Content.ofParts, List.exists_mem_cons_iff, ← ih, Part.rejected_iff]
    cases p.toItem with
    | error e => exact ⟨fun _ => .inl ⟨e, rfl⟩, fun _ => ⟨e, rfl⟩⟩
    | ok i =>
      cases Content.ofParts ps with
      | error e => exact ⟨fun _ => .inr ⟨e, rfl⟩, fun _ => ⟨e, rfl⟩⟩
      | ok content => exact ⟨nofun, nofun⟩

theorem IgnoreSet.ofItems_cons_eq_error_iff {i : Item} {rest : Content} :
    (∃ e, IgnoreSet.ofItems (i :: rest) = .error e) ↔
      (∀ a, i = .atom a → a.isRule = true) ∨ ∃ e, IgnoreSet.ofItems rest = .error e := by
  cases i with
  | either e => exact ⟨fun _ => .inl nofun, fun _ => ⟨_, rfl⟩⟩
  | loop kind body => exact ⟨fun _ => .inl nofun, fun _ => ⟨_, rfl⟩⟩
  | foreign type text => exact ⟨fun _ => .inl nofun, fun _ => ⟨_, rfl⟩⟩
  | atom a =>
    rw [IgnoreSet.ofItems]
    cases ha : a.isRule with
    | true => exact ⟨fun _ => .inl fun _ h => Item.atom.inj h ▸ ha, fun _ => ⟨_, rfl⟩⟩
    | false =>
      have hne : ¬ ∀ a', Item.atom a = .atom a' → a'.isRule = true :=
        fun h => Bool.false_ne_true (ha.symm.trans (h a rfl))
      cases IgnoreSet.ofItems rest with
      | error e => exact ⟨fun _ => .inr ⟨e, rfl⟩, fun _ => ⟨e, rfl⟩⟩
      | ok set => exact ⟨nofun, fun h => h.elim (absurd · hne) nofun⟩

/-- One part that is no atom for tokens spoils a whole ignore set, and nothing else does. -/
theorem IgnoreSet.ofParts_eq_error_iff {ps : List Part} :
    (∃ e, IgnoreSet.ofParts ps = .error e) ↔ ∃ p ∈ ps, p.RejectedAsTrivia := by
  induction ps with
  | nil => exact ⟨nofun, nofun⟩
  | cons p ps ih =>
    rw [List.exists_mem_cons_iff, ← ih, Part.rejectedAsTrivia_iff, IgnoreSet.ofParts,
      IgnoreSet.ofParts, Content.ofParts]
    cases p.toItem with
    | error e => exact ⟨fun _ => .inl nofun, fun _ => ⟨_, rfl⟩⟩
    | ok i =>
      cases Content.ofParts ps with
      | error e => exact ⟨fun _ => .inr ⟨_, rfl⟩, fun _ => ⟨_, rfl⟩⟩
      | ok content =>
        simp only [Except.ok.injEq]
        exact IgnoreSet.ofItems_cons_eq_error_iff

/-! ## Strategies -/

/-- A strategy that may not finalize a chain: a missing function, a negative index, or a constructor
that is no function with the right results. -/
def Strategy.Invalid : Strategy → Prop
  | .pass => False
  | .select index => index < 0
  | .transform f => f = none
  | .construct (.function signature _) => signature.isConstructor = false
  | .construct _ => True

theorem Strategy.invalid_iff {s : Strategy} : s.Invalid ↔ s.fault? ≠ none := by
  cases s with
  | pass => exact ⟨nofun, fun h => h rfl⟩
  | select index => simp [Strategy.Invalid, Strategy.fault?]
  | transform f => simp [Strategy.Invalid, Strategy.fault?]
  | construct c =>
    cases c with
    | function signature body => simp [Strategy.Invalid, Strategy.fault?, Constructor.fault?]
    | _ => simp [Strategy.Invalid, Strategy.fault?, Constructor.fault?]

/-! ## Misuse -/

/-- The chain that a call is made on, if it is made on one. -/
def Step.chain? : Step → Option Nat
  | .extend n _ _ | .ignoring n _ | .preventRollback n | .finish n _ => some n
  | .rule _ | .ignoreGlobally _ | .startFrom _ => none

/-- Whether a call is a misuse, where it is known which chains were opened and which of them were
closed since. There is nothing to misuse in a chain that was never opened. -/
def Step.Misused (opened closed : Nat → Prop) : Step → Prop
  | .rule name => name = ""
  | .extend n _ parts => opened n ∧ (closed n ∨ ∃ p ∈ parts, p.Rejected)
  | .ignoring n parts => opened n ∧ (closed n ∨ ∃ p ∈ parts, p.RejectedAsTrivia)
  | .preventRollback n => opened n ∧ closed n
  | .finish n strategy => opened n ∧ (closed n ∨ ∀ s, strategy = some s → s.Invalid)
  | .ignoreGlobally parts => ∃ p ∈ parts, p.RejectedAsTrivia
  | .startFrom _ => False

/-- The chain after its finalizer. -/
def Chain.close (c : Chain) : Chain := { c with finalized := true }

/-- What a misuse does to the chains: an opening still opens a chain and a finalizer still closes
one, and everything else leaves them alone. -/
def Step.touch : Step → List Chain → List Chain
  | .rule name, chains => chains ++ [.fresh name]
  | .finish n _, chains => chains.modify n Chain.close
  | _, chains => chains

namespace Builder

variable {b b' : Builder} {step : Step} {n : Nat} {c : Chain}

/-- Whether a chain was opened. -/
def Opened (b : Builder) (n : Nat) : Prop := n < b.chains.length

/-- Whether a chain was closed. -/
def Closed (b : Builder) (n : Nat) : Prop := ∃ c, b.chains[n]? = some c ∧ c.finalized = true

/-- The calls that are a misuse in the state of a builder. -/
def Refuses (b : Builder) (step : Step) : Prop := step.Misused b.Opened b.Closed

/-- The builder after a misuse: an error more, and what the call does to the chains all the same. -/
def spoilt (b : Builder) (step : Step) (e : ConfigError) : Builder :=
  { b with errors := b.errors ++ [e], chains := step.touch b.chains }

theorem opened_iff : b.Opened n ↔ ∃ c, b.chains[n]? = some c :=
  ⟨fun h => ⟨_, List.getElem?_eq_getElem h⟩, fun ⟨_, h⟩ => (List.getElem?_eq_some_iff.mp h).1⟩

theorem Closed.opened (h : b.Closed n) : b.Opened n :=
  opened_iff.mpr (h.imp fun _ => And.left)

theorem closed_iff (hc : b.chains[n]? = some c) : b.Closed n ↔ c.finalized = true := by
  simp [Closed, hc]

end Builder

/-! ## Calls in order -/

/-- What a call makes of the chain that it is made on, and the variations that it commits. -/
inductive Step.Acts : Step → Chain → Chain → List Variation → Prop
  | extend {n : Nat} {extension : Extension} {parts : List Part} {c : Chain} {content : Content}
      (read : Content.ofParts parts = .ok content) :
      Acts (.extend n extension parts) c
        { c with content := c.content ++ extension.wrap content } []
  | ignoring {n : Nat} {parts : List Part} {c : Chain} {set : IgnoreSet}
      (read : IgnoreSet.ofParts parts = .ok set) :
      Acts (.ignoring n parts) c { c with ignore := some (c.ignore.getD [] ++ set) } []
  | preventRollback {n : Nat} {c : Chain} :
      Acts (.preventRollback n) c { c with preventRollback := true } []
  | finish {n : Nat} {s : Strategy} {c : Chain} (usable : s.fault? = none) :
      Acts (.finish n (some s)) c c.close [c.toVariation s]

/-- What a call makes of the chains, and the variations that it commits: it opens a chain, or changes
an open one, or passes because its chain was never opened. -/
inductive Step.Moves (chains : List Chain) : Step → List Chain → List Variation → Prop
  | opens {name : String} (named : name ≠ "") :
      Moves chains (.rule name) (chains ++ [.fresh name]) []
  | passes {step : Step} {n : Nat} (on : step.chain? = some n) (unopened : chains.length ≤ n) :
      Moves chains step chains []
  | acts {step : Step} {n : Nat} {c c' : Chain} {vs : List Variation} (on : step.chain? = some n)
      (has : chains[n]? = some c) (unclosed : c.finalized = false) (act : step.Acts c c' vs) :
      Moves chains step (chains.set n c') vs

namespace Builder

/-- What a call does that is no misuse. -/
inductive Goes (b : Builder) : Step → Builder → Prop
  | moves {step : Step} {chains : List Chain} {vs : List Variation}
      (move : step.Moves b.chains chains vs) :
      Goes b step { b with chains := chains, variations := b.variations ++ vs }
  | ignores {parts : List Part} {set : IgnoreSet} (read : IgnoreSet.ofParts parts = .ok set) :
      Goes b (.ignoreGlobally parts) { b with ignore := b.ignore ++ set }
  | starts {rule : String} : Goes b (.startFrom rule) { b with start := rule }

variable {b b' : Builder} {step : Step} {n : Nat} {c : Chain}

theorem Goes.errors (h : b.Goes step b') : b'.errors = b.errors := by
  cases h <;> rfl

theorem Goes.changes {c' : Chain} (on : step.chain? = some n) (has : b.chains[n]? = some c)
    (unclosed : c.finalized = false) (act : step.Acts c c' []) : b.Goes step (b.setChain n c') := by
  have h : b.Goes step _ := .moves (.acts on has unclosed act)
  rwa [List.append_nil] at h

/-! ## Every call goes one of the two ways -/

theorem onOpen_of_unclosed {operation : Operation} {change : Chain → Builder}
    (has : b.chains[n]? = some c) (unclosed : c.finalized = false) :
    b.onOpen n operation change = change c := by
  rw [onOpen, has]
  simp [unclosed]

theorem apply_of_unopened (on : step.chain? = some n) (h : b.chains[n]? = none) :
    b.apply step = b := by
  cases step with
  | rule _ | ignoreGlobally _ | startFrom _ => cases on
  | extend n' _ _ | ignoring n' _ | preventRollback n' =>
    cases on
    simp only [apply, extend, ignoring, preventRollback, onOpen, h]
  | finish n' _ =>
    cases on
    simp only [apply, finish, h]

/-- A call on a closed chain changes nothing but the record. -/
theorem apply_of_closed (on : step.chain? = some n) (has : b.chains[n]? = some c)
    (closed : c.finalized = true) : ∃ e, b.apply step = { b with errors := b.errors ++ [e] } := by
  cases step with
  | rule _ | ignoreGlobally _ | startFrom _ => cases on
  | extend n' _ _ | ignoring n' _ | preventRollback n' =>
    cases on
    simp only [apply, extend, ignoring, preventRollback, onOpen, has, closed, if_true]
    exact ⟨_, rfl⟩
  | finish n' _ =>
    cases on
    simp only [apply, finish, has, closed, if_true]
    exact ⟨_, rfl⟩

/-- Closing a chain that is closed changes nothing. -/
theorem touch_of_closed (on : step.chain? = some n) (has : b.chains[n]? = some c)
    (closed : c.finalized = true) : step.touch b.chains = b.chains := by
  cases step with
  | rule _ => cases on
  | finish n' _ =>
    cases on
    have hc : c.close = c := by
      rw [Chain.close, ← closed]
    refine List.ext_getElem? fun m => ?_
    rw [Step.touch, List.getElem?_modify]
    split
    · next h => simp [← h, has, hc]
    · simp
  | _ => rfl

theorem refuses_of_closed (on : step.chain? = some n) (h : b.Closed n) : b.Refuses step := by
  cases step with
  | rule _ | ignoreGlobally _ | startFrom _ => cases on
  | extend n' _ _ | ignoring n' _ | finish n' _ =>
    cases on
    exact ⟨h.opened, .inl h⟩
  | preventRollback n' =>
    cases on
    exact ⟨h.opened, h⟩

theorem not_refuses_of_unopened (on : step.chain? = some n) (h : ¬ b.Opened n) :
    ¬ b.Refuses step := by
  cases step with
  | rule _ | ignoreGlobally _ | startFrom _ => cases on
  | extend n' _ _ | ignoring n' _ | preventRollback n' | finish n' _ =>
    cases on
    exact fun hrefuses => h hrefuses.1

/-- What a call leads to: a misuse is refused, and any other call goes. -/
inductive Outcome (b : Builder) (step : Step) : Builder → Prop
  | refused (e : ConfigError) (misuse : b.Refuses step) : Outcome b step (b.spoilt step e)
  | goes {b' : Builder} (proper : ¬ b.Refuses step) (go : b.Goes step b') : Outcome b step b'

/-- A call on a chain is decided by the state of the chain, unless the chain is open. -/
theorem outcome_on_chain (on : step.chain? = some n)
    (hopen : ∀ c, b.chains[n]? = some c → c.finalized = false → b.Opened n → ¬ b.Closed n →
      b.Outcome step (b.apply step)) : b.Outcome step (b.apply step) := by
  cases has : b.chains[n]? with
  | none =>
    have hlen : b.chains.length ≤ n := List.getElem?_eq_none_iff.mp has
    have hgo : b.Goes step _ := .moves (.passes on hlen)
    rw [List.append_nil] at hgo
    rw [apply_of_unopened on has]
    exact .goes (not_refuses_of_unopened on (Nat.not_lt.mpr hlen)) hgo
  | some c =>
    cases hf : c.finalized with
    | true =>
      obtain ⟨e, he⟩ := apply_of_closed on has hf
      have hout : b.Outcome step _ := .refused e (refuses_of_closed on ⟨c, has, hf⟩)
      rwa [spoilt, touch_of_closed on has hf, ← he] at hout
    | false =>
      have hclosed : ¬ b.Closed n := fun h =>
        Bool.false_ne_true (hf.symm.trans ((closed_iff has).mp h))
      exact hopen c has hf (opened_iff.mpr ⟨c, has⟩) hclosed

theorem outcome_rule (b : Builder) (name : String) :
    b.Outcome (.rule name) (b.openChain name) := by
  by_cases hname : name = ""
  · have heq : b.openChain name = b.spoilt (.rule name) ⟨"", .emptyRuleName⟩ := by
      rw [openChain, if_pos hname]
      rfl
    rw [heq]
    exact .refused _ hname
  · have hgo : b.Goes (.rule name) _ := .moves (.opens hname)
    rw [List.append_nil] at hgo
    rw [openChain, if_neg hname]
    exact .goes hname hgo

theorem outcome_extend (b : Builder) (n : Nat) (extension : Extension) (parts : List Part) :
    b.Outcome (.extend n extension parts) (b.apply (.extend n extension parts)) := by
  refine outcome_on_chain rfl fun c has hf hopen hclosed => ?_
  simp only [apply, extend, onOpen_of_unclosed has hf]
  cases read : Content.ofParts parts with
  | error e => exact .refused _ ⟨hopen, .inr (Content.ofParts_eq_error_iff.mp ⟨e, read⟩)⟩
  | ok content =>
    refine .goes ?_ (.changes rfl has hf (.extend read))
    rintro ⟨-, hc | hp⟩
    · exact hclosed hc
    · obtain ⟨e, he⟩ := Content.ofParts_eq_error_iff.mpr hp
      cases read.symm.trans he

theorem outcome_ignoring (b : Builder) (n : Nat) (parts : List Part) :
    b.Outcome (.ignoring n parts) (b.apply (.ignoring n parts)) := by
  refine outcome_on_chain rfl fun c has hf hopen hclosed => ?_
  simp only [apply, ignoring, onOpen_of_unclosed has hf]
  cases read : IgnoreSet.ofParts parts with
  | error e => exact .refused _ ⟨hopen, .inr (IgnoreSet.ofParts_eq_error_iff.mp ⟨e, read⟩)⟩
  | ok set =>
    refine .goes ?_ (.changes rfl has hf (.ignoring read))
    rintro ⟨-, hc | hp⟩
    · exact hclosed hc
    · obtain ⟨e, he⟩ := IgnoreSet.ofParts_eq_error_iff.mpr hp
      cases read.symm.trans he

/-- A finalizer closes its chain whatever the strategy, and commits if the strategy can be used. -/
theorem outcome_finish (b : Builder) (n : Nat) (strategy : Option Strategy) :
    b.Outcome (.finish n strategy) (b.apply (.finish n strategy)) := by
  refine outcome_on_chain rfl fun c has hf hopen hclosed => ?_
  have htouch : (Step.finish n strategy).touch b.chains = b.chains.set n c.close := by
    rw [Step.touch, List.modify_eq_set, has, Option.getD_some]
  simp only [apply, finish, has, hf, Bool.false_eq_true, if_false]
  cases strategy with
  | none =>
    have hout : b.Outcome (.finish n none) _ := .refused ⟨c.rule, .noStrategy⟩ ⟨hopen, .inr nofun⟩
    rwa [spoilt, htouch] at hout
  | some s =>
    dsimp only
    cases hs : s.fault? with
    | some fault =>
      have hinvalid : s.Invalid := Strategy.invalid_iff.mpr fun h => nomatch hs.symm.trans h
      have hout : b.Outcome (.finish n (some s)) _ :=
        .refused ⟨c.rule, .strategy fault⟩ ⟨hopen, .inr fun _ h => Option.some.inj h ▸ hinvalid⟩
      rwa [spoilt, htouch] at hout
    | none =>
      refine .goes ?_ (.moves (.acts rfl has hf (.finish hs)))
      rintro ⟨-, hc | hinvalid⟩
      · exact hclosed hc
      · exact Strategy.invalid_iff.mp (hinvalid s rfl) hs

theorem outcome_ignoreGlobally (b : Builder) (parts : List Part) :
    b.Outcome (.ignoreGlobally parts) (b.ignoreGlobally parts) := by
  rw [ignoreGlobally]
  cases read : IgnoreSet.ofParts parts with
  | error e => exact .refused _ (IgnoreSet.ofParts_eq_error_iff.mp ⟨e, read⟩)
  | ok set =>
    refine .goes (fun hp => ?_) (.ignores read)
    obtain ⟨e, he⟩ := IgnoreSet.ofParts_eq_error_iff.mpr hp
    cases read.symm.trans he

/-- **What a call leads to.** A misuse leaves an error and what it does to the chains all the same;
any other call goes. -/
theorem outcome_apply (b : Builder) (step : Step) : b.Outcome step (b.apply step) := by
  cases step with
  | rule name => exact b.outcome_rule name
  | extend n extension parts => exact b.outcome_extend n extension parts
  | ignoring n parts => exact b.outcome_ignoring n parts
  | preventRollback n =>
    refine outcome_on_chain rfl fun c has hf hopen hclosed => ?_
    simp only [apply, preventRollback, onOpen_of_unclosed has hf]
    exact .goes (fun h => hclosed h.2) (.changes rfl has hf .preventRollback)
  | finish n strategy => exact b.outcome_finish n strategy
  | ignoreGlobally parts => exact b.outcome_ignoreGlobally parts
  | startFrom rule => exact .goes id .starts

theorem apply_of_refuses (h : b.Refuses step) : ∃ e, b.apply step = b.spoilt step e := by
  have hout := b.outcome_apply step
  generalize b.apply step = b' at hout ⊢
  cases hout with
  | refused e _ => exact ⟨e, rfl⟩
  | goes proper _ => exact absurd h proper

theorem goes_of_not_refuses (h : ¬ b.Refuses step) : b.Goes step (b.apply step) := by
  have hout := b.outcome_apply step
  generalize b.apply step = b' at hout ⊢
  cases hout with
  | refused _ misuse => exact absurd misuse h
  | goes _ go => exact go

/-- A call that leaves the record empty is no misuse. -/
theorem not_refuses_of_errors_eq_nil (h : (b.apply step).errors = []) : ¬ b.Refuses step := by
  intro hrefuses
  obtain ⟨e, he⟩ := apply_of_refuses hrefuses
  rw [he] at h
  exact List.append_ne_nil_of_right_ne_nil _ (List.cons_ne_nil e []) h

theorem goes_of_errors_eq_nil (h : (b.apply step).errors = []) : b.Goes step (b.apply step) :=
  goes_of_not_refuses (not_refuses_of_errors_eq_nil h)

/-- A call goes in one way only. -/
theorem Goes.apply_eq (h : b.Goes step b') : b.apply step = b' := by
  cases h with
  | ignores read => simp only [apply, ignoreGlobally, read]
  | starts => rfl
  | moves move =>
    cases move with
    | opens named => rw [apply, openChain, if_neg named, List.append_nil]
    | passes on unopened =>
      rw [apply_of_unopened on (List.getElem?_eq_none unopened), List.append_nil]
    | acts on has unclosed act =>
      cases act with
      | extend read =>
        cases on
        simp only [apply, extend, onOpen_of_unclosed has unclosed, read, List.append_nil]
        rfl
      | ignoring read =>
        cases on
        simp only [apply, ignoring, onOpen_of_unclosed has unclosed, read, List.append_nil]
        rfl
      | preventRollback =>
        cases on
        simp only [apply, preventRollback, onOpen_of_unclosed has unclosed, List.append_nil]
        rfl
      | finish usable =>
        cases on
        simp only [apply, finish, has, unclosed, usable]
        rfl

end Builder
end TokenGrammar
